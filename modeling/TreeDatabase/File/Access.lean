/-!
# Access to files

What is done with files, in a monad that has files. An operation that fails answers the reason.
-/

namespace TreeDatabase

class FileAccess (m : Type → Type) where
  readText : String → m (Except String String)
  writeText : String → String → m (Except String Unit)
  /-- Writes a text; a new file is for its owner only. -/
  writePrivateText : String → String → m (Except String Unit)
  /-- Gives a file another path, in the place of a file that is there. -/
  rename : String → String → m (Except String Unit)
  fileExists : String → m Bool
  /-- Makes a directory with the directories above it. -/
  makeDirectories : String → m (Except String Unit)

end TreeDatabase
