import TreeDatabase.Text.Trim

/-!
# Blanks

`isBlank` is the Unicode property White_Space. Trimming a text removes the blanks at its ends and
leaves those inside it.
-/

namespace TreeDatabase.Text

/-- The characters with the Unicode property White_Space. -/
def isBlank (c : Char) : Bool :=
  let n := c.toNat
  (0x9 ≤ n && n ≤ 0xd) || n == 0x20 || n == 0x85 || n == 0xa0 || n == 0x1680 ||
    (0x2000 ≤ n && n ≤ 0x200a) || n == 0x2028 || n == 0x2029 || n == 0x202f ||
    n == 0x205f || n == 0x3000

def trimChars (cs : List Char) : List Char := trimBy isBlank cs

def trim (s : String) : String := String.ofList (trimChars s.toList)

def trimEnd (s : String) : String := String.ofList (dropEndWhile isBlank s.toList)

def isBlankText (s : String) : Bool := s.toList.all isBlank

@[simp] theorem toList_trim (s : String) : (trim s).toList = trimChars s.toList := by
  simp [trim]

@[simp] theorem toList_trimEnd (s : String) :
    (trimEnd s).toList = dropEndWhile isBlank s.toList := by
  simp [trimEnd]

end TreeDatabase.Text
