import TreeDatabase.Number.Hexadecimal
import TreeDatabase.Text.Printable

/-!
# Texts quoted for messages

A message shows a text between quotes, with an escape for each character that would not show as
itself: the quote, the backslash, the controls with a letter of their own, and every other
character that is not plain by its code point in lower case hexadecimal digits.
-/

namespace TreeDatabase.Text

/-- How one character is written between quotes of the kind `quote`. -/
def quotedChar (quote c : Char) : List Char :=
  if c = quote then ['\\', c]
  else
    match c with
    | '\\' => ['\\', '\\']
    | '\t' => ['\\', 't']
    | '\n' => ['\\', 'n']
    | '\r' => ['\\', 'r']
    | '\x00' => ['\\', '0']
    | _ => if isPlain c then [c] else ['\\', 'u', '\x7b'] ++ Number.hexDigits c.toNat ++ ['\x7d']

def quoted (s : String) : String :=
  String.ofList ('"' :: s.toList.flatMap (quotedChar '"') ++ ['"'])

def quotedSingle (c : Char) : String :=
  String.ofList ('\'' :: quotedChar '\'' c ++ ['\''])

end TreeDatabase.Text
