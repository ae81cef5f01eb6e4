import NestedRegex.Text.DefaultIgnorable
import NestedRegex.Text.GraphemeExtend
import NestedRegex.Text.Printable

namespace NestedRegex.Text

/-- The digits of a number in base sixteen, in lower case. -/
def hex (n : Nat) : List Char :=
  Nat.toDigits 16 n

/-- The two halfwidth voicing marks, which extend the character before them and yet take a place of
their own. -/
def isVoicingMark (c : Char) : Bool :=
  c = '\uff9e' || c = '\uff9f'

/-- The character would be seen by itself. -/
def isVisible (c : Char) : Bool :=
  isPrintable c && !isDefaultIgnorable c && (!isGraphemeExtend c || isVoicingMark c)

/-- A character as it stands between quotes. -/
def escaped (c : Char) : List Char :=
  match c with
  | '\x00' => ['\\', '0']
  | '\t' => ['\\', 't']
  | '\r' => ['\\', 'r']
  | '\n' => ['\\', 'n']
  | '"' => ['\\', '"']
  | '\\' => ['\\', '\\']
  | c =>
    if isVisible c then [c] else ['\\', 'u', '\x7b'] ++ hex c.toNat ++ ['\x7d']

/-- A text between quotes, such as `"a\n"`. -/
def quoted (s : String) : String :=
  String.ofList ('"' :: s.toList.flatMap escaped ++ ['"'])

example : quoted "a\"é\n\u0301" = "\"a\\\"é\\n\\u\x7b301\x7d\"" := by decide +kernel

/-- Texts in brackets, such as `[a, b]`. -/
def bracketed (texts : List String) : String :=
  "[" ++ ", ".intercalate texts ++ "]"

end NestedRegex.Text
