import NestedRegex.Decimal.Format
import NestedRegex.Json.Basic

namespace NestedRegex.Json

/-- How a document is laid out: without blanks, or with each item on a line of its own. -/
inductive Layout where
  | compact
  | pretty
  deriving DecidableEq

/-- A digit in base sixteen. -/
def hexDigit (n : Nat) : Char :=
  Nat.digitChar n

/-- A character as it stands between quotes. -/
def escaped (c : Char) : List Char :=
  match c with
  | '"' => ['\\', '"']
  | '\\' => ['\\', '\\']
  | '\x08' => ['\\', 'b']
  | '\x0c' => ['\\', 'f']
  | '\n' => ['\\', 'n']
  | '\r' => ['\\', 'r']
  | '\t' => ['\\', 't']
  | c =>
    if c.toNat < 0x20 then ['\\', 'u', '0', '0', hexDigit (c.toNat / 16), hexDigit (c.toNat % 16)]
    else [c]

def writeString (s : String) (after : List Char) : List Char :=
  '"' :: s.toList.flatMap escaped ++ '"' :: after

def writeNumber (n : JsonNumber) (after : List Char) : List Char :=
  match n with
  | .integer i => Decimal.intChars i ++ after
  | .float bits => Decimal.floatChars .json bits ++ after

/-- A new line with two spaces for each level, where the layout has lines. -/
def writeBreak (layout : Layout) (level : Nat) (after : List Char) : List Char :=
  match layout with
  | .compact => after
  | .pretty => '\n' :: List.replicate (2 * level) ' ' ++ after

/-- The mark between a name and its value. -/
def writeColon (layout : Layout) (after : List Char) : List Char :=
  match layout with
  | .compact => ':' :: after
  | .pretty => ':' :: ' ' :: after

mutual

/-- Write a document that stands at some level. -/
def write (layout : Layout) (level : Nat) (document : Json) (after : List Char) : List Char :=
  match document with
  | .null => 'n' :: 'u' :: 'l' :: 'l' :: after
  | .bool true => 't' :: 'r' :: 'u' :: 'e' :: after
  | .bool false => 'f' :: 'a' :: 'l' :: 's' :: 'e' :: after
  | .number n => writeNumber n after
  | .string s => writeString s after
  | .array [] => '[' :: ']' :: after
  | .array (x :: xs) =>
    '[' :: writeBreak layout (level + 1) (write layout (level + 1) x
      (writeMore layout (level + 1) xs (writeBreak layout level (']' :: after))))
  | .object [] => '\x7b' :: '\x7d' :: after
  | .object (x :: xs) =>
    '\x7b' :: writeBreak layout (level + 1) (writeField layout (level + 1) x
      (writeMoreFields layout (level + 1) xs (writeBreak layout level ('\x7d' :: after))))

/-- Write the items that follow the first one. -/
def writeMore (layout : Layout) (level : Nat) (items : List Json) (after : List Char) : List Char :=
  match items with
  | [] => after
  | x :: xs =>
    ',' :: writeBreak layout level (write layout level x (writeMore layout level xs after))

/-- Write a name and its value. -/
def writeField (layout : Layout) (level : Nat) (field : String × Json) (after : List Char) :
    List Char :=
  match field with
  | (name, v) => writeString name (writeColon layout (write layout level v after))

/-- Write the fields that follow the first one. -/
def writeMoreFields (layout : Layout) (level : Nat) (fields : List (String × Json))
    (after : List Char) : List Char :=
  match fields with
  | [] => after
  | x :: xs =>
    ',' :: writeBreak layout level
      (writeField layout level x (writeMoreFields layout level xs after))

end

/-- The text of a document. -/
def text (layout : Layout) (document : Json) : String :=
  String.ofList (write layout 0 document [])

end NestedRegex.Json
