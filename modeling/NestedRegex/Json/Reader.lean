import NestedRegex.Json.Numeral

namespace NestedRegex.Json

/-- What is read from the front of a text, and the rest of the text. -/
abbrev Reader (α : Type) := List Char → Option (α × List Char)

def isBlank (c : Char) : Bool :=
  c = ' ' || c = '\t' || c = '\n' || c = '\r'

def skipBlanks (cs : List Char) : List Char :=
  cs.dropWhile isBlank

/-- The digits at the front of a text; at least one. -/
def readDigits : Reader (List Char) := fun cs =>
  let digits := cs.takeWhile Char.isDigit
  if digits = [] then none else some (digits, cs.dropWhile Char.isDigit)

/-- Digits without a needless leading zero. -/
def readWhole : Reader (List Char) := fun cs => do
  let (digits, cs) ← readDigits cs
  if digits.head? = some '0' && 1 < digits.length then none else some (digits, cs)

/-- A point and digits, or nothing. -/
def readFraction : Reader (List Char)
  | '.' :: cs => readDigits cs
  | cs => some ([], cs)

/-- A sign, or nothing, which means plus. -/
def readSign : List Char → Bool × List Char
  | '+' :: cs => (false, cs)
  | '-' :: cs => (true, cs)
  | cs => (false, cs)

/-- A power of ten, or nothing. -/
def readPower : Reader (Option Int)
  | c :: cs =>
    if c = 'e' || c = 'E' then do
      let (negative, cs) := readSign cs
      let (digits, cs) ← readDigits cs
      let n : Nat := digits.foldl (fun n d => 10 * n + digitValue d) 0
      some (some (if negative then -(n : Int) else n), cs)
    else
      some (none, c :: cs)
  | [] => some (none, [])

/-- A number. -/
def readNumber : Reader JsonNumber := fun cs => do
  let (negative, cs) := match cs with
    | '-' :: cs => (true, cs)
    | cs => (false, cs)
  let (whole, cs) ← readWhole cs
  let (fraction, cs) ← readFraction cs
  let (power, cs) ← readPower cs
  let number ← (Numeral.mk negative whole fraction power).number?
  some (number, cs)

/-- The number of a digit in base sixteen, of either case. -/
def hexValue? (c : Char) : Option Nat :=
  if '0' ≤ c ∧ c ≤ '9' then some (c.toNat - '0'.toNat)
  else if 'a' ≤ c ∧ c ≤ 'f' then some (c.toNat - 'a'.toNat + 10)
  else if 'A' ≤ c ∧ c ≤ 'F' then some (c.toNat - 'A'.toNat + 10)
  else none

/-- Four digits in base sixteen. -/
def readUnit : Reader Nat
  | a :: b :: c :: d :: cs => do
    let high := (← hexValue? a) * 16 + (← hexValue? b)
    let low := (← hexValue? c) * 16 + (← hexValue? d)
    some (high * 256 + low, cs)
  | _ => none

/-- The character of a number escape. A character beyond the first 65536 is written as two
surrogates, and a surrogate by itself is none. -/
def readCodePoint : Reader Char := fun cs => do
  let (high, cs) ← readUnit cs
  if 0xdc00 ≤ high ∧ high ≤ 0xdfff then none
  else if 0xd800 ≤ high ∧ high ≤ 0xdbff then
    match cs with
    | '\\' :: 'u' :: cs =>
      let (low, cs) ← readUnit cs
      if 0xdc00 ≤ low ∧ low ≤ 0xdfff then
        some (Char.ofNat (0x10000 + (high - 0xd800) * 0x400 + (low - 0xdc00)), cs)
      else none
    | _ => none
  else some (Char.ofNat high, cs)

/-- The character of an escape, after its backslash. -/
def readEscape : Reader Char
  | '"' :: cs => some ('"', cs)
  | '\\' :: cs => some ('\\', cs)
  | '/' :: cs => some ('/', cs)
  | 'b' :: cs => some ('\x08', cs)
  | 'f' :: cs => some ('\x0c', cs)
  | 'n' :: cs => some ('\n', cs)
  | 'r' :: cs => some ('\r', cs)
  | 't' :: cs => some ('\t', cs)
  | 'u' :: cs => readCodePoint cs
  | _ => none

/-- The characters up to the closing quote, after those already read, in at most `turns` steps. -/
def readQuoted : Nat → List Char → Reader (List Char)
  | 0, _, _ => none
  | _, _, [] => none
  | turns + 1, before, c :: cs =>
    if c = '"' then some (before.reverse, cs)
    else if c = '\\' then do
      let (c, cs) ← readEscape cs
      readQuoted turns (c :: before) cs
    else if c.toNat < 0x20 then none
    else readQuoted turns (c :: before) cs

/-- A string, after its opening quote. -/
def readString : Reader String := fun cs => do
  let (chars, cs) ← readQuoted cs.length [] cs
  some (String.ofList chars, cs)

/-- The items that follow the first ones, each after a comma, up to the closing bracket. -/
def readMore (item : Reader α) (close : Char) : Nat → List α → Reader (List α)
  | 0, _, _ => none
  | turns + 1, before, cs =>
    match skipBlanks cs with
    | [] => none
    | c :: cs =>
      if c = close then some (before.reverse, cs)
      else if c = ',' then do
        let (x, cs) ← item (skipBlanks cs)
        readMore item close turns (x :: before) cs
      else none

/-- Items with commas between them, after the opening bracket. -/
def readItems (item : Reader α) (close : Char) : Reader (List α) := fun cs =>
  match skipBlanks cs with
  | [] => none
  | c :: cs =>
    if c = close then some ([], cs)
    else do
      let (x, cs) ← item (c :: cs)
      readMore item close cs.length [x] cs

/-- A name, a colon and a value. -/
def readField (value : Reader Json) : Reader (String × Json)
  | '"' :: cs => do
    let (name, cs) ← readString cs
    match skipBlanks cs with
    | ':' :: cs =>
      let (v, cs) ← value (skipBlanks cs)
      some ((name, v), cs)
    | _ => none
  | _ => none

/-- The rest of a word that stands for a document. -/
def readWord (word : List Char) (document : Json) : Reader Json := fun cs =>
  if word.isPrefixOf cs then some (document, cs.drop word.length) else none

/-- A value that is no array and no object, after its first character. -/
def readScalar (c : Char) : Reader Json := fun cs =>
  if c = '"' then do
    let (s, cs) ← readString cs
    some (.string s, cs)
  else if c = 'n' then readWord ['u', 'l', 'l'] .null cs
  else if c = 't' then readWord ['r', 'u', 'e'] (.bool true) cs
  else if c = 'f' then readWord ['a', 'l', 's', 'e'] (.bool false) cs
  else do
    let (n, cs) ← readNumber (c :: cs)
    some (.number n, cs)

/-- A value whose arrays and objects nest at most `depth` deep. -/
def readValue : Nat → Reader Json
  | _, [] => none
  | 0, c :: cs => readScalar c cs
  | depth + 1, c :: cs =>
    if c = '[' then do
      let (items, cs) ← readItems (readValue depth) ']' cs
      some (.array items, cs)
    else if c = '\x7b' then do
      let (fields, cs) ← readItems (readField (readValue depth)) '\x7d' cs
      some (.object fields, cs)
    else readScalar c cs

/-- The deepest nesting of arrays and objects that is read. -/
def maxDepth : Nat :=
  127

/-- The document that a whole text stands for. -/
def read? (text : String) : Option Json := do
  let (document, cs) ← readValue maxDepth (skipBlanks text.toList)
  if skipBlanks cs = [] then some document else none

end NestedRegex.Json
