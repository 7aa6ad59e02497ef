import Mathlib.Data.Finset.Basic
import Mathlib.Data.List.Sort
import Mathlib.Data.String.Basic

/-!
# Data — JSON values and claim text

Claim bodies are `serde_json` values. `Json` follows `serde_json::Value`: an object is the list
of its members in the order the map holds them, and a number is an unsigned 64-bit integer, a
negative 64-bit integer, or a float, which is kept by the text `serde_json` prints for it
(`FloatText`). The readers below are the ones the claim folds use (`as_str`, `as_u64`,
`as_array`, `as_object`, `get`, and the compact `to_string`), with the canonical form the store
keeps bodies in.
-/

namespace SmallTalk

/-- The greatest `u64`. -/
def u64Max : ℕ := 2 ^ 64 - 1

/-- `saturating_add` on `u64`. -/
def satAdd (a b : ℕ) : ℕ := min (a + b) u64Max

theorem le_satAdd {a b n : ℕ} (h : n ≤ a + b) (hn : n ≤ u64Max) : n ≤ satAdd a b :=
  le_min h hn

/-- `str::strip_prefix`. -/
def stripLeading (lead text : String) : Option String :=
  if lead.toList.isPrefixOf text.toList then
    some (String.ofList (text.toList.drop lead.toList.length))
  else none

/-- `str::starts_with`. -/
def startsWith (lead text : String) : Bool := lead.toList.isPrefixOf text.toList

/-- The characters of a printed number. -/
def isNumeric (c : Char) : Bool := c.isDigit || c == '-' || c == '+' || c == '.' || c == 'e'

/-- The text of a finite float: it always shows a point or an exponent, so it is never the text
of an integer. -/
structure FloatText where
  text : String
  numeric : text.toList.all isNumeric = true
  fractional : text.toList.any (fun c => c == '.' || c == 'e') = true
  deriving DecidableEq, Repr

/-- `serde_json::Number`. -/
inductive JsonNumber where
  | nat (n : ℕ)
  | neg (n : ℕ)
  | float (number : FloatText)
  deriving DecidableEq, Repr

/-- The text `serde_json` prints for a number; `neg n` is `-(n + 1)`. -/
def JsonNumber.text : JsonNumber → String
  | .nat n => toString n
  | .neg n => "-" ++ toString (n + 1)
  | .float number => number.text

/-- `serde_json::Value`. -/
inductive Json where
  | null
  | bool (b : Bool)
  | num (n : JsonNumber)
  | str (s : String)
  | arr (items : List Json)
  | obj (members : List (String × Json))
  deriving Repr

namespace Json

/-- `Value::as_str`. -/
def asStr : Json → Option String
  | .str s => some s
  | _ => none

/-- `Value::as_u64`. -/
def asU64 : Json → Option ℕ
  | .num (.nat n) => some n
  | _ => none

/-- `Value::as_array`. -/
def asArray : Json → Option (List Json)
  | .arr items => some items
  | _ => none

/-- `Value::as_object`. -/
def asObject : Json → Option (List (String × Json))
  | .obj members => some members
  | _ => none

/-- `Value::get` at a member name. -/
def get (name : String) : Json → Option Json
  | .obj members => members.lookup name
  | _ => none

/-- What `serde_json` prints for a character of a string. -/
def escapeChar (c : Char) : String :=
  match c.toNat with
  | 0x22 => "\x5c\x22"
  | 0x5c => "\x5c\x5c"
  | 0x08 => "\x5cb"
  | 0x09 => "\x5ct"
  | 0x0a => "\x5cn"
  | 0x0c => "\x5cf"
  | 0x0d => "\x5cr"
  | n =>
    -- The other control characters are printed by their code, in four hexadecimal digits.
    if n < 0x20 then
      "\x5cu00" ++ String.ofList [Nat.digitChar (n / 16), Nat.digitChar (n % 16)]
    else c.toString

def quote (s : String) : String :=
  "\x22" ++ String.join (s.toList.map escapeChar) ++ "\x22"

mutual

/-- `Value::to_string`: the compact text, members in the order of the map. -/
def text : Json → String
  | .null => "null"
  | .bool b => if b then "true" else "false"
  | .num n => n.text
  | .str s => quote s
  | .arr items => "[" ++ String.intercalate "," (itemTexts items) ++ "]"
  | .obj members => "\x7b" ++ String.intercalate "," (memberTexts members) ++ "\x7d"

def itemTexts : List Json → List String
  | [] => []
  | item :: items => text item :: itemTexts items

def memberTexts : List (String × Json) → List String
  | [] => []
  | (name, value) :: members => (quote name ++ ":" ++ text value) :: memberTexts members

end

mutual

/-- `canonical_json_value`: the members of every object sorted by name. -/
def canonical : Json → Json
  | .arr items => .arr (canonicalItems items)
  | .obj members => .obj ((canonicalMembers members).insertionSort fun a b => a.1 ≤ b.1)
  | value => value

def canonicalItems : List Json → List Json
  | [] => []
  | item :: items => canonical item :: canonicalItems items

def canonicalMembers : List (String × Json) → List (String × Json)
  | [] => []
  | (name, value) :: members => (name, canonical value) :: canonicalMembers members

end

end Json

end SmallTalk
