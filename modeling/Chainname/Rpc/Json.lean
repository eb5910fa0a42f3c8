import Mathlib.Data.List.Basic

/-!
# JSON values and the texts of numbers

What a caller sends is a JSON value. Numbers are kept as they are written: an unsigned integer, a
negative one, or a float, whose bits nothing here looks at.

`fromStrRadix16` reads the hexadecimal digits of a 64-bit unsigned integer, with an optional `+`
before them.
-/

namespace Chainname

namespace Json

/-- A JSON number. -/
inductive Number where
  | posInt (n : ℕ)
  | negInt (n : Int)
  | float (bits : UInt64)
  deriving DecidableEq

/-- The number as an unsigned integer, if it is one. -/
def Number.asU64 : Number → Option ℕ
  | .posInt n => some n
  | _ => none

/-- A JSON value. The keys of an object are those of a map. -/
inductive Value where
  | null
  | bool (b : Bool)
  | number (n : Number)
  | string (s : String)
  | array (elements : List Value)
  | object (entries : List (String × Value))

namespace Value

/-- The value under a key: what is not an object has none. -/
def get (key : String) : Value → Option Value
  | .object entries => entries.lookup key
  | _ => none

/-- The text of a string. -/
def asStr : Value → Option String
  | .string s => some s
  | _ => none

end Value

/-- The value of a hexadecimal digit, in upper or lower case. -/
def hexDigit (c : Char) : Option ℕ :=
  if '0' ≤ c ∧ c ≤ '9' then some (c.toNat - 48)
  else if 'a' ≤ c ∧ c ≤ 'f' then some (c.toNat - 87)
  else if 'A' ≤ c ∧ c ≤ 'F' then some (c.toNat - 55)
  else none

/-- Digits after a value that has been read. A value that no longer fits ends the reading. -/
def readDigits : ℕ → List Char → Option ℕ
  | value, [] => some value
  | value, c :: rest =>
    match hexDigit c with
    | none => none
    | some digit =>
      if value * 16 + digit < 2 ^ 64 then readDigits (value * 16 + digit) rest else none

/-- `u64::from_str_radix` at sixteen. There has to be a digit. -/
def fromStrRadix16 : List Char → Option ℕ
  | [] => none
  | '+' :: [] => none
  | '+' :: digits => readDigits 0 digits
  | digits => readDigits 0 digits

/-- `trim_start_matches("0x")`, which drops the prefix as often as it is there. -/
def trimStart0x : List Char → List Char
  | '0' :: 'x' :: rest => trimStart0x rest
  | text => text

/-- A height in hexadecimal. -/
def parseHeight (text : String) : Option ℕ := fromStrRadix16 (trimStart0x text.toList)

example : parseHeight "0x1F" = some 31 := by decide

example : parseHeight "0x0x" = none := by decide

end Json

end Chainname
