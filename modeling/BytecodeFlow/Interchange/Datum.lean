/-!
# Structured data

The data that values are exchanged as: numbers, texts, lists and records, as in JSON. The
readers `int?`, `word?` and so on accept one shape each.
-/

namespace BytecodeFlow

/-- A piece of structured data. A number is a mantissa with a count of decimal places, and is an
integer only if it was written without places. -/
inductive Datum where
  | null
  | bool (value : Bool)
  | number (mantissa : Int) (places : Nat)
  | text (value : String)
  | list (items : List Datum)
  | record (fields : List (String × Datum))
deriving Inhabited

namespace Datum

def ofInt (value : Int) : Datum := number value 0

/-- A number that may be missing. -/
def ofOption : Option Nat → Datum
  | some value => ofInt value
  | none => null

def int? : Datum → Option Int
  | number value 0 => some value
  | _ => none

/-- An unsigned 32-bit number. -/
def word? (d : Datum) : Option Nat :=
  d.int?.bind fun value => if 0 ≤ value ∧ value < 0x100000000 then some value.toNat else none

/-- An unsigned 32-bit number that may be null or missing. -/
def optionalWord? : Option Datum → Option (Option Nat)
  | none | some null => some none
  | some d => d.word?.map some

def text? : Datum → Option String
  | text value => some value
  | _ => none

def bool? : Datum → Option Bool
  | bool value => some value
  | _ => none

def record? : Datum → Option (List (String × Datum))
  | record fields => some fields
  | _ => none

end Datum

end BytecodeFlow
