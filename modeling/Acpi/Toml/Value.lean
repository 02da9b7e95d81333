/-!
# Values of the description format

Board descriptions are written in TOML.  A document is a table; a table maps keys to values in the
order in which they were written.
-/

namespace Acpi.Toml

/-- A day of the calendar. -/
structure Date where
  year : Nat
  month : Nat
  day : Nat
  deriving DecidableEq, Repr

/-- A time of day.  The fraction of a second is kept as its digits. -/
structure Time where
  hour : Nat
  minute : Nat
  second : Nat
  fraction : List Char
  deriving DecidableEq, Repr

/-- A date, a time of day, or both, the latter also with an offset from universal time in
minutes. -/
structure DateTime where
  date : Option Date
  time : Option Time
  offset : Option Int
  deriving DecidableEq, Repr

/-- A floating-point number as it is written. -/
inductive Decimal where
  /-- `digits · 10 ^ exponent`, with a sign. -/
  | finite (negative : Bool) (digits : Nat) (exponent : Int)
  | infinity (negative : Bool)
  | nan
  deriving DecidableEq, Repr

/-- A value. -/
inductive Value where
  | string (text : String)
  | integer (value : Int)
  | float (value : Decimal)
  | boolean (value : Bool)
  | dateTime (value : DateTime)
  | array (items : List Value)
  | table (entries : List (String × Value))
  deriving Inhabited

end Acpi.Toml
