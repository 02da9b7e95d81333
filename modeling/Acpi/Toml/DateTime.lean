import Acpi.Toml.Text
import Acpi.Toml.Value

/-!
# Dates and times

A date, a time of day, or a date with a time behind a `T` or a blank, the latter optionally with an
offset from universal time.  Days are checked against the calendar; a second of 60 is a leap second.
-/

namespace Acpi.Toml.Reader

/-- A number of exactly `count` digits in a range. -/
def numberIn (count low high : Nat) : Reader Nat := do
  let value := numeral 10 (← digitsOf Char.isDigit count)
  if low ≤ value && value ≤ high then return value else failure

/-- The days of a month. -/
def daysIn (year month : Nat) : Nat :=
  if month = 2 then
    if year % 4 = 0 && (year % 100 != 0 || year % 400 = 0) then 29 else 28
  else if [4, 6, 9, 11].contains month then 30
  else 31

/-- A date. -/
def date : Reader Date := do
  let year ← numberIn 4 0 9999
  char '-'
  let month ← numberIn 2 1 12
  char '-'
  let day ← numberIn 2 1 (daysIn year month)
  return { year, month, day }

/-- A time of day. -/
def time : Reader Time := do
  let hour ← numberIn 2 0 23
  char ':'
  let minute ← numberIn 2 0 59
  char ':'
  let second ← numberIn 2 0 60
  let fraction ← optional do
    char '.'
    takeWhile1 Char.isDigit
  return { hour, minute, second, fraction := fraction.getD [] }

/-- An offset from universal time, in minutes. -/
def offset : Reader Int :=
  (do
    char 'Z' <|> char 'z'
    return 0) <|> (do
    let negative ← (do
      char '-'
      return true) <|> (do
      char '+'
      return false)
    let hour ← numberIn 2 0 23
    char ':'
    let minute ← numberIn 2 0 59
    let minutes : Int := 60 * hour + minute
    return if negative then -minutes else minutes)

/-- A date, a time, or both. -/
def dateTime : Reader DateTime :=
  (do
    let day ← date
    let clock ← optional do
      let _ ← charOf fun c => c == 'T' || c == 't' || c == ' '
      let time ← time
      return (time, ← optional offset)
    return { date := some day, time := clock.map (·.1), offset := clock.bind (·.2) }) <|> (do
    return { date := none, time := some (← time), offset := none })

end Acpi.Toml.Reader
