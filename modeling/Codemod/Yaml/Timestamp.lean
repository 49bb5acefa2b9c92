import Codemod.Yaml.Cursor
import Codemod.Datum
import Codemod.Text.Find

/-! Dates, and dates with a time of day. -/
namespace Codemod.Yaml

/-- The parts of a timestamp as they are written. -/
structure Timestamp where
  year : Nat
  month : Nat
  day : Nat
  /-- Hour, minute, second, the digits of the fraction, and the zone. -/
  time : Option (Nat × Nat × Nat × List Char × Option Int)

namespace Timestamp

def number (digits : List Char) : Nat := digits.foldl (fun n d => 10 * n + (d.toNat - 48)) 0

/-- A number of at least `least` and at most `most` digits, and what follows it. -/
def field? (least most : Nat) (cs : List Char) : Option (Nat × List Char) :=
  let digits := (cs.take most).takeWhile Char.isDigit
  if digits.length < least then none else some (number digits, cs.drop digits.length)

def mark? (c : Char) : List Char → Option (List Char)
  | [] => none
  | x :: rest => if x = c then some rest else none

/-- A zone, in minutes east. -/
def zone? (cs : List Char) : Option Int :=
  match cs with
  | ['Z'] => some 0
  | s :: rest =>
    if s == '+' || s == '-' then do
      let (hours, rest) ← field? 1 2 rest
      let (minutes, rest) ← if rest.isEmpty then some (0, []) else (mark? ':' rest).bind (field? 2 2)
      if rest.isEmpty then
        let offset : Int := 60 * hours + minutes
        some (if s == '-' then -offset else offset)
      else none
    else none
  | [] => none

def time? (cs : List Char) : Option (Nat × Nat × Nat × List Char × Option Int) := do
  let (hour, cs) ← field? 1 2 cs
  let (minute, cs) ← (mark? ':' cs).bind (field? 2 2)
  let (second, cs) ← (mark? ':' cs).bind (field? 2 2)
  let fraction := ((mark? '.' cs).map fun cs => cs.takeWhile Char.isDigit).getD []
  let cs := ((mark? '.' cs).map fun cs => cs.drop fraction.length).getD cs
  if cs.isEmpty then return (hour, minute, second, fraction, none)
  return (hour, minute, second, fraction, some (← zone? (cs.dropWhile isSpace)))

/-- A timestamp. A date without a time has two digits for the month and for the day. -/
def read? (cs : List Char) : Option Timestamp := do
  let date (least : Nat) : Option (Nat × Nat × Nat × List Char) := do
    let (year, cs) ← field? 4 4 cs
    let (month, cs) ← (mark? '-' cs).bind (field? least 2)
    let (day, cs) ← (mark? '-' cs).bind (field? least 2)
    return (year, month, day, cs)
  match date 2 with
  | some (year, month, day, []) => return ⟨year, month, day, none⟩
  | _ =>
    let (year, month, day, cs) ← date 1
    let clock ← match cs with
      | 'T' :: cs | 't' :: cs => some cs
      | c :: cs => if isSpace c then some (cs.dropWhile isSpace) else none
      | [] => none
    return ⟨year, month, day, some (← time? clock)⟩

def isLeap (year : Nat) : Bool := year % 4 == 0 && (year % 100 != 0 || year % 400 == 0)

def daysIn (year month : Nat) : Nat :=
  if month == 2 then (if isLeap year then 29 else 28)
  else if [4, 6, 9, 11].contains month then 30 else 31

def isValid (t : Timestamp) : Bool :=
  1 ≤ t.year && 1 ≤ t.month && t.month ≤ 12 && 1 ≤ t.day && t.day ≤ daysIn t.year t.month &&
    t.time.all fun (hour, minute, second, _, zone) =>
      hour < 24 && minute < 60 && second < 60 && zone.all fun z => z.natAbs < 24 * 60

def digits (width n : Nat) : String :=
  let ds := toString n
  String.ofList (List.replicate (width - ds.length) '0') ++ ds

/-- The first six digits of a fraction, as a number of millionths. -/
def millionths (fraction : List Char) : Nat :=
  let kept := fraction.take 6
  number (kept ++ List.replicate (6 - kept.length) '0')

def date (t : Timestamp) : String := s!"{digits 4 t.year}-{digits 2 t.month}-{digits 2 t.day}"

def plainZone (minutes : Int) : String :=
  let n := minutes.natAbs
  (if minutes < 0 then "-" else "+") ++ digits 2 (n / 60) ++ ":" ++ digits 2 (n % 60)

def plain (t : Timestamp) : String :=
  match t.time with
  | none => t.date
  | some (hour, minute, second, fraction, zone) =>
    let part := millionths fraction
    s!"{t.date} {digits 2 hour}:{digits 2 minute}:{digits 2 second}" ++
      (if part = 0 then "" else "." ++ digits 6 part) ++ (zone.map plainZone).getD ""

def shownZone (minutes : Int) : String :=
  if minutes = 0 then "datetime.timezone.utc"
  else
    let span := if minutes < 0 then s!"days=-1, seconds={86400 + 60 * minutes}"
      else s!"seconds={60 * minutes}"
    "datetime.timezone(datetime.timedelta(" ++ span ++ "))"

def shown (t : Timestamp) : String :=
  match t.time with
  | none => s!"datetime.date({t.year}, {t.month}, {t.day})"
  | some (hour, minute, second, fraction, zone) =>
    let part := millionths fraction
    let parts := [t.year, t.month, t.day, hour, minute] ++
      (if part = 0 then (if second = 0 then [] else [second]) else [second, part])
    "datetime.datetime(" ++ ", ".intercalate (parts.map toString ++
      (zone.map fun z => "tzinfo=" ++ shownZone z).toList) ++ ")"

def toDatum (t : Timestamp) : Datum := .other t.plain t.shown

end Timestamp
end Codemod.Yaml
