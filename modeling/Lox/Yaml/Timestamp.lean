import Lox.Text

/-!
# Timestamps

A date has a year of four digits, a month and a day. A time of day can follow, after a `T` and with a
zone, or after spaces and without one.
-/

namespace Lox.Yaml

/-- A year has a twenty-ninth of February. -/
def isLeapYear (year : Nat) : Bool := year % 4 = 0 && (year % 100 ≠ 0 || year % 400 = 0)

def daysIn (year month : Nat) : Nat :=
  if month = 2 then if isLeapYear year then 29 else 28
  else if month = 4 || month = 6 || month = 9 || month = 11 then 30
  else 31

/-- A number of one or two digits, and the rest. -/
def shortNumber? : Text → Option (Nat × Text)
  | [] => none
  | a :: rest =>
    if Text.isDigit a then
      let digits := a :: (rest.take 1).takeWhile Text.isDigit
      some (Text.toNat digits, rest.drop (digits.length - 1))
    else none

/-- The rest after a character. -/
def after? (c : UInt8) : Text → Option Text
  | [] => none
  | b :: rest => if b = c then some rest else none

/-- The rest after a date. -/
def afterDate? (t : Text) : Option Text := do
  let digits := t.takeWhile Text.isDigit
  let year := Text.toNat digits
  let (month, rest) ← shortNumber? (← after? 45 (t.drop digits.length))
  let (day, rest) ← shortNumber? (← after? 45 rest)
  if digits.length = 4 && 1 ≤ month && month ≤ 12 && 1 ≤ day && day ≤ daysIn year month then rest
  else none

/-- The rest after a fraction of a second, which can be missing. -/
def afterFraction : Text → Text
  | mark :: d :: rest =>
    if (mark = 46 || mark = 44) && Text.isDigit d then rest.dropWhile Text.isDigit
    else mark :: d :: rest
  | t => t

/-- The rest after a time of day. -/
def afterTime? (t : Text) : Option Text := do
  let (hour, rest) ← shortNumber? t
  let (minute, rest) ← shortNumber? (← after? 58 rest)
  let (second, rest) ← shortNumber? (← after? 58 rest)
  if hour < 24 && minute < 60 && second < 60 then afterFraction rest else none

/-- A zone is a `Z`, or a sign with two digits for hours and for minutes. -/
def isZone : Text → Bool
  | [90] => true
  | [sign, h, h', 58, m, m'] =>
    (sign = 43 || sign = 45) && [h, h', m, m'].all Text.isDigit &&
      Text.toNat [h, h'] ≤ 24 && Text.toNat [m, m'] ≤ 60
  | _ => false

def isTimestamp (t : Text) : Bool :=
  match afterDate? t with
  | none => false
  | some [] => true
  | some (mark :: rest) =>
    if mark = 84 || mark = 116 then (afterTime? rest).any isZone
    else if mark = 32 then (afterTime? (rest.dropWhile (· = 32))).any List.isEmpty
    else false

end Lox.Yaml
