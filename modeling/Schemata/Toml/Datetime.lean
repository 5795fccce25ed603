/-!
# TOML dates and times

A value may be a date, a time of day, or a date with a time. Its text is one normal form: a `T`
between date and time, and a fraction of a second without zeros at its end.
-/

namespace Schemata.Toml

structure Date where
  year : Nat
  month : Nat
  day : Nat
  deriving DecidableEq, Repr

/-- A time of day. Second 60 is a leap second. -/
structure Time where
  hour : Nat
  minute : Nat
  second : Nat
  nanosecond : Nat
  deriving DecidableEq, Repr

/-- How a time of day is ahead of universal time. -/
inductive Offset
  | universal
  | minutes (ahead : Int)
  deriving DecidableEq, Repr

/-- A date, a time of day, or both. -/
inductive Datetime
  | day (date : Date)
  | clock (time : Time)
  | moment (date : Date) (time : Time) (offset : Option Offset)
  deriving DecidableEq, Repr

/-! ### Text -/

/-- The digits of a number, with zeros before them where they are fewer than `count`. -/
def zeroPadded (count n : Nat) : List Char :=
  let digits := Nat.toDigits 10 n
  List.replicate (count - digits.length) '0' ++ digits

def Date.text (d : Date) : List Char :=
  zeroPadded 4 d.year ++ '-' :: zeroPadded 2 d.month ++ '-' :: zeroPadded 2 d.day

/-- The text of a fraction of a second, if there is one. -/
def fractionText (nanosecond : Nat) : List Char :=
  if nanosecond = 0 then []
  else '.' :: ((zeroPadded 9 nanosecond).reverse.dropWhile (· = '0')).reverse

def Time.text (t : Time) : List Char :=
  zeroPadded 2 t.hour ++ ':' :: zeroPadded 2 t.minute ++ ':' :: zeroPadded 2 t.second ++
    fractionText t.nanosecond

/-- The text of an offset. One of no minutes counts as ahead. -/
def Offset.text : Offset → List Char
  | .universal => ['Z']
  | .minutes ahead =>
    (if ahead < 0 then '-' else '+') :: zeroPadded 2 (ahead.natAbs / 60) ++
      ':' :: zeroPadded 2 (ahead.natAbs % 60)

def Datetime.text : Datetime → String
  | .day d => String.ofList d.text
  | .clock t => String.ofList t.text
  | .moment d t offset =>
    String.ofList (d.text ++ 'T' :: t.text ++ (offset.map Offset.text).getD [])

end Schemata.Toml
