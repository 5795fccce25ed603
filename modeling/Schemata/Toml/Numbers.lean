import Schemata.Toml.Strings
import Schemata.Toml.Value

/-!
# TOML numbers and dates

Integers fit 64 bits. Floats are checked only: one must not be too great for a double. A date must
be in the calendar and a time on the clock.
-/

namespace Schemata.Toml

/-- Takes digits, of which two may have one underscore between them. -/
def moreDigits (isDigit : Char → Bool) : List Char → List Char × List Char
  | '_' :: c :: cs =>
    if isDigit c then
      let r := moreDigits isDigit cs
      (c :: r.1, r.2)
    else ([], '_' :: c :: cs)
  | c :: cs =>
    if isDigit c then
      let r := moreDigits isDigit cs
      (c :: r.1, r.2)
    else ([], c :: cs)
  | [] => ([], [])

def someDigits (isDigit : Char → Bool) : Reader (List Char)
  | c :: cs =>
    if isDigit c then
      let r := moreDigits isDigit cs
      some (c :: r.1, r.2)
    else none
  | [] => none

def digitsValue (base : Nat) (digits : List Char) : Nat :=
  digits.foldl (fun n c => n * base + (hexDigit? c).getD 0) 0

/-- Takes a sign: whether it is a minus. -/
def signed : List Char → Bool × List Char
  | '-' :: s => (true, s)
  | '+' :: s => (false, s)
  | s => (false, s)

/-- The digits of a decimal number without leading zeros. -/
def decimalDigits : Reader (List Char)
  | '0' :: s => some (['0'], s)
  | s => someDigits Char.isDigit s

/-! ### Integers -/

def fitsInteger (n : Int) : Bool := -9223372036854775808 ≤ n && n < 9223372036854775808

def integerOf (n : Int) (rest : List Char) : Option (Value × List Char) :=
  if fitsInteger n then some (.integer n, rest) else none

/-- Reads an integer in the given base, after its mark. -/
def readBased (base : Nat) (isDigit : Char → Bool) : Reader Value := fun s => do
  let (digits, rest) ← someDigits isDigit s
  integerOf (digitsValue base digits) rest

def readInteger : Reader Value
  | '0' :: 'x' :: s => readBased 16 (fun c => (hexDigit? c).isSome) s
  | '0' :: 'o' :: s => readBased 8 (fun c => '0' ≤ c && c ≤ '7') s
  | '0' :: 'b' :: s => readBased 2 (fun c => c = '0' || c = '1') s
  | s => do
    let (negative, s) := signed s
    let (digits, rest) ← decimalDigits s
    let n : Int := digitsValue 10 digits
    integerOf (if negative then -n else n) rest

/-! ### Floats -/

/-- The least number that a double takes for infinity. -/
def doubleLimit : Nat := Nat.pow 2 1024 - Nat.pow 2 970

/-- Whether `mantissa * 10 ^ exponent` is too great for a double. -/
def exceedsDouble (mantissa : Nat) (exponent : Int) : Bool :=
  if mantissa = 0 then false
  else if exponent > 400 then true
  else if exponent ≥ 0 then decide (mantissa * Nat.pow 10 exponent.toNat ≥ doubleLimit)
  else if (Nat.toDigits 10 mantissa).length < (-exponent).toNat then false
  else decide (mantissa ≥ doubleLimit * Nat.pow 10 (-exponent).toNat)

def readExponent : Reader Int
  | c :: s =>
    if c = 'e' || c = 'E' then do
      let (negative, s) := signed s
      let (digits, rest) ← someDigits Char.isDigit s
      let n : Int := digitsValue 10 digits
      return (if negative then -n else n, rest)
    else none
  | [] => none

/-- Reads a decimal fraction, a power of ten, or both: the digits of the fraction and the power. -/
def readScale : Reader (List Char × Int)
  | '.' :: s => do
    let (fraction, rest) ← someDigits Char.isDigit s
    match readExponent rest with
    | some (e, rest) => return ((fraction, e), rest)
    | none => return ((fraction, 0), rest)
  | s => (readExponent s).map fun r => (([], r.1), r.2)

def readFloat : Reader Value := fun s =>
  let (negative, s) := signed s
  match s with
  | 'i' :: 'n' :: 'f' :: rest => some (.float, rest)
  | 'n' :: 'a' :: 'n' :: rest => some (.float, rest)
  | s => do
    let (whole, rest) ← decimalDigits s
    let ((fraction, e), rest) ← readScale rest
    let mantissa := digitsValue 10 (whole ++ fraction)
    if !negative && exceedsDouble mantissa (e - fraction.length) then none
    else some (.float, rest)

/-! ### Dates and times -/

/-- Reads a number of exactly so many digits. -/
def fixedDigits (count : Nat) : Reader Nat := fun s =>
  let digits := s.take count
  if digits.length = count && digits.all Char.isDigit then
    some (digitsValue 10 digits, s.drop count)
  else none

def twoDigits (least greatest : Nat) : Reader Nat := fun s => do
  let (n, rest) ← fixedDigits 2 s
  if least ≤ n ∧ n ≤ greatest then some (n, rest) else none

def mark (c : Char) : List Char → Option (List Char)
  | d :: s => if c = d then some s else none
  | [] => none

def daysOf (year month : Nat) : Nat :=
  if month = 2 then if year % 4 = 0 ∧ (year % 100 ≠ 0 ∨ year % 400 = 0) then 29 else 28
  else if month = 4 ∨ month = 6 ∨ month = 9 ∨ month = 11 then 30
  else 31

def readDate : Reader Date := fun s => do
  let (year, s) ← fixedDigits 4 s
  let s ← mark '-' s
  let (month, s) ← twoDigits 1 12 s
  let s ← mark '-' s
  let (day, s) ← twoDigits 1 (daysOf year month) s
  return (⟨year, month, day⟩, s)

/-- Reads a fraction of a second in nanoseconds, if there is one. What is finer is cut off. -/
def readFraction : Reader Nat
  | '.' :: s =>
    let digits := s.takeWhile Char.isDigit
    if digits.isEmpty then none
    else
      some (digitsValue 10 ((digits ++ List.replicate 9 '0').take 9), s.dropWhile Char.isDigit)
  | s => some (0, s)

def readTime : Reader Time := fun s => do
  let (hour, s) ← twoDigits 0 23 s
  let s ← mark ':' s
  let (minute, s) ← twoDigits 0 59 s
  let s ← mark ':' s
  let (second, s) ← twoDigits 0 60 s
  let (nanosecond, s) ← readFraction s
  return (⟨hour, minute, second, nanosecond⟩, s)

/-- Reads the distance to universal time. -/
def readOffset : Reader Offset
  | c :: s =>
    if c = 'Z' || c = 'z' then some (.universal, s)
    else if c = '+' || c = '-' then do
      let (hours, s) ← twoDigits 0 23 s
      let s ← mark ':' s
      let (minutes, s) ← twoDigits 0 59 s
      let distance : Int := hours * 60 + minutes
      return (.minutes (if c = '-' then -distance else distance), s)
    else none
  | [] => none

/-- Goes on after a date, with a time if there is one. -/
def readMoment (d : Date) (s : List Char) : Datetime × List Char :=
  match s with
  | c :: rest =>
    if c = 'T' || c = 't' || c = ' ' then
      match readTime rest with
      | some (t, rest) =>
        match readOffset rest with
        | some (offset, rest) => (.moment d t (some offset), rest)
        | none => (.moment d t none, rest)
      | none => (.day d, s)
    else (.day d, s)
  | [] => (.day d, s)

/-- Reads a date, a time or both. -/
def readDatetime : Reader Datetime := fun s =>
  match readDate s with
  | some (d, rest) => some (readMoment d rest)
  | none => (readTime s).map fun r => (.clock r.1, r.2)

def readNumber : Reader Value := fun s =>
  ((readDatetime s).map fun r => (.datetime r.1, r.2)).or ((readFloat s).or (readInteger s))

end Schemata.Toml
