import StellaGo.Text.Decimal
import StellaGo.Toml.Quoted
import StellaGo.Toml.Value

/-! Numbers, dates and times of TOML, and the words `true` and `false`. Each reader gives what it read
and the text that follows. -/

namespace StellaGo.Toml

/-! ### Integers -/

/-- One or more digits, and between two of them at most one underscore; the underscores are dropped. -/
def digits? (isDigit : Char → Bool) : Text → Option (Text × Text)
  | [] => none
  | [c] => if isDigit c then some ([c], []) else none
  | c :: d :: rest =>
    if !isDigit c then none
    else if d == '_' then (digits? isDigit rest).map fun (more, after) => (c :: more, after)
    else if isDigit d then (digits? isDigit (d :: rest)).map fun (more, after) => (c :: more, after)
    else some ([c], d :: rest)

/-- Decimal digits without a leading zero. -/
def wholeDigits? : Text → Option (Text × Text)
  | '0' :: rest => some (['0'], rest)
  | t => digits? Char.isDigit t

/-- Whether a minus sign stands before a number, and what follows the sign. -/
def dropSign : Text → Bool × Text
  | '-' :: rest => (true, rest)
  | '+' :: rest => (false, rest)
  | t => (false, t)

/-- The number, if a signed word of 64 bits holds it. -/
def signedWord? (negative : Bool) (n : Nat) : Option Value :=
  if negative then if n ≤ Text.signBound then some (.integer (-n)) else none
  else if n < Text.signBound then some (.integer n) else none

/-- The value of a digit of a base up to sixteen. -/
def digitValue? (base : Nat) (c : Char) : Option Nat := (hexValue? c).filter (· < base)

/-- A number in digits of another base. -/
def based? (base : Nat) (t : Text) : Option (Value × Text) := do
  let (digits, rest) ← digits? (fun c => (digitValue? base c).isSome) t
  let value ← signedWord? false (numberOf base (digits.filterMap (digitValue? base)))
  some (value, rest)

def integer? : Text → Option (Value × Text)
  | '0' :: 'x' :: rest => based? 16 rest
  | '0' :: 'o' :: rest => based? 8 rest
  | '0' :: 'b' :: rest => based? 2 rest
  | t => do
    let (negative, t) := dropSign t
    let (digits, rest) ← wholeDigits? t
    let value ← signedWord? negative (Nat.ofDigitChars 10 digits 0)
    some (value, rest)

/-! ### Floats -/

/-- A fraction: a point and digits. -/
def fraction? : Text → Option (Text × Text)
  | '.' :: rest => digits? Char.isDigit rest
  | _ => none

/-- An exponent: its letter, an optional sign and digits. -/
def exponent? : Text → Option (Int × Text)
  | c :: rest =>
    if c == 'e' || c == 'E' then do
      let (negative, rest) := dropSign rest
      let (digits, rest) ← digits? Char.isDigit rest
      let n : Nat := Nat.ofDigitChars 10 digits 0
      some (if negative then -n else n, rest)
    else none
  | [] => none

/-- The least number that rounds beyond the greatest float: half a step above that one. -/
def floatBound : Nat := (Nat.pow 2 54 - 1) * Nat.pow 2 970

/-- The number `digits · 10 ^ exponent` rounds beyond the greatest float. -/
def overflows (digits : Text) (exponent : Int) : Bool :=
  let n : Nat := Nat.ofDigitChars 10 digits 0
  if n = 0 then false
  else if exponent < 0 then
    let places := exponent.natAbs
    if digits.length < places then false else floatBound * Nat.pow 10 places ≤ n
  else if exponent > 308 then true
  else floatBound ≤ n * Nat.pow 10 exponent.toNat

/-- A number with a fraction, an exponent or both. One that is too great is refused, but not one that
is too small. -/
def decimalFloat? (t : Text) : Option Text := do
  let (negative, t) := dropSign t
  let (whole, t) ← wholeDigits? t
  let (places, t) ←
    match fraction? t with
    | some (places, rest) => some (places, rest)
    | none => if (exponent? t).isSome then some ([], t) else none
  let (exponent, t) := (exponent? t).getD (0, t)
  if !negative && overflows (whole ++ places) (exponent - places.length) then none else some t

/-- Infinity, or no number. -/
def namedFloat? (t : Text) : Option Text :=
  let t := (dropSign t).2
  t.after? "inf" <|> t.after? "nan"

def float? (t : Text) : Option (Value × Text) :=
  (decimalFloat? t <|> namedFloat? t).map fun rest => (.float, rest)

/-! ### Dates and times -/

/-- A number of just so many digits within bounds. -/
def field? (width low high : Nat) (t : Text) : Option (Nat × Text) := do
  let n ← Text.toNat? (t.take width)
  if (t.take width).length = width ∧ low ≤ n ∧ n ≤ high then some (n, t.drop width) else none

def isLeapYear (year : Nat) : Bool := year % 4 == 0 && (year % 100 != 0 || year % 400 == 0)

def daysInMonth (year month : Nat) : Nat :=
  if month = 2 then if isLeapYear year then 29 else 28
  else if month ∈ [4, 6, 9, 11] then 30
  else 31

def date? (t : Text) : Option Text := do
  let (year, t) ← field? 4 0 9999 t
  let t ← t.after? "-"
  let (month, t) ← field? 2 1 12 t
  let t ← t.after? "-"
  let (_, t) ← field? 2 1 (daysInMonth year month) t
  some t

/-- What follows a point and digits, if they come. -/
def dropFraction : Text → Text
  | '.' :: d :: rest => if d.isDigit then rest.dropWhile Char.isDigit else '.' :: d :: rest
  | t => t

/-- A time of the day; a minute may have a leap second. -/
def time? (t : Text) : Option Text := do
  let (_, t) ← field? 2 0 23 t
  let t ← t.after? ":"
  let (_, t) ← field? 2 0 59 t
  let t ← t.after? ":"
  let (_, t) ← field? 2 0 60 t
  some (dropFraction t)

/-- The distance from universal time. -/
def offset? : Text → Option Text
  | c :: rest =>
    if c == 'Z' || c == 'z' then some rest
    else if c == '+' || c == '-' then do
      let (_, t) ← field? 2 0 23 rest
      let t ← t.after? ":"
      let (_, t) ← field? 2 0 59 t
      some t
    else none
  | [] => none

/-- The time after a date, with its offset if there is one. -/
def timeOfDate? : Text → Option Text
  | c :: rest =>
    if c == 'T' || c == 't' || c == ' ' then (time? rest).map fun t => (offset? t).getD t else none
  | [] => none

/-- A date, a time, or both. -/
def dateTime? (t : Text) : Option (Value × Text) :=
  let rest? := match date? t with
    | some rest => some ((timeOfDate? rest).getD rest)
    | none => time? t
  rest?.map fun rest => (.dateTime, rest)

/-! ### All of them -/

def boolean? (t : Text) : Option (Value × Text) :=
  ((t.after? "true").map fun rest => (.boolean true, rest)) <|>
    (t.after? "false").map fun rest => (.boolean false, rest)

/-- A value other than a string, an array or a table. -/
def scalar? (t : Text) : Option (Value × Text) :=
  dateTime? t <|> float? t <|> integer? t <|> boolean? t

end StellaGo.Toml
