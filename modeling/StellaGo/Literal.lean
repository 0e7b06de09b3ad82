import StellaGo.ValueType

/-! Numbers and bytes as they are written in expressions. -/

namespace StellaGo.Literal

/-- No superfluous zero in front. -/
def isPlainWhole (digits : Text) : Bool := digits.length == 1 || digits.head? != some '0'

def isDigits (t : Text) : Bool := t != [] && t.all Char.isDigit

/-- The type of a number: digits, or digits on both sides of a point. -/
def numeric? (t : Text) : Option Primitive :=
  match t.cut? '.' with
  | some (whole, fraction) =>
    if isDigits whole && isDigits fraction && isPlainWhole whole then some .float else none
  | none => if isDigits t && isPlainWhole t then some .int else none

/-- The characters that a backslash may stand before in a byte. -/
def byteEscapes : List Char := ['a', 'b', 'f', 'n', 'r', 't', 'v', '\\', '\'']

/-- One ASCII character or one escape, in single quotes. -/
def isByte : Text → Bool
  | [first, mark, c, last] => first == '\'' && mark == '\\' && last == '\'' && c ∈ byteEscapes
  | [first, c, last] => first == '\'' && last == '\'' && c.toNat < 128 && c != '\'' && c != '\\'
  | _ => false

/-- The largest value of an int. -/
def maxInt : Nat := Text.signBound - 1

/-- The value of the digits of an int, if an int can have it. -/
def intValue? (digits : Text) : Option Nat := digits.toNatBelow? (maxInt + 1)

end StellaGo.Literal
