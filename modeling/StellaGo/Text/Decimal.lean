import StellaGo.Text

/-! Natural numbers in decimal digits, and the number of values of a machine word. -/

namespace StellaGo.Text

/-- The decimal digits of a number, without leading zeros. -/
def ofNat (n : Nat) : Text := Nat.toDigits 10 n

/-- The number written by one or more decimal digits. -/
def toNat? (t : Text) : Option Nat :=
  if t ≠ [] ∧ t.all Char.isDigit then some (Nat.ofDigitChars 10 t 0) else none

/-- `2 ^ 64`, the number of values of a word. -/
def wordSize : Nat := 18446744073709551616

/-- `2 ^ 63`: signed words are below it, and not below its negative. -/
def signBound : Nat := 9223372036854775808

/-- The number, if it is below `bound`. -/
def toNatBelow? (bound : Nat) (t : Text) : Option Nat :=
  t.toNat?.filter (· < bound)

theorem toNat?_ofNat (n : Nat) : (ofNat n).toNat? = some n := by
  have hd : (ofNat n).all Char.isDigit = true :=
    List.all_eq_true.2 fun c hc => Nat.isDigit_of_mem_toDigits (by decide) (by decide) hc
  have hn : ofNat n ≠ [] := Nat.toDigits_ne_nil
  have hv : Nat.ofDigitChars 10 (ofNat n) 0 = n := Nat.ofDigitChars_ten_toDigits
  rw [toNat?, if_pos ⟨hn, hd⟩, hv]

end StellaGo.Text
