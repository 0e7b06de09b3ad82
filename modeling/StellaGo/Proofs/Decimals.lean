import Mathlib.Data.List.Induction
import StellaGo.Literal

/-! Digits of natural numbers. Proved: one or more digits are those of a number behind some zeros, and
they are just those of a number if they have no superfluous zero in front. So the texts that spell a
number are known. -/

namespace StellaGo

namespace Text

variable {t : Text}

theorem ofNat_of_isDigit {c : Char} (h : c.isDigit) :
    ofNat (c.toNat - '0'.toNat) = [c] ∧ c.toNat - '0'.toNat < 10 := by
  have hbounds : 48 ≤ c.toNat ∧ c.toNat ≤ 57 := by
    simpa [Char.isDigit, UInt32.le_iff_toNat_le] using h
  have hzero : '0'.toNat = 48 := rfl
  have hlt : c.toNat - '0'.toNat < 10 := by omega
  refine ⟨?_, hlt⟩
  have hall : ∀ n < 10, Nat.digitChar n = Char.ofNat (48 + n) := by decide
  rw [ofNat, Nat.toDigits_of_lt_base hlt, hall _ hlt, hzero, Nat.add_sub_cancel' hbounds.1,
    Char.ofNat_toNat]

/-- A digit behind the digits of a number that is not zero. -/
theorem ofNat_append_digit {n : Nat} {c : Char} (hn : n ≠ 0) (h : c.isDigit) :
    ofNat n ++ [c] = ofNat (10 * n + (c.toNat - '0'.toNat)) := by
  obtain ⟨hdigit, hlt⟩ := ofNat_of_isDigit h
  conv_lhs => rw [← hdigit]
  exact Nat.toDigits_append_toDigits (by decide) (Nat.pos_of_ne_zero hn) hlt

/-- Digits are those of their value behind some zeros. -/
theorem exists_zeros (hne : t ≠ []) (hall : ∀ c ∈ t, c.isDigit) :
    ∃ zeros, t = List.replicate zeros '0' ++ ofNat (Nat.ofDigitChars 10 t 0) := by
  induction t using List.reverseRecOn with
  | nil => exact absurd rfl hne
  | append_singleton front c ih =>
    obtain ⟨hfront, hc⟩ := List.forall_mem_append.1 hall
    have hc : c.isDigit := hc c (List.mem_singleton_self c)
    obtain ⟨hdigit, -⟩ := ofNat_of_isDigit hc
    rw [Nat.ofDigitChars_append, Nat.ofDigitChars_cons, Nat.ofDigitChars_nil]
    by_cases hempty : front = []
    · subst hempty
      rw [Nat.ofDigitChars_nil, Nat.mul_zero, Nat.zero_add, hdigit]
      exact ⟨0, rfl⟩
    obtain ⟨zeros, hzeros⟩ := ih hempty hfront
    by_cases hvalue : Nat.ofDigitChars 10 front 0 = 0
    · -- all digits in front are zeros
      rw [hvalue] at hzeros ⊢
      rw [Nat.mul_zero, Nat.zero_add, hdigit, hzeros]
      exact ⟨zeros + 1, by rw [List.replicate_succ', show ofNat 0 = ['0'] from rfl]⟩
    · refine ⟨zeros, ?_⟩
      rw [← ofNat_append_digit hvalue hc, ← List.append_assoc, ← hzeros]

theorem ofNat_ne_nil (n : Nat) : ofNat n ≠ [] := Nat.toDigits_ne_nil

/-- Zeros in front do not change the number. -/
theorem toNat?_zeros (zeros n : Nat) : toNat? (List.replicate zeros '0' ++ ofNat n) = some n := by
  have hvalue : Nat.ofDigitChars 10 (List.replicate zeros '0' ++ ofNat n) 0 = n := by
    induction zeros with
    | zero => exact Nat.ofDigitChars_ten_toDigits
    | succ zeros ih =>
      rw [List.replicate_succ, List.cons_append, Nat.ofDigitChars_cons]
      exact ih
  have hall : (List.replicate zeros '0' ++ ofNat n).all Char.isDigit := by
    rw [List.all_append, Bool.and_eq_true, List.all_eq_true, List.all_eq_true]
    refine ⟨fun c hc => ?_, fun c hc => ?_⟩
    · rw [List.eq_of_mem_replicate hc]
      rfl
    · exact Nat.isDigit_of_mem_toDigits (by decide) (by decide) hc
  have hne : List.replicate zeros '0' ++ ofNat n ≠ [] := by simp [ofNat_ne_nil]
  rw [toNat?, if_pos ⟨hne, hall⟩, hvalue]

/-- A text spells a number just if it is its digits behind some zeros. -/
theorem toNat?_eq_some_iff {n : Nat} :
    t.toNat? = some n ↔ ∃ zeros, t = List.replicate zeros '0' ++ ofNat n := by
  constructor
  · intro h
    rw [toNat?] at h
    split at h
    · next hdigits =>
      cases h
      exact exists_zeros hdigits.1 (List.all_eq_true.1 hdigits.2)
    · cases h
  · rintro ⟨zeros, rfl⟩
    exact toNat?_zeros zeros n

end Text

/-- Digits without a superfluous zero in front are those of their value. -/
theorem Literal.eq_ofNat_of_isPlainWhole {digits : Text} (hd : isDigits digits)
    (hp : isPlainWhole digits) :
    ∃ n, digits = Text.ofNat n ∧ digits.toNat? = some n := by
  simp only [isDigits, Bool.and_eq_true, bne_iff_ne, List.all_eq_true] at hd
  obtain ⟨zeros, hzeros⟩ := Text.exists_zeros hd.1 hd.2
  refine ⟨_, ?_, if_pos ⟨hd.1, List.all_eq_true.2 hd.2⟩⟩
  cases zeros with
  | zero => exact hzeros
  | succ zeros =>
    -- a zero in front stands alone
    have hpos := List.length_pos_iff.2 (Text.ofNat_ne_nil (Nat.ofDigitChars 10 digits 0))
    have hlength := congrArg List.length hzeros
    have hhead : digits.head? = some '0' := by
      rw [hzeros]
      rfl
    rw [List.length_append, List.length_replicate] at hlength
    rw [isPlainWhole, hhead, bne_self_eq_false, Bool.or_false, beq_iff_eq] at hp
    omega

end StellaGo
