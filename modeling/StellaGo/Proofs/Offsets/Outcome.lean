import StellaGo.Check

/-! Computations with offsets and indices. Such a computation can stop without any result: where a
part of a text between two offsets, or an entry of a list, is not there, where a difference of sizes
would be negative, and where more steps are taken than were granted. Defined here: computations that
come to their end, with a value or with a fault. Proved: they come to their end one behind the other. -/

namespace StellaGo

/-- What a computation with offsets comes to: `none` where it stops without any result. -/
abbrev Outcome (ε : Type) := ExceptT ε Option

namespace Outcome

variable {ε α β : Type}

/-- The computation comes to its end with this result. -/
def ended (x : Except ε α) : Outcome ε α := ExceptT.mk (some x)

/-- The difference of two sizes, if it is not negative. -/
def minus? (n m : Nat) : Option Nat := if m ≤ n then some (n - m) else none

theorem minus?_of_le {n m : Nat} (h : m ≤ n) : minus? n m = some (n - m) := if_pos h

theorem minus?_add (n m : Nat) : minus? (n + m) m = some n := by
  rw [minus?_of_le (Nat.le_add_left m n), Nat.add_sub_cancel]

/-- The entry before the one of index `i`, or none for the first. -/
def before? (xs : List α) (i : Nat) : Option (Option α) := (minus? i 1).mapM fun j => xs[j]?

theorem before?_append (front rest : List α) :
    before? (front ++ rest) front.length = some front.getLast? := by
  cases front with
  | nil => rfl
  | cons a start =>
    have hpos : 1 ≤ (a :: start).length := Nat.succ_pos _
    rw [before?, minus?_of_le hpos, Option.mapM_some, List.getElem?_append_left (by simp),
      ← List.getLast?_eq_getElem?, List.getLast?_cons]
    rfl

/-- The entries from the index `i` up to the index `j`. -/
def part? (xs : List α) (i j : Nat) : Option (List α) :=
  if i ≤ j ∧ j ≤ xs.length then some ((xs.take j).drop i) else none

theorem part?_append (before part behind : List α) :
    part? (before ++ (part ++ behind)) before.length (before.length + part.length) = some part := by
  have hbounds : before.length ≤ before.length + part.length ∧
      before.length + part.length ≤ (before ++ (part ++ behind)).length := by
    simp only [List.length_append]
    omega
  rw [part?, if_pos hbounds, ← List.append_assoc, ← List.length_append, List.take_left, List.drop_left]

@[simp]
theorem liftM_some (a : α) : (liftM (some a) : Outcome ε α) = pure a := rfl

@[simp]
theorem liftM_eq_ended (x : Except ε α) : (liftM x : Outcome ε α) = ended x := rfl

@[simp]
theorem ended_pure (a : α) : ended (pure a : Except ε α) = pure a := rfl

@[simp]
theorem ended_ok (a : α) : ended (.ok a : Except ε α) = pure a := rfl

@[simp]
theorem ended_error (e : ε) : ended (.error e : Except ε α) = throw e := rfl

@[simp]
theorem ended_bind (x : Except ε α) (f : α → Except ε β) :
    ended (x >>= f) = ended x >>= fun a => ended (f a) := by
  cases x <;> rfl

@[simp]
theorem ended_map (x : Except ε α) (f : α → β) : ended (x.map f) = f <$> ended x := by
  cases x <;> rfl

@[simp]
theorem ended_ite {p : Prop} [Decidable p] (x y : Except ε α) :
    ended (if p then x else y) = if p then ended x else ended y := apply_ite ended p x y

/-- Puts what was read off a line on that line. -/
def onLine (line : Nat) (result : Outcome Fault α) : Outcome CompileError α :=
  result.adapt fun fault => ⟨line, fault⟩

theorem onLine_ended (line : Nat) (x : Check α) : onLine line (ended x) = ended (x.onLine line) := rfl

theorem adapt_ended {ε' : Type} (f : ε → ε') (x : Except ε α) :
    (ended x).adapt f = ended (x.mapError f) := rfl

/-- Where a computation comes to its end, so does the whole if what follows does. -/
theorem bind_eq_ended {x : Outcome ε α} {x' : Except ε α} {f : α → Outcome ε β} {f' : α → Except ε β}
    (hx : x = ended x') (hf : ∀ a, x' = .ok a → f a = ended (f' a)) :
    x >>= f = ended (x' >>= f') := by
  subst hx
  cases x' with
  | error e => rfl
  | ok a => exact hf a rfl

theorem ite_eq_ended {p : Prop} [Decidable p] {x y : Outcome ε α} {x' y' : Except ε α}
    (hx : p → x = ended x') (hy : ¬ p → y = ended y') :
    (if p then x else y) = ended (if p then x' else y') := by
  by_cases hp : p
  · rw [if_pos hp, if_pos hp, hx hp]
  · rw [if_neg hp, if_neg hp, hy hp]

/-- What follows may use how the first result came about. -/
theorem bind_congr_ended {x : Except ε α} {f g : α → Outcome ε β} (h : ∀ a, x = .ok a → f a = g a) :
    ended x >>= f = ended x >>= g := by
  cases x with
  | error e => rfl
  | ok a => exact h a rfl

end Outcome

end StellaGo
