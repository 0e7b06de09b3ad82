import StellaGo.Proofs.Pieces
import StellaGo.Proofs.TokenBoundaries
import StellaGo.Proofs.TreeTyping

/-! Division by a constant zero. Defined here: the divisors in a parse tree, and when a tree spells
zero, with brackets and signs in any order. Proved: in an accepted expression, at every depth, a
divisor that spells zero has a sign right inside the brackets around it. Of those without a sign
none is left, but one with a sign is accepted. -/

namespace StellaGo

open Inference

/-! ### Zeros -/

/-- The digits of a number as one whole number, without regard to the point. -/
def Literal.digitsValue (t : Text) : Nat := Nat.ofDigitChars 10 (t.filter Char.isDigit) 0

theorem Literal.eq_zero_of_ofDigitChars {t : Text} (h : Nat.ofDigitChars 10 t 0 = 0)
    (hd : ∀ c ∈ t, c.isDigit) : ∀ c ∈ t, c = '0' := by
  induction t with
  | nil => nofun
  | cons c rest ih =>
    rw [Nat.ofDigitChars_cons, Nat.ofDigitChars_eq_ofDigitChars_zero] at h
    obtain ⟨hc, hrest⟩ := List.forall_mem_cons.1 hd
    obtain ⟨hfirst, hrest'⟩ := Nat.add_eq_zero_iff.1 h
    refine List.forall_mem_cons.2 ⟨?_, ih hrest' hrest⟩
    have hvalue := (Nat.mul_eq_zero.1 hfirst).resolve_left (Nat.pow_pos (by decide)).ne'
    have hle := (Char.isDigit_iff_toNat.1 hc).1
    have hdigit : '0'.toNat = 48 := rfl
    exact Char.toNat_inj.1 (by omega)

/-- A number whose digits have the value zero has no digits but zeros. -/
theorem Literal.all_zero_of_digitsValue {t : Text} {type : Primitive}
    (hn : Literal.numeric? t = some type) (h : Literal.digitsValue t = 0) :
    t.all fun c => c == '0' || c == '.' := by
  obtain ⟨c, rest, rfl, hc, hrest⟩ := Go.exists_of_numeric? hn
  have hzero := eq_zero_of_ofDigitChars h fun d hd => (List.mem_filter.1 hd).2
  have hchar : ∀ d ∈ c :: rest, d.isDigit ∨ d = '.' := List.forall_mem_cons.2 ⟨.inl hc, hrest⟩
  refine List.all_eq_true.2 fun d hd => ?_
  rcases hchar d hd with hdigit | rfl
  · rw [hzero d (List.mem_filter.2 ⟨hd, hdigit⟩)]
    rfl
  · rfl

/-- A number that is zero. -/
def Term.isZero : Term → Bool
  | literal digits type => type.isNumeric && Literal.digitsValue digits == 0
  | _ => false

namespace Tree

/-- A zero in any number of brackets and behind any number of signs, in any order. -/
def isZero : Tree → Bool
  | leaf term => term.isZero
  | unary op operand => op == .minus && operand.isZero
  | binary _ _ _ => false
  | group _ inside => inside.isZero

/-- The right operands of the divisions. -/
def divisors : Tree → List Tree
  | leaf _ => []
  | unary _ operand => operand.divisors
  | binary op left right =>
    left.divisors ++ (if op = .divide then [right] else []) ++ right.divisors
  | group _ inside => inside.divisors

theorem within_of_mem_divisors {t d : Tree} (h : d ∈ t.divisors) : d.Within t := by
  induction t with
  | leaf => cases h
  | unary op operand ih => exact .unary (ih h)
  | binary op left right ihl ihr =>
    rcases List.mem_append.1 h with h | h
    · rcases List.mem_append.1 h with h | h
      · exact .left (ihl h)
      · split at h
        · obtain rfl := List.mem_singleton.1 h
          exact .right .self
        · cases h
    · exact .right (ihr h)
  | group b inside ih => exact .group (ih h)

/-- The inference knows a zero in brackets, and nothing else. A sign may hide it. -/
theorem isZero_terms_or_minus {t : Tree} (ht : t.FollowsGo) (h : t.isZero)
    (hn : ∀ digits type, .literal digits type ∈ t.terms → type.isNumeric →
      Literal.numeric? digits = some type) :
    Inference.isZero t.terms ∨ ∃ operand, t.strip = unary .minus operand := by
  induction t with
  | leaf term =>
    cases term with
    | literal digits type =>
      obtain ⟨htype, hvalue⟩ := Bool.and_eq_true_iff.1 h
      refine .inl ?_
      have hstrip : stripGroups [Term.literal digits type] = [Term.literal digits type] :=
        stripGroups_terms ht
      rw [terms, Inference.isZero, hstrip]
      exact Bool.and_eq_true_iff.2 ⟨htype, Literal.all_zero_of_digitsValue
        (hn digits type List.mem_cons_self htype) (beq_iff_eq.1 hvalue)⟩
    | _ => cases h
  | unary op operand =>
    obtain ⟨hop, -⟩ := Bool.and_eq_true_iff.1 h
    obtain rfl := eq_of_beq hop
    exact .inr ⟨operand, rfl⟩
  | binary => cases h
  | group b inside ih =>
    have hzero : Inference.isZero (group b inside).terms = Inference.isZero inside.terms := by
      rw [Inference.isZero, Inference.isZero, stripGroups_terms (t := inside) ht,
        stripGroups_terms ht]
      rfl
    rw [hzero]
    exact ih ht h fun digits type hm => hn digits type
      (List.mem_cons_of_mem _ (List.mem_append_left _ hm))

/-- A tree whose operators are typed divides by no zero. The second part is about a row of operators
outside groups, of which the operand at the end is typed by none. -/
theorem divisors_of_infer {t : Tree} (ht : t.FollowsGo) :
    (∀ type, infer t.terms = .ok type → ∀ d ∈ t.divisors, ¬ Inference.isZero d.terms) ∧
      ∀ (final : Results) (operand : Primitive), (∀ site ∈ t.sites, site.Recorded final) →
        infer t.last.terms = .ok operand → ∀ d ∈ t.divisors, ¬ Inference.isZero d.terms := by
  induction t with
  | leaf term => exact ⟨fun _ _ => nofun, fun _ _ _ _ => nofun⟩
  | group b inside ih =>
    have hself : ∀ type, infer (group b inside).terms = .ok type →
        ∀ d ∈ inside.divisors, ¬ Inference.isZero d.terms := by
      intro type h
      rw [infer_congr ((stripGroups_terms ht).trans (stripGroups_terms (t := inside) ht).symm)] at h
      exact (ih ht).1 type h
    exact ⟨hself, fun _ operand _ h => hself operand h⟩
  | unary op operand ih =>
    refine ⟨fun type h => (ih ht.2.2).1 type (infer_unary ht h).1, fun final _ hall _ => ?_⟩
    obtain ⟨type, -, htype, -⟩ := hall _ List.mem_cons_self
    exact (ih ht.2.2).1 type htype
  | binary op left right ihl ihr =>
    obtain ⟨-, -, hlevel, hl, hr⟩ := id ht
    have hrow : ∀ final : Results, (∀ site ∈ (binary op left right).sites, site.Recorded final) →
        ∀ d ∈ (binary op left right).divisors, ¬ Inference.isZero d.terms := by
      intro final hall d hd
      obtain ⟨hleft, ⟨leftType, rightType, -, hlast, hfirst, hzero, -⟩, hright⟩ :=
        forall_sites_binary.1 hall
      rcases List.mem_append.1 hd with hd | hd
      · rcases List.mem_append.1 hd with hd | hd
        · exact (ihl hl).2 final leftType hleft hlast d hd
        · split at hd
          · next hdivide =>
            -- nothing binds more tightly than a division, so the divisor is one operand
            obtain rfl := List.mem_singleton.1 hd
            subst hdivide
            rw [first_eq_self hlevel] at hzero
            exact fun hz => hzero ⟨rfl, hz⟩
          · cases hd
      · exact (ihr hr).2 final rightType hright (infer_last hr hright hfirst) d hd
    refine ⟨fun type h => ?_, fun final _ hall _ => hrow final hall⟩
    obtain ⟨final, hall, -⟩ := infer_binary ht h
    exact hrow final hall

end Tree

namespace Expression

/-- The numbers of an accepted expression are written as numbers of their types. -/
theorem numeric?_of_mem {symbols : Symbols} {text : Text} {e : Expression} {digits : Text}
    {type : Primitive} (h : expression symbols text = .ok e) (hm : .literal digits type ∈ e.terms)
    (hn : type.isNumeric) : Literal.numeric? digits = some type := by
  obtain ⟨token, -, hread⟩ := Piece.exists_token_of_mem h hm
  cases hread with
  | literal _ hl =>
    cases type with
    | int => exact hl.1
    | float => exact hl
    | bool | byte | string | io => cases hn

/-- Every expression at any depth of an accepted one has one reading, and a divisor in it that spells
zero has a sign right inside the brackets around it. -/
theorem signed_of_zero_divisor {symbols : Symbols} {text : Text} {e part : Expression}
    (h : expression symbols text = .ok e) (hin : Piece.Inside (.expression e) (.expression part)) :
    (∃! t : Tree, t.FollowsGo ∧ t.terms = part.terms) ∧
      ∀ t : Tree, t.FollowsGo → t.terms = part.terms →
        ∀ d ∈ t.divisors, d.isZero → ∃ operand, d.strip = .unary .minus operand := by
  obtain ⟨inner, -, hread⟩ := Piece.isRead_of_inside hin h
  refine ⟨existsUnique_tree hread, fun t ht hts d hd hzero => ?_⟩
  obtain ⟨-, -, -, -, -, htype⟩ := expression_eq_ok_iff.1 hread
  rw [← hts] at htype
  have hwithin := Tree.within_of_mem_divisors hd
  have hnumeric : ∀ digits type, .literal digits type ∈ d.terms → type.isNumeric →
      Literal.numeric? digits = some type := fun digits type hm =>
    numeric?_of_mem hread (hts ▸ hwithin.terms_subset hm)
  exact (Tree.isZero_terms_or_minus (hwithin.follows ht) hzero hnumeric).resolve_left
    ((Tree.divisors_of_infer ht).1 part.type htype d hd)

theorem signed_of_zero_divisor_index :
    ∃ (known : Symbols) (e part : Expression), expression known "xs[4 / (2)] / 1".toList = .ok e ∧
      Piece.Inside (.expression e) (.expression part) ∧ part.terms.length = 5 ∧
      (∃! t : Tree, t.FollowsGo ∧ t.terms = part.terms) ∧
      ∀ t : Tree, t.FollowsGo → t.terms = part.terms →
        ∀ d ∈ t.divisors, d.isZero → ∃ operand, d.strip = .unary .minus operand := by
  let known := Symbols.empty.insert (.array ⟨"xs".toList, ⟨.int, [3]⟩, false⟩)
  let part : Expression := ⟨[.literal "4".toList .int, .operator .divide, .opening .round,
    .literal "2".toList .int, .closing .round], .int⟩
  let i : Indexing := ⟨"xs".toList, [part], .int⟩
  let e : Expression := ⟨[.element i, .operator .divide, .literal "1".toList .int], .int⟩
  have hread : expression known "xs[4 / (2)] / 1".toList = .ok e := by with_unfolding_all rfl
  have hpart : part ∈ i.indices := List.mem_cons_self
  have helement : Term.element i ∈ e.terms := List.mem_cons_self
  have hin : Piece.Inside (.expression e) (.expression part) :=
    .tail (.tail .refl (.element helement)) (.index hpart)
  exact ⟨known, e, part, hread, hin, rfl, signed_of_zero_divisor hread hin⟩

/-- A zero behind a sign is accepted as a divisor. -/
theorem divides_by_minus_zero :
    ∃ (e : Expression) (t : Tree), expression .empty "1 / -0".toList = .ok e ∧ t.FollowsGo ∧
      t.terms = e.terms ∧ ∃ d ∈ t.divisors, d.isZero := by
  let one := Term.literal "1".toList .int
  let zero := Term.literal "0".toList .int
  refine ⟨⟨[one, .operator .divide, .operator .minus, zero], .int⟩,
    .binary .divide (.leaf one) (.unary .minus (.leaf zero)), by with_unfolding_all rfl, ?_, rfl,
    .unary .minus (.leaf zero), List.mem_singleton_self _, by decide⟩
  simp only [Tree.FollowsGo, one, zero, Term.isOperand]
  decide

end Expression

end StellaGo
