import StellaGo.Inference
import StellaGo.Proofs.ParseTree

/-! The operators of a parse tree, as the inference of types finds them. Defined here: for every
operator outside groups its tree of operands next to it. Proved: in the terms of a tree that follows
the grammar, the inference finds just these operators with just these operands, and the brackets
around a whole tree are the ones it drops. All of these are parts of the tree. -/

namespace StellaGo

open Inference

namespace Tree

/-- The operand with which a tree starts, prefix operators included. -/
def first : Tree → Tree
  | binary _ left _ => left.first
  | t => t

/-- The operand with which a tree ends, prefix operators left out. -/
def last : Tree → Tree
  | binary _ _ right => right.last
  | unary _ operand => operand.last
  | t => t

/-- The operators outside groups, with the operands next to them. -/
def sites : Tree → List Site
  | leaf _ | group _ _ => []
  | unary op operand => .unary op operand.terms :: operand.sites
  | binary op left right =>
    left.sites ++ .binary op left.last.terms right.first.terms :: right.sites

/-- The tree without the brackets around all of it. -/
def strip : Tree → Tree
  | group _ inside => inside.strip
  | t => t

/-- The first tree is the second one or a part of it, at any depth. -/
inductive Within : Tree → Tree → Prop
  | self {t : Tree} : Within t t
  | unary {op : Operator} {s operand : Tree} (h : Within s operand) : Within s (unary op operand)
  | left {op : Operator} {s left right : Tree} (h : Within s left) : Within s (binary op left right)
  | right {op : Operator} {s left right : Tree} (h : Within s right) : Within s (binary op left right)
  | group {b : Bracket} {s inside : Tree} (h : Within s inside) : Within s (group b inside)

theorem forall_sites_binary {op : Operator} {left right : Tree} {p : Site → Prop} :
    (∀ site ∈ (binary op left right).sites, p site) ↔
      (∀ site ∈ left.sites, p site) ∧ p (.binary op left.last.terms right.first.terms) ∧
        ∀ site ∈ right.sites, p site := by
  rw [sites, List.forall_mem_append, List.forall_mem_cons]

theorem first_eq_self {t : Tree} (h : 6 ≤ t.level) : t.first = t := by
  cases t with
  | binary op left right => exact absurd h (by have := op.precedence_le; simp only [level]; omega)
  | leaf | unary | group => rfl

theorem terms_ne_nil (t : Tree) : t.terms ≠ [] := by
  cases t <;> simp [terms]

/-! ### Parts -/

theorem Within.trans {s t u : Tree} (hs : Within s t) (ht : Within t u) : Within s u := by
  induction ht with
  | self => exact hs
  | unary _ ih => exact .unary (ih hs)
  | left _ ih => exact .left (ih hs)
  | right _ ih => exact .right (ih hs)
  | group _ ih => exact .group (ih hs)

theorem Within.follows {s t : Tree} (h : Within s t) (ht : t.FollowsGo) : s.FollowsGo := by
  induction h with
  | self => exact ht
  | unary _ ih => exact ih ht.2.2
  | left _ ih => exact ih ht.2.2.2.1
  | right _ ih => exact ih ht.2.2.2.2
  | group _ ih => exact ih ht

theorem Within.terms_subset {s t : Tree} (h : Within s t) : s.terms ⊆ t.terms := by
  induction h with
  | self => exact List.Subset.refl _
  | unary _ ih => exact List.subset_cons_of_subset _ ih
  | left _ ih => exact List.subset_append_of_subset_left _ ih
  | right _ ih => exact List.subset_append_of_subset_right _ (List.subset_cons_of_subset _ ih)
  | group _ ih => exact List.subset_cons_of_subset _ (List.subset_append_of_subset_left _ ih)

theorem within_first (t : Tree) : Within t.first t := by
  induction t with
  | binary op left right ih => exact .left ih
  | leaf | unary | group => exact .self

theorem within_last (t : Tree) : Within t.last t := by
  induction t with
  | binary op left right _ ih => exact .right ih
  | unary op operand ih => exact .unary ih
  | leaf | group => exact .self

theorem within_strip (t : Tree) : Within t.strip t := by
  induction t with
  | group b inside ih => exact .group ih
  | leaf | unary | binary => exact .self

/-! ### Groups -/

theorem groupLength_operand {t : Term} (ht : t.isOperand) (depth : Nat) (rest : List Term) :
    groupLength depth (t :: rest) = (groupLength depth rest).map (· + 1) := by
  cases t <;> first | rfl | cases ht

theorem groupLengthBack_operand {t : Term} (ht : t.isOperand) (depth : Nat) (rest : List Term) :
    groupLengthBack depth (t :: rest) = (groupLengthBack depth rest).map (· + 1) := by
  cases t <;> first | rfl | cases ht

/-- Inside a group, the terms of a tree are passed over. -/
theorem groupLength_terms {t : Tree} (ht : t.FollowsGo) {depth : Nat} (hd : 0 < depth)
    (rest : List Term) :
    groupLength depth (t.terms ++ rest) = (groupLength depth rest).map (· + t.terms.length) := by
  induction t generalizing depth rest with
  | leaf term => exact groupLength_operand ht depth rest
  | unary op operand ih =>
    simp only [terms, List.cons_append, groupLength, ih ht.2.2 hd, Option.map_map]
    rfl
  | binary op left right ihl ihr =>
    obtain ⟨-, -, -, hl, hr⟩ := ht
    simp only [terms, List.append_assoc, List.cons_append, ihl hl hd, groupLength, ihr hr hd,
      Option.map_map, List.length_append, List.length_cons]
    congr 1
    funext k
    simp only [Function.comp_apply]
    omega
  | group b inside ih =>
    have hdepth : ¬ depth + 1 ≤ 1 := by omega
    simp only [terms, List.cons_append, List.append_assoc, groupLength, ih ht (Nat.succ_pos depth),
      if_neg hdepth, Option.map_map, List.length_append, List.length_cons, List.length_nil,
      List.nil_append]
    congr 1
    funext k
    simp only [Function.comp_apply]
    omega

theorem groupLengthBack_terms {t : Tree} (ht : t.FollowsGo) {depth : Nat} (hd : 0 < depth)
    (rest : List Term) :
    groupLengthBack depth (t.terms.reverse ++ rest) =
      (groupLengthBack depth rest).map (· + t.terms.length) := by
  induction t generalizing depth rest with
  | leaf term => exact groupLengthBack_operand ht depth rest
  | unary op operand ih =>
    simp only [terms, List.reverse_cons, List.append_assoc, ih ht.2.2 hd, List.cons_append,
      List.nil_append, groupLengthBack, Option.map_map, List.length_cons]
    congr 1
    funext k
    simp only [Function.comp_apply]
    omega
  | binary op left right ihl ihr =>
    obtain ⟨-, -, -, hl, hr⟩ := ht
    simp only [terms, List.reverse_append, List.reverse_cons, List.append_assoc, ihr hr hd,
      List.cons_append, List.nil_append, groupLengthBack, ihl hl hd, Option.map_map,
      List.length_append, List.length_cons]
    congr 1
    funext k
    simp only [Function.comp_apply]
    omega
  | group b inside ih =>
    have hdepth : ¬ depth + 1 ≤ 1 := by omega
    simp only [terms, List.reverse_cons, List.reverse_append, List.reverse_nil, List.nil_append,
      List.cons_append, List.append_assoc, groupLengthBack, ih ht (Nat.succ_pos depth),
      if_neg hdepth, Option.map_map, List.length_append, List.length_cons, List.length_nil]
    congr 1
    funext k
    simp only [Function.comp_apply]
    omega

/-- A group ends where its tree does. -/
theorem groupLength_group {b : Bracket} {inside : Tree} (ht : inside.FollowsGo)
    (rest : List Term) :
    groupLength 0 ((group b inside).terms ++ rest) = some (group b inside).terms.length := by
  simp [terms, groupLength, groupLength_terms ht Nat.one_pos, Nat.add_comm]

theorem groupLengthBack_group {b : Bracket} {inside : Tree} (ht : inside.FollowsGo)
    (before : List Term) :
    groupLengthBack 0 ((group b inside).terms.reverse ++ before) =
      some (group b inside).terms.length := by
  simp [terms, groupLengthBack, groupLengthBack_terms ht Nat.one_pos, Nat.add_comm]

/-! ### Operands -/

/-- The operand at the start of the terms of a tree. -/
theorem operandLength_terms {t : Tree} (ht : t.FollowsGo) (rest : List Term) :
    operandLength (t.terms ++ rest) = .ok t.first.terms.length ∧
      (t.terms ++ rest).take t.first.terms.length = t.first.terms := by
  induction t generalizing rest with
  | leaf term =>
    refine ⟨?_, rfl⟩
    cases term <;> first | rfl | cases ht
  | unary op operand ih =>
    obtain ⟨hlength, -⟩ := ih ht.2.2 rest
    rw [first_eq_self ht.2.1] at hlength
    refine ⟨?_, List.take_left⟩
    rw [terms, List.cons_append, operandLength, hlength]
    rfl
  | binary op left right ih =>
    rw [terms, List.append_assoc]
    exact ih ht.2.2.2.1 _
  | group b inside ih =>
    have hi : inside.FollowsGo := ht
    have hgroup := groupLength_group (b := b) hi rest
    refine ⟨?_, List.take_left⟩
    rw [terms, List.cons_append] at hgroup ⊢
    rw [operandLength, hgroup]
    rfl

/-- The operand at the end of the terms of a tree. -/
theorem operandLengthBack_terms {t : Tree} (ht : t.FollowsGo) (before : List Term) :
    operandLengthBack (t.terms.reverse ++ before) = .ok t.last.terms.length ∧
      ((t.terms.reverse ++ before).take t.last.terms.length).reverse = t.last.terms := by
  induction t generalizing before with
  | leaf term =>
    refine ⟨?_, rfl⟩
    cases term <;> first | rfl | cases ht
  | unary op operand ih =>
    rw [terms, List.reverse_cons, List.append_assoc]
    exact ih ht.2.2 _
  | binary op left right _ ih =>
    rw [terms, List.reverse_append, List.reverse_cons, List.append_assoc, List.append_assoc]
    exact ih ht.2.2.2.2 _
  | group b inside ih =>
    have hi : inside.FollowsGo := ht
    have hgroup := groupLengthBack_group (b := b) hi before
    refine ⟨?_, ?_⟩
    · simp only [terms, List.reverse_cons, List.reverse_append, List.reverse_nil, List.nil_append,
        List.cons_append] at hgroup ⊢
      rw [operandLengthBack, hgroup]
      rfl
    · change ((_ ++ before).take (group b inside).terms.length).reverse = (group b inside).terms
      rw [← List.length_reverse, List.take_left, List.reverse_reverse]

/-! ### Operators outside groups -/

/-- A tree ends with an operand. -/
theorem precedesUnary_reverse {t : Tree} (ht : t.FollowsGo) (before : List Term) :
    Term.precedesUnary (t.terms.reverse ++ before).head? = false := by
  induction t generalizing before with
  | leaf term => cases term <;> first | rfl | cases ht
  | unary op operand ih =>
    rw [terms, List.reverse_cons, List.append_assoc]
    exact ih ht.2.2 _
  | binary op left right _ ih =>
    rw [terms, List.reverse_append, List.reverse_cons, List.append_assoc, List.append_assoc]
    exact ih ht.2.2.2.2 _
  | group b inside => simp [terms, Term.precedesUnary]

theorem sites_operand {t : Term} (ht : t.isOperand) (before rest : List Term) :
    Inference.sites before (t :: rest) = Inference.sites (t :: before) rest := by
  cases t with
  | operator | opening | closing => cases ht
  | literal | scalar | call | element | field => rw [Inference.sites.eq_def]

theorem map_nil_append (x : Check (List Site)) : x.map ([] ++ ·) = x := by
  cases x <;> rfl

/-- In the terms of a tree, the operators outside groups are found with the operands next to them.
-/
theorem sites_terms {t : Tree} (ht : t.FollowsGo) {before : List Term}
    (hb : Term.precedesUnary before.head?) (rest : List Term) :
    Inference.sites before (t.terms ++ rest) =
      (Inference.sites (t.terms.reverse ++ before) rest).map (t.sites ++ ·) := by
  induction t generalizing before rest with
  | leaf term =>
    rw [sites, map_nil_append]
    exact sites_operand ht before rest
  | unary op operand ih =>
    obtain ⟨-, hlevel, hf⟩ := ht
    obtain ⟨hlength, htake⟩ := operandLength_terms hf rest
    rw [first_eq_self hlevel] at hlength htake
    rw [terms, List.cons_append, Inference.sites, if_pos hb, hlength, ih hf rfl]
    simp only [bind, Except.bind, htake, List.reverse_cons, List.append_assoc, List.cons_append,
      List.nil_append]
    cases Inference.sites (operand.terms.reverse ++ Term.operator op :: before) rest <;> rfl
  | binary op left right ihl ihr =>
    obtain ⟨-, -, -, hl, hr⟩ := ht
    obtain ⟨hleft, hlast⟩ := operandLengthBack_terms hl before
    obtain ⟨hright, hfirst⟩ := operandLength_terms hr rest
    rw [terms, List.append_assoc, List.cons_append, ihl hl hb, Inference.sites,
      precedesUnary_reverse hl before, if_neg (by decide), hleft, hright, ihr hr rfl]
    simp only [bind, Except.bind, hlast, hfirst, List.reverse_cons, List.reverse_append,
      List.append_assoc, List.cons_append, List.nil_append]
    cases Inference.sites (right.terms.reverse ++ Term.operator op :: (left.terms.reverse ++ before))
      rest <;> simp [Except.map, pure, Except.pure, sites]
  | group b inside ih =>
    have hi : inside.FollowsGo := ht
    have hgroup := groupLength_group (b := b) hi rest
    rw [terms, List.cons_append] at hgroup ⊢
    rw [Inference.sites, hgroup, sites, map_nil_append]
    dsimp only
    rw [List.length_cons, Nat.add_sub_cancel, List.take_left, List.drop_left, List.reverse_cons,
      List.append_assoc]
    rfl

/-! ### Brackets around a whole tree -/

theorem length_first_le (t : Tree) : t.first.terms.length ≤ t.terms.length := by
  induction t with
  | binary op left right ih =>
    refine Nat.le_trans ih ?_
    rw [terms, List.length_append]
    exact Nat.le_add_right _ _
  | leaf | unary | group => exact Nat.le_refl _

/-- If the terms of a tree start with a bracket, it closes at the end of the first operand. -/
theorem groupLength_first {t : Tree} (ht : t.FollowsGo) {b : Bracket} {rest : List Term}
    (h : t.terms = .opening b :: rest) :
    groupLength 0 (.opening b :: rest) = some t.first.terms.length := by
  have hlength := (operandLength_terms ht []).1
  rw [List.append_nil, h, operandLength] at hlength
  split at hlength
  · next n hn =>
    cases hlength
    exact hn
  · cases hlength

/-- The brackets around all terms of a tree are those around the whole tree. -/
theorem stripGroups_terms {t : Tree} (ht : t.FollowsGo) : stripGroups t.terms = t.strip.terms := by
  induction t with
  | leaf term =>
    refine stripGroups.eq_2 _ fun b rest hts => ?_
    rw [terms, List.cons.injEq] at hts
    obtain ⟨rfl, -⟩ := hts
    cases ht
  | unary op operand => exact stripGroups.eq_2 _ fun b rest hts => by cases hts
  | binary op left right =>
    change stripGroups _ = (binary op left right).terms
    by_cases hopen : ∃ b rest, (binary op left right).terms = .opening b :: rest
    · obtain ⟨b, rest, hts⟩ := hopen
      have hlong : left.first.terms.length < rest.length + 1 := by
        have htotal := congrArg List.length hts
        have hfirst := length_first_le left
        rw [terms, List.length_append, List.length_cons, List.length_cons] at htotal
        omega
      have hne : ¬ groupLength 0 (.opening b :: rest) = some (rest.length + 1) := by
        rw [groupLength_first ht hts, Option.some.injEq]
        exact Nat.ne_of_lt hlong
      rw [hts, stripGroups, if_neg hne]
    · exact stripGroups.eq_2 _ fun b rest hts => hopen ⟨b, rest, hts⟩
  | group b inside ih =>
    have hi : inside.FollowsGo := ht
    have hgroup := groupLength_group (b := b) hi []
    rw [List.append_nil, terms, List.length_cons] at hgroup
    rw [terms, stripGroups, if_pos hgroup, List.dropLast_concat, ih hi]
    rfl

end Tree

end StellaGo
