import StellaGo.Proofs.Operands
import StellaGo.Proofs.Results
import StellaGo.Proofs.TokenOrder

/-! Types of parse trees. The inference types an operator on the operands next to it and asks all
results to agree, whatever binds more tightly. Proved: for an accepted expression this is the type
of its reading under Go's grammar, unless a comparison is compared again with something that is no
bool; then the reading has no type at all. -/

namespace StellaGo

open Inference

namespace Operator

def isComparison : Operator → Bool
  | equal | unequal | less | greater | lessEqual | greaterEqual => true
  | _ => false

end Operator

namespace Tree

/-- The type of a tree, each operator applied to the types of its whole operands. -/
def type : Tree → Check Primitive
  | leaf term =>
    match term.valueType? with
    | some type => .ok type
    | none => .error .noValue
  | unary op operand => do unaryResult op (← operand.type)
  | binary op left right => do binaryResult op (← left.type) (← right.type)
  | group _ inside => inside.type

def isComparison : Tree → Bool
  | binary op _ _ => op.isComparison
  | _ => false

/-- Where a comparison is compared again, it is compared with a bool. -/
def ChainsBools : Tree → Prop
  | leaf _ => True
  | unary _ operand => operand.ChainsBools
  | binary op left right =>
    left.ChainsBools ∧ right.ChainsBools ∧
      (op.isComparison → left.isComparison → right.type = .ok .bool)
  | group _ inside => inside.ChainsBools

/-- The tree has the type that was inferred if it chains bools only, and no type otherwise. -/
def AgreesWith (t : Tree) (type : Primitive) : Prop :=
  (t.ChainsBools → t.type = .ok type) ∧ (¬ t.ChainsBools → ∀ other, t.type ≠ .ok other)

end Tree

/-! ### Operators -/

namespace Inference

theorem eq_of_unaryResult {op : Operator} {operand result : Primitive}
    (h : unaryResult op operand = .ok result) : result = operand := by
  cases op <;> cases operand <;> cases h <;> rfl

theorem eq_of_binaryResult {op : Operator} {left right result : Primitive}
    (h : binaryResult op left right = .ok result) : left = right := by
  cases op <;> cases left <;> cases right <;> first | rfl | cases h

/-- Operators that are no comparisons keep the type of their operands. -/
theorem eq_of_binaryResult_self {op : Operator} {operand result : Primitive}
    (hop : op.isComparison = false) (h : binaryResult op operand operand = .ok result) :
    result = operand := by
  cases op <;> cases operand <;> simp_all [Operator.isComparison, binaryResult, arithmeticResult,
    Primitive.isNumeric]

/-- No operator that binds more tightly than comparisons yields a bool. -/
theorem isComparison_of_bool {op : Operator} {operand : Primitive} (hop : 3 ≤ op.precedence)
    (h : binaryResult op operand operand = .ok .bool) : op.precedence = 3 ∧ op.isComparison := by
  cases op <;> first
    | exact ⟨rfl, rfl⟩
    | exact absurd hop (by decide)
    | (cases operand <;> cases h)

end Inference

namespace Tree

/-! ### Inference on the terms of a tree -/

/-- How the terms of a tree with an operator at its root came to have a type. -/
theorem sites_of_infer {t : Tree} {type : Primitive} (ht : t.FollowsGo) (hs : t.strip = t)
    (hlong : 2 ≤ t.terms.length) (h : infer t.terms = .ok type) :
    ∃ final : Results, (∀ site ∈ t.sites, site.Recorded final) ∧
      ((∀ site ∈ t.sites, site.isBinary = false) → final.binary = []) ∧
      final.type = .ok type := by
  have hstrip : stripGroups t.terms = t.terms := by rw [stripGroups_terms ht, hs]
  rcases infer_eq_ok h with ⟨term, hone, -⟩ | ⟨found, final, -, hfound, hall, hnone, htype⟩
  · rw [hstrip] at hone
    rw [hone] at hlong
    exact absurd hlong (by simp)
  · have hsites := sites_terms ht (show Term.precedesUnary ([] : List Term).head? from rfl) []
    rw [hstrip, ← List.append_nil t.terms, hsites, Inference.sites] at hfound
    obtain rfl : t.sites ++ [] = found := by cases hfound; rfl
    rw [List.append_nil] at hall hnone
    exact ⟨final, hall, hnone, htype⟩

theorem isBinary_of_mem_sites {t : Tree} (ht : t.FollowsGo) (hl : 6 ≤ t.level) :
    ∀ site ∈ t.sites, site.isBinary = false := by
  induction t with
  | leaf | group => intro site hs; cases hs
  | unary op operand ih =>
    intro site hs
    rcases List.mem_cons.1 hs with rfl | hs
    · rfl
    · exact ih ht.2.2 ht.2.1 site hs
  | binary op left right =>
    have := op.precedence_le
    simp only [level] at hl
    omega

theorem infer_leaf {term : Term} {type : Primitive} (ht : (leaf term).FollowsGo)
    (h : infer (leaf term).terms = .ok type) : (leaf term).type = .ok type := by
  have hstrip : stripGroups [term] = [term] := stripGroups_terms ht
  rcases infer_eq_ok h with ⟨single, hone, hvalue⟩ | ⟨_, _, hlong, -⟩
  · rw [terms, hstrip] at hone
    cases hone
    rw [Tree.type, hvalue]
  · rw [terms, hstrip] at hlong
    exact absurd hlong (by simp)

/-- A prefix operator keeps the type of its operand. -/
theorem infer_unary {op : Operator} {operand : Tree} {type : Primitive}
    (ht : (unary op operand).FollowsGo) (h : infer (unary op operand).terms = .ok type) :
    infer operand.terms = .ok type ∧ unaryResult op type = .ok type := by
  have hlong : 2 ≤ (unary op operand).terms.length := by
    have := List.length_pos_iff.2 operand.terms_ne_nil
    simp only [terms, List.length_cons]
    omega
  obtain ⟨final, hall, hnone, htype⟩ := sites_of_infer ht rfl hlong h
  have hbinary := hnone (isBinary_of_mem_sites ht (Nat.le_refl 6))
  obtain ⟨inner, result, hinner, hresult, hmem⟩ := hall _ List.mem_cons_self
  have hunary : final.unary = [type] := by
    rcases Results.type_eq_ok htype with hb | ⟨-, hu⟩
    · rw [hbinary] at hb
      cases hb
    · exact hu
  rw [hunary, List.mem_singleton] at hmem
  obtain rfl := eq_of_unaryResult hresult
  subst hmem
  exact ⟨hinner, hresult⟩

/-- The results of the operators between two operands are the type of the row. -/
theorem infer_binary {op : Operator} {left right : Tree} {type : Primitive}
    (ht : (binary op left right).FollowsGo) (h : infer (binary op left right).terms = .ok type) :
    ∃ final : Results, (∀ site ∈ (binary op left right).sites, site.Recorded final) ∧
      final.binary = [type] := by
  have hlong : 2 ≤ (binary op left right).terms.length := by
    have := List.length_pos_iff.2 left.terms_ne_nil
    simp only [terms, List.length_append, List.length_cons]
    omega
  obtain ⟨final, hall, -, htype⟩ := sites_of_infer ht rfl hlong h
  refine ⟨final, hall, ?_⟩
  rcases Results.type_eq_ok htype with hb | ⟨hb, -⟩
  · exact hb
  · obtain ⟨-, ⟨_, _, result, -, -, -, -, hmem⟩, -⟩ := forall_sites_binary.1 hall
    rw [hb] at hmem
    cases hmem

/-- All operands of a row are of the type of the first one. -/
theorem infer_last {t : Tree} {final : Results} {operand : Primitive} (ht : t.FollowsGo)
    (hall : ∀ site ∈ t.sites, site.Recorded final) (h : infer t.first.terms = .ok operand) :
    infer t.last.terms = .ok operand := by
  induction t generalizing operand with
  | leaf | group => exact h
  | unary op inner ih =>
    refine ih ht.2.2 (fun site hs => hall site (List.mem_cons_of_mem _ hs)) ?_
    rw [first_eq_self ht.2.1]
    exact (infer_unary ht h).1
  | binary op left right ihl ihr =>
    obtain ⟨-, -, -, hl, hr⟩ := ht
    obtain ⟨hallLeft, ⟨leftType, rightType, result, hleft, hright, -, hresult, -⟩, hallRight⟩ :=
      forall_sites_binary.1 hall
    rw [ihl hl hallLeft h] at hleft
    cases hleft
    obtain rfl := eq_of_binaryResult hresult
    exact ihr hr hallRight hright

/-! ### Types of whole operands -/

theorem AgreesWith.unary {op : Operator} {operand : Tree} {type : Primitive}
    (h : operand.AgreesWith type) (hop : unaryResult op type = .ok type) :
    (Tree.unary op operand).AgreesWith type := by
  constructor
  · intro hc
    rw [Tree.type, h.1 hc]
    exact hop
  · intro hc other hother
    unfold Tree.type at hother
    obtain ⟨inner, hinner, -⟩ := Check.bind_eq_ok_iff.1 hother
    exact h.2 hc inner hinner

theorem type_binary_eq_ok {op : Operator} {left right : Tree} {type : Primitive}
    (h : (binary op left right).type = .ok type) :
    ∃ leftType rightType, left.type = .ok leftType ∧ right.type = .ok rightType ∧
      binaryResult op leftType rightType = .ok type := by
  unfold Tree.type at h
  obtain ⟨leftType, hleft, h⟩ := Check.bind_eq_ok_iff.1 h
  obtain ⟨rightType, hright, h⟩ := Check.bind_eq_ok_iff.1 h
  exact ⟨leftType, rightType, hleft, hright, h⟩

/-- An operator whose operands are of the types that it is applied to. -/
theorem AgreesWith.binary {op : Operator} {left right : Tree} {leftType rightType type : Primitive}
    (hl : left.AgreesWith leftType) (hr : right.AgreesWith rightType)
    (hop : binaryResult op leftType rightType = .ok type)
    (hfree : ¬ (op.isComparison ∧ left.isComparison)) : (Tree.binary op left right).AgreesWith type := by
  constructor
  · rintro ⟨hcl, hcr, -⟩
    rw [Tree.type, hl.1 hcl, hr.1 hcr]
    exact hop
  · intro hc other hother
    obtain ⟨leftType', rightType', hleft, hright, -⟩ := type_binary_eq_ok hother
    have hcl : left.ChainsBools := by
      by_contra hcl
      exact hl.2 hcl _ hleft
    have hcr : right.ChainsBools := by
      by_contra hcr
      exact hr.2 hcr _ hright
    exact hc ⟨hcl, hcr, fun h1 h2 => absurd ⟨h1, h2⟩ hfree⟩

/-- A comparison that is compared again. -/
theorem AgreesWith.chain {op : Operator} {left right : Tree} {operand : Primitive}
    (hl : left.AgreesWith .bool) (hr : right.AgreesWith operand)
    (hop : binaryResult op operand operand = .ok .bool) (hcmp : op.isComparison)
    (hleft : left.isComparison) : (Tree.binary op left right).AgreesWith .bool := by
  constructor
  · rintro ⟨hcl, hcr, hbool⟩
    have hright := hr.1 hcr
    rw [hbool hcmp hleft] at hright
    cases hright
    rw [Tree.type, hl.1 hcl, hr.1 hcr]
    exact hop
  · intro hc other hother
    obtain ⟨leftType, rightType, hlt, hrt, hresult⟩ := type_binary_eq_ok hother
    have hcl : left.ChainsBools := by
      by_contra hcl
      exact hl.2 hcl _ hlt
    have hcr : right.ChainsBools := by
      by_contra hcr
      exact hr.2 hcr _ hrt
    obtain rfl := eq_of_binaryResult hresult
    rw [hl.1 hcl] at hlt
    cases hlt
    exact hc ⟨hcl, hcr, fun _ _ => hrt⟩

/-- The type that the inference gives to the operands of a tree, or to the tree as an operand. -/
def rowType (type operand : Primitive) : Tree → Primitive
  | .binary _ _ _ => type
  | _ => operand

/-- Two rows joined by an operator, with the common type of their operands. -/
theorem agreesWith_binary {op : Operator} {left right : Tree} {type operand : Primitive}
    (ht : (binary op left right).FollowsGo)
    (hl : left.AgreesWith (left.rowType type operand))
    (hr : right.AgreesWith (right.rowType type operand))
    (hlroot : ∀ op' l r, left = .binary op' l r → binaryResult op' operand operand = .ok type)
    (hrroot : ∀ op' l r, right = .binary op' l r → binaryResult op' operand operand = .ok type)
    (hop : binaryResult op operand operand = .ok type) : (binary op left right).AgreesWith type := by
  obtain ⟨-, hleft, hright, -, -⟩ := ht
  cases hcmp : op.isComparison with
  | false =>
    obtain rfl := eq_of_binaryResult_self hcmp hop
    have hsame : ∀ t : Tree, t.rowType type type = type := fun t => by cases t <;> rfl
    rw [hsame] at hl hr
    exact hl.binary hr hop (by simp [hcmp])
  | true =>
    obtain ⟨hprec, rfl⟩ : op.precedence = 3 ∧ type = .bool := by
      cases op <;> cases operand <;> cases hcmp <;> cases hop <;> exact ⟨rfl, rfl⟩
    rw [hprec] at hleft hright
    -- a row on the right binds more tightly than comparisons, so it would be no bool
    have hrow : right.rowType .bool operand = operand := by
      cases right with
      | binary op' l r =>
        have := (isComparison_of_bool (Nat.le_of_lt hright) (hrroot op' l r rfl)).1
        simp only [level] at hright
        omega
      | leaf | unary | group => rfl
    rw [hrow] at hr
    cases left with
    | binary op' l r =>
      have hcmp' := (isComparison_of_bool hleft (hlroot op' l r rfl)).2
      exact hl.chain hr hop hcmp hcmp'
    | leaf | unary | group => exact hl.binary hr hop (by simp [isComparison])

/-- The terms of a tree have the type of the tree. The second part is about a row whose operators
were typed with one result, on operands of one type. -/
theorem agreesWith_of_infer {t : Tree} (ht : t.FollowsGo) :
    (∀ type, infer t.terms = .ok type → t.AgreesWith type) ∧
      ∀ (final : Results) (type operand : Primitive), (∀ site ∈ t.sites, site.Recorded final) →
        final.binary = [type] → infer t.last.terms = .ok operand →
        t.AgreesWith (t.rowType type operand) ∧
          ∀ op l r, t = .binary op l r → binaryResult op operand operand = .ok type := by
  induction t with
  | leaf term =>
    have hself : ∀ type, infer (leaf term).terms = .ok type → (leaf term).AgreesWith type :=
      fun type h => ⟨fun _ => infer_leaf ht h, fun hc => absurd trivial hc⟩
    exact ⟨hself, fun _ _ operand _ _ h => ⟨hself operand h, nofun⟩⟩
  | group b inside ih =>
    have hself : ∀ type, infer (group b inside).terms = .ok type →
        (group b inside).AgreesWith type := by
      intro type h
      rw [infer_congr ((stripGroups_terms ht).trans (stripGroups_terms (t := inside) ht).symm)] at h
      exact (ih ht).1 type h
    exact ⟨hself, fun _ _ operand _ _ h => ⟨hself operand h, nofun⟩⟩
  | unary op inner ih =>
    have hself : ∀ type, infer (unary op inner).terms = .ok type →
        (unary op inner).AgreesWith type := by
      intro type h
      obtain ⟨hinner, hop⟩ := infer_unary ht h
      exact ((ih ht.2.2).1 type hinner).unary hop
    refine ⟨hself, fun final type operand hall hf h => ⟨?_, nofun⟩⟩
    obtain ⟨innerType, result, hinner, hresult, -⟩ := hall _ List.mem_cons_self
    obtain rfl := eq_of_unaryResult hresult
    have hlast := infer_last ht.2.2 (fun site hs => hall site (List.mem_cons_of_mem _ hs))
      (by rwa [first_eq_self ht.2.1])
    rw [last, hlast] at h
    cases h
    exact ((ih ht.2.2).1 _ hinner).unary hresult
  | binary op left right ihl ihr =>
    have ⟨_, _, _, hfl, hfr⟩ := ht
    have hrow : ∀ (final : Results) (type operand : Primitive),
        (∀ site ∈ (binary op left right).sites, site.Recorded final) → final.binary = [type] →
        infer (binary op left right).last.terms = .ok operand →
        (binary op left right).AgreesWith type ∧ binaryResult op operand operand = .ok type := by
      intro final type operand hall hf h
      obtain ⟨hleft, ⟨leftType, rightType, result, hlast, hfirst, -, hresult, hmem⟩, hright⟩ :=
        forall_sites_binary.1 hall
      rw [hf, List.mem_singleton] at hmem
      subst hmem
      obtain rfl := eq_of_binaryResult hresult
      have hend := infer_last hfr hright hfirst
      rw [last, hend] at h
      cases h
      obtain ⟨hl, hlroot⟩ := (ihl hfl).2 final result operand hleft hf hlast
      obtain ⟨hr, hrroot⟩ := (ihr hfr).2 final result operand hright hf hend
      exact ⟨agreesWith_binary ht hl hr hlroot hrroot hresult, hresult⟩
    refine ⟨fun type h => ?_, fun final type operand hall hf h => ?_⟩
    · obtain ⟨final, hall, hf⟩ := infer_binary ht h
      obtain ⟨-, ⟨_, operand, _, -, hfirst, -, -, -⟩, hright⟩ := forall_sites_binary.1 hall
      have hend := infer_last hfr hright hfirst
      exact (hrow final type operand hall hf hend).1
    · obtain ⟨htype, hroot⟩ := hrow final type operand hall hf h
      refine ⟨htype, fun op' l r heq => ?_⟩
      cases heq
      exact hroot

end Tree

/-- An accepted expression has one reading under Go's grammar. If every comparison that is compared
again is compared with a bool, the reading is well typed at every node and has the type of the
expression; otherwise it is ill typed. -/
theorem Expression.type_reading {symbols : Symbols} {text : Text} {e : Expression}
    (h : expression symbols text = .ok e) :
    (∃! t : Tree, t.FollowsGo ∧ t.terms = e.terms) ∧
      ∀ t : Tree, t.FollowsGo → t.terms = e.terms →
        (t.ChainsBools → t.type = .ok e.type) ∧ (¬ t.ChainsBools → ∀ type, t.type ≠ .ok type) := by
  refine ⟨existsUnique_tree h, fun t ht hts => ?_⟩
  obtain ⟨-, -, -, -, -, htype⟩ := expression_eq_ok_iff.1 h
  exact (Tree.agreesWith_of_infer ht).1 e.type (hts ▸ htype)

theorem Expression.type_reading_and :
    ∃ e, expression .empty "(1 == 2) && !(2 < 1)".toList = .ok e ∧
      (∃! t : Tree, t.FollowsGo ∧ t.terms = e.terms) ∧
      ∀ t : Tree, t.FollowsGo → t.terms = e.terms →
        (t.ChainsBools → t.type = .ok e.type) ∧ (¬ t.ChainsBools → ∀ type, t.type ≠ .ok type) := by
  have haccepted : (expression .empty "(1 == 2) && !(2 < 1)".toList).isOk := by decide +kernel
  obtain ⟨e, h⟩ := Check.isOk_iff.1 haccepted
  exact ⟨e, h, type_reading h⟩

/-- An accepted row of comparisons whose reading compares a bool with an int. -/
theorem Expression.comparison_chain_ill_typed :
    ∃ (e : Expression) (t : Tree), expression .empty "1 == 1 == 1".toList = .ok e ∧
      e.type = .bool ∧ t.FollowsGo ∧ t.terms = e.terms ∧ ∀ type, t.type ≠ .ok type := by
  let one := Term.literal "1".toList .int
  refine ⟨⟨[one, .operator .equal, one, .operator .equal, one], .bool⟩,
    .binary .equal (.binary .equal (.leaf one) (.leaf one)) (.leaf one),
    expression_eq_ok_iff.2 ⟨["1".toList, "==".toList, "1".toList, "==".toList, "1".toList],
      by decide +kernel, by decide, by decide +kernel, ?_, by decide +kernel⟩, rfl, ?_, rfl, nofun⟩
  · have hone : term .empty "1".toList = .ok one := rfl
    have heq : term .empty "==".toList = .ok (.operator .equal) := rfl
    simp only [List.forall₂_cons, List.forall₂_nil_left_iff, hone, heq, and_self]
  · simp only [Tree.FollowsGo, one, Term.isOperand]
    decide

end StellaGo
