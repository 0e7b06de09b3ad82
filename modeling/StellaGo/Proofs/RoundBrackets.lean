import StellaGo.Go.Expression
import StellaGo.Placement
import StellaGo.Proofs.Results
import StellaGo.Proofs.TokenOrder

/-! Grouping brackets. Defined here: a checked piece with each of its grouping brackets written as a
round one, at every depth. Proved: such a piece has the same Go text and the same type, since neither
the renderer nor the inference looks at the kind of a grouping bracket. -/

namespace StellaGo

mutual

def Term.rounded : Term → Term
  | .opening _ => .opening .round
  | .closing _ => .closing .round
  | .call c => .call (Call.rounded c)
  | .element i => .element (Indexing.rounded i)
  | .literal text type => .literal text type
  | .scalar name type => .scalar name type
  | .field f => .field f
  | .operator op => .operator op

def roundedTerms : List Term → List Term
  | [] => []
  | t :: rest => Term.rounded t :: roundedTerms rest

def Expression.rounded : Expression → Expression
  | ⟨terms, type⟩ => ⟨roundedTerms terms, type⟩

def roundedExpressions : List Expression → List Expression
  | [] => []
  | e :: rest => Expression.rounded e :: roundedExpressions rest

def Call.rounded : Call → Call
  | ⟨name, arguments, returns⟩ => ⟨name, roundedValues arguments, returns⟩

def Indexing.rounded : Indexing → Indexing
  | ⟨name, indices, type⟩ => ⟨name, roundedExpressions indices, type⟩

def Value.rounded : Value → Value
  | .scalar e => .scalar (Expression.rounded e)
  | .arrayLiteral type items => .arrayLiteral type (roundedItems items)
  | .tupleLiteral type fields => .tupleLiteral type (roundedExpressions fields)
  | .whole name type => .whole name type
  | .call c => .call (Call.rounded c)

def roundedValues : List Value → List Value
  | [] => []
  | v :: rest => Value.rounded v :: roundedValues rest

def Item.rounded : Item → Item
  | .scalar e => .scalar (Expression.rounded e)
  | .row items => .row (roundedItems items)

def roundedItems : List Item → List Item
  | [] => []
  | i :: rest => Item.rounded i :: roundedItems rest

end

theorem roundedTerms_eq_map (ts : List Term) : roundedTerms ts = ts.map Term.rounded := by
  induction ts with
  | nil => rfl
  | cons t rest ih => rw [roundedTerms, ih, List.map_cons]

theorem roundedExpressions_eq_map (es : List Expression) :
    roundedExpressions es = es.map Expression.rounded := by
  induction es with
  | nil => rfl
  | cons e rest ih => rw [roundedExpressions, ih, List.map_cons]

theorem roundedValues_eq_map (vs : List Value) : roundedValues vs = vs.map Value.rounded := by
  induction vs with
  | nil => rfl
  | cons v rest ih => rw [roundedValues, ih, List.map_cons]

@[simp]
theorem Expression.terms_rounded (e : Expression) : e.rounded.terms = e.terms.map Term.rounded := by
  obtain ⟨terms, type⟩ := e
  rw [Expression.rounded, roundedTerms_eq_map]

@[simp]
theorem Expression.type_rounded (e : Expression) : e.rounded.type = e.type := by
  obtain ⟨terms, type⟩ := e
  rw [Expression.rounded]

@[simp]
theorem Call.returns_rounded (c : Call) : c.rounded.returns = c.returns := by
  obtain ⟨name, arguments, returns⟩ := c
  rw [Call.rounded]

@[simp]
theorem Term.valueType?_rounded (t : Term) : t.rounded.valueType? = t.valueType? := by
  cases t with
  | call c => rw [Term.rounded, valueType?, valueType?, Call.returns_rounded]
  | element i =>
    obtain ⟨name, indices, type⟩ := i
    rw [Term.rounded, Indexing.rounded, valueType?, valueType?]
  | _ => rw [Term.rounded] <;> rfl

theorem Term.rounded_eq_literal_iff {t : Term} {text : Text} {type : Primitive} :
    t.rounded = .literal text type ↔ t = .literal text type := by
  cases t <;> simp [rounded]

theorem Term.rounded_eq_operator_iff {t : Term} {op : Operator} :
    t.rounded = .operator op ↔ t = .operator op := by
  cases t <;> simp [rounded]

/-- An int literal, with or without a `-` before it, stays as it is. -/
theorem Expression.constant?_rounded (e : Expression) : e.rounded.constant? = e.constant? := by
  unfold constant?
  rw [terms_rounded]
  split
  · next digits h =>
    obtain ⟨t, hterms, ht⟩ := List.map_eq_singleton_iff.1 h
    rw [hterms, Term.rounded_eq_literal_iff.1 ht]
  · next digits h =>
    obtain ⟨t, rest, hterms, ht, hrest⟩ := List.map_eq_cons_iff.1 h
    obtain ⟨u, rfl, hu⟩ := List.map_eq_singleton_iff.1 hrest
    rw [hterms, Term.rounded_eq_operator_iff.1 ht, Term.rounded_eq_literal_iff.1 hu]
  · next hliteral hminus =>
    split
    · next digits h => exact absurd (by rw [h]; rfl) (hliteral digits)
    · next digits h => exact absurd (by rw [h]; rfl) (hminus digits)
    · rfl

/-! ### Go text -/

namespace Go

mutual

theorem term_rounded : (t : Term) → term t.rounded = term t
  | .call c => by rw [Term.rounded, term, term, call_rounded c]
  | .element i => by rw [Term.rounded, term, term, indexing_rounded i]
  | .opening _ | .closing _ => by rw [Term.rounded, term, term]
  | .literal _ _ | .scalar _ _ | .field _ | .operator _ => by rw [Term.rounded]

theorem terms_rounded : (unary glued : Bool) → (ts : List Term) →
    terms unary glued (roundedTerms ts) = terms unary glued ts
  | _, _, [] => rfl
  | unary, glued, t :: rest => by
    have hclosing : t.rounded.isClosing = t.isClosing := by cases t <;> rfl
    have hopening : t.rounded.isOpening = t.isOpening := by cases t <;> rfl
    have hoperator : t.rounded.isOperator = t.isOperator := by cases t <;> rfl
    rw [roundedTerms, terms, terms, term_rounded t, hclosing, hopening, hoperator,
      terms_rounded _ _ rest]

theorem expression_rounded : (e : Expression) → expression e.rounded = expression e
  | ⟨ts, _⟩ => by rw [Expression.rounded, expression, expression, terms_rounded true true ts]

theorem brackets_rounded : (es : List Expression) → brackets (roundedExpressions es) = brackets es
  | [] => rfl
  | e :: rest => by
    rw [roundedExpressions, brackets, brackets, expression_rounded e, brackets_rounded rest]

theorem call_rounded : (c : Call) → call c.rounded = call c
  | ⟨_, arguments, _⟩ => by rw [Call.rounded, call, call, values_rounded arguments]

theorem indexing_rounded : (i : Indexing) → indexing i.rounded = indexing i
  | ⟨_, indices, _⟩ => by rw [Indexing.rounded, indexing, indexing, brackets_rounded indices]

theorem namedFields_rounded : (position : Nat) → (es : List Expression) →
    namedFields position (roundedExpressions es) = namedFields position es
  | _, [] => rfl
  | position, e :: rest => by
    rw [roundedExpressions, namedFields, namedFields, expression_rounded e,
      namedFields_rounded (position + 1) rest]

theorem value_rounded : (v : Value) → value v.rounded = value v
  | .scalar e => by rw [Value.rounded, value, value, expression_rounded e]
  | .arrayLiteral _ items => by rw [Value.rounded, value, value, rows_rounded items]
  | .tupleLiteral _ fields => by rw [Value.rounded, value, value, namedFields_rounded 0 fields]
  | .whole _ _ => by rw [Value.rounded]
  | .call c => by rw [Value.rounded, value, value, call_rounded c]

theorem values_rounded : (vs : List Value) → values (roundedValues vs) = values vs
  | [] => rfl
  | v :: rest => by rw [roundedValues, values, values, value_rounded v, values_rounded rest]

theorem item_rounded : (i : Item) → item i.rounded = item i
  | .scalar e => by rw [Item.rounded, item, item, expression_rounded e]
  | .row items => by rw [Item.rounded, item, item, rows_rounded items]

theorem rows_rounded : (is : List Item) → rows (roundedItems is) = rows is
  | [] => rfl
  | i :: rest => by rw [roundedItems, rows, rows, item_rounded i, rows_rounded rest]

end

end Go

/-! ### Types -/

namespace Inference

theorem groupLength_rounded (depth : Nat) (ts : List Term) :
    groupLength depth (ts.map Term.rounded) = groupLength depth ts := by
  induction ts generalizing depth with
  | nil => rfl
  | cons t rest ih => cases t <;> simp only [List.map_cons, Term.rounded, groupLength, ih]

theorem groupLengthBack_rounded (depth : Nat) (ts : List Term) :
    groupLengthBack depth (ts.map Term.rounded) = groupLengthBack depth ts := by
  induction ts generalizing depth with
  | nil => rfl
  | cons t rest ih => cases t <;> simp only [List.map_cons, Term.rounded, groupLengthBack, ih]

theorem stripGroups_rounded (ts : List Term) :
    stripGroups (ts.map Term.rounded) = (stripGroups ts).map Term.rounded := by
  fun_induction stripGroups ts with
  | case1 b rest h ih =>
    have hlength := groupLength_rounded 0 (.opening b :: rest)
    rw [h, List.map_cons, Term.rounded, ← List.length_map (f := Term.rounded)] at hlength
    rw [List.map_cons, Term.rounded, stripGroups, if_pos hlength, ← List.map_dropLast, ih]
  | case2 b rest h =>
    have hlength := groupLength_rounded 0 (.opening b :: rest)
    rw [List.map_cons, Term.rounded] at hlength
    rw [← hlength, ← List.length_map (f := Term.rounded)] at h
    rw [List.map_cons, Term.rounded, stripGroups, if_neg h]
  | case3 ts h =>
    rw [stripGroups.eq_2 _ fun b rest heq => ?_]
    obtain ⟨t, others, rfl, ht, -⟩ := List.map_eq_cons_iff.1 heq
    cases t with
    | opening b => exact h b others rfl
    | _ => simp [Term.rounded] at ht

theorem operandLength_rounded (ts : List Term) :
    operandLength (ts.map Term.rounded) = operandLength ts := by
  induction ts with
  | nil => rfl
  | cons t rest ih =>
    cases t with
    | opening b =>
      have hlength := groupLength_rounded 0 (.opening b :: rest)
      rw [List.map_cons, Term.rounded] at hlength ⊢
      rw [operandLength, operandLength, hlength]
    | operator op => rw [List.map_cons, Term.rounded, operandLength, operandLength, ih]
    | _ => rfl

theorem operandLengthBack_rounded (ts : List Term) :
    operandLengthBack (ts.map Term.rounded) = operandLengthBack ts := by
  cases ts with
  | nil => rfl
  | cons t rest =>
    cases t with
    | closing b =>
      have hlength := groupLengthBack_rounded 0 (.closing b :: rest)
      rw [List.map_cons, Term.rounded] at hlength ⊢
      rw [operandLengthBack, operandLengthBack, hlength]
    | _ => rfl

theorem isZero_rounded (ts : List Term) : isZero (ts.map Term.rounded) = isZero ts := by
  unfold isZero
  rw [stripGroups_rounded]
  split
  · next digits type h =>
    obtain ⟨t, hterms, ht⟩ := List.map_eq_singleton_iff.1 h
    rw [hterms, Term.rounded_eq_literal_iff.1 ht]
  · next hliteral =>
    split
    · next digits type h => exact absurd (by rw [h]; rfl) (hliteral digits type)
    · rfl

/-- An operator with the brackets in its operands written as round ones. -/
def Site.rounded : Site → Site
  | unary op operand => unary op (operand.map Term.rounded)
  | binary op left right => binary op (left.map Term.rounded) (right.map Term.rounded)

theorem precedesUnary_rounded (ts : List Term) :
    Term.precedesUnary (ts.map Term.rounded).head? = Term.precedesUnary ts.head? := by
  cases ts with
  | nil => rfl
  | cons t rest => cases t <;> rfl

theorem sites_rounded (before ts : List Term) :
    sites (before.map Term.rounded) (ts.map Term.rounded) =
      (sites before ts).map (List.map Site.rounded) := by
  fun_induction sites before ts with
  | case1 before =>
    rw [List.map_nil, sites]
    rfl
  | case2 before b rest h =>
    have hlength := groupLength_rounded 0 (.opening b :: rest)
    rw [h, List.map_cons, Term.rounded] at hlength
    rw [List.map_cons, Term.rounded, sites, hlength]
    rfl
  | case3 before b rest n h ih =>
    have hlength := groupLength_rounded 0 (.opening b :: rest)
    rw [h, List.map_cons, Term.rounded] at hlength
    rw [List.map_cons, Term.rounded, sites, hlength]
    dsimp only
    rw [← ih, List.map_append, List.map_reverse, List.map_take, List.map_cons, Term.rounded,
      List.map_drop]
  | case4 before op rest h ih =>
    rw [List.map_cons, Term.rounded, sites, precedesUnary_rounded, if_pos h, operandLength_rounded]
    rw [List.map_cons, Term.rounded] at ih
    cases operandLength rest with
    | error fault => rfl
    | ok n =>
      change (sites _ _ >>= _) = Except.map _ (sites _ _ >>= _)
      rw [ih]
      cases sites (.operator op :: before) rest with
      | error fault => rfl
      | ok others =>
        rw [← List.map_take]
        rfl
  | case5 before op rest h ih =>
    rw [List.map_cons, Term.rounded, sites, precedesUnary_rounded, if_neg h, operandLength_rounded,
      operandLengthBack_rounded]
    rw [List.map_cons, Term.rounded] at ih
    cases operandLengthBack before with
    | error fault => rfl
    | ok m =>
    cases operandLength rest with
    | error fault => rfl
    | ok n =>
      change (sites _ _ >>= _) = Except.map _ (sites _ _ >>= _)
      rw [ih]
      cases sites (.operator op :: before) rest with
      | error fault => rfl
      | ok others =>
        rw [← List.map_take, ← List.map_take, ← List.map_reverse]
        rfl
  | case6 before t rest hopening hoperator ih =>
    rw [List.map_cons] at ih ⊢
    cases t with
    | opening b => exact absurd rfl (hopening b)
    | operator op => exact absurd rfl (hoperator op)
    | _ =>
      rw [Term.rounded] at ih ⊢
      rw [sites, ih] <;> (intro _ heq; cases heq)

/-- The operands are typed alike, so the operators yield the same. -/
theorem siteResults_rounded {n m : Nat}
    (h : ∀ ts : List Term, ts.length < n → infer (ts.map Term.rounded) = infer ts) (results : Results)
    (found : List Site) (short : ∀ site ∈ found, site.Within n)
    (short' : ∀ site ∈ found.map Site.rounded, site.Within m) :
    siteResults (fun operand _ => infer operand) results (found.map Site.rounded) short' =
      siteResults (fun operand _ => infer operand) results found short := by
  induction found generalizing results with
  | nil => rfl
  | cons site rest ih =>
    cases site with
    | unary op operand =>
      change (infer (operand.map Term.rounded) >>= _) = (infer operand >>= _)
      rw [h operand (short _ List.mem_cons_self)]
      congr 1
      funext type
      congr 1
      funext result
      exact ih _ _ _
    | binary op left right =>
      change (infer (left.map Term.rounded) >>= fun leftType => infer (right.map Term.rounded) >>= _) =
        (infer left >>= fun leftType => infer right >>= _)
      rw [h left (short _ List.mem_cons_self).1, h right (short _ List.mem_cons_self).2, isZero_rounded]
      congr 1
      funext leftType
      congr 1
      funext rightType
      dsimp only
      split
      · rfl
      congr 1
      funext result
      exact ih _ _ _

/-- The kinds of the brackets do not matter. -/
theorem infer_rounded (ts : List Term) : infer (ts.map Term.rounded) = infer ts := by
  have hstrip := stripGroups_rounded ts
  rw [infer.eq_def ts]
  split
  · next h =>
    rw [h, List.map_nil] at hstrip
    rw [infer.eq_def, hstrip]
  · next t h =>
    rw [h, List.map_singleton] at hstrip
    rw [infer.eq_def, hstrip]
    dsimp only
    rw [Term.valueType?_rounded]
  · next first second rest h =>
    rw [h, List.map_cons, List.map_cons] at hstrip
    have hshorter : (first :: second :: rest).length ≤ ts.length := h ▸ length_stripGroups_le ts
    have hinner (operand : List Term) (hshort : operand.length < (first :: second :: rest).length) :
        infer (operand.map Term.rounded) = infer operand := infer_rounded operand
    have hsites := sites_rounded [] (first :: second :: rest)
    rw [List.map_nil, List.map_cons, List.map_cons] at hsites
    rw [infer.eq_def]
    split
    · next h' => cases h'.symm.trans hstrip
    · next h' => cases h'.symm.trans hstrip
    · next h' =>
      cases h'.symm.trans hstrip
      split
      · next fault hfault =>
        split
        · next fault' hfault' =>
          rw [hfault, hfault'] at hsites
          cases hsites
          rfl
        · next found hfound =>
          rw [hfault, hfound] at hsites
          cases hsites
      · next found hfound =>
        split
        · next fault hfault =>
          rw [hfound, hfault] at hsites
          cases hsites
        · next found' hfound' =>
          rw [hfound, hfound'] at hsites
          cases hsites
          rw [siteResults_rounded hinner]
termination_by ts.length
decreasing_by exact Nat.lt_of_lt_of_le hshort hshorter

end Inference

/-! ### Places -/

namespace Token

/-- The class of a token, with a bracket written as a round one. -/
def Class.rounded : Class → Class
  | .opening _ => .opening .round
  | .closing _ => .closing .round
  | .operator op => .operator op
  | .value => .value

end Token

theorem Term.class_rounded (t : Term) : t.rounded.class = t.class.rounded := by
  cases t <;> rw [rounded] <;> rfl

namespace Placement

open Token (classify)

theorem fits_rounded (previous : Option Token.Class) (current : Token.Class) (next : Option Token.Class) :
    fits (previous.map Token.Class.rounded) current.rounded (next.map Token.Class.rounded) =
      fits previous current next := by
  have hends : endsOperand (previous.map Token.Class.rounded) = endsOperand previous := by
    rcases previous with _ | previous
    · rfl
    · cases previous <;> rfl
  have hstarts : startsOperand (next.map Token.Class.rounded) = startsOperand next := by
    rcases next with _ | next
    · rfl
    · cases next <;> rfl
  have hfollows : followsOperand (next.map Token.Class.rounded) = followsOperand next := by
    rcases next with _ | next
    · rfl
    · cases next <;> rfl
  cases current <;> simp only [Token.Class.rounded, fits, hends, hstarts, hfollows]

/-- Where tokens fit, those with round brackets in their place do. -/
theorem check_of_rounded {previous previous' : Option Text} {tokens tokens' : List Text}
    (hp : previous'.map classify = (previous.map classify).map Token.Class.rounded)
    (h : List.Forall₂ (fun token token' => classify token' = (classify token).rounded) tokens tokens')
    (hc : check previous tokens = .ok ()) : check previous' tokens' = .ok () := by
  induction h generalizing previous previous' with
  | nil => rfl
  | @cons token token' rest rest' htoken hrest ih =>
    have hnext : rest'.head?.map classify = (rest.head?.map classify).map Token.Class.rounded := by
      cases hrest with
      | nil => rfl
      | cons hfirst _ => exact congrArg some hfirst
    rw [check] at hc ⊢
    rw [hp, htoken, hnext, fits_rounded]
    split at hc
    · next hfits =>
      have hprevious : (some token').map classify =
          ((some token).map classify).map Token.Class.rounded := congrArg some htoken
      rw [if_pos hfits]
      exact ih hprevious hc
    · cases hc

end Placement

end StellaGo
