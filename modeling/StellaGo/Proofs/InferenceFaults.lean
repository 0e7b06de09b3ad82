import StellaGo.Proofs.Offsets.Inference
import StellaGo.Proofs.Results
import StellaGo.Proofs.TokenOrder

/-! Faults of the inference. Defined here: the rows of terms that the inference is asked for while it
types the terms of an expression, when such a row is well formed, and which operator a fault came
from. Proved: where tokens fit between their neighbours and spell terms, every row is well formed,
so a row has a type, or types in it do not fit, or a divisor is zero. Nothing is ever wrong with how
a row is put together. -/

namespace StellaGo

open Offsets (exists_within_of_mem_operands infer_of_stripGroups infer_of_stripGroups_single
  length_lt_of_within operands)

namespace Inference

/-- The rows that the inference is asked for: all terms, and the operands that it finds in a row. -/
inductive Asked (terms : List Term) : List Term → Prop
  | whole : Asked terms terms
  | operand {row part : List Term} {found : List Site} {site : Site} (h : Asked terms row)
      (hlong : 2 ≤ (stripGroups row).length) (hfound : sites [] (stripGroups row) = .ok found)
      (hsite : site ∈ found) (hpart : part ∈ operands site) : Asked terms part

/-- The operator can have the operands with which it was found. -/
def Site.Placed : Site → Prop
  | .unary op _ => op.canBeUnary
  | .binary op _ _ => op.canBeBinary

/-- Without the brackets around it, a row is one term with a value, or every group in it closes and
it has operators, each with the operands that it needs. -/
structure WellFormed (row : List Term) : Prop where
  nonempty : stripGroups row ≠ []
  value : ∀ term, stripGroups row = [term] → term.valueType?.isSome
  operators : 2 ≤ (stripGroups row).length → ∃ found, sites [] (stripGroups row) = .ok found ∧
    found ≠ [] ∧ ∀ site ∈ found, site.Placed

/-! ### Faults of operators -/

/-- The fault came from typing this operator or its operands. -/
def Site.Faults (fault : Fault) : Site → Prop
  | .unary op operand =>
    infer operand = .error fault ∨ ∃ type, unaryResult op type = .error fault
  | .binary op left right =>
    infer left = .error fault ∨ infer right = .error fault ∨
      (op = .divide ∧ isZero right ∧ fault = .zeroDivisor) ∨
      ∃ leftType rightType, binaryResult op leftType rightType = .error fault

theorem siteResults_eq_error {n : Nat} {results : Results} {found : List Site} {fault : Fault}
    {short : ∀ site ∈ found, site.Within n}
    (h : siteResults (fun operand _ => infer operand) results found short = .error fault) :
    ∃ site ∈ found, site.Faults fault := by
  induction found generalizing results with
  | nil =>
    rw [siteResults.eq_def] at h
    cases h
  | cons site rest ih =>
    have hrest {results : Results} {short : ∀ site ∈ rest, site.Within n}
        (h : siteResults (fun operand _ => infer operand) results rest short = .error fault) :
        ∃ other ∈ site :: rest, other.Faults fault := by
      obtain ⟨other, hm, hf⟩ := ih h
      exact ⟨other, List.mem_cons_of_mem _ hm, hf⟩
    cases site with
    | unary op operand =>
      unfold siteResults at h
      rcases Check.bind_eq_error_iff.1 h with h | ⟨type, -, h⟩
      · exact ⟨_, List.mem_cons_self, .inl h⟩
      rcases Check.bind_eq_error_iff.1 h with h | ⟨result, -, h⟩
      · exact ⟨_, List.mem_cons_self, .inr ⟨type, h⟩⟩
      · exact hrest h
    | binary op left right =>
      unfold siteResults at h
      rcases Check.bind_eq_error_iff.1 h with h | ⟨leftType, -, h⟩
      · exact ⟨_, List.mem_cons_self, .inl h⟩
      rcases Check.bind_eq_error_iff.1 h with h | ⟨rightType, -, h⟩
      · exact ⟨_, List.mem_cons_self, .inr (.inl h)⟩
      dsimp only at h
      split at h
      · next hzero =>
        cases h
        exact ⟨_, List.mem_cons_self, .inr (.inr (.inl ⟨hzero.1, hzero.2, rfl⟩))⟩
      rcases Check.bind_eq_error_iff.1 h with h | ⟨result, -, h⟩
      · exact ⟨_, List.mem_cons_self, .inr (.inr (.inr ⟨leftType, rightType, h⟩))⟩
      · exact hrest h

theorem kind_of_unaryResult {op : Operator} {type : Primitive} {fault : Fault} (hop : op.canBeUnary)
    (h : unaryResult op type = .error fault) : fault.kind = .typeMismatch := by
  cases op <;> cases hop <;> cases type <;> cases h <;> rfl

theorem kind_of_binaryResult {op : Operator} {left right : Primitive} {fault : Fault}
    (hop : op.canBeBinary) (h : binaryResult op left right = .error fault) :
    fault.kind = .typeMismatch := by
  cases op <;> cases hop <;> cases left <;> cases right <;> cases h <;> rfl

/-- Once an operator was typed, the types of a row are one or mixed. -/
theorem kind_of_type {results : Results} {site : Site} {fault : Fault} (hs : site.Recorded results)
    (h : results.type = .error fault) : fault.kind = .mixedTypes := by
  have hsome : results.binary ≠ [] ∨ results.unary ≠ [] := by
    cases site with
    | unary op operand =>
      obtain ⟨_, _, -, -, hmem⟩ := hs
      exact .inr (List.ne_nil_of_mem hmem)
    | binary op left right =>
      obtain ⟨_, _, _, -, -, -, -, hmem⟩ := hs
      exact .inl (List.ne_nil_of_mem hmem)
  unfold Results.type at h
  split at h
  · next hnone =>
    split at hnone
    · next hbinary => exact absurd hnone (hsome.resolve_left (fun hne => hne hbinary))
    · contradiction
  · cases h
  · cases h
    rfl

end Inference

/-! ### Rows of trees -/

namespace Tree

open Inference

theorem placed_of_mem_sites {t : Tree} (ht : t.FollowsGo) : ∀ site ∈ t.sites, site.Placed := by
  induction t with
  | leaf | group => nofun
  | unary op operand ih =>
    intro site hs
    rcases List.mem_cons.1 hs with rfl | hs
    · exact ht.1
    · exact ih ht.2.2 site hs
  | binary op left right ihl ihr =>
    obtain ⟨hop, -, -, hl, hr⟩ := ht
    intro site hs
    rcases List.mem_append.1 hs with hs | hs
    · exact ihl hl site hs
    rcases List.mem_cons.1 hs with rfl | hs
    · exact hop
    · exact ihr hr site hs

/-- Without the brackets around it, a tree is one term, or it has operators outside groups. -/
theorem strip_eq_leaf_or_sites_ne_nil (t : Tree) :
    (∃ term, t.strip = leaf term) ∨ 2 ≤ t.strip.terms.length ∧ t.strip.sites ≠ [] := by
  induction t with
  | leaf term => exact .inl ⟨term, rfl⟩
  | unary op operand =>
    refine .inr ⟨?_, List.cons_ne_nil _ _⟩
    have := List.length_pos_iff.2 operand.terms_ne_nil
    simp only [strip, terms, List.length_cons]
    omega
  | binary op left right =>
    refine .inr ⟨?_, List.append_ne_nil_of_right_ne_nil _ (List.cons_ne_nil _ _)⟩
    have := List.length_pos_iff.2 left.terms_ne_nil
    simp only [strip, terms, List.length_append, List.length_cons]
    omega
  | group b inside ih => exact ih

/-- The operators that the inference finds in the terms of a tree. -/
theorem sites_stripGroups {t : Tree} (ht : t.FollowsGo) :
    Inference.sites [] (stripGroups t.terms) = .ok t.strip.sites := by
  have hsites := sites_terms (t.within_strip.follows ht) (show Term.precedesUnary [].head? from rfl) []
  rw [List.append_nil, Inference.sites] at hsites
  rw [stripGroups_terms ht, hsites]
  exact congrArg _ (List.append_nil _)

/-- Every row that the inference is asked for is spelled by a part of the tree. -/
theorem exists_within_of_asked {t : Tree} {row : List Term} (ht : t.FollowsGo)
    (h : Asked t.terms row) : ∃ u : Tree, u.Within t ∧ u.terms = row := by
  induction h with
  | whole => exact ⟨t, .self, rfl⟩
  | operand _ _ hfound hsite hpart ih =>
    obtain ⟨u, hu, rfl⟩ := ih
    rw [sites_stripGroups (hu.follows ht)] at hfound
    cases hfound
    obtain ⟨v, hv, rfl⟩ := exists_within_of_mem_operands _ hsite _ hpart
    exact ⟨v, (hv.trans u.within_strip).trans hu, rfl⟩

theorem wellFormed_terms {t : Tree} (ht : t.FollowsGo)
    (hv : ∀ term ∈ t.terms, term.isOperand → term.valueType?.isSome) : WellFormed t.terms := by
  have hf := t.within_strip.follows ht
  refine ⟨?_, fun term hone => ?_, fun hlong => ?_⟩
  · rw [stripGroups_terms ht]
    exact terms_ne_nil _
  · rw [stripGroups_terms ht] at hone
    rcases t.strip_eq_leaf_or_sites_ne_nil with ⟨only, hleaf⟩ | ⟨hlong, -⟩
    · rw [hleaf] at hf hone
      cases hone
      exact hv _ (t.within_strip.terms_subset (by rw [hleaf]; exact List.mem_cons_self)) hf
    · rw [hone] at hlong
      exact absurd hlong (by simp)
  · refine ⟨t.strip.sites, sites_stripGroups ht, ?_, placed_of_mem_sites hf⟩
    rw [stripGroups_terms ht] at hlong
    rcases t.strip_eq_leaf_or_sites_ne_nil with ⟨only, hleaf⟩ | ⟨-, hsome⟩
    · rw [hleaf] at hlong
      exact absurd hlong (by simp [terms])
    · exact hsome

/-- How the terms of a tree came to have a fault. -/
theorem infer_eq_error {t : Tree} {fault : Fault} (ht : t.FollowsGo)
    (hv : ∀ term ∈ t.terms, term.isOperand → term.valueType?.isSome)
    (h : infer t.terms = .error fault) :
    (∃ site ∈ t.strip.sites, site.Faults fault) ∨
      ∃ (site : Site) (results : Results), site.Recorded results ∧ results.type = .error fault := by
  obtain ⟨hnonempty, hvalue, -⟩ := wellFormed_terms ht hv
  have hsites := sites_stripGroups ht
  rcases hstrip : stripGroups t.terms with _ | ⟨first, _ | ⟨second, rest⟩⟩
  · exact absurd hstrip hnonempty
  · obtain ⟨type, htype⟩ := Option.isSome_iff_exists.1 (hvalue first hstrip)
    rw [infer_of_stripGroups_single hstrip, htype] at h
    cases h
  · rw [hstrip] at hsites
    have short := within_of_mem_sites hsites (Nat.le_of_eq (Nat.zero_add _))
    rw [infer_of_stripGroups hstrip hsites short] at h
    rcases Check.bind_eq_error_iff.1 h with h | ⟨results, hok, h⟩
    · exact .inl (siteResults_eq_error h)
    · obtain ⟨hall, -⟩ := siteResults_eq_ok hok
      rcases t.strip_eq_leaf_or_sites_ne_nil with ⟨only, hleaf⟩ | ⟨-, hsome⟩
      · have hone := stripGroups_terms ht
        rw [hstrip, hleaf] at hone
        cases hone
      · obtain ⟨site, hsite⟩ := List.exists_mem_of_ne_nil _ hsome
        exact .inr ⟨site, results, hall site hsite, h⟩

/-- The terms of a tree have a type, or one of three kinds of faults. The induction is on the number
of terms, since operands are cut out of the row without its brackets. -/
theorem kind_of_infer {t : Tree} {fault : Fault} (ht : t.FollowsGo)
    (hv : ∀ term ∈ t.terms, term.isOperand → term.valueType?.isSome)
    (h : infer t.terms = .error fault) :
    fault.kind ∈ [.typeMismatch, .mixedTypes, .divisionByZero] := by
  induction hn : t.terms.length using Nat.strongRecOn generalizing t with
  | ind n ih =>
    have hf := t.within_strip.follows ht
    have hlength := length_stripGroups_le t.terms
    have short := within_of_mem_sites (sites_stripGroups ht) (Nat.le_of_eq (Nat.zero_add _))
    rcases infer_eq_error ht hv h with ⟨site, hsite, hfault⟩ | ⟨site, results, hrecorded, htype⟩
    · have hplaced := placed_of_mem_sites hf site hsite
      have hoperand {operand : List Term} (hm : operand ∈ operands site)
          (h : infer operand = .error fault) :
          fault.kind ∈ [.typeMismatch, .mixedTypes, .divisionByZero] := by
        have hlt := length_lt_of_within (short site hsite) operand hm
        obtain ⟨u, hu, rfl⟩ := exists_within_of_mem_operands site hsite operand hm
        have hin := hu.trans t.within_strip
        exact ih _ (by omega) (hin.follows ht) (fun term hterm => hv term (hin.terms_subset hterm)) h
          rfl
      cases site with
      | unary op operand =>
        rcases hfault with h | ⟨type, h⟩
        · exact hoperand (List.mem_singleton_self _) h
        · rw [kind_of_unaryResult hplaced h]
          decide
      | binary op left right =>
        rcases hfault with h | h | ⟨-, -, rfl⟩ | ⟨leftType, rightType, h⟩
        · exact hoperand List.mem_cons_self h
        · exact hoperand (List.mem_cons_of_mem _ (List.mem_singleton_self _)) h
        · decide
        · rw [kind_of_binaryResult hplaced h]
          decide
    · rw [kind_of_type hrecorded htype]
      decide

end Tree

namespace Expression

/-- An operand that was read has a value. -/
theorem isSome_valueType?_of_term {symbols : Symbols} {token : Text} {t : Term}
    (h : term symbols token = .ok t) (ht : t.isOperand) : t.valueType?.isSome := by
  cases readsTerm_of_term h with
  | opening | closing | operator => cases ht
  | literal | scalar | element | field => rfl
  | call _ _ hr => simp [Term.valueType?, hr]

/-- A blank text is refused before its type is asked for. Where the tokens of any other text fit
between their neighbours and spell terms, every row that the inference is asked for is well formed
and has a type, or the fault is that types do not fit or that a divisor is zero. -/
theorem outcome_of_infer {symbols : Symbols} {text : Text} {tokens : List Text} {terms : List Term}
    (hscan : Token.scan text = .ok tokens) (hcheck : Placement.check none tokens = .ok ())
    (hterms : tokens.mapM (term symbols) = .ok terms) :
    (tokens = [] → expression symbols text = .error .noExpression) ∧
      (tokens ≠ [] →
        expression symbols text = (Inference.infer terms).map (⟨terms, ·⟩) ∧
        ∀ row, Inference.Asked terms row → Inference.WellFormed row ∧
          ((∃ type, Inference.infer row = .ok type) ∨
            ∃ fault, Inference.infer row = .error fault ∧
              fault.kind ∈ [.typeMismatch, .mixedTypes, .divisionByZero])) := by
  have hread := Check.mapM_eq_ok_iff.1 hterms
  refine ⟨fun hnil => ?_, fun hne => ⟨?_, fun row hrow => ?_⟩⟩
  · rw [expression_of_scan hscan, if_pos hnil]
  · rw [expression_of_scan hscan, if_neg hne, hcheck, hterms]
    change Inference.infer terms >>= _ = _
    cases Inference.infer terms <;> rfl
  · obtain ⟨t, ht⟩ := Parse.exists_finish (p := Parse.start)
      (canFollow_of_terms hscan hne hcheck hread)
    obtain ⟨hf, rfl⟩ := Tree.parse_eq_some_iff.1 ht
    obtain ⟨u, hu, rfl⟩ := Tree.exists_within_of_asked hf hrow
    have hvalue : ∀ term ∈ u.terms, term.isOperand → term.valueType?.isSome := by
      intro term hterm hoperand
      obtain ⟨token, -, h⟩ := exists_of_mem_forall₂ hread (hu.terms_subset hterm)
      exact isSome_valueType?_of_term h hoperand
    refine ⟨Tree.wellFormed_terms (hu.follows hf) hvalue, ?_⟩
    cases h : Inference.infer u.terms with
    | ok type => exact .inl ⟨type, rfl⟩
    | error fault => exact .inr ⟨fault, rfl, Tree.kind_of_infer (hu.follows hf) hvalue h⟩

theorem outcome_of_infer_group :
    ∃ tokens terms, Token.scan "-(2 / 1) < 3".toList = .ok tokens ∧
      tokens.mapM (term .empty) = .ok terms ∧
      expression .empty "-(2 / 1) < 3".toList = (Inference.infer terms).map (⟨terms, ·⟩) ∧
      ∀ row, Inference.Asked terms row → Inference.WellFormed row ∧
        ((∃ type, Inference.infer row = .ok type) ∨
          ∃ fault, Inference.infer row = .error fault ∧
            fault.kind ∈ [.typeMismatch, .mixedTypes, .divisionByZero]) := by
  let tokens := ["-", "(", "2", "/", "1", ")", "<", "3"].map String.toList
  have hscan : Token.scan "-(2 / 1) < 3".toList = .ok tokens := by decide +kernel
  have hread : (tokens.mapM (term .empty)).isOk := by decide +kernel
  obtain ⟨terms, hterms⟩ := Check.isOk_iff.1 hread
  exact ⟨tokens, terms, hscan, hterms,
    (outcome_of_infer hscan (by decide +kernel) hterms).2 (by decide)⟩

end Expression

end StellaGo
