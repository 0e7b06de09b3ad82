import StellaGo.Inference

/-! How a row of terms came to have a type. Proved: every operator outside groups was typed on the
operands next to it, and all results of operators between two operands are the type of the row. -/

namespace StellaGo.Inference

/-- How an operator was typed on the operands next to it, and where its result went. -/
def Site.Recorded (final : Results) : Site → Prop
  | .unary op operand =>
    ∃ type result, infer operand = .ok type ∧ unaryResult op type = .ok result ∧
      result ∈ final.unary
  | .binary op left right =>
    ∃ leftType rightType result, infer left = .ok leftType ∧ infer right = .ok rightType ∧
      ¬ (op = .divide ∧ isZero right) ∧ binaryResult op leftType rightType = .ok result ∧
      result ∈ final.binary

def Site.isBinary : Site → Bool
  | .unary _ _ => false
  | .binary _ _ _ => true

theorem mem_record {type : Primitive} {types : List Primitive} : type ∈ record type types := by
  rw [record]
  split
  · assumption
  · exact List.mem_append_right _ List.mem_cons_self

theorem mem_record_of_mem {type other : Primitive} {types : List Primitive} (h : other ∈ types) :
    other ∈ record type types := by
  rw [record]
  split
  · exact h
  · exact List.mem_append_left _ h

/-- Every operator was typed, and no result is lost. -/
theorem siteResults_eq_ok {n : Nat} {results final : Results} {found : List Site}
    {short : ∀ site ∈ found, site.Within n}
    (h : siteResults (fun operand _ => infer operand) results found short = .ok final) :
    (∀ site ∈ found, site.Recorded final) ∧ results.unary ⊆ final.unary ∧
      results.binary ⊆ final.binary ∧
      ((∀ site ∈ found, site.isBinary = false) → final.binary = results.binary) := by
  induction found generalizing results with
  | nil =>
    rw [siteResults.eq_def] at h
    cases h
    simp
  | cons site rest ih =>
    cases site with
    | unary op operand =>
      unfold siteResults at h
      obtain ⟨type, htype, h⟩ := Check.bind_eq_ok_iff.1 h
      obtain ⟨result, hresult, h⟩ := Check.bind_eq_ok_iff.1 h
      obtain ⟨hall, hunary, hbinary, hnone⟩ := ih h
      refine ⟨?_, fun x hx => hunary (mem_record_of_mem hx), hbinary, ?_⟩
      · rintro site hs
        rcases List.mem_cons.1 hs with rfl | hs
        · exact ⟨type, result, htype, hresult, hunary mem_record⟩
        · exact hall site hs
      · exact fun hs => hnone fun site hm => hs site (List.mem_cons_of_mem _ hm)
    | binary op left right =>
      unfold siteResults at h
      obtain ⟨leftType, hleft, h⟩ := Check.bind_eq_ok_iff.1 h
      obtain ⟨rightType, hright, h⟩ := Check.bind_eq_ok_iff.1 h
      dsimp only at h
      split at h
      · cases h
      next hzero =>
      obtain ⟨result, hresult, h⟩ := Check.bind_eq_ok_iff.1 h
      obtain ⟨hall, hunary, hbinary, hnone⟩ := ih h
      refine ⟨?_, hunary, fun x hx => hbinary (mem_record_of_mem hx), ?_⟩
      · rintro site hs
        rcases List.mem_cons.1 hs with rfl | hs
        · exact ⟨leftType, rightType, result, hleft, hright, hzero, hresult, hbinary mem_record⟩
        · exact hall site hs
      · exact fun hs => absurd (hs _ List.mem_cons_self) (by simp [Site.isBinary])

/-- How a row of terms came to have a type: it is one term with a value but for brackets around it,
or its operators outside groups were typed and agree. -/
theorem infer_eq_ok {terms : List Term} {type : Primitive} (h : infer terms = .ok type) :
    (∃ term, stripGroups terms = [term] ∧ term.valueType? = some type) ∨
      ∃ found final, 2 ≤ (stripGroups terms).length ∧ sites [] (stripGroups terms) = .ok found ∧
        (∀ site ∈ found, site.Recorded final) ∧
        ((∀ site ∈ found, site.isBinary = false) → final.binary = []) ∧
        final.type = .ok type := by
  rw [infer.eq_def] at h
  split at h
  · cases h
  · next term hs =>
    split at h
    · next t ht =>
      cases h
      exact .inl ⟨term, hs, ht⟩
    · cases h
  · next first second rest hs =>
    split at h
    · cases h
    next found hfound =>
    obtain ⟨final, hfinal, h⟩ := Check.bind_eq_ok_iff.1 h
    obtain ⟨hall, -, -, hnone⟩ := siteResults_eq_ok hfinal
    rw [hs]
    exact .inr ⟨found, final, by simp, hfound, hall, hnone, h⟩

theorem Results.type_eq_ok {results : Results} {type : Primitive}
    (h : results.type = .ok type) :
    results.binary = [type] ∨ results.binary = [] ∧ results.unary = [type] := by
  unfold Results.type at h
  split at h
  · cases h
  · next t ht =>
    cases h
    split at ht
    · next hb => exact .inr ⟨hb, ht⟩
    · exact .inl ht
  · cases h

/-- Brackets around all terms make no difference. -/
theorem infer_congr {a b : List Term} (h : stripGroups a = stripGroups b) : infer a = infer b := by
  rw [infer.eq_def a, infer.eq_def b]
  congr 1 <;> rw [h]

end StellaGo.Inference
