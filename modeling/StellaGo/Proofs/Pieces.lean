import StellaGo.Proofs.Reading.Values
import StellaGo.Proofs.TextParts

/-! The pieces of checked values: expressions, calls, indices, fields and items, at every depth.
Defined here: which piece is an immediate part of another, and when a text spells a piece. Proved: a
part of a piece that was read was read itself, off a part of the text and with the same declared
names. So what holds of every piece that is read holds at every depth. -/

namespace StellaGo

inductive Piece where
  | expression (e : Expression)
  | call (call : Call)
  | indexing (i : Indexing)
  | field (f : FieldAccess)
  | value (v : Value)
  | item (i : Item)

namespace Piece

/-- An immediate part of a piece. -/
inductive Part : Piece → Piece → Prop
  | call {c : Call} {e : Expression} (h : .call c ∈ e.terms) : Part (.call c) (.expression e)
  | element {i : Indexing} {e : Expression} (h : .element i ∈ e.terms) :
      Part (.indexing i) (.expression e)
  | field {f : FieldAccess} {e : Expression} (h : .field f ∈ e.terms) :
      Part (.field f) (.expression e)
  | argument {v : Value} {c : Call} (h : v ∈ c.arguments) : Part (.value v) (.call c)
  | index {e : Expression} {i : Indexing} (h : e ∈ i.indices) : Part (.expression e) (.indexing i)
  | scalar {e : Expression} : Part (.expression e) (.value (.scalar e))
  | arrayItem {type : ArrayType} {items : List Item} {i : Item} (h : i ∈ items) :
      Part (.item i) (.value (.arrayLiteral type items))
  | tupleField {type : TupleType} {fields : List Expression} {e : Expression} (h : e ∈ fields) :
      Part (.expression e) (.value (.tupleLiteral type fields))
  | wholeCall {c : Call} : Part (.call c) (.value (.call c))
  | scalarItem {e : Expression} : Part (.expression e) (.item (.scalar e))
  | rowItem {items : List Item} {i : Item} (h : i ∈ items) : Part (.item i) (.item (.row items))

/-- The second piece is the first one or stands somewhere inside it. -/
inductive Inside : Piece → Piece → Prop
  | refl {x : Piece} : Inside x x
  | tail {x y z : Piece} (h : Inside x y) (hp : Part z y) : Inside x z

/-- A piece inside a part of another one is inside this one. -/
theorem Inside.head {x y z : Piece} (hp : Part y x) (h : Inside y z) : Inside x z := by
  induction h with
  | refl => exact .tail .refl hp
  | tail _ hlast ih => exact .tail ih hlast

/-- A piece inside another one is this one, or is inside one of its parts. -/
theorem Inside.cases_head {x z : Piece} (h : Inside x z) :
    x = z ∨ ∃ y, Part y x ∧ Inside y z := by
  induction h with
  | refl => exact .inl rfl
  | @tail _ last _ hlast ih =>
    rcases ih with rfl | ⟨y, hy, hin⟩
    · exact .inr ⟨last, hlast, .refl⟩
    · exact .inr ⟨y, hy, .tail hin hlast⟩

/-! ### Induction over parts -/

noncomputable def size : Piece → Nat
  | expression e => sizeOf e
  | call c => sizeOf c
  | indexing i => sizeOf i
  | field f => sizeOf f
  | value v => sizeOf v
  | item i => sizeOf i

theorem Part.size_lt {x y : Piece} (h : Part y x) : y.size < x.size := by
  cases h with
  | @call c e h | @element i e h | @field f e h =>
    obtain ⟨terms, type⟩ := e
    have := List.sizeOf_lt_of_mem h
    simp only [size, Expression.mk.sizeOf_spec, Term.call.sizeOf_spec, Term.element.sizeOf_spec,
      Term.field.sizeOf_spec] at this ⊢
    omega
  | @argument v c h =>
    obtain ⟨name, arguments, returns⟩ := c
    have := List.sizeOf_lt_of_mem h
    simp only [size, Call.mk.sizeOf_spec] at this ⊢
    omega
  | @index e i h =>
    obtain ⟨name, indices, type⟩ := i
    have := List.sizeOf_lt_of_mem h
    simp only [size, Indexing.mk.sizeOf_spec] at this ⊢
    omega
  | arrayItem h | tupleField h | rowItem h =>
    have := List.sizeOf_lt_of_mem h
    simp only [size, Value.arrayLiteral.sizeOf_spec, Value.tupleLiteral.sizeOf_spec,
      Item.row.sizeOf_spec]
    omega
  | scalar | wholeCall | scalarItem =>
    simp only [size, Value.scalar.sizeOf_spec, Value.call.sizeOf_spec, Item.scalar.sizeOf_spec]
    omega

/-- What holds of a piece as soon as it holds of its parts holds of every piece. -/
theorem induction {P : Piece → Prop} (step : ∀ x, (∀ y, Part y x → P y) → P x) (x : Piece) : P x :=
  step x fun y _ => induction step y
termination_by x.size
decreasing_by exact Part.size_lt ‹_›

/-! ### Pieces that are read -/

open Expression (ReadsValue ReadsItems ReadsAggregate)

variable {symbols : Symbols} {text : Text}

/-- The text spells the piece. -/
def IsRead (symbols : Symbols) (text : Text) : Piece → Prop
  | expression e => StellaGo.expression symbols text = .ok e
  | call c => StellaGo.call symbols text = .ok c
  | indexing i => StellaGo.indexing symbols text = .ok i
  | field f => fieldAccess symbols text = .ok f
  | value v => ∃ type, ReadsValue symbols type text v
  | item (.scalar e) => StellaGo.expression symbols text = .ok e
  | item (.row items) => ∃ base sizes, ReadsItems symbols base sizes text items

/-- A term of an accepted expression is spelled by a token. -/
theorem exists_token_of_mem {e : Expression} {t : Term}
    (h : StellaGo.expression symbols text = .ok e) (ht : t ∈ e.terms) :
    ∃ token, token ⊆ text ∧ Expression.ReadsTerm symbols token t := by
  obtain ⟨tokens, hscan, -, -, hterms, -⟩ := Expression.expression_eq_ok_iff.1 h
  obtain ⟨token, hmem, hterm⟩ := exists_of_mem_forall₂ hterms ht
  exact ⟨token, Token.subset_of_mem_scanInside hscan token hmem,
    Expression.readsTerm_of_term hterm⟩

theorem isRead_item_of_readsItems {base : Primitive} {sizes : List Nat} {items : List Item}
    {i : Item} (h : ReadsItems symbols base sizes text items) (hi : i ∈ items) :
    ∃ part, part ⊆ text ∧ IsRead symbols part (.item i) := by
  have hscalars {inner : Text} (hinner : text.inside? 0 = some inner)
      (hall : List.Forall₂ (fun part item =>
        ∃ e, item = .scalar e ∧ e.type = base ∧ StellaGo.expression symbols part = .ok e)
        (inner.topLevelParts ',') items) :
      ∃ part, part ⊆ text ∧ IsRead symbols part (.item i) := by
    obtain ⟨part, hpart, e, rfl, -, he⟩ := exists_of_mem_forall₂ hall hi
    exact ⟨part, List.Subset.trans (Text.subset_of_mem_topLevelParts hpart)
      (Text.inside?_subset hinner), he⟩
  match sizes with
  | size :: next :: deeper =>
    obtain ⟨inner, hinner, -, hall⟩ := h
    obtain ⟨part, hpart, -, row, rfl, hrow⟩ := exists_of_mem_forall₂ hall hi
    exact ⟨part, List.Subset.trans (Text.subset_of_mem_topLevelParts hpart)
      (Text.inside?_subset hinner), base, next :: deeper, hrow⟩
  | [] =>
    obtain ⟨inner, hinner, -, hall⟩ := h
    exact hscalars hinner hall
  | [size] =>
    obtain ⟨inner, hinner, -, hall⟩ := h
    exact hscalars hinner hall

/-- A value of an array or tuple type that was read was read as a whole. -/
theorem readsAggregate_of_readsValue {type : ValueType} {v : Value} (hv : ∀ e, v ≠ .scalar e)
    (h : ReadsValue symbols type text v) :
    ∃ expected, expected.type = type ∧ ReadsAggregate symbols text expected v := by
  cases type with
  | primitive type =>
    obtain ⟨e, he, -⟩ := h
    exact absurd he (hv e)
  | array type => exact ⟨.array type, rfl, Expression.readsAggregate_of_aggregate h⟩
  | tuple type => exact ⟨.tuple type, rfl, Expression.readsAggregate_of_aggregate h⟩

/-- A part of a piece that was read was read off a part of the text. -/
theorem isRead_of_part {x y : Piece} (hp : Part y x) (h : IsRead symbols text x) :
    ∃ part, part ⊆ text ∧ IsRead symbols part y := by
  cases hp with
  | call ht =>
    obtain ⟨token, hsub, hr⟩ := exists_token_of_mem h ht
    cases hr with
    | call _ hc => exact ⟨token, hsub, hc⟩
  | element ht =>
    obtain ⟨token, hsub, hr⟩ := exists_token_of_mem h ht
    cases hr with
    | element _ hi => exact ⟨token, hsub, hi⟩
  | field ht =>
    obtain ⟨token, hsub, hr⟩ := exists_token_of_mem h ht
    cases hr with
    | field _ hf => exact ⟨token, hsub, hf⟩
  | argument hv =>
    obtain ⟨inner, signature, hinner, -, -, -, hall⟩ := Expression.call_eq_ok h
    obtain ⟨p, -, part, hpart, hread⟩ := exists_of_mem_forall₂ hall hv
    exact ⟨part, List.Subset.trans (Text.subset_of_mem_topLevelParts hpart)
      (Text.inside?_subset hinner), p.type, hread⟩
  | index he =>
    obtain ⟨texts, array, htexts, -, -, -, hall, -⟩ := Expression.indexing_eq_ok h
    obtain ⟨part, hpart, hread⟩ := exists_of_mem_forall₂ hall he
    exact ⟨part, Text.subset_of_mem_indices? htexts part hpart, hread⟩
  | scalar =>
    obtain ⟨type, h⟩ := h
    cases type with
    | primitive type =>
      obtain ⟨e, he, -, hread⟩ := h
      cases he
      exact ⟨text, List.Subset.refl _, hread⟩
    | array type => cases Expression.readsAggregate_of_aggregate h
    | tuple type => cases Expression.readsAggregate_of_aggregate h
  | arrayItem hi =>
    obtain ⟨type, h⟩ := h
    obtain ⟨expected, -, hr⟩ := readsAggregate_of_readsValue (fun e he => by cases he) h
    cases hr with
    | items _ hitems =>
      obtain ⟨part, hsub, hread⟩ := isRead_item_of_readsItems hitems hi
      exact ⟨part, List.Subset.trans hsub (Text.trim_subset text), hread⟩
  | tupleField he =>
    obtain ⟨type, h⟩ := h
    obtain ⟨expected, -, hr⟩ := readsAggregate_of_readsValue (fun e he => by cases he) h
    cases hr with
    | fields _ hinner hall _ =>
      obtain ⟨part, hpart, hread⟩ := exists_of_mem_forall₂ hall he
      exact ⟨part, List.Subset.trans (Text.subset_of_mem_topLevelParts hpart)
        (List.Subset.trans (Text.inside?_subset hinner) (Text.trim_subset text)), hread⟩
  | wholeCall =>
    obtain ⟨type, h⟩ := h
    obtain ⟨expected, -, hr⟩ := readsAggregate_of_readsValue (fun e he => by cases he) h
    cases hr with
    | call hscan hc _ =>
      exact ⟨_, List.Subset.trans (Token.subset_of_mem_scanInside hscan _ List.mem_cons_self)
        (Text.trim_subset text), hc⟩
  | scalarItem => exact ⟨text, List.Subset.refl _, h⟩
  | rowItem hi =>
    obtain ⟨base, sizes, h⟩ := h
    exact isRead_item_of_readsItems h hi

/-- A piece inside one that was read was read, at any depth. -/
theorem isRead_of_inside {x y : Piece} (hin : Inside x y) (h : IsRead symbols text x) :
    ∃ part, part ⊆ text ∧ IsRead symbols part y := by
  induction hin with
  | refl => exact ⟨text, List.Subset.refl _, h⟩
  | tail _ hp ih =>
    obtain ⟨middle, hmiddle, hread⟩ := ih
    obtain ⟨part, hpart, hy⟩ := isRead_of_part hp hread
    exact ⟨part, List.Subset.trans hpart hmiddle, hy⟩

end Piece

end StellaGo
