import StellaGo.Go.Expression
import StellaGo.Proofs.Names
import StellaGo.Proofs.Pieces

/-! What the Go text of a piece is put together from. Defined here: properties of texts that hold of
plain characters and of texts put together. Proved: such a property holds of the Go text of every
piece that was read, if it holds of the literals in what the piece was read off. -/

namespace StellaGo

/-- No character of the text is a quote, a brace or a line feed. -/
def Text.isBare (t : Text) : Bool := t.all fun c => !isQuote c && c != '{' && c != '}' && c != '\n'

namespace Go

/-- The property holds of bare text, of texts that follow each other and of text in braces. -/
structure Respects (P : Text → Prop) : Prop where
  bare : ∀ t : Text, t.isBare → P t
  append : ∀ t u, P t → P u → P (t ++ u)
  braced : ∀ t, P t → P ('{' :: t ++ ['}'])

namespace Respects

variable {P : Text → Prop} {t : Text}

theorem nil (hP : Respects P) : P [] := hP.bare _ rfl

theorem cons (hP : Respects P) {c : Char} (hc : Text.isBare [c]) (ht : P t) : P (c :: t) :=
  hP.append [c] t (hP.bare _ hc) ht

/-- A bare character, the text, and another bare character. -/
theorem around (hP : Respects P) {c d : Char} (hc : Text.isBare [c]) (ht : P t)
    (hd : Text.isBare [d]) : P (c :: t ++ [d]) :=
  hP.append _ _ (hP.cons hc ht) (hP.bare _ hd)

theorem flatMap (hP : Respects P) {α : Type} {f : α → Text} {xs : List α} (h : ∀ x ∈ xs, P (f x)) :
    P (xs.flatMap f) := by
  induction xs with
  | nil => exact hP.nil
  | cons x rest ih =>
    rw [List.flatMap_cons]
    exact hP.append _ _ (h x List.mem_cons_self) (ih fun y hy => h y (List.mem_cons_of_mem _ hy))

theorem commas (hP : Respects P) {parts : List Text} (h : ∀ part ∈ parts, P part) :
    P (Go.commas parts) := by
  induction parts with
  | nil => exact hP.nil
  | cons part rest ih =>
    have hpart := h part List.mem_cons_self
    have hrest := ih fun other ho => h other (List.mem_cons_of_mem _ ho)
    rw [Go.commas] at hrest ⊢
    cases rest with
    | nil => rwa [List.intercalate_singleton]
    | cons next more =>
      rw [List.intercalate_cons_cons]
      exact hP.append _ _ (hP.append _ _ hpart (hP.bare _ (by decide))) hrest

theorem commas_map (hP : Respects P) {α : Type} {f : α → Text} {xs : List α}
    (h : ∀ x ∈ xs, P (f x)) : P (Go.commas (xs.map f)) := by
  refine hP.commas fun part hpart => ?_
  obtain ⟨x, hx, rfl⟩ := List.mem_map.1 hpart
  exact h x hx

/-- Letters, digits and `_` are bare. -/
theorem word (hP : Respects P) (h : ∀ c ∈ t, c.isAlphanum || c == '_') : P t := by
  refine hP.bare t (List.all_eq_true.2 fun c hc => ?_)
  have hchar := h c hc
  simp only [Bool.and_eq_true, Bool.not_eq_true', bne_iff_ne, ← Bool.not_eq_true, isQuote_iff]
  refine ⟨⟨⟨?_, ?_⟩, ?_⟩, ?_⟩
  · rintro (rfl | rfl)
    all_goals exact absurd hchar (by decide)
  all_goals
    rintro rfl
    exact absurd hchar (by decide)

theorem ofNat (hP : Respects P) (n : Nat) : P (Text.ofNat n) := by
  refine hP.word fun c hc => ?_
  have hdigit : c.isDigit := Nat.isDigit_of_mem_toDigits (by decide) (by decide) hc
  rw [Char.isAlphanum, hdigit, Bool.or_true, Bool.true_or]

/-- A name that may be declared. -/
theorem of_problem? (hP : Respects P) (h : Name.problem? t = none) : P t :=
  hP.word (Name.isWordChar_of_problem? h)

theorem name (hP : Respects P) {symbols : Symbols} (hs : symbols.Identifies) {name : Name}
    {d : Descriptor} (h : symbols.lookup? name = some d) : P d.name := by
  obtain ⟨hname, hproblem⟩ := hs name d h
  rw [hname]
  exact hP.of_problem? hproblem

/-! ### Types -/

theorem primitive (hP : Respects P) (type : Primitive) : P type.goName.toList :=
  hP.bare _ (by cases type <;> decide)

theorem array (hP : Respects P) (type : ArrayType) : P type.goName := by
  refine hP.append _ _ (hP.flatMap fun n _ => ?_) (hP.primitive type.base)
  exact hP.around (by decide) (hP.ofNat n) (by decide)

theorem carrierName (hP : Respects P) (arity : Nat) : P (carrierName arity) :=
  hP.append _ _ (hP.bare _ (by decide)) (hP.ofNat arity)

theorem tuple (hP : Respects P) (type : TupleType) : P type.goName := by
  have hfields : P (Go.commas (type.fields.map fun p => p.goName.toList)) :=
    hP.commas_map fun field _ => hP.primitive field
  have hlist : P ('[' :: Go.commas (type.fields.map fun p => p.goName.toList) ++ [']']) :=
    hP.around (by decide) hfields (by decide)
  rw [TupleType.goName, List.append_assoc]
  exact hP.append _ _ (hP.carrierName _) hlist

theorem type (hP : Respects P) (type : ValueType) : P type.goName := by
  cases type with
  | primitive type => exact hP.primitive type
  | array type => exact hP.array type
  | tuple type => exact hP.tuple type

/-! ### Lists -/

theorem terms (hP : Respects P) {ts : List Term} (unary glued : Bool) (h : ∀ t ∈ ts, P (term t)) :
    P (Go.terms unary glued ts) := by
  induction ts generalizing unary glued with
  | nil => exact hP.nil
  | cons t rest ih =>
    rw [Go.terms]
    refine hP.append _ _ (hP.append _ _ (hP.bare _ ?_) (h t List.mem_cons_self))
      (ih _ _ fun other ho => h other (List.mem_cons_of_mem _ ho))
    split <;> decide

theorem brackets (hP : Respects P) {es : List Expression} (h : ∀ e ∈ es, P (expression e)) :
    P (Go.brackets es) := by
  induction es with
  | nil => exact hP.nil
  | cons e rest ih =>
    rw [Go.brackets]
    have hrest := ih fun other ho => h other (List.mem_cons_of_mem _ ho)
    exact hP.append _ _ (hP.cons (by decide) (h e List.mem_cons_self)) (hP.cons (by decide) hrest)

theorem namedFields (hP : Respects P) {es : List Expression} (position : Nat)
    (h : ∀ e ∈ es, P (expression e)) : ∀ part ∈ Go.namedFields position es, P part := by
  induction es generalizing position with
  | nil => nofun
  | cons e rest ih =>
    rw [Go.namedFields]
    intro part hpart
    rcases List.mem_cons.1 hpart with rfl | hpart
    · have hposition := hP.cons (show Text.isBare ['v'] from rfl) (hP.ofNat position)
      exact hP.append _ _ (hP.append _ _ hposition (hP.bare _ (by decide))) (h e List.mem_cons_self)
    · exact ih (position + 1) (fun other ho => h other (List.mem_cons_of_mem _ ho)) part hpart

end Respects

theorem values_eq_map (vs : List Value) : values vs = vs.map value := by
  induction vs with
  | nil => rw [values, List.map_nil]
  | cons v rest ih => rw [values, List.map_cons, ih]

theorem rows_eq_map (items : List Item) : rows items = items.map item := by
  induction items with
  | nil => rw [rows, List.map_nil]
  | cons i rest ih => rw [rows, List.map_cons, ih]

end Go

/-! ### Pieces -/

/-- The Go text of a piece. -/
def Piece.go : Piece → Text
  | expression e => Go.expression e
  | call c => Go.call c
  | indexing i => Go.indexing i
  | field f => Go.term (.field f)
  | value v => Go.value v
  | item i => Go.item i

/-- The property holds of the tokens of a text that are literals, and of those of its parts. -/
def Text.HasLiterals (P : Text → Prop) (t : Text) : Prop :=
  ∀ part tokens, part ⊆ t → Token.scan part = .ok tokens → ∀ token ∈ tokens, ∀ type,
    Expression.IsLiteral token type → P token

namespace Go.Respects

open Piece (Part IsRead)

variable {P : Text → Prop} {symbols : Symbols} {text : Text}

theorem go_term (hP : Respects P) (hs : symbols.Identifies) {e : Expression} {t : Term}
    (hparts : ∀ y, Part y (.expression e) → P y.go) (hmem : t ∈ e.terms)
    (hliteral : ∀ type, Expression.IsLiteral text type → P text)
    (h : Expression.ReadsTerm symbols text t) : P (Go.term t) := by
  cases h with
  | opening | closing =>
    rw [Go.term]
    exact hP.bare _ (by decide)
  | @operator op =>
    rw [Go.term]
    exact hP.bare _ (by cases op <;> decide)
  | literal _ hl =>
    rw [Go.term]
    exact hliteral _ hl
  | scalar _ _ hb =>
    rw [Go.term]
    exact hP.name hs hb
  | call =>
    rw [Go.term]
    exact hparts _ (.call hmem)
  | element =>
    rw [Go.term]
    exact hparts _ (.element hmem)
  | field => exact hparts _ (.field hmem)

theorem go_value (hP : Respects P) (hs : symbols.Identifies) {type : ValueType} {v : Value}
    (hv : Expression.ReadsValue symbols type text v)
    (hparts : ∀ y, Part y (.value v) → P y.go) : P (Go.value v) := by
  cases v with
  | scalar e =>
    rw [Go.value]
    exact hparts _ .scalar
  | arrayLiteral type items =>
    have hitems : P (Go.commas (items.map Go.item)) := hP.commas_map fun i hi => hparts _ (.arrayItem hi)
    rw [Go.value, Go.rows_eq_map, List.append_assoc]
    exact hP.append _ _ (hP.array type) (hP.braced _ hitems)
  | tupleLiteral type fields =>
    have hfields := hP.namedFields 0 fun e he => hparts _ (.tupleField he)
    rw [Go.value, List.append_assoc]
    exact hP.append _ _ (hP.tuple type) (hP.braced _ (hP.commas hfields))
  | whole name type =>
    obtain ⟨expected, -, hr⟩ := Piece.readsAggregate_of_readsValue (fun e he => by cases he) hv
    rw [Go.value]
    cases hr with
    | array _ hlookup => exact hP.name hs hlookup
    | tuple _ hlookup => exact hP.name hs hlookup
  | call c =>
    rw [Go.value]
    exact hparts _ .wholeCall

theorem go_item (hP : Respects P) {i : Item} (hparts : ∀ y, Part y (.item i) → P y.go) :
    P (Go.item i) := by
  cases i with
  | scalar e =>
    rw [Go.item]
    exact hparts _ .scalarItem
  | row items =>
    have hitems : P (Go.commas (items.map Go.item)) := hP.commas_map fun i hi => hparts _ (.rowItem hi)
    rw [Go.item, Go.rows_eq_map]
    exact hP.braced _ hitems

/-- The property holds of the Go text of what was read. -/
theorem go (hP : Respects P) (hs : symbols.Identifies) (x : Piece) :
    ∀ {text : Text}, text.HasLiterals P → IsRead symbols text x → P x.go := by
  induction x using Piece.induction with
  | step x ih =>
  intro text hliterals hx
  have hparts : ∀ y, Part y x → P y.go := by
    intro y hy
    obtain ⟨part, hsub, hread⟩ := Piece.isRead_of_part hy hx
    refine ih y hy (fun inner tokens hinner => ?_) hread
    exact hliterals inner tokens (List.Subset.trans hinner hsub)
  cases x with
  | expression e =>
    obtain ⟨tokens, hscan, -, -, hterms, -⟩ := Expression.expression_eq_ok_iff.1 hx
    obtain ⟨terms, type⟩ := e
    rw [Piece.go, Go.expression]
    refine hP.terms _ _ fun t hmem => ?_
    obtain ⟨token, htoken, hterm⟩ := exists_of_mem_forall₂ hterms hmem
    exact hP.go_term hs hparts hmem (hliterals text tokens (List.Subset.refl _) hscan token htoken)
      (Expression.readsTerm_of_term hterm)
  | call c =>
    obtain ⟨inner, signature, -, hlookup, hname, -, -⟩ := Expression.call_eq_ok hx
    obtain ⟨name, arguments, returns⟩ := c
    obtain rfl : name = signature.name := hname
    have harguments : P (Go.commas (arguments.map Go.value)) :=
      hP.commas_map fun v hv => hparts _ (.argument hv)
    rw [Piece.go, Go.call, Go.values_eq_map, List.append_assoc]
    exact hP.append _ _ (hP.name hs hlookup) (hP.around (by decide) harguments (by decide))
  | indexing i =>
    obtain ⟨texts, array, -, hlookup, hname, -, -⟩ := Expression.indexing_eq_ok hx
    obtain ⟨name, indices, type⟩ := i
    obtain rfl : name = array.name := hname
    rw [Piece.go, Go.indexing]
    exact hP.append _ _ (hP.name hs hlookup) (hP.brackets fun e he => hparts _ (.index he))
  | field f =>
    obtain ⟨name, digits, tuple, -, hlookup, hname, -⟩ := Expression.fieldAccess_eq_ok hx
    rw [Piece.go, Go.term, hname]
    exact hP.append _ _ (hP.append _ _ (hP.name hs hlookup) (hP.bare _ (by decide))) (hP.ofNat _)
  | value v =>
    obtain ⟨type, hv⟩ := hx
    rw [Piece.go]
    exact hP.go_value hs hv hparts
  | item i =>
    rw [Piece.go]
    exact hP.go_item hparts

end Go.Respects

end StellaGo
