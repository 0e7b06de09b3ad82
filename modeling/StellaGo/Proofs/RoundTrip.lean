import StellaGo.Proofs.Rereading

/-! Rendering, then reading. Defined here: pieces whose Go text spells them, with round brackets.
Proved: an accepted expression without tuple fields and without arrays and tuples that are written out
is such a piece. What stands inside of it was read itself, so this goes from the inside to the outside.
-/

namespace StellaGo

open Expression (ReadsValue ReadsAggregate ReadsTerm)
open Text (Closes)
open Token (IsOperand)

namespace Piece

variable {symbols : Symbols} {text : Text}

theorem brackets_eq_squareGroups (es : List Expression) :
    Go.brackets es = Token.squareGroups (es.map Go.expression) := by
  induction es with
  | nil => rfl
  | cons e rest ih =>
    rw [Go.brackets, ih]
    simp [Token.squareGroups]

theorem call_eq_group (c : Call) :
    Go.call c = c.name ++ '(' :: (Go.commas (c.arguments.map Go.value) ++ [')']) := by
  obtain ⟨name, arguments, returns⟩ := c
  rw [Go.call, Go.values_eq_map, List.append_assoc, List.cons_append]

/-- The piece is no field of a tuple, and no array or tuple that is written out. -/
def IsPlain : Piece → Prop
  | .field _ | .value (.arrayLiteral _ _) | .value (.tupleLiteral _ _) | .item _ => False
  | _ => True

/-- The Go text of the piece spells it, with round brackets. -/
def Rereads (symbols : Symbols) : Piece → Prop
  | .expression e => (Go.expression e).IsPart ∧
      StellaGo.expression symbols (Go.expression e) = .ok e.rounded
  | .call c => IsOperand (Go.call c) ∧ StellaGo.call symbols (Go.call c) = .ok c.rounded
  | .indexing i => IsOperand (Go.indexing i) ∧ StellaGo.indexing symbols (Go.indexing i) = .ok i.rounded
  | .value v => (Go.value v).IsPart ∧ ∀ type text, ReadsValue symbols type text v →
      ReadsValue symbols type (Go.value v) v.rounded
  | .field _ | .item _ => False

/-! ### Rows of terms -/

/-- The text of a term has no blanks at its ends. -/
theorem isVisible_term {t : Term} (h : t.class = .value → IsOperand (Go.term t)) :
    (∃ c rest, Go.term t = c :: rest ∧ isBlank c = false) ∧ (Go.term t).EndsVisibly := by
  have hoperand (hv : t.class = .value) :
      (∃ c rest, Go.term t = c :: rest ∧ isBlank c = false) ∧ (Go.term t).EndsVisibly := by
    exact ⟨(h hv).exists_cons, (h hv).ends⟩
  cases t with
  | operator op =>
    rw [Go.term]
    refine ⟨?_, .of_getLast? (by cases op <;> decide)⟩
    cases op <;> exact ⟨_, _, rfl, by decide⟩
  | opening b | closing b =>
    rw [Go.term]
    exact ⟨⟨_, _, rfl, by decide⟩, .last (by decide) []⟩
  | _ => exact hoperand rfl

theorem isPart_terms {ts : List Term} (hne : ts ≠ []) (hfollow : CanFollow [] false (ts.map Term.class))
    (hops : Go.HasOperands ts) : (Go.terms true true ts).IsPart := by
  have hvisible := fun t ht => isVisible_term (hops t ht)
  have hends := Go.endsVisibly_terms true true hne fun t ht => (hvisible t ht).2
  have hcloses : Closes false (Go.roundStack []) (Go.terms true true ts) := Go.closes_terms hfollow hops
  obtain ⟨c, rest, htext, hc⟩ : ∃ c rest, Go.terms true true ts = c :: rest ∧ isBlank c = false := by
    obtain ⟨t, others, rfl⟩ := List.exists_cons_of_ne_nil hne
    obtain ⟨⟨c, rest, htext, hc⟩, -⟩ := hvisible t List.mem_cons_self
    rw [Go.terms, htext]
    exact ⟨c, _, rfl, hc⟩
  refine ⟨hcloses, ?_, ?_⟩
  · rw [htext]
    exact List.cons_ne_nil c rest
  · rw [htext] at hends ⊢
    exact Text.trim_eq_self hc hends

variable (hs : symbols.KeepsNames)
  (hnames : ∀ name d, symbols.lookup? name = some d → Name.isIdentifier name)

include hs hnames

/-! ### Calls and indexings -/

theorem isIdentifier_name_of_call {c : Call} (h : StellaGo.call symbols text = .ok c) :
    Name.isIdentifier c.name := by
  obtain ⟨inner, signature, -, hlookup, hname, -⟩ := Expression.call_eq_ok h
  have hsame : signature.name = _ := hs _ _ hlookup
  rw [hname, hsame]
  exact hnames _ _ hlookup

theorem isIdentifier_name_of_indexing {i : Indexing} (h : StellaGo.indexing symbols text = .ok i) :
    Name.isIdentifier i.name := by
  obtain ⟨texts, array, -, hlookup, hname, -⟩ := Expression.indexing_eq_ok h
  have hsame : array.name = _ := hs _ _ hlookup
  rw [hname, hsame]
  exact hnames _ _ hlookup

theorem rereads_call {c : Call} (h : StellaGo.call symbols text = .ok c)
    (hparts : ∀ v ∈ c.arguments, Rereads symbols (.value v)) : Rereads symbols (.call c) := by
  have hidentifier := isIdentifier_name_of_call hs hnames h
  obtain ⟨inner, signature, -, hlookup, hname, hreturns, hall⟩ := Expression.call_eq_ok h
  have hsame : signature.name = _ := hs _ _ hlookup
  rw [← hsame, ← hname] at hlookup
  have hvalues : List.Forall₂ (fun (p : Parameter) v =>
      ReadsValue symbols p.type (Go.value v) v.rounded) signature.parameters c.arguments := by
    have hboth := ((List.forall₂_and_left _ _).2 ⟨hparts, hall.flip⟩).flip
    refine hboth.imp fun p v => ?_
    rintro ⟨hv, text, -, hread⟩
    exact hv.2 _ _ hread
  have hcall := Expression.call_of_arguments hidentifier hlookup (fun v hv => (hparts v hv).1) hvalues
  have harguments : ∀ part ∈ c.arguments.map Go.value, part.IsPart :=
    List.forall_mem_map.2 fun v hv => (hparts v hv).1
  have hoperand := IsOperand.call hidentifier harguments
  rw [← hname, ← hreturns, ← roundedValues_eq_map] at hcall
  rw [← call_eq_group] at hcall hoperand
  obtain ⟨name, arguments, returns⟩ := c
  rw [Rereads, Call.rounded]
  exact ⟨hoperand, hcall⟩

theorem rereads_indexing {i : Indexing} (h : StellaGo.indexing symbols text = .ok i)
    (hparts : ∀ e ∈ i.indices, Rereads symbols (.expression e)) : Rereads symbols (.indexing i) := by
  have hidentifier := isIdentifier_name_of_indexing hs hnames h
  obtain ⟨texts, array, -, hlookup, hname, htype, -, hall⟩ := Expression.indexing_eq_ok h
  have hsame : array.name = _ := hs _ _ hlookup
  rw [← hsame, ← hname] at hlookup
  have hindexing := Expression.indexing_of_indices hidentifier hlookup
    (fun e he => (hparts e he).1) (fun e he => (hparts e he).2) hall
  have hindices : ∀ part ∈ i.indices.map Go.expression, Closes true [] part :=
    List.forall_mem_map.2 fun e he => (hparts e he).1.closes.in_brackets
  have hoperand := IsOperand.indexing hidentifier hindices
  obtain ⟨name, indices, type⟩ := i
  rw [← hname, ← htype, ← roundedExpressions_eq_map, ← brackets_eq_squareGroups] at hindexing
  rw [← brackets_eq_squareGroups] at hoperand
  rw [Rereads, Go.indexing, Indexing.rounded]
  exact ⟨hoperand, hindexing⟩

/-! ### Values -/

/-- A name that was read as a whole array or tuple is read as one again. -/
theorem rereads_whole {name : Name} {type : ValueType} {expected : Aggregate}
    (h : ReadsAggregate symbols text expected (.whole name type)) :
    IsOperand name ∧ aggregate symbols expected name = .ok (.whole name type) := by
  have hname {stored key : Name} (isMutable : Bool)
      (hlookup : symbols.lookup? key = some (.ofType stored isMutable expected.type))
      (hsame : stored = key) :
      IsOperand stored ∧ aggregate symbols expected stored = .ok (.whole stored expected.type) := by
    subst hsame
    have hidentifier := hnames _ _ hlookup
    have hoperand : IsOperand stored := .identifier hidentifier
    obtain ⟨c, rest, htext, hc, -⟩ := Name.exists_cons_of_isIdentifier hidentifier
    refine ⟨hoperand, Expression.aggregate_eq_ok_of_whole hoperand.isPart ⟨c, rest, htext, hc⟩ ?_⟩
    exact fun short => Expression.readWhole_of_name hidentifier hlookup
  cases h with
  | @array token b hscan hlookup | @tuple token b hscan hlookup =>
    exact hname b.isMutable hlookup (hs _ _ hlookup)

theorem rereads_whole_call {c : Call} {expected : Aggregate}
    (h : ReadsAggregate symbols text expected (.call c)) (hcall : Rereads symbols (.call c)) :
    aggregate symbols expected (Go.call c) = .ok (.call c.rounded) := by
  obtain ⟨hoperand, hread⟩ := hcall
  cases h with
  | call hscan hc hr =>
    have hidentifier := isIdentifier_name_of_call hs hnames hc
    have hreturns : c.rounded.returns = expected.type := by rw [Call.returns_rounded, hr]
    have htext := call_eq_group c
    have hround : (Go.call c).contains '(' := by simp [htext]
    have hend : (Go.call c).endsWith ')' := by
      rw [htext, Text.endsWith, ← List.cons_append, ← List.append_assoc, List.getLast?_concat]
      rfl
    obtain ⟨d, rest, hname, hd, -⟩ := Name.exists_cons_of_isIdentifier hidentifier
    have hstart : ∃ d rest, Go.call c = d :: rest ∧ d.isAlpha := by
      rw [htext, hname, List.cons_append]
      exact ⟨d, _, rfl, hd⟩
    exact Expression.aggregate_eq_ok_of_whole hoperand.isPart hstart fun short =>
      Expression.readWhole_of_call hoperand hend hround hread hreturns

theorem rereads_value {type : ValueType} {v : Value} (h : ReadsValue symbols type text v)
    (hplain : (Piece.value v).IsPlain) (hparts : ∀ y, Part y (.value v) → Rereads symbols y) :
    Rereads symbols (.value v) := by
  -- an array or a tuple is read as a whole, whatever is expected
  have haggregate {t : Text} {w : Value} (hv : ∀ e, v ≠ .scalar e)
      (hwhole : ∀ expected text, ReadsAggregate symbols text expected v →
        aggregate symbols expected t = .ok w) (type : ValueType) (text : Text)
      (hread : ReadsValue symbols type text v) : ReadsValue symbols type t w := by
    obtain ⟨expected, rfl, hr⟩ := readsAggregate_of_readsValue hv hread
    cases expected with
    | array type | tuple type => exact hwhole _ text hr
  cases v with
  | scalar e =>
    obtain ⟨hpart, hread⟩ := hparts _ .scalar
    rw [Rereads, Go.value, Value.rounded]
    refine ⟨hpart, fun type text hvalue => ?_⟩
    cases type with
    | primitive type =>
      obtain ⟨e', he, htype, -⟩ := hvalue
      cases he
      exact ⟨e.rounded, rfl, by rwa [Expression.type_rounded], hread⟩
    | array type => cases Expression.readsAggregate_of_aggregate hvalue
    | tuple type => cases Expression.readsAggregate_of_aggregate hvalue
  | arrayLiteral | tupleLiteral => exact hplain.elim
  | whole name whole =>
    obtain ⟨expected, -, hr⟩ := readsAggregate_of_readsValue (fun e he => by cases he) h
    rw [Rereads, Go.value, Value.rounded]
    exact ⟨(rereads_whole hs hnames hr).1.isPart,
      haggregate (fun e he => by cases he) fun _ _ hr => (rereads_whole hs hnames hr).2⟩
  | call c =>
    have hcall := hparts _ .wholeCall
    rw [Rereads, Go.value, Value.rounded]
    exact ⟨hcall.1.isPart,
      haggregate (fun e he => by cases he) fun _ _ hr => rereads_whole_call hs hnames hr hcall⟩

/-! ### Terms and expressions -/

theorem rereads_term {t : Term} {token : Text} (hshape : Token.Shape token)
    (h : Expression.term symbols token = .ok t) (hparts : ∀ y ∈ t.piece?, Rereads symbols y) :
    (t.class = .value → IsOperand (Go.term t)) ∧
      Expression.term symbols (Go.term t) = .ok t.rounded := by
  cases Expression.readsTerm_of_term h with
  | opening | closing =>
    rw [Go.term, Term.rounded]
    exact ⟨fun hvalue => (by cases hvalue), rfl⟩
  | @operator op =>
    rw [Go.term, Term.rounded, Expression.term, Expression.readTerm, Token.classify_symbol]
    exact ⟨fun hvalue => (by cases hvalue), rfl⟩
  | literal _ hl =>
    rw [Go.term, Term.rounded]
    exact ⟨fun _ => Expression.isOperand_of_isLiteral hshape hl, h⟩
  | @scalar b _ _ hlookup =>
    have hname : b.name = token := hs _ _ hlookup
    rw [Go.term, Term.rounded]
    rw [← hname] at h hlookup
    exact ⟨fun _ => .identifier (hnames _ _ hlookup), h⟩
  | @call c type _ hc hr hio =>
    obtain ⟨hoperand, hcall⟩ := hparts _ rfl
    have hidentifier := isIdentifier_name_of_call hs hnames hc
    have hreturns : c.rounded.returns = .primitive type := by rw [Call.returns_rounded, hr]
    rw [Go.term, Term.rounded]
    refine ⟨fun _ => hoperand, ?_⟩
    rw [call_eq_group] at hcall ⊢
    exact Expression.term_of_call hidentifier hcall hreturns hio
  | @element i _ hi =>
    obtain ⟨hoperand, hindexing⟩ := hparts _ rfl
    have hidentifier := isIdentifier_name_of_indexing hs hnames hi
    have hne := Expression.indices_ne_nil_of_term hnames h
    rw [Go.term, Term.rounded]
    refine ⟨fun _ => hoperand, ?_⟩
    obtain ⟨name, indices, type⟩ := i
    cases indices with
    | nil => exact absurd rfl hne
    | cons e rest =>
      rw [Go.indexing, Go.brackets, List.cons_append] at hindexing ⊢
      rw [Expression.term_of_indexing hidentifier, hindexing]
      rfl
  | field => exact (hparts _ rfl).elim

theorem rereads_expression {e : Expression} (h : StellaGo.expression symbols text = .ok e)
    (hparts : ∀ y, Part y (.expression e) → Rereads symbols y) : Rereads symbols (.expression e) := by
  obtain ⟨tokens, hscan, hne, hcheck, hterms, hinfer⟩ := Expression.expression_eq_ok_iff.1 h
  have hrereads : ∀ t ∈ e.terms, (t.class = .value → IsOperand (Go.term t)) ∧
      Expression.term symbols (Go.term t) = .ok t.rounded := by
    intro t ht
    obtain ⟨token, hmem, hterm⟩ := exists_of_mem_forall₂ hterms ht
    exact rereads_term hs hnames (Token.shape_of_mem_scanInside hscan token hmem) hterm
      fun y hy => hparts y (Go.part_expression_iff.2 ⟨t, ht, hy⟩)
  have hoperands : Go.HasOperands e.terms := fun t ht => (hrereads t ht).1
  have hfollow := Expression.canFollow_of_expression h
  have hvisible : e.terms ≠ [] := by
    intro hnil
    rw [hnil, List.forall₂_nil_right_iff] at hterms
    exact hne hterms
  have hpart := isPart_terms hvisible hfollow hoperands
  have hscan' : Token.scan (Go.terms true true e.terms) = .ok (e.terms.map Go.term) :=
    Go.scanInside_terms hfollow hoperands
  have hcheck' : Placement.check none (e.terms.map Go.term) = .ok () := by
    refine Placement.check_of_rounded rfl ?_ hcheck
    rw [List.forall₂_map_right_iff]
    refine ((List.forall₂_and_left _ _).2 ⟨hrereads, hterms.flip⟩).flip.imp fun token t => ?_
    rintro ⟨⟨-, hterm'⟩, hterm⟩
    rw [← Expression.class_of_term hterm', Term.class_rounded, Expression.class_of_term hterm]
  have htext : Go.expression e = Go.terms true true e.terms := by
    obtain ⟨terms, type⟩ := e
    rw [Go.expression]
  rw [Rereads, htext]
  refine ⟨hpart, Expression.expression_eq_ok_iff.2 ⟨e.terms.map Go.term, hscan', ?_, hcheck', ?_, ?_⟩⟩
  · rwa [Ne, List.map_eq_nil_iff]
  · rw [Expression.terms_rounded, List.forall₂_map_left_iff, List.forall₂_map_right_iff,
      List.forall₂_same]
    exact fun t ht => (hrereads t ht).2
  · rw [Expression.terms_rounded, Expression.type_rounded, Inference.infer_rounded, hinfer]

/-! ### Pieces -/

/-- By induction on the parts of a piece. -/
theorem rereads (x : Piece) (hplain : ∀ y, Inside x y → y.IsPlain) :
    ∀ {text : Text}, IsRead symbols text x → Rereads symbols x := by
  induction x using Piece.induction with
  | step x ih =>
  intro text hx
  have hparts : ∀ y, Part y x → Rereads symbols y := by
    intro y hy
    obtain ⟨part, -, hread⟩ := isRead_of_part hy hx
    exact ih y hy (fun z hz => hplain z (.head hy hz)) hread
  have hself := hplain x .refl
  cases x with
  | expression e => exact rereads_expression hs hnames hx hparts
  | call c => exact rereads_call hs hnames hx fun v hv => hparts _ (.argument hv)
  | indexing i => exact rereads_indexing hs hnames hx fun e he => hparts _ (.index he)
  | value v =>
    obtain ⟨type, hv⟩ := hx
    exact rereads_value hs hnames hv hself hparts
  | field | item => exact hself.elim

end Piece

/-! ### Plain pieces -/

namespace Piece

/-- Nothing but plain pieces stands in a plain piece with such parts. -/
theorem isPlain_of_parts {x : Piece} (hx : x.IsPlain)
    (hparts : ∀ y, Part y x → ∀ z, Inside y z → z.IsPlain) : ∀ z, Inside x z → z.IsPlain := by
  intro z hz
  rcases hz.cases_head with rfl | ⟨y, hy, hin⟩
  · exact hx
  · exact hparts y hy z hin

theorem isPlain_expression {e : Expression}
    (h : ∀ t ∈ e.terms, ∀ y ∈ t.piece?, ∀ z, Inside y z → z.IsPlain) :
    ∀ z, Inside (.expression e) z → z.IsPlain := by
  refine isPlain_of_parts (x := .expression e) trivial fun y hy => ?_
  obtain ⟨t, ht, hp⟩ := Go.part_expression_iff.1 hy
  exact h t ht y hp

theorem isPlain_literal {literal : Text} {type type' : Primitive} :
    ∀ z, Inside (.expression ⟨[.literal literal type], type'⟩) z → z.IsPlain :=
  isPlain_expression (by simp [Term.piece?])

theorem isPlain_indexing {i : Indexing}
    (h : ∀ e ∈ i.indices, ∀ z, Inside (.expression e) z → z.IsPlain) :
    ∀ z, Inside (.indexing i) z → z.IsPlain := by
  refine isPlain_of_parts (x := .indexing i) trivial fun y hy => ?_
  cases hy with
  | index he => exact h _ he

theorem isPlain_scalar {e : Expression} (h : ∀ z, Inside (.expression e) z → z.IsPlain) :
    ∀ z, Inside (.value (.scalar e)) z → z.IsPlain := by
  refine isPlain_of_parts (x := .value (.scalar e)) trivial fun y hy => ?_
  cases hy
  exact h

theorem isPlain_call {c : Call} (h : ∀ v ∈ c.arguments, ∀ z, Inside (.value v) z → z.IsPlain) :
    ∀ z, Inside (.call c) z → z.IsPlain := by
  refine isPlain_of_parts (x := .call c) trivial fun y hy => ?_
  cases hy with
  | argument hv => exact h _ hv

end Piece

/-! ### Expressions -/

/-- The Go text of an accepted expression spells the expression with round brackets, unless a tuple's
field is read in it or an array or tuple is written out in it, and its Go text is the same. -/
theorem Expression.expression_go {symbols : Symbols} {text : Text} {e : Expression}
    (hs : symbols.KeepsNames)
    (hnames : ∀ name d, symbols.lookup? name = some d → Name.isIdentifier name)
    (h : expression symbols text = .ok e) (hplain : ∀ y, Piece.Inside (.expression e) y → y.IsPlain) :
    expression symbols (Go.expression e) = .ok e.rounded ∧
      Go.expression e.rounded = Go.expression e :=
  ⟨(Piece.rereads hs hnames (.expression e) hplain h).2, Go.expression_rounded e⟩

/-- An operator behind a call in brackets, whose arguments are an element in brackets and a literal. -/
def Expression.isCallInBrackets : Check Expression → Bool
  | .ok ⟨[.opening _, .call ⟨_, [.scalar ⟨[.opening _, .element ⟨_, [⟨[.literal _ _], _⟩], _⟩,
      .closing _], _⟩, .scalar ⟨[.literal _ _], _⟩], _⟩, .closing _, .operator _, .literal _ _], _⟩ =>
    true
  | _ => false

theorem Expression.expression_go_call :
    ∃ functions known, Symbols.empty.declare (.function ⟨"f".toList, [⟨"a".toList, .primitive .int⟩,
        ⟨"s".toList, .primitive .string⟩], .primitive .int⟩) = .ok functions ∧
      functions.declare (.array ⟨"xs".toList, ⟨.int, [2]⟩, false⟩) = .ok known ∧ known.KeepsNames ∧
      (∀ name d, known.lookup? name = some d → Name.isIdentifier name) ∧
      ∃ e, expression known ('{' :: "f(".toList ++ '{' :: "xs[1]".toList ++
          '}' :: ",\"a,b\")".toList ++ '}' :: "*2".toList) = .ok e ∧
        (∀ y, Piece.Inside (.expression e) y → y.IsPlain) ∧
        expression known (Go.expression e) = .ok e.rounded ∧
        Go.expression e.rounded = Go.expression e := by
  let function : Descriptor := .function ⟨"f".toList, [⟨"a".toList, .primitive .int⟩,
    ⟨"s".toList, .primitive .string⟩], .primitive .int⟩
  let array : Descriptor := .array ⟨"xs".toList, ⟨.int, [2]⟩, false⟩
  let functions := Symbols.empty.insert function
  let known := functions.insert array
  have hfunctions : functions.Identifies := Symbols.identifies_empty.insert (by decide) rfl
  have hknown : known.Identifies := hfunctions.insert (by decide) rfl
  have hnames : ∀ name d, known.lookup? name = some d → Name.isIdentifier name :=
    fun name d hd => (Name.problem?_eq_none_iff.1 (hknown name d hd).2).1
  have haccepted :
      isCallInBrackets (expression known ('{' :: "f(".toList ++ '{' :: "xs[1]".toList ++
        '}' :: ",\"a,b\")".toList ++ '}' :: "*2".toList)) = true := by
    decide +kernel
  unfold isCallInBrackets at haccepted
  split at haccepted
  · next he =>
    suffices hplain : ∀ y, Piece.Inside (.expression _) y → y.IsPlain from
      ⟨functions, known, rfl, rfl, hknown.keepsNames, hnames, _, he, hplain,
        expression_go hknown.keepsNames hnames he hplain⟩
    refine Piece.isPlain_expression ?_
    simp only [Term.piece?, List.forall_mem_cons, Option.mem_def, Option.some.injEq, forall_eq',
      reduceCtorEq, false_implies, implies_true, true_and, and_true, List.not_mem_nil]
    refine Piece.isPlain_call ?_
    simp only [List.forall_mem_cons, List.not_mem_nil, false_implies, implies_true, and_true]
    refine ⟨Piece.isPlain_scalar (Piece.isPlain_expression ?_),
      Piece.isPlain_scalar Piece.isPlain_literal⟩
    simp only [Term.piece?, List.forall_mem_cons, Option.mem_def, Option.some.injEq, forall_eq',
      reduceCtorEq, false_implies, implies_true, true_and, and_true, List.not_mem_nil]
    exact Piece.isPlain_indexing (List.forall_mem_singleton.2 Piece.isPlain_literal)
  · cases haccepted

end StellaGo
