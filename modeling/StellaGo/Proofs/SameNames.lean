import StellaGo.Program
import StellaGo.Proofs.Reading.Statements

/-! Tables that answer alike. Defined here: when two tables of names give the same answer to every
look-up, whatever the order in which the names were declared, and when two frames do. Proved: every
reader of a line gives the same for both, and leaves frames that answer alike. What the file needs
besides its functions, which a frame notes too, is never asked for. -/

namespace StellaGo

/-! ### Tables -/

/-- Each of the four tables has the same entry under every name. -/
structure Symbols.Same (s s' : Symbols) : Prop where
  scalars : ∀ name, s.scalars.lookup name = s'.scalars.lookup name
  arrays : ∀ name, s.arrays.lookup name = s'.arrays.lookup name
  tuples : ∀ name, s.tuples.lookup name = s'.tuples.lookup name
  functions : ∀ name, s.functions.lookup name = s'.functions.lookup name

namespace Symbols.Same

variable {s s' : Symbols}

theorem lookup?_eq (h : s.Same s') : s.lookup? = s'.lookup? := by
  funext name
  rw [lookup?, lookup?, h.scalars, h.arrays, h.tuples, h.functions]

theorem ensureFree_eq (h : s.Same s') (name : Name) : s.ensureFree name = s'.ensureFree name := by
  rw [ensureFree, ensureFree, h.lookup?_eq]

theorem array?_eq (h : s.Same s') (name : Name) : s.array? name = s'.array? name := h.arrays name

theorem lookup_cons {α : Type} {table table' : Table α}
    (h : ∀ name, table.lookup name = table'.lookup name) (entry : Name × α) (name : Name) :
    List.lookup name (entry :: table) = List.lookup name (entry :: table') := by
  rw [List.lookup_cons, List.lookup_cons, h]

theorem insert (h : s.Same s') (d : Descriptor) : (s.insert d).Same (s'.insert d) := by
  cases d with
  | scalar b => exact { h with scalars := lookup_cons h.scalars (b.name, b) }
  | array b => exact { h with arrays := lookup_cons h.arrays (b.name, b) }
  | tuple b => exact { h with tuples := lookup_cons h.tuples (b.name, b) }
  | function f => exact { h with functions := lookup_cons h.functions (f.name, f) }

end Symbols.Same

/-! ### Expressions -/

namespace Expression

variable {s s' : Symbols} {n : Nat} {inner : Inner n}

theorem resolve_congr (h : s.lookup? = s'.lookup?) : s.resolve = s'.resolve := by
  funext name
  rw [Symbols.resolve, Symbols.resolve, h]

theorem readCall_congr (h : s.lookup? = s'.lookup?) : readCall s inner = readCall s' inner := by
  funext token short
  unfold readCall callee
  rw [resolve_congr h]

theorem readIndexing_congr (h : s.lookup? = s'.lookup?) :
    readIndexing s inner = readIndexing s' inner := by
  funext token short
  unfold readIndexing indexedArray
  rw [resolve_congr h]

theorem readTerm_congr (h : s.lookup? = s'.lookup?) : readTerm s inner = readTerm s' inner := by
  funext token short
  unfold readTerm readValue readWord readScalarCall readField readName
  rw [readCall_congr h, readIndexing_congr h, resolve_congr h]

theorem readTerms_congr (h : s.lookup? = s'.lookup?) :
    ∀ (tokens : List Text) (short : ∀ token ∈ tokens, token.length ≤ n),
      readTerms s inner tokens short = readTerms s' inner tokens short
  | [], _ => by rw [readTerms, readTerms]
  | token :: tokens, short => by
    rw [readTerms, readTerms, readTerm_congr h, readTerms_congr h tokens]

theorem readWhole_congr (h : s.lookup? = s'.lookup?) : readWhole s inner = readWhole s' inner := by
  funext expected text short
  unfold readWhole readArrayName readTupleName
  rw [readCall_congr h, resolve_congr h, h]

end Expression

/-- The readers for shorter texts are the same, so those for this text are. -/
theorem read_congr {s s' : Symbols} (h : s.lookup? = s'.lookup?) (text : Text) :
    expression s text = expression s' text ∧
      ∀ expected, aggregate s expected text = aggregate s' expected text := by
  induction hn : text.length using Nat.strongRecOn generalizing text with
  | ind n ih =>
  subst hn
  have hinside : Expression.inside s text.length = Expression.inside s' text.length := by
    rw [Expression.inside, Expression.inside, Expression.Inner.mk.injEq]
    constructor
    · funext part short
      exact (ih part.length short part rfl).1
    · funext expected part short
      exact (ih part.length short part rfl).2 expected
  unfold Expression.inside at hinside
  constructor
  · rw [expression, expression, hinside]
    unfold Expression.readExpression
    simp only [Expression.readTerms_congr h]
  · intro expected
    rw [aggregate, aggregate, hinside]
    unfold Expression.readAggregate
    rw [Expression.readWhole_congr h]

theorem indexing_congr {s s' : Symbols} (h : s.lookup? = s'.lookup?) (token : Text) :
    indexing s token = indexing s' token := by
  have hinside : Expression.inside s token.length = Expression.inside s' token.length := by
    rw [Expression.inside, Expression.inside]
    simp only [read_congr h]
  rw [indexing, indexing, hinside, Expression.readIndexing_congr h]

/-! ### Results -/

/-- Both results are good and related by `R`, or both are errors and related by `E`. -/
inductive Check.Rel {ε α β : Type} (E : ε → ε → Prop) (R : α → β → Prop) :
    Except ε α → Except ε β → Prop
  | error {e e' : ε} (h : E e e') : Rel E R (.error e) (.error e')
  | ok {a : α} {b : β} (h : R a b) : Rel E R (.ok a) (.ok b)

namespace Check.Rel

variable {ε α β γ δ : Type} {E : ε → ε → Prop} {R : α → β → Prop} {S : γ → δ → Prop}

theorem of_eq {x y : Except ε α} (hE : ∀ e, E e e) (h : x = y) : Rel E Eq x y := by
  subst h
  cases x with
  | error e => exact error (hE e)
  | ok a => exact ok rfl

theorem bind {x : Except ε α} {y : Except ε β} {f : α → Except ε γ} {g : β → Except ε δ}
    (h : Rel E R x y) (hfg : ∀ a b, x = .ok a → y = .ok b → R a b → Rel E S (f a) (g b)) :
    Rel E S (x >>= f) (y >>= g) := by
  cases h with
  | error h => exact error h
  | ok h => exact hfg _ _ rfl rfl h

end Check.Rel

/-! ### Frames -/

/-- The scopes of the frames lie in the same place, and their tables answer alike. -/
structure Frame.Same (f f' : Frame) : Prop where
  place : f.scope.place = f'.scope.place
  symbols : f.scope.symbols.Same f'.scope.symbols

namespace Frame.Same

variable {f f' : Frame}

theorem kind_eq (h : f.Same f') : f.scope.kind = f'.scope.kind := Scope.kind_eq_of_place_eq h.place

theorem returns?_eq (h : f.Same f') : f.scope.returns? = f'.scope.returns? := by
  have hreturns := congrArg Scope.returns? h.place
  exact hreturns

theorem enclosing_eq (h : f.Same f') : f.scope.enclosing = f'.scope.enclosing := by
  have henclosing := congrArg Scope.enclosing h.place
  exact henclosing

theorem insideLoop_eq (h : f.Same f') : f.scope.insideLoop = f'.scope.insideLoop := by
  rw [Scope.insideLoop, Scope.insideLoop, h.kind_eq, h.enclosing_eq]

theorem expression_eq (h : f.Same f') (text : Text) :
    expression f.scope.symbols text = expression f'.scope.symbols text :=
  (read_congr h.symbols.lookup?_eq text).1

theorem aggregate_eq (h : f.Same f') (expected : Aggregate) (text : Text) :
    aggregate f.scope.symbols expected text = aggregate f'.scope.symbols expected text :=
  (read_congr h.symbols.lookup?_eq text).2 expected

/-- What the file needs does not count. -/
theorem with_requirements (h : f.Same f') (r r' : Requirements) :
    Same { f with requirements := r } { f' with requirements := r' } := ⟨h.place, h.symbols⟩

theorem enter (h : f.Same f') (kind : ScopeKind) : (f.enter kind).Same (f'.enter kind) := by
  refine ⟨?_, h.symbols⟩
  unfold Scope.place Frame.enter Scope.enter
  rw [h.kind_eq, h.enclosing_eq]

theorem with_returns (h : f.Same f') (returns? : Option ValueType) :
    Same { f with scope := { f.scope with returns? } } { f' with scope := { f'.scope with returns? } } := by
  refine ⟨?_, h.symbols⟩
  unfold Scope.place
  rw [h.kind_eq, h.enclosing_eq]

theorem leave {inner inner' : Frame} (h : f.Same f') : (f.leave inner).Same (f'.leave inner') :=
  h.with_requirements _ _

theorem body_eq (h : f.Same f') (statements : List Statement) :
    f.body statements = f'.body statements := by
  rw [Frame.body, Frame.body, h.kind_eq, h.returns?_eq, Scope.depth, Scope.depth, h.enclosing_eq]

theorem declare (h : f.Same f') (d : Descriptor) :
    Check.Rel Eq Frame.Same (f.declare d) (f'.declare d) := by
  unfold Frame.declare Scope.declare Symbols.declare
  rw [h.symbols.ensureFree_eq]
  cases f'.scope.symbols.ensureFree d.name with
  | error fault => exact .error rfl
  | ok _ => exact .ok ⟨h.place, h.symbols.insert d⟩

end Frame.Same

theorem Requirements.readType_fst (r r' : Requirements) (t : Text) :
    (r.readType t).1 = (r'.readType t).1 := by
  unfold readType
  split <;> rfl

/-! ### Statements of one line -/

namespace Statement

variable {f f' : Frame}

theorem ofType_congr (h : f.Same f') (expected : Primitive) (what text : Text) :
    Expression.ofType f.scope.symbols expected what text =
      Expression.ofType f'.scope.symbols expected what text := by
  rw [Expression.ofType, Expression.ofType, h.expression_eq]

theorem readValue_congr (h : f.Same f') (what : Text) (type : ValueType) (text : Text) :
    readValue f.scope.symbols what type text = readValue f'.scope.symbols what type text := by
  cases type with
  | primitive type => rw [readValue, readValue, ofType_congr h]
  | array type => exact h.aggregate_eq _ _
  | tuple type => exact h.aggregate_eq _ _

/-- A statement of one line and the frame behind it. -/
def SameLine (result result' : Statement × Frame) : Prop :=
  result.1 = result'.1 ∧ result.2.Same result'.2

theorem readDeclaration_same (h : f.Same f') (line : Text) :
    Check.Rel Eq SameLine (readDeclaration f line) (readDeclaration f' line) := by
  unfold readDeclaration
  cases LetHeader.read? line with
  | none => exact .error rfl
  | some header =>
    dsimp only
    split
    · exact .error rfl
    split
    · exact .error rfl
    rw [h.symbols.ensureFree_eq]
    refine .bind (.of_eq (fun _ => rfl) rfl) fun _ _ _ _ _ => ?_
    refine .bind (.of_eq (fun _ => rfl) (Requirements.readType_fst _ _ _)) fun type type' _ _ htype => ?_
    subst htype
    split
    · exact .error rfl
    refine .bind (.of_eq (fun _ => rfl) (readValue_congr h _ _ _)) fun v v' _ _ hv => ?_
    subst hv
    refine .bind (Frame.Same.declare (h.with_requirements _ _) _) fun _ _ _ _ hafter => ?_
    exact .ok ⟨rfl, hafter⟩

theorem readAssignment_congr (h : f.Same f') (line : Text) :
    readAssignment f.scope.symbols line = readAssignment f'.scope.symbols line := by
  have hindexing (token : Text) :
      indexing f.scope.symbols token = indexing f'.scope.symbols token :=
    indexing_congr h.symbols.lookup?_eq token
  unfold readAssignment readElementAssignment readWholeAssignment targetBinding
  simp only [hindexing, h.symbols.array?_eq, ofType_congr h, readValue_congr h,
    Expression.resolve_congr h.symbols.lookup?_eq]

theorem readJump_congr (h : f.Same f') (jump : Jump) (line : Text) :
    readJump f.scope jump line = readJump f'.scope jump line := by
  rw [readJump, readJump, h.insideLoop_eq]

theorem readBuiltin_same (h : f.Same f') (line : Text) :
    Check.Rel Eq SameLine (readBuiltin f line) (readBuiltin f' line) := by
  unfold readBuiltin
  split
  · next name rest hname =>
    split
    · next callee hcallee =>
      dsimp only
      split
      · exact .error rfl
      split
      · next inside hinside =>
        split
        · exact .error rfl
        rw [h.expression_eq]
        refine .bind (.of_eq (fun _ => rfl) rfl) fun e e' _ _ he => ?_
        subst he
        refine .bind (.of_eq (fun _ => rfl) rfl) fun _ _ _ _ _ => ?_
        exact .ok ⟨rfl, h.with_requirements _ _⟩
      · exact .error rfl
    · exact .error rfl
  · exact .error rfl

theorem readResult_congr (h : f.Same f') (line : Text) :
    readResult f.scope line = readResult f'.scope line := by
  unfold readResult
  rw [h.returns?_eq]
  simp only [h.expression_eq, h.aggregate_eq]

theorem readCondition_congr (h : f.Same f') (text : Text) :
    readCondition f.scope.symbols text = readCondition f'.scope.symbols text := by
  rw [readCondition, readCondition, h.expression_eq]

end Statement

end StellaGo
