import StellaGo.Proofs.Scoping

/-! Control flow in the tree of a file. Defined here: the scopes inside a scope, and what may stand in
a scope, given the kinds of the scopes around it. Proved: in the tree of an accepted file every scope
has this shape, so that a jump leaves or repeats a loop of its own function, every loop can be left,
and a result ends its function; and one function, which alone returns nothing, is `main`. -/

namespace StellaGo

open Environment (Visits)

/-! ### Scopes inside scopes -/

/-- The statement opens a scope of this kind with these statements. -/
inductive Statement.Opens : Statement → ScopeKind → List Statement → Prop
  | clause {clauses : List (Clause Statement)} {clause : Clause Statement} (h : clause ∈ clauses) :
      Opens (.selection clauses) .selection clause.body.statements
  | loop {condition : Expression} {body : Body Statement} :
      Opens (.loop condition body) .loop body.statements
  | function {signature : Signature} {body : Body Statement} :
      Opens (.function signature body) .function body.statements

/-- In the scope of the first kinds and statements stands, at any depth, the scope of the last ones.
The kinds are those of the scope and of the scopes around it, going outwards. -/
inductive HoldsScope : List ScopeKind → List Statement → List ScopeKind → List Statement → Prop
  | self {kinds : List ScopeKind} {statements : List Statement} :
      HoldsScope kinds statements kinds statements
  | inside {kinds kinds' : List ScopeKind} {statements inner statements' : List Statement}
      {s : Statement} {kind : ScopeKind} (hs : s ∈ statements) (ho : s.Opens kind inner)
      (h : HoldsScope (kind :: kinds) inner kinds' statements') :
      HoldsScope kinds statements kinds' statements'

namespace HoldsScope

variable {kinds kinds' : List ScopeKind} {statements statements' : List Statement}

theorem length_le (h : HoldsScope kinds statements kinds' statements') :
    kinds.length ≤ kinds'.length := by
  induction h with
  | self => exact Nat.le_refl _
  | inside _ _ _ ih => exact Nat.le_of_succ_le ih

/-- A scope inside has more scopes around it. -/
theorem eq_self (h : HoldsScope kinds statements kinds statements') : statements' = statements := by
  cases h with
  | self => rfl
  | inside _ _ h => exact absurd h.length_le (Nat.not_succ_le_self _)

end HoldsScope

/-! ### The shape of a scope -/

/-- Going outwards, a loop comes before a function. -/
def LoopAround (kinds : List ScopeKind) : Prop :=
  ∃ inside outside, kinds = inside ++ .loop :: outside ∧ .function ∉ inside

/-- A `break` is reached from these statements through selections alone. -/
inductive ReachesBreak : List Statement → Prop
  | here {statements : List Statement} (h : .jump .break ∈ statements) : ReachesBreak statements
  | clause {statements : List Statement} {clauses : List (Clause Statement)}
      {clause : Clause Statement} (hs : .selection clauses ∈ statements) (hc : clause ∈ clauses)
      (h : ReachesBreak clause.body.statements) : ReachesBreak statements

/-- One `if`, then any number of `else if`, then at most one `else`. -/
def IsChain (headers : List ClauseHeader) : Prop :=
  ∃ (condition : Expression) (conditions : List Expression) (last : List ClauseHeader),
    headers = .ifTrue condition :: (conditions.map .elseIf ++ last) ∧
      (last = [] ∨ last = [.otherwise])

/-- What stands in a scope, given its kind and those of the scopes around it. -/
structure ScopeShape (kinds : List ScopeKind) (statements : List Statement) : Prop where
  /-- Functions stand in the file alone, and nothing else does. -/
  functions : ∀ s ∈ statements, (∃ signature body, s = .function signature body) ↔ kinds = [.global]
  parameters : ∀ signature body, .function signature body ∈ statements →
    ∀ p ∈ signature.parameters, p.type ≠ .primitive .io
  declarations : ∀ name type v, .declaration name type v ∈ statements → type ≠ .primitive .io
  jumps : ∀ jump, .jump jump ∈ statements → LoopAround kinds
  loops : ∀ condition body, .loop condition body ∈ statements → ReachesBreak body.statements
  selections : ∀ clauses, .selection clauses ∈ statements → IsChain (clauses.map Clause.header)
  /-- A result stands in the body of a function, in front of the `}`. -/
  results : ∀ before v after, statements = before ++ .result v :: after →
    kinds = [.function, .global] ∧ after = [.closer]

/-- The scope and all scopes inside it have their shape. -/
def Shaped (kinds : List ScopeKind) (statements : List Statement) : Prop :=
  ∀ kinds' statements', HoldsScope kinds statements kinds' statements' →
    ScopeShape kinds' statements'

/-- The body of a function that returns something: a result stands in front of the `}`. -/
def EndsWithResult (statements : List Statement) : Prop :=
  ∃ before v, statements = before ++ [.result v, .closer]

/-- Every scope of the file has its shape. One function is `main`: it takes nothing, it returns
nothing, and it holds no result. All others return something, and end with it. -/
structure Program.ControlFlow (p : Program) : Prop where
  scopes : Shaped [.global] p.body.statements
  main : ∃ before signature body after,
    p.body.statements = before ++ .function signature body :: after ∧
      signature.name = "main".toList ∧ signature.parameters = [] ∧
      signature.returns = .primitive .io ∧
      (∀ kinds statements v, HoldsScope [.function, .global] body.statements kinds statements →
        .result v ∉ statements) ∧
      ∀ other otherBody, .function other otherBody ∈ before ++ after → other.name ≠ "main".toList
  others : ∀ signature body, .function signature body ∈ p.body.statements →
    signature.name ≠ "main".toList →
      signature.returns ≠ .primitive .io ∧ EndsWithResult body.statements

/-! ### Statements that fit in their scope -/

namespace Scope

/-- The kinds of the scope and of the scopes around it, going outwards. -/
def kinds (s : Scope) : List ScopeKind := s.kind :: s.enclosing

theorem kinds_eq_of_place_eq {s s' : Scope} (h : s.place = s'.place) : s.kinds = s'.kinds := by
  have hkinds := congrArg kinds h
  exact hkinds

theorem returns?_eq_of_place_eq {s s' : Scope} (h : s.place = s'.place) :
    s.returns? = s'.returns? := by
  have hreturns := congrArg returns? h
  exact hreturns

/-- Nothing is around the file, and only the body of a function has a type of result. -/
structure IsPlaced (s : Scope) : Prop where
  global : s.kind = .global → s.enclosing = []
  result : ∀ type ∈ s.returns?, s.kinds = [.function, .global]

theorem isPlaced_global : global.IsPlaced := ⟨fun _ => rfl, nofun⟩

theorem isPlaced_enter (s : Scope) {kind : ScopeKind} (h : kind ≠ .global) :
    (s.enter kind).IsPlaced := ⟨fun hk => absurd hk h, nofun⟩

theorem IsPlaced.of_place_eq {s s' : Scope} (h : s.IsPlaced) (heq : s'.place = s.place) :
    s'.IsPlaced := by
  obtain ⟨kind, enclosing, symbols, returns⟩ := s
  cases heq
  exact ⟨h.global, h.result⟩

theorem loopAround_of_loopComesFirst {kinds : List ScopeKind} (h : loopComesFirst kinds) :
    LoopAround kinds := by
  induction kinds with
  | nil => cases h
  | cons kind outer ih =>
    cases kind with
    | loop => exact ⟨[], outer, rfl, List.not_mem_nil⟩
    | selection =>
      obtain ⟨inside, outside, rfl, hinside⟩ := ih h
      exact ⟨.selection :: inside, outside, rfl, by simpa using hinside⟩
    | function | global => cases h

end Scope

/-- `main` takes and returns nothing, and every other function returns something. -/
def FunctionShape (signature : Signature) (body : List Statement) : Prop :=
  (signature.name = "main".toList ∧ signature.parameters = [] ∧
    signature.returns = .primitive .io ∧ ∀ v, .result v ∉ body) ∨
  (signature.name ≠ "main".toList ∧ signature.returns ≠ .primitive .io ∧ EndsWithResult body)

namespace Statement

/-- What a statement of a scope has to be and to hold, given where the scope stands. -/
def Fits (place : Scope) : Statement → Prop
  | declaration _ type _ => place.kind ≠ .global ∧ type ≠ .primitive .io
  | assignment _ _ | builtin _ _ | closer => place.kind ≠ .global
  | jump _ => place.kind ≠ .global ∧ LoopAround place.kinds
  | selection clauses => place.kind ≠ .global ∧ IsChain (clauses.map Clause.header) ∧
    ∀ clause ∈ clauses, Shaped (.selection :: place.kinds) clause.body.statements
  | loop _ body => place.kind ≠ .global ∧ ReachesBreak body.statements ∧
    Shaped (.loop :: place.kinds) body.statements
  | result _ => ∃ type ∈ place.returns?, type ≠ .primitive .io
  | function signature body => place.kind = .global ∧
    (∀ p ∈ signature.parameters, p.type ≠ .primitive .io) ∧
    Shaped (.function :: place.kinds) body.statements ∧ FunctionShape signature body.statements

end Statement

/-- A result is followed by these statements alone. -/
def ResultsPrecede (closing statements : List Statement) : Prop :=
  ∀ before v after, statements = before ++ .result v :: after → after = closing

namespace ResultsPrecede

theorem cons {closing statements : List Statement} {s : Statement} (hs : ∀ v, s ≠ .result v)
    (h : ResultsPrecede closing statements) : ResultsPrecede closing (s :: statements) := by
  intro before v after heq
  cases before with
  | nil => exact absurd (List.cons.inj heq).1 (hs v)
  | cons first others => exact h others v after (List.cons.inj heq).2

theorem append_closer {statements : List Statement} (h : ResultsPrecede [] statements) :
    ResultsPrecede [.closer] (statements ++ [.closer]) := by
  induction statements with
  | nil =>
    intro before v after heq
    cases before with
    | nil => cases heq
    | cons first others => cases others <;> cases heq
  | cons s rest ih =>
    have hrest : ResultsPrecede [] rest := fun before v after heq =>
      h (s :: before) v after (by rw [heq]; rfl)
    intro before v after heq
    cases before with
    | nil =>
      obtain ⟨rfl, rfl⟩ := List.cons.inj heq
      rw [h [] v rest rfl]
      rfl
    | cons first others => exact ih hrest others v after (List.cons.inj heq).2

end ResultsPrecede

/-- A scope whose statements fit has its shape, with all scopes inside it. -/
theorem shaped_of_fits {scope : Scope} {statements : List Statement} (hp : scope.IsPlaced)
    (hfits : ∀ s ∈ statements, s.Fits scope.place)
    (hresults : ResultsPrecede [.closer] statements) : Shaped scope.kinds statements := by
  have hglobal : scope.kinds = [.global] ↔ scope.kind = .global := by
    constructor
    · intro h
      exact (List.cons.inj h).1
    · intro h
      rw [Scope.kinds, h, hp.global h]
  intro kinds' statements' h
  cases h with
  | self =>
    constructor
    · intro s hs
      have hs := hfits s hs
      rw [hglobal]
      cases s with
      | function signature body => exact ⟨fun _ => hs.1, fun _ => ⟨signature, body, rfl⟩⟩
      | result v =>
        obtain ⟨type, htype, -⟩ := hs
        have hkinds := hp.result type htype
        exact ⟨by simp, fun h => by rw [hglobal.2 h] at hkinds; cases hkinds⟩
      | assignment | builtin | closer => exact ⟨by simp, fun h => absurd h hs⟩
      | declaration | jump | selection | loop => exact ⟨by simp, fun h => absurd h hs.1⟩
    · intro signature body hs
      exact (hfits _ hs).2.1
    · intro name type v hs
      exact (hfits _ hs).2
    · intro jump hs
      exact (hfits _ hs).2
    · intro condition body hs
      exact (hfits _ hs).2.1
    · intro clauses hs
      exact (hfits _ hs).2.1
    · intro before v after heq
      have hs : .result v ∈ statements := by simp [heq]
      obtain ⟨type, htype, -⟩ := hfits _ hs
      exact ⟨hp.result type htype, hresults before v after heq⟩
  | inside hs ho h =>
    have hs := hfits _ hs
    cases ho with
    | clause hc => exact hs.2.2 _ hc _ _ h
    | loop => exact hs.2.2 _ _ h
    | function => exact hs.2.2.1 _ _ h

/-! ### What is read fits -/

theorem ValueType.ne_io_of_isIO {type : ValueType} (h : type.isIO = false) :
    type ≠ .primitive .io := by
  rintro rfl
  cases h

namespace Statement

mutual

theorem reachesBreak_of_breaksLoop {s : Statement} {statements : List Statement}
    (hs : s ∈ statements) (h : breaksLoop s) : ReachesBreak statements := by
  cases s with
  | jump jump =>
    cases jump with
    | «break» => exact .here hs
    | «continue» => cases h
  | selection clauses => exact reachesBreak_of_clausesBreak (fun _ hc => hc) hs h
  | declaration | assignment | loop | function | builtin | result | closer => cases h

theorem reachesBreak_of_clausesBreak : ∀ {clauses all : List (Clause Statement)}
    {statements : List Statement}, (∀ clause ∈ clauses, clause ∈ all) →
    selection all ∈ statements → clausesBreak clauses → ReachesBreak statements
  | ⟨_, ⟨_, _, _, inner⟩⟩ :: rest, all, statements, hall, hs, h => by
    rw [clausesBreak, Bool.or_eq_true] at h
    rcases h with h | h
    · exact .clause hs (hall _ List.mem_cons_self) (reachesBreak_of_anyBreaks (fun _ hs => hs) h)
    · exact reachesBreak_of_clausesBreak (fun clause hc => hall clause (List.mem_cons_of_mem _ hc))
        hs h

/-- What the reader of a loop looks for is a `break` that leaves the loop. -/
theorem reachesBreak_of_anyBreaks : ∀ {part all : List Statement}, (∀ s ∈ part, s ∈ all) →
    anyBreaks part → ReachesBreak all
  | s :: rest, all, hall, h => by
    rw [anyBreaks, Bool.or_eq_true] at h
    rcases h with h | h
    · exact reachesBreak_of_breaksLoop (hall s List.mem_cons_self) h
    · exact reachesBreak_of_anyBreaks (fun t ht => hall t (List.mem_cons_of_mem _ ht)) h

end

theorem ne_io_of_readResult {scope : Scope} {line : Text} {s : Statement}
    (h : readResult scope line = .ok s) : ∃ type ∈ scope.returns?, type ≠ .primitive .io := by
  obtain ⟨type, v, htype, -, -⟩ := readResult_eq_ok h
  refine ⟨type, htype, ?_⟩
  rintro rfl
  rw [readResult, htype] at h
  cases h

end Statement

namespace Program

theorem checkSignature_eq_ok {s : Signature} (h : checkSignature s = .ok ()) :
    (s.name = "main".toList ∧ s.parameters = [] ∧ s.returns = .primitive .io) ∨
      (s.name ≠ "main".toList ∧ s.returns ≠ .primitive .io) := by
  unfold checkSignature at h
  split at h
  · next hname =>
    split at h
    · cases h
    next hio =>
    split at h
    · cases h
    next hparameters =>
    exact .inl ⟨hname, not_not.1 hparameters, by simpa [ValueType.isIO] using hio⟩
  · next hname =>
    split at h
    · cases h
    next hio => exact .inr ⟨hname, ValueType.ne_io_of_isIO (by simpa using hio)⟩

/-- A header follows the `}` of a clause that is not the last. -/
theorem isOtherwise_of_readNextHeader {symbols : Symbols} {last : Bool} {rest : Text}
    {header : ClauseHeader} (h : readNextHeader symbols last rest = .ok header) : last = false := by
  cases last with
  | false => rfl
  | true =>
    unfold readNextHeader at h
    split at h
    · cases h
    dsimp only at h
    split at h <;> cases h

/-- Lines are read where they stand, whatever they declare. -/
theorem Reads.place_eq {reading : Reading} (h : Reads reading) :
    reading.after.scope.place = reading.before.scope.place := by
  induction h with
  | nil | result | lastClause => rfl
  | blank _ _ ih => exact ih
  | line _ hline _ ih => exact ih.trans hline.spells.place_eq
  | selection _ _ _ _ _ _ ihclauses ihrest => exact ihrest.trans ihclauses
  | loop _ _ _ _ _ _ _ _ _ ihrest => exact ihrest
  | function _ _ _ _ _ _ _ hdeclare _ _ ihrest =>
    have hplace := Frame.place_of_declare hdeclare
    exact ihrest.trans hplace
  | nextClause _ _ _ _ _ ihclauses => exact ihclauses

theorem Spells.fits {f next : Frame} {s : Statement} (h : Spells f s next)
    (hin : f.scope.kind ≠ .global) : s.Fits f.scope.place := by
  cases h with
  | declaration _ hio => exact ⟨hin, ValueType.ne_io_of_isIO hio⟩
  | jump hloop => exact ⟨hin, Scope.loopAround_of_loopComesFirst hloop⟩
  | element | whole | builtin => exact hin

theorem Spells.ne_result {f next : Frame} {s : Statement} (h : Spells f s next) (v : Value) :
    s ≠ .result v := by
  rintro rfl
  cases h

theorem isPlaced_of_enterFunction {f entered : Frame} {s : Signature}
    (h : enterFunction f s = .ok entered) (hp : f.scope.IsPlaced) (hin : f.scope.kind = .global) :
    entered.scope.IsPlaced := by
  have hbody : Scope.IsPlaced { f.scope.enter .function with returns? := some s.returns } := by
    refine ⟨nofun, fun _ _ => ?_⟩
    rw [Scope.kinds, Scope.enter, hin, hp.global hin]
  exact hbody.of_place_eq (place_of_enterFunction h)

/-- The header and the body of a function go together. -/
theorem functionShape_of_fits {entered : Frame} {signature : Signature} {body : List Statement}
    (hcheck : checkSignature signature = .ok ())
    (hreturns : entered.scope.returns? = some signature.returns)
    (hfits : ∀ s ∈ body, s.Fits entered.scope.place)
    (hresult : signature.returns.isIO ∨ body.getLast?.any (·.isResult)) :
    FunctionShape signature (body ++ [.closer]) := by
  rcases checkSignature_eq_ok hcheck with ⟨hname, hparameters, hio⟩ | ⟨hname, hio⟩
  · refine .inl ⟨hname, hparameters, hio, fun v hv => ?_⟩
    have hv : .result v ∈ body := by simpa using hv
    obtain ⟨type, htype, hne⟩ := hfits _ hv
    rw [Scope.place, hreturns, hio] at htype
    exact hne (Option.mem_some.1 htype).symm
  · refine .inr ⟨hname, hio, ?_⟩
    rcases hresult with hresult | hresult
    · exact absurd (by simpa [ValueType.isIO] using hresult) hio
    · obtain ⟨s, hlast, hs⟩ := (Option.any_eq_true _ _).1 hresult
      obtain ⟨before, rfl⟩ := List.getLast?_eq_some_iff.1 hlast
      cases s with
      | result v => exact ⟨before, v, by simp⟩
      | _ => cases hs

/-- What is read off lines fits where it is read, and nothing stands behind a result. The headers of
clauses make up a chain. -/
def Reading.IsShaped : Reading → Prop
  | lines f _ statements _ => f.scope.IsPlaced →
    (∀ s ∈ statements, s.Fits f.scope.place) ∧ ResultsPrecede [] statements
  | clauses f header _ cs _ =>
    (∀ clause ∈ cs, Shaped (.selection :: f.scope.kinds) clause.body.statements) ∧
      ∃ (conditions : List Expression) (last : List ClauseHeader),
        cs.map Clause.header = header :: (conditions.map .elseIf ++ last) ∧
          (last = [] ∨ last = [.otherwise]) ∧ (isOtherwise header → conditions = [] ∧ last = [])

/-- The statements that were read in a scope, and the `}` behind them. -/
theorem shaped_block {scope : Scope} {statements : List Statement} (hp : scope.IsPlaced)
    (hin : scope.kind ≠ .global)
    (h : (∀ s ∈ statements, s.Fits scope.place) ∧ ResultsPrecede [] statements) :
    Shaped scope.kinds (statements ++ [.closer]) := by
  refine shaped_of_fits hp (fun s hs => ?_) h.2.append_closer
  rcases List.mem_append.1 hs with hs | hs
  · exact h.1 s hs
  · rw [List.mem_singleton.1 hs]
    exact hin

/-- Statements that were read where nothing may be returned. -/
theorem shaped_of_returns?_eq_none {scope : Scope} {statements : List Statement}
    (hp : scope.IsPlaced) (hnone : scope.returns? = none)
    (h : ∀ s ∈ statements, s.Fits scope.place) : Shaped scope.kinds statements := by
  refine shaped_of_fits hp h fun before v after heq => ?_
  obtain ⟨type, htype, -⟩ : Statement.Fits scope.place (.result v) := h _ (by simp [heq])
  rw [Scope.place, hnone] at htype
  cases htype

/-- By induction on how the lines are read: what is known of a scope is known of its place, and a
scope inside stands in this one. -/
theorem Reads.isShaped {reading : Reading} (h : Reads reading) : reading.IsShaped := by
  induction h with
  | nil =>
    refine fun _ => ⟨nofun, fun before v after heq => ?_⟩
    cases before <;> cases heq
  | blank _ _ ih => exact ih
  | line hin hline _ ih =>
    intro hp
    have hplace := hline.spells.place_eq
    obtain ⟨hrest, hresults⟩ := ih (hp.of_place_eq hplace)
    rw [hplace] at hrest
    exact ⟨List.forall_mem_cons.2 ⟨hline.spells.fits hin, hrest⟩,
      hresults.cons hline.spells.ne_result⟩
  | result _ _ hresult _ =>
    intro _
    obtain ⟨type, v, -, rfl, -⟩ := Statement.readResult_eq_ok hresult
    constructor
    · intro s hs
      rw [List.mem_singleton.1 hs]
      have hio := Statement.ne_io_of_readResult hresult
      exact hio
    · intro before v after heq
      cases before with
      | nil => exact (List.cons.inj heq).2.symm
      | cons first others => cases others <;> cases heq
  | @selection f next after line taken rest text condition clauses statements hin _ _ _ hclauses _
      ihclauses ihrest =>
    intro hp
    have hplace : next.scope.place = f.scope.place := hclauses.place_eq
    obtain ⟨hrest, hresults⟩ := ihrest (hp.of_place_eq hplace)
    obtain ⟨hbodies, conditions, last, hheaders, hlast, -⟩ := ihclauses
    rw [hplace] at hrest
    refine ⟨List.forall_mem_cons.2 ⟨⟨hin, ?_, hbodies⟩, hrest⟩, hresults.cons nofun⟩
    exact ⟨condition, conditions, last, hheaders, hlast⟩
  | @loop f inner after line close inside rest text condition body statements hin _ _ _ hinside
      hbreak _ _ ihinside ihrest =>
    intro hp
    obtain ⟨hrest, hresults⟩ := ihrest hp
    have hentered := f.scope.isPlaced_enter (show ScopeKind.loop ≠ .global from nofun)
    have hbody := shaped_block hentered nofun (ihinside hentered)
    refine ⟨List.forall_mem_cons.2 ⟨⟨hin, ?_, hbody⟩, hrest⟩, hresults.cons nofun⟩
    exact Statement.reachesBreak_of_anyBreaks (fun s hs => List.mem_append_left _ hs) hbreak
  | @function f entered inner next after line close inside rest signature r body statements hin _
      hsignature henter hinside hresult _ hdeclare _ ihinside ihrest =>
    intro hp
    have hplace := Frame.place_of_declare hdeclare
    obtain ⟨hrest, hresults⟩ := ihrest (hp.of_place_eq hplace)
    rw [hplace] at hrest
    have hplaced := isPlaced_of_enterFunction henter hp hin
    have hplace := place_of_enterFunction henter
    have hkind : entered.scope.kind ≠ .global := by
      rw [Scope.kind_eq_of_place_eq hplace]
      nofun
    have hfits := ihinside hplaced
    have hbody := shaped_block hplaced hkind hfits
    have hkinds := Scope.kinds_eq_of_place_eq hplace
    obtain ⟨-, -, hparameters, hcheck⟩ := readSignature_eq_ok hsignature
    have hshape := functionShape_of_fits hcheck (Scope.returns?_eq_of_place_eq hplace)
      hfits.1 hresult
    rw [hkinds] at hbody
    refine ⟨List.forall_mem_cons.2 ⟨⟨hin, ?_, hbody, hshape⟩, hrest⟩, hresults.cons nofun⟩
    exact fun p hp => ValueType.ne_io_of_isIO (hparameters p hp).2
  | @lastClause f inner header close inside body _ _ ihinside =>
    have hentered := f.scope.isPlaced_enter (show ScopeKind.selection ≠ .global from nofun)
    have hbody := shaped_block hentered nofun (ihinside hentered)
    refine ⟨fun clause hclause => ?_, [], [], rfl, .inl rfl, fun _ => ⟨rfl, rfl⟩⟩
    rw [List.mem_singleton.1 hclause]
    exact hbody
  | @nextClause f inner after header next close inside taken body clauses _ _ hnext _ ihinside
      ihclauses =>
    have hentered := f.scope.isPlaced_enter (show ScopeKind.selection ≠ .global from nofun)
    have hbody := shaped_of_returns?_eq_none hentered rfl (ihinside hentered).1
    obtain ⟨hbodies, conditions, last, hheaders, hlast, hend⟩ := ihclauses
    have hheader := isOtherwise_of_readNextHeader hnext
    refine ⟨List.forall_mem_cons.2 ⟨hbody, hbodies⟩, ?_⟩
    obtain ⟨-, -, ⟨rfl, -⟩ | ⟨text, condition, rfl, -, -⟩⟩ := readNextHeader_eq_ok hnext
    · obtain ⟨rfl, rfl⟩ := hend rfl
      refine ⟨[], [.otherwise], ?_, .inr rfl, fun h => absurd h (by simp [hheader])⟩
      rw [List.map_cons, hheaders]
      rfl
    · refine ⟨condition :: conditions, last, ?_, hlast, fun h => absurd h (by simp [hheader])⟩
      rw [List.map_cons, hheaders]
      rfl

end Program

/-! ### The functions of a file -/

namespace Environment

variable {env : Environment} {name : Name}

theorem lookup?_add_eq_none_iff {d : Declared} :
    (env.add d).lookup? name = none ↔ env.lookup? name = none ∧ d.name ≠ name := by
  rw [lookup?_add, ne_comm]
  split
  · simp [*]
  · simp [*]

theorem lookup?_extend_eq_none_iff {s : Statement} :
    (env.extend s).lookup? name = none ↔
      env.lookup? name = none ∧ ∀ d ∈ s.exports, d.name ≠ name := by
  cases s <;> simp [extend, Statement.exports, lookup?_add_eq_none_iff, -lookup?_add]

/-- A name is unknown behind statements if it was unknown before them and none declares it. -/
theorem lookup?_foldl_extend_eq_none_iff {statements : List Statement} :
    (statements.foldl extend env).lookup? name = none ↔
      env.lookup? name = none ∧ ∀ s ∈ statements, ∀ d ∈ s.exports, d.name ≠ name := by
  induction statements generalizing env with
  | nil => simp
  | cons s rest ih => simp [ih, lookup?_extend_eq_none_iff, and_assoc]

theorem visits_append_cons {before after : List Statement} {s : Statement} :
    Visits env (before ++ s :: after) (before.foldl extend env) s := by
  induction before generalizing env with
  | nil => exact .here
  | cons _ _ ih => exact .later ih

end Environment

namespace Program

variable {source : Text} {p : Program}

/-- No function of an accepted file has the name of one before it. -/
theorem name_ne_of_read (h : Program.read source = .ok p) {before after : List Statement}
    {signature other : Signature} {body otherBody : Body Statement}
    (heq : p.body.statements = before ++ .function signature body :: after)
    (hother : .function other otherBody ∈ before) : other.name ≠ signature.name := by
  have hvisits : Visits .empty p.body.statements _ _ := heq ▸ Environment.visits_append_cons
  obtain ⟨f, hf, hread⟩ := exists_frame_of_visits h hvisits
  obtain ⟨hfree, -⟩ := hf.fresh hread
  obtain ⟨-, hnames⟩ := Environment.lookup?_foldl_extend_eq_none_iff.1 hfree
  exact hnames _ hother _ (List.mem_singleton_self _)

/-- Results stand in the body of a function alone, so a body without one holds none at any depth. -/
theorem not_mem_of_shaped {body statements : List Statement} {kinds : List ScopeKind}
    (hshaped : Shaped [.function, .global] body) (hnone : ∀ v, .result v ∉ body)
    (h : HoldsScope [.function, .global] body kinds statements) (v : Value) :
    .result v ∉ statements := by
  intro hv
  obtain ⟨before, after, heq⟩ := List.append_of_mem hv
  obtain ⟨rfl, -⟩ := (hshaped _ _ h).results before v after heq
  rw [h.eq_self] at hv
  exact hnone v hv

theorem fits_of_read (h : Program.read source = .ok p) :
    ∀ s ∈ p.body.statements, s.Fits Scope.global.place := by
  obtain ⟨after, hreads, -⟩ := reads_of_read h
  exact (hreads.isShaped Scope.isPlaced_global).1

theorem shaped_of_read (h : Program.read source = .ok p) : Shaped [.global] p.body.statements :=
  shaped_of_returns?_eq_none Scope.isPlaced_global rfl (fits_of_read h)

theorem functions_of_read (h : Program.read source = .ok p) :
    ∀ s ∈ p.body.statements, ∃ signature body, s = .function signature body :=
  fun s hs => ((shaped_of_read h _ _ .self).functions s hs).2 rfl

/-- Among the functions of an accepted file is one with the name `main`. -/
theorem exists_main_of_read (h : Program.read source = .ok p) :
    ∃ signature body, .function signature body ∈ p.body.statements ∧
      signature.name = "main".toList := by
  obtain ⟨after, hreads, -, hmain⟩ := reads_of_read h
  obtain ⟨-, hafter⟩ := hreads.isAccounted .empty Reflects.empty
  by_contra hnone
  have hunknown :
      (p.body.statements.foldl Environment.extend .empty).lookup? "main".toList = none := by
    refine Environment.lookup?_foldl_extend_eq_none_iff.2 ⟨rfl, fun s hs d hd hname => hnone ?_⟩
    obtain ⟨signature, body, rfl⟩ := functions_of_read h s hs
    obtain rfl := List.mem_singleton.1 hd
    exact ⟨signature, body, hs, hname⟩
  rw [← hafter.lookup, Option.map_eq_none_iff, Symbols.lookup?_eq_none_iff] at hunknown
  exact hmain hunknown.2.2.2

/-- An accepted file has the control flow that its functions need. -/
theorem controlFlow_of_read (h : Program.read source = .ok p) : p.ControlFlow := by
  have hshape {signature : Signature} {body : Body Statement}
      (hs : .function signature body ∈ p.body.statements) :
      Shaped [.function, .global] body.statements ∧ FunctionShape signature body.statements := by
    obtain ⟨-, -, hbody⟩ := fits_of_read h _ hs
    exact hbody
  constructor
  · exact shaped_of_read h
  · obtain ⟨signature, body, hs, hname⟩ := exists_main_of_read h
    obtain ⟨hbody, ⟨-, hparameters, hio, hnone⟩ | ⟨hother, -⟩⟩ := hshape hs
    · obtain ⟨before, behind, heq⟩ := List.append_of_mem hs
      refine ⟨before, signature, body, behind, heq, hname, hparameters, hio,
        fun kinds statements v hin => not_mem_of_shaped hbody hnone hin v, ?_⟩
      intro other otherBody hmem
      rw [← hname]
      rcases List.mem_append.1 hmem with hmem | hmem
      · exact name_ne_of_read h heq hmem
      · obtain ⟨between, last, rfl⟩ := List.append_of_mem hmem
        have hlater : p.body.statements =
            (before ++ .function signature body :: between) ++ .function other otherBody :: last := by
          rw [heq, List.append_assoc]
          rfl
        exact (name_ne_of_read h hlater (List.mem_append_right _ List.mem_cons_self)).symm
    · exact absurd hname hother
  · intro signature body hs hname
    obtain ⟨-, ⟨hmain, -⟩ | ⟨-, hio, hresult⟩⟩ := hshape hs
    · exact absurd hmain hname
    · exact ⟨hio, hresult⟩

theorem controlFlow_of_read_loop :
    ∃ p, Program.read
      (Text.block "function f() -> int =" [['1']] ++
        '\n' :: Text.block "function main() -> IO ="
          [Text.block "loop true" [Text.block "if true" ["break".toList]]]) =
        .ok p ∧ p.body.statements.length = 2 ∧ p.ControlFlow := by
  have haccepted : ((Program.read
      (Text.block "function f() -> int =" [['1']] ++
        '\n' :: Text.block "function main() -> IO ="
          [Text.block "loop true" [Text.block "if true" ["break".toList]]])
      ).toOption.map fun p => p.body.statements.length) = some 2 := by decide +kernel
  obtain ⟨p, hp, hlen⟩ := Option.map_eq_some_iff.1 haccepted
  have hread := Check.toOption_eq_some_iff.1 hp
  exact ⟨p, hread, hlen, controlFlow_of_read hread⟩

end Program

end StellaGo
