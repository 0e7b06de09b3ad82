import StellaGo.Proofs.Names
import StellaGo.Proofs.Pieces

/-! The names that a statement of a tree can use. Defined here: the environment of each statement,
by a walk over the tree alone, and when the tables of a reader hold the names of an environment.
Proved: each statement of an accepted file was read with tables that hold the names of its
environment and no other names. So a fact about what the readers look up is a fact about the tree.
-/

namespace StellaGo

/-! ### Declared names -/

/-- What a tree says of a declared name. -/
inductive Declared where
  | value (name : Name) (type : ValueType)
  | function (signature : Signature)
  deriving DecidableEq, Repr

/-- What a name of the given type stands for. -/
def ValueType.kind : ValueType → Name.Kind
  | primitive _ => .scalar
  | array _ => .array
  | tuple _ => .tuple

namespace Declared

def name : Declared → Name
  | value name _ => name
  | function s => s.name

def kind : Declared → Name.Kind
  | value _ type => type.kind
  | function _ => .function

end Declared

def Parameter.declared (p : Parameter) : Declared := .value p.name p.type

namespace Descriptor

def declared : Descriptor → Declared
  | scalar b => .value b.name (.primitive b.type)
  | array b => .value b.name (.array b.type)
  | tuple b => .value b.name (.tuple b.type)
  | function s => .function s

@[simp]
theorem name_declared (d : Descriptor) : d.declared.name = d.name := by
  cases d <;> rfl

@[simp]
theorem declared_ofType (name : Name) (isMutable : Bool) (type : ValueType) :
    (ofType name isMutable type).declared = .value name type := by
  cases type <;> rfl

end Descriptor

/-! ### Environments -/

/-- The names that can be used, the last one first, and what the function returns whose body it is.
-/
structure Environment where
  declared : List Declared
  returns? : Option ValueType
  deriving DecidableEq, Repr

namespace Environment

def empty : Environment := ⟨[], none⟩

def lookup? (env : Environment) (name : Name) : Option Declared :=
  env.declared.find? fun d => d.name == name

def add (env : Environment) (d : Declared) : Environment :=
  { env with declared := d :: env.declared }

/-- Every one of the names is new when its turn comes. -/
def Fresh (env : Environment) : List Declared → Prop
  | [] => True
  | d :: rest => env.lookup? d.name = none ∧ Fresh (env.add d) rest

/-- The environment behind a statement. What is declared in a clause, a loop or a function stays
there. -/
def extend (env : Environment) : Statement → Environment
  | .declaration name type _ => env.add (.value name type)
  | .function signature _ => env.add (.function signature)
  | _ => env

/-- The environment at the start of a body: the function, and then its parameters, are known. -/
def enterFunction (env : Environment) (s : Signature) : Environment :=
  (s.parameters.map Parameter.declared).foldl add ⟨.function s :: env.declared, some s.returns⟩

/-- Walking over the statements from the first environment, the statement is met, at any depth, in
the second one. -/
inductive Visits : Environment → List Statement → Environment → Statement → Prop
  | here {env : Environment} {s : Statement} {rest : List Statement} : Visits env (s :: rest) env s
  | later {env env' : Environment} {s s' : Statement} {rest : List Statement}
      (h : Visits (env.extend s) rest env' s') : Visits env (s :: rest) env' s'
  | clause {env env' : Environment} {clause : Clause Statement} {clauses : List (Clause Statement)}
      {s' : Statement} {rest : List Statement} (hc : clause ∈ clauses)
      (h : Visits env clause.body.statements env' s') :
      Visits env (.selection clauses :: rest) env' s'
  | loop {env env' : Environment} {condition : Expression} {body : Body Statement} {s' : Statement}
      {rest : List Statement} (h : Visits env body.statements env' s') :
      Visits env (.loop condition body :: rest) env' s'
  | function {env env' : Environment} {signature : Signature} {body : Body Statement}
      {s' : Statement} {rest : List Statement}
      (h : Visits (env.enterFunction signature) body.statements env' s') :
      Visits env (.function signature body :: rest) env' s'

theorem name_of_lookup? {env : Environment} {name : Name} {d : Declared}
    (h : env.lookup? name = some d) : d.name = name := by
  have hfound := List.find?_some h
  exact beq_iff_eq.1 hfound

@[simp]
theorem lookup?_add (env : Environment) (d : Declared) (name : Name) :
    (env.add d).lookup? name = if name = d.name then some d else env.lookup? name := by
  rw [lookup?, add, List.find?_cons]
  by_cases h : name = d.name
  · rw [if_pos h, beq_iff_eq.2 h.symm]
  · rw [if_neg h, beq_false_of_ne (Ne.symm h)]
    rfl

/-- What is new does not depend on the result of a function. -/
theorem Fresh.of_declared_eq {env env' : Environment} {ds : List Declared} (h : env.Fresh ds)
    (heq : env'.declared = env.declared) : env'.Fresh ds := by
  induction ds generalizing env env' with
  | nil => trivial
  | cons d rest ih =>
    obtain ⟨hfree, hrest⟩ := h
    refine ⟨?_, ih hrest ?_⟩
    · rw [lookup?, heq]
      exact hfree
    · rw [add, add, heq]

/-- A statement among the first ones or behind them. -/
theorem Visits.of_append {env env' : Environment} {xs ys : List Statement} {s : Statement}
    (h : Visits env (xs ++ ys) env' s) :
    Visits env xs env' s ∨ Visits (xs.foldl extend env) ys env' s := by
  induction xs generalizing env with
  | nil => exact .inr h
  | cons x xs ih =>
    cases h with
    | here => exact .inl .here
    | later h => exact (ih h).imp .later id
    | clause hc h => exact .inl (.clause hc h)
    | loop h => exact .inl (.loop h)
    | function h => exact .inl (.function h)

end Environment

open Environment (Visits)

namespace Statement

/-- The statement stands on a line of its own and holds no other statement. -/
def isLine : Statement → Bool
  | selection _ | loop _ _ | function _ _ => false
  | _ => true

end Statement

theorem Environment.visits_of_isLine {env env' : Environment} {s s' : Statement}
    {rest : List Statement} (hs : s.isLine) (h : Visits env (s :: rest) env' s') :
    env' = env ∧ s' = s ∨ Visits (env.extend s) rest env' s' := by
  cases h with
  | here => exact .inl ⟨rfl, rfl⟩
  | later h => exact .inr h
  | clause | loop | function => cases hs

/-! ### Tables that hold the names of an environment -/

open Program (declareParameters enterFunction readSignature)

/-- In a frame, the names of the environment are known and no others. -/
structure Reflects (f : Frame) (env : Environment) : Prop where
  lookup : ∀ name, (f.scope.symbols.lookup? name).map Descriptor.declared = env.lookup? name
  returns : ∀ type ∈ f.scope.returns?, env.returns? = some type

namespace Reflects

variable {f next : Frame} {env : Environment}

theorem empty : Reflects ⟨.global, .empty⟩ .empty where
  lookup _ := rfl
  returns := nofun

theorem lookup?_eq {name : Name} {d : Descriptor} (h : Reflects f env)
    (hd : f.scope.symbols.lookup? name = some d) : env.lookup? d.name = some d.declared := by
  have henv := h.lookup name
  rw [hd, Option.map_some] at henv
  -- an environment keeps a name under itself, so the tables do as well
  have hname : d.declared.name = name := Environment.name_of_lookup? henv.symm
  rw [← d.name_declared, hname]
  exact henv.symm

theorem of_scope_eq (h : Reflects f env) (hscope : next.scope = f.scope) : Reflects next env := by
  constructor
  · rw [hscope]
    exact h.lookup
  · rw [hscope]
    exact h.returns

/-- A scope starts with the names around it. -/
theorem enter (h : Reflects f env) (kind : ScopeKind) : Reflects (f.enter kind) env where
  lookup := h.lookup
  returns := nofun

/-- What is declared was unknown, and is known from there on. -/
theorem declare {d : Descriptor} (h : Reflects f env) (hd : f.declare d = .ok next) :
    env.lookup? d.name = none ∧ Reflects next (env.add d.declared) := by
  obtain ⟨hfree, rfl⟩ := Frame.declare_eq_ok_iff.1 hd
  refine ⟨?_, ?_, h.returns⟩
  · simp [← h.lookup, hfree]
  · intro name
    simp only [Symbols.lookup?_insert hfree, Environment.lookup?_add, Descriptor.name_declared,
      ← h.lookup]
    by_cases hname : name = d.name
    · simp [hname]
    · simp [hname]

theorem declareParameters {parameters : List Parameter} (h : Reflects f env)
    (hp : Program.declareParameters f parameters = .ok next) :
    env.Fresh (parameters.map Parameter.declared) ∧
      Reflects next ((parameters.map Parameter.declared).foldl Environment.add env) := by
  induction parameters generalizing f env with
  | nil =>
    cases hp
    exact ⟨trivial, h⟩
  | cons p rest ih =>
    obtain ⟨middle, hmiddle, hrest⟩ := Check.bind_eq_ok_iff.1 hp
    obtain ⟨hfree, hreflects⟩ := h.declare hmiddle
    simp only [Parameter.descriptor, Descriptor.name_ofType] at hfree
    simp only [Parameter.descriptor, Descriptor.declared_ofType] at hreflects
    obtain ⟨hfresh, hnext⟩ := ih hreflects hrest
    exact ⟨⟨hfree, hfresh⟩, hnext⟩

/-- A function knows itself before its parameters, and all of these are new. -/
theorem enterFunction {s : Signature} (h : Reflects f env)
    (hs : Program.enterFunction f s = .ok next) :
    env.Fresh (.function s :: s.parameters.map Parameter.declared) ∧
      Reflects next (env.enterFunction s) := by
  obtain ⟨known, hknown, hparameters⟩ := Check.bind_eq_ok_iff.1 hs
  have hentered : Reflects { f.enter .function with
      scope := { (f.enter .function).scope with returns? := some s.returns } }
      ⟨env.declared, some s.returns⟩ := by
    refine ⟨h.lookup, fun type htype => ?_⟩
    cases htype
    rfl
  obtain ⟨hfree, hreflects⟩ := hentered.declare hknown
  obtain ⟨hfresh, hnext⟩ := hreflects.declareParameters hparameters
  exact ⟨Environment.Fresh.of_declared_eq ⟨hfree, hfresh⟩ rfl, hnext⟩

end Reflects

/-! ### How the statements of a walk were read -/

/-- The condition of a clause, where it has one. -/
def ClauseHeader.condition? : ClauseHeader → Option Expression
  | ifTrue condition | elseIf condition => some condition
  | otherwise => none

/-- The header of a clause was read with these names known. -/
def ClauseHeader.IsRead (symbols : Symbols) (header : ClauseHeader) : Prop :=
  ∀ condition ∈ header.condition?, ∃ text, Statement.readCondition symbols text = .ok condition

/-- What the statement holds beside other statements was read in the frame. -/
inductive Statement.IsRead (f : Frame) : Statement → Prop
  | line {next : Frame} {s : Statement} (h : Program.Spells f s next) : IsRead f s
  | result {text : Text} {s : Statement} (h : readResult f.scope text = .ok s) : IsRead f s
  | selection {clauses : List (Clause Statement)}
      (h : ∀ clause ∈ clauses, clause.header.IsRead f.scope.symbols) : IsRead f (.selection clauses)
  | loop {text : Text} {condition : Expression} {body : Body Statement}
      (h : readCondition f.scope.symbols text = .ok condition) : IsRead f (.loop condition body)
  | function {entered : Frame} {text : Text} {s : Signature} {r : Requirements}
      {body : Body Statement} (hs : readSignature f text = .ok (s, r))
      (he : enterFunction ⟨f.scope, r⟩ s = .ok entered) : IsRead f (.function s body)
  | closer : IsRead f .closer

/-- Each statement of a walk was read in a frame with the names of its environment. -/
def Environment.Accounts (env : Environment) (statements : List Statement) : Prop :=
  ∀ env' s, Visits env statements env' s → ∃ f, Reflects f env' ∧ s.IsRead f

namespace Environment.Accounts

variable {f : Frame} {env : Environment} {s : Statement} {statements : List Statement}

theorem nil : env.Accounts [] := nofun

theorem cons_of_isLine (hs : s.isLine) (hf : Reflects f env) (hread : s.IsRead f)
    (hrest : (env.extend s).Accounts statements) : env.Accounts (s :: statements) := by
  intro env' s' h
  rcases visits_of_isLine hs h with ⟨rfl, rfl⟩ | h
  · exact ⟨f, hf, hread⟩
  · exact hrest env' s' h

/-- The `}` at the end of a body is read with the names at its end. -/
theorem append_closer (h : env.Accounts statements)
    (hf : Reflects f (statements.foldl extend env)) : env.Accounts (statements ++ [.closer]) := by
  intro env' s' hv
  rcases hv.of_append with hv | hv
  · exact h env' s' hv
  · exact cons_of_isLine rfl hf .closer nil env' s' hv

theorem selection {clauses : List (Clause Statement)} (hf : Reflects f env)
    (hheaders : ∀ clause ∈ clauses, clause.header.IsRead f.scope.symbols)
    (hbodies : ∀ clause ∈ clauses, env.Accounts clause.body.statements)
    (hrest : env.Accounts statements) : env.Accounts (.selection clauses :: statements) := by
  intro env' s' h
  cases h with
  | here => exact ⟨f, hf, .selection hheaders⟩
  | later h => exact hrest env' s' h
  | clause hc h => exact hbodies _ hc env' s' h

theorem loop {condition : Expression} {body : Body Statement} (hf : Reflects f env)
    (hread : (Statement.loop condition body).IsRead f) (hbody : env.Accounts body.statements)
    (hrest : env.Accounts statements) : env.Accounts (.loop condition body :: statements) := by
  intro env' s' h
  cases h with
  | here => exact ⟨f, hf, hread⟩
  | later h => exact hrest env' s' h
  | loop h => exact hbody env' s' h

theorem function {signature : Signature} {body : Body Statement} (hf : Reflects f env)
    (hread : (Statement.function signature body).IsRead f)
    (hbody : (env.enterFunction signature).Accounts body.statements)
    (hrest : (env.add (.function signature)).Accounts statements) :
    env.Accounts (.function signature body :: statements) := by
  intro env' s' h
  cases h with
  | here => exact ⟨f, hf, hread⟩
  | later h => exact hrest env' s' h
  | function h => exact hbody env' s' h

end Environment.Accounts

namespace Program

variable {f next : Frame} {env : Environment} {text : Text} {s : Statement}

theorem Spells.isLine (h : Spells f s next) : s.isLine := by
  cases h <;> rfl

/-- The names known behind a line are those of the environment behind its statement. -/
theorem Spells.reflects (h : Spells f s next) (hf : Reflects f env) :
    Reflects next (env.extend s) := by
  cases h with
  | declaration _ _ _ hdeclare =>
    have hscope {r : Requirements} : Reflects ⟨f.scope, r⟩ env := hf.of_scope_eq rfl
    obtain ⟨-, hnext⟩ := hscope.declare hdeclare
    rw [Descriptor.declared_ofType] at hnext
    exact hnext
  | builtin _ _ hscope => exact hf.of_scope_eq hscope
  | element | whole | jump => exact hf

theorem isRead_of_readNextHeader {symbols : Symbols} {isLast : Bool} {rest : Text}
    {header : ClauseHeader} (h : readNextHeader symbols isLast rest = .ok header) :
    header.IsRead symbols := by
  obtain ⟨continuation, -, ⟨rfl, -⟩ | ⟨text, condition, rfl, -, hcondition⟩⟩ :=
    readNextHeader_eq_ok h
  · nofun
  · intro c hc
    cases hc
    exact ⟨text, hcondition⟩

/-- A walk over what was read meets statements that were read with the names of their environments,
and the names known behind it are those of the environment behind it. -/
def Reading.IsAccounted : Reading → Prop
  | lines f _ statements after => ∀ env, Reflects f env →
    env.Accounts statements ∧ Reflects after (statements.foldl Environment.extend env)
  | clauses f header _ cs after => after.scope = f.scope ∧
    ∀ env, Reflects f env → header.IsRead f.scope.symbols → ∀ clause ∈ cs,
      clause.header.IsRead f.scope.symbols ∧ env.Accounts clause.body.statements

/-- By induction on how the lines are read: each scope starts with the names of the one around it,
and each statement leaves the names that the environment leaves. -/
theorem Reads.isAccounted {reading : Reading} (h : Reads reading) : reading.IsAccounted := by
  induction h with
  | nil => exact fun env hf => ⟨.nil, hf⟩
  | blank _ _ ih => exact ih
  | line _ hline _ ih =>
    intro env hf
    obtain ⟨hrest, hafter⟩ := ih _ (hline.spells.reflects hf)
    exact ⟨.cons_of_isLine hline.spells.isLine hf (.line hline.spells) hrest, hafter⟩
  | result _ _ hresult _ =>
    intro env hf
    obtain ⟨type, v, -, rfl, -⟩ := Statement.readResult_eq_ok hresult
    exact ⟨.cons_of_isLine rfl hf (.result hresult) .nil, hf⟩
  | @selection f next after line taken rest text condition clauses statements _ _ _ hcondition _ _
      ihclauses ihrest =>
    intro env hf
    obtain ⟨hscope, hall⟩ := ihclauses
    have hheader : (ClauseHeader.ifTrue condition).IsRead f.scope.symbols := by
      intro c hc
      cases hc
      exact ⟨text, hcondition⟩
    have hclauses := hall env hf hheader
    obtain ⟨hrest, hafter⟩ := ihrest env (hf.of_scope_eq hscope)
    exact ⟨.selection hf (fun clause hc => (hclauses clause hc).1)
      (fun clause hc => (hclauses clause hc).2) hrest, hafter⟩
  | @loop f inner after line close inside rest text condition body statements _ _ _ hcondition _ _
      _ _ ihinside ihrest =>
    intro env hf
    obtain ⟨hbody, hinner⟩ := ihinside env (hf.enter .loop)
    obtain ⟨hrest, hafter⟩ := ihrest env (hf.of_scope_eq rfl)
    exact ⟨.loop hf (.loop hcondition) (hbody.append_closer hinner) hrest, hafter⟩
  | @function f entered inner next after line close inside rest signature r body statements _ _
      hsignature henter _ _ _ hdeclare _ ihinside ihrest =>
    intro env hf
    have hscope {r' : Requirements} : Reflects ⟨f.scope, r'⟩ env := hf.of_scope_eq rfl
    -- the function is declared twice: in its body's own scope, and in the file behind the body
    obtain ⟨-, hentered⟩ := hscope.enterFunction henter
    obtain ⟨hbody, hinner⟩ := ihinside _ hentered
    obtain ⟨-, hnext⟩ := hscope.declare hdeclare
    obtain ⟨hrest, hafter⟩ := ihrest _ hnext
    exact ⟨.function hf (.function hsignature henter) (hbody.append_closer hinner) hrest, hafter⟩
  | lastClause _ _ ihinside =>
    refine ⟨rfl, fun env hf hheader clause hclause => ?_⟩
    obtain ⟨hbody, hinner⟩ := ihinside env (hf.enter .selection)
    rw [List.mem_singleton] at hclause
    subst hclause
    exact ⟨hheader, hbody.append_closer hinner⟩
  | nextClause _ _ hnext _ ihinside ihclauses =>
    -- the next header and clause are read with the names around the selection again
    obtain ⟨hscope, hall⟩ := ihclauses
    refine ⟨hscope, fun env hf hheader clause hclause => ?_⟩
    obtain ⟨hbody, -⟩ := ihinside env (hf.enter .selection)
    rcases List.mem_cons.1 hclause with rfl | hclause
    · exact ⟨hheader, hbody⟩
    · exact hall env (hf.of_scope_eq rfl) (isRead_of_readNextHeader hnext) clause hclause

/-- Each statement of an accepted file was read with the names of its environment. -/
theorem exists_frame_of_visits {source : Text} {p : Program} {env : Environment} {s : Statement}
    (h : Program.read source = .ok p) (hs : Visits .empty p.body.statements env s) :
    ∃ f, Reflects f env ∧ s.IsRead f := by
  obtain ⟨after, hreads, -⟩ := reads_of_read h
  have haccounts := (hreads.isAccounted .empty Reflects.empty).1
  exact haccounts env s hs

end Program

/-! ### What a statement holds -/

/-- The values and conditions that a statement holds beside other statements. -/
def Statement.pieces : Statement → List Piece
  | declaration _ _ v => [.value v]
  | assignment (.whole _) v => [.value v]
  | assignment (.element i) v => [.indexing i, .value v]
  | selection clauses => clauses.filterMap fun clause =>
    clause.header.condition?.map Piece.expression
  | loop condition _ => [.expression condition]
  | builtin _ argument => [.expression argument]
  | result v => [.value v]
  | jump _ | function _ _ | closer => []

/-- What a statement holds was read with the names that were known to it. -/
theorem Statement.exists_isRead_of_mem_pieces {f : Frame} {s : Statement} {x : Piece}
    (h : s.IsRead f) (hx : x ∈ s.pieces) : ∃ text, x.IsRead f.scope.symbols text := by
  cases h with
  | line h =>
    cases h with
    | declaration _ _ hv =>
      obtain rfl := List.mem_singleton.1 hx
      exact ⟨_, _, hv⟩
    | element hi _ he =>
      rcases List.mem_cons.1 hx with rfl | hx
      · exact ⟨_, hi⟩
      · obtain rfl := List.mem_singleton.1 hx
        exact ⟨_, .primitive _, _, rfl, rfl, he⟩
    | whole _ _ hv =>
      obtain rfl := List.mem_singleton.1 hx
      exact ⟨_, _, hv⟩
    | jump => cases hx
    | builtin hargument =>
      obtain rfl := List.mem_singleton.1 hx
      exact ⟨_, hargument⟩
  | result h =>
    obtain ⟨type, v, -, rfl, hv⟩ := readResult_eq_ok h
    obtain rfl := List.mem_singleton.1 hx
    exact ⟨_, type, hv⟩
  | selection h =>
    obtain ⟨clause, hclause, hx⟩ := List.mem_filterMap.1 hx
    obtain ⟨condition, hcondition, rfl⟩ := Option.map_eq_some_iff.1 hx
    obtain ⟨text, hread⟩ := h clause hclause condition hcondition
    exact ⟨text, (readCondition_eq_ok hread).1⟩
  | loop h =>
    obtain rfl := List.mem_singleton.1 hx
    exact ⟨_, (readCondition_eq_ok h).1⟩
  | function | closer => cases hx

end StellaGo
