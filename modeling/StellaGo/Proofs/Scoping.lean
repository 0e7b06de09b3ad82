import StellaGo.Proofs.WellTyped

/-! Names in the tree of a file. Defined here: the names that a statement uses and what each is used
as, the names that it introduces, and when a statement keeps to the names of its environment.
Proved: every statement of an accepted file does. It uses no name that is not in its environment, it
introduces no name that is, and what is introduced inside a clause, a loop or a function is unknown
behind it. -/

namespace StellaGo

open Environment (Visits)

/-! ### Uses -/

/-- What a name stands for if it can stand where the value does. -/
def Value.kind : Value → Name.Kind
  | scalar _ => .scalar
  | arrayLiteral _ _ => .array
  | tupleLiteral _ _ => .tuple
  | whole _ type => type.kind
  | call c => c.returns.kind

/-- The piece itself, not what stands inside it, uses the name as something of this kind. -/
inductive Piece.Names : Piece → Name → Name.Kind → Prop
  | scalar {e : Expression} {name : Name} {type : Primitive} (h : .scalar name type ∈ e.terms) :
      Names (.expression e) name .scalar
  | call {c : Call} : Names (.call c) c.name .function
  | indexing {i : Indexing} : Names (.indexing i) i.name .array
  | field {f : FieldAccess} : Names (.field f) f.name .tuple
  | whole {name : Name} {type : ValueType} : Names (.value (.whole name type)) name type.kind

/-- The statement uses the name, at any depth of its values and conditions or as a target. -/
inductive Statement.Uses : Statement → Name → Name.Kind → Prop
  | piece {s : Statement} {x y : Piece} {name : Name} {kind : Name.Kind} (hx : x ∈ s.pieces)
      (hy : Piece.Inside x y) (h : y.Names name kind) : Uses s name kind
  | target {name : Name} {v : Value} : Uses (.assignment (.whole name) v) name v.kind

namespace Statement

/-- What the statement declares for the statements behind it. -/
def exports : Statement → List Declared
  | declaration name type _ => [.value name type]
  | function signature _ => [.function signature]
  | _ => []

/-- What the statement declares, in this order, the parameters of a function included. -/
def introduces : Statement → List Declared
  | function signature _ => .function signature :: signature.parameters.map Parameter.declared
  | s => s.exports

/-- The statement keeps to the names of its environment: it uses only these, each as what it stands
for; it introduces none of them; and what is introduced inside of it, at any depth, is not known
behind it. -/
structure Scoped (env : Environment) (s : Statement) : Prop where
  uses : ∀ name kind, s.Uses name kind → (env.lookup? name).map Declared.kind = some kind
  fresh : env.Fresh s.introduces
  confines : ∀ env' s' d, Visits env [s] env' s' → d ∈ s'.introduces → d ∉ s.exports →
    (env.extend s).lookup? d.name = none

end Statement

/-- Every statement of the tree, at every depth, keeps to the names of its environment. -/
def Program.Scoped (p : Program) : Prop :=
  ∀ env s, Visits .empty p.body.statements env s → s.Scoped env

/-! ### Names are in the environment -/

variable {f : Frame} {env env' : Environment} {s s' : Statement} {name : Name} {kind : Name.Kind}

theorem Value.Conforms.kind_eq {type : ValueType} {v : Value} (h : v.Conforms env type) :
    v.kind = type.kind := by
  cases h with
  | call _ hreturns => simp [Value.kind, hreturns]
  | _ => rfl

theorem Piece.Agrees.lookup?_of_names {x : Piece} (h : x.Agrees env) (hn : x.Names name kind) :
    (env.lookup? name).map Declared.kind = some kind := by
  cases hn with
  | scalar ht =>
    have hlookup : env.lookup? name = _ := h _ ht
    simp [hlookup, Declared.kind, ValueType.kind]
  | call =>
    obtain ⟨s, hlookup, -⟩ := h
    simp [hlookup, Declared.kind]
  | indexing | field =>
    obtain ⟨type, hlookup, -⟩ := h
    simp [hlookup, Declared.kind, ValueType.kind]
  | whole =>
    have hlookup : env.lookup? name = _ := h
    simp [hlookup, Declared.kind]

/-- A statement that was read uses the names of its environment. -/
theorem Reflects.lookup?_of_uses (hf : Reflects f env) (h : s.IsRead f) (hu : s.Uses name kind) :
    (env.lookup? name).map Declared.kind = some kind := by
  cases hu with
  | piece hx hy hn => exact (hf.agrees_of_inside h hx hy).lookup?_of_names hn
  | target =>
    obtain ⟨type, hlookup, hconforms⟩ := hf.types h
    simp [hlookup, Declared.kind, hconforms.kind_eq]

/-! ### Declared names are new -/

/-- What a statement that was read introduces was not in its environment. -/
theorem Reflects.fresh (hf : Reflects f env) (h : s.IsRead f) : env.Fresh s.introduces := by
  cases h with
  | line h =>
    cases h with
    | declaration _ _ _ hdeclare =>
      have hscope {r : Requirements} : Reflects ⟨f.scope, r⟩ env := hf.of_scope_eq rfl
      obtain ⟨hfree, -⟩ := hscope.declare hdeclare
      exact ⟨by simpa [Declared.name] using hfree, trivial⟩
    | element | whole | jump | builtin => trivial
  | result h =>
    obtain ⟨type, v, -, rfl, -⟩ := Statement.readResult_eq_ok h
    trivial
  | function _ henter =>
    have hscope {r : Requirements} : Reflects ⟨f.scope, r⟩ env := hf.of_scope_eq rfl
    exact (hscope.enterFunction henter).1
  | selection | loop | closer => trivial

/-! ### Names stay inside -/

namespace Environment

theorem lookup?_eq_none_of_add {d : Declared} (h : (env.add d).lookup? name = none) :
    env.lookup? name = none := by
  by_cases hname : name = d.name
  · simp [hname] at h
  · simpa [hname] using h

theorem lookup?_eq_none_of_foldl {ds : List Declared} (h : (ds.foldl add env).lookup? name = none) :
    env.lookup? name = none := by
  induction ds generalizing env with
  | nil => exact h
  | cons d rest ih => exact lookup?_eq_none_of_add (ih h)

theorem lookup?_eq_none_of_extend (h : (env.extend s).lookup? name = none) :
    env.lookup? name = none := by
  cases s with
  | declaration | function => exact lookup?_eq_none_of_add h
  | _ => exact h

theorem lookup?_eq_none_of_enterFunction {signature : Signature}
    (h : (env.enterFunction signature).lookup? name = none) :
    (env.add (.function signature)).lookup? name = none := by
  have hbody := lookup?_eq_none_of_foldl h
  exact hbody

theorem Fresh.lookup?_eq_none {d : Declared} {ds : List Declared} (h : env.Fresh ds) (hd : d ∈ ds) :
    env.lookup? d.name = none := by
  induction ds generalizing env with
  | nil => cases hd
  | cons e rest ih =>
    obtain ⟨hfree, hrest⟩ := h
    rcases List.mem_cons.1 hd with rfl | hd
    · exact hfree
    · exact lookup?_eq_none_of_add (ih hrest hd)

namespace Visits

variable {statements : List Statement}

/-- A walk only adds names on its way inwards and onwards. -/
theorem lookup?_eq_none (h : Visits env statements env' s') (hnone : env'.lookup? name = none) :
    env.lookup? name = none := by
  induction h with
  | here => exact hnone
  | later _ ih => exact lookup?_eq_none_of_extend (ih hnone)
  | clause _ _ ih | loop _ ih => exact ih hnone
  | function _ ih =>
    exact lookup?_eq_none_of_add (lookup?_eq_none_of_enterFunction (ih hnone))

/-- A statement inside one that a walk meets is met by the walk. -/
theorem trans {start : Environment} (h : Visits start statements env s)
    (hin : Visits env [s] env' s') : Visits start statements env' s' := by
  induction h with
  | here =>
    cases hin with
    | here => exact .here
    | later h => cases h
    | clause hc h => exact .clause hc h
    | loop h => exact .loop h
    | function h => exact .function h
  | later _ ih => exact .later (ih hin)
  | clause hc _ ih => exact .clause hc (ih hin)
  | loop _ ih => exact .loop (ih hin)
  | function _ ih => exact .function (ih hin)

/-- If what the inner statement introduces is new there and what the outer one introduces is new in
front of it, a name from inside is not known behind the outer statement. -/
theorem lookup?_extend_eq_none {d : Declared} (h : Visits env [s] env' s')
    (hfresh : env.Fresh s.introduces) (hfresh' : env'.Fresh s'.introduces)
    (hd : d ∈ s'.introduces) (hexports : d ∉ s.exports) :
    (env.extend s).lookup? d.name = none := by
  have hnone := hfresh'.lookup?_eq_none hd
  cases h with
  | here =>
    -- only a function introduces more than it exports: its parameters
    cases s with
    | function signature body =>
      rcases List.mem_cons.1 hd with rfl | hd
      · exact absurd (List.mem_singleton_self _) hexports
      · exact hfresh.2.lookup?_eq_none hd
    | _ => exact absurd hd hexports
  | later h => cases h
  | clause _ h | loop h => exact h.lookup?_eq_none hnone
  | function h => exact lookup?_eq_none_of_enterFunction (h.lookup?_eq_none hnone)

end Visits

end Environment

/-- Every statement of an accepted file keeps to the names of its environment. -/
theorem Program.scoped_of_read {source : Text} {p : Program} (h : Program.read source = .ok p) :
    p.Scoped := by
  have hfresh {env : Environment} {s : Statement} (hs : Visits .empty p.body.statements env s) :
      env.Fresh s.introduces := by
    obtain ⟨f, hf, hread⟩ := exists_frame_of_visits h hs
    exact hf.fresh hread
  intro env s hs
  obtain ⟨f, hf, hread⟩ := exists_frame_of_visits h hs
  constructor
  · intro name kind huses
    exact hf.lookup?_of_uses hread huses
  · exact hf.fresh hread
  · intro env' s' d hin hd hexports
    exact hin.lookup?_extend_eq_none (hfresh hs) (hfresh (hs.trans hin)) hd hexports

theorem Program.scoped_of_read_clause :
    ∃ p, Program.read
      (Text.block "function main() -> IO ="
        [Text.block "if true" ["let x: int = 1".toList], "let x: int = 2".toList]) =
        .ok p ∧ p.body.statements.length = 1 ∧ p.Scoped := by
  have haccepted : ((Program.read
      (Text.block "function main() -> IO ="
        [Text.block "if true" ["let x: int = 1".toList], "let x: int = 2".toList])
      ).toOption.map fun p => p.body.statements.length) = some 1 := by decide +kernel
  obtain ⟨p, hp, hlen⟩ := Option.map_eq_some_iff.1 haccepted
  have hread := Check.toOption_eq_some_iff.1 hp
  exact ⟨p, hread, hlen, scoped_of_read hread⟩

end StellaGo
