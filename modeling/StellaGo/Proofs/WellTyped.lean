import StellaGo.Proofs.Environment

/-! Types in the tree of a file. Defined here: when a value has a declared type, when a call, an
index, a field and a name fit what is declared, and when a statement is well typed in its
environment. Proved: every statement of an accepted file is well typed, at every depth of blocks,
arguments and indices. -/

namespace StellaGo

open Expression (ReadsValue ReadsItems ReadsAggregate ReadsTerm)

/-! ### Values -/

/-- The item is nested along the sizes, from the outermost inwards, and its leaves have the type
`base`. -/
def Item.Conforms (base : Primitive) : List Nat → Item → Prop
  | [], .scalar e => e.type = base
  | size :: deeper, .row items => items.length = size ∧ ∀ item ∈ items, item.Conforms base deeper
  | _, _ => False

/-- The value has the type, as far as its outermost form goes: what stands inside is typed on its
own. -/
inductive Value.Conforms (env : Environment) : ValueType → Value → Prop
  | scalar {e : Expression} : Conforms env (.primitive e.type) (.scalar e)
  | arrayLiteral {type : ArrayType} {items : List Item}
      (hlen : items.length = type.dimensions.headD 0)
      (h : ∀ item ∈ items, item.Conforms type.base type.dimensions.tail) :
      Conforms env (.array type) (.arrayLiteral type items)
  | tupleLiteral {type : TupleType} {fields : List Expression}
      (h : fields.map (·.type) = type.fields) :
      Conforms env (.tuple type) (.tupleLiteral type fields)
  | whole {name : Name} {type : ValueType} (h : env.lookup? name = some (.value name type)) :
      Conforms env type (.whole name type)
  | call {c : Call} {s : Signature} (h : env.lookup? c.name = some (.function s))
      (hreturns : c.returns = s.returns) : Conforms env s.returns (.call c)

/-! ### Pieces -/

/-- A name in an expression is declared with the type that it has there, and a call gives a
primitive. -/
def Term.Agrees (env : Environment) : Term → Prop
  | scalar name type => env.lookup? name = some (.value name (.primitive type))
  | call c => ∃ type, c.returns = .primitive type
  | _ => True

/-- The piece fits what its names are declared as. What stands inside has to fit on its own. -/
def Piece.Agrees (env : Environment) : Piece → Prop
  | expression e => ∀ t ∈ e.terms, t.Agrees env
  | call c => ∃ s, env.lookup? c.name = some (.function s) ∧ c.returns = s.returns ∧
    List.Forall₂ (fun (p : Parameter) v => v.Conforms env p.type) s.parameters c.arguments
  | indexing i => ∃ type, env.lookup? i.name = some (.value i.name (.array type)) ∧
    i.type = type.base ∧ i.indices.length = type.dimensions.length ∧ ∀ e ∈ i.indices, e.type = .int
  | field f => ∃ type, env.lookup? f.name = some (.value f.name (.tuple type)) ∧
    f.position < type.arity ∧ type.fields[f.position]? = some f.type
  | value (.whole name type) => env.lookup? name = some (.value name type)
  | value _ | item _ => True

/-! ### Statements -/

namespace Statement

/-- The types of the outermost values and conditions are the ones that the statement needs. -/
def Types (env : Environment) : Statement → Prop
  | declaration _ type v => v.Conforms env type
  | assignment (.whole name) v => ∃ type, env.lookup? name = some (.value name type) ∧
    v.Conforms env type
  | assignment (.element i) v => v.Conforms env (.primitive i.type)
  | selection clauses => ∀ clause ∈ clauses, ∀ e ∈ clause.header.condition?, e.type = .bool
  | loop condition _ => condition.type = .bool
  | builtin callee argument => callee = .panic → argument.type = .string
  | result v => ∃ type, env.returns? = some type ∧ v.Conforms env type
  | jump _ | function _ _ | closer => True

/-- The statement has the right types, and whatever stands in its values and conditions, at any
depth, fits what is declared. -/
structure WellTyped (env : Environment) (s : Statement) : Prop where
  types : s.Types env
  agrees : ∀ x ∈ s.pieces, ∀ y, Piece.Inside x y → y.Agrees env

end Statement

/-- Every statement of the tree, at every depth, is well typed in its environment. -/
def Program.WellTyped (p : Program) : Prop :=
  ∀ env s, Environment.Visits .empty p.body.statements env s → s.WellTyped env

/-! ### What is read has its type -/

variable {f : Frame} {env : Environment} {text : Text}

theorem conform_of_readsItems {symbols : Symbols} {base : Primitive} :
    ∀ {sizes : List Nat} {text : Text} {items : List Item},
      ReadsItems symbols base sizes text items →
      items.length = sizes.headD 0 ∧ ∀ item ∈ items, item.Conforms base sizes.tail
  | size :: next :: deeper, text, items, h => by
    obtain ⟨inner, -, hlen, hall⟩ := h
    refine ⟨hall.length_eq.symm.trans hlen, fun item hitem => ?_⟩
    obtain ⟨part, -, -, row, rfl, hrow⟩ := exists_of_mem_forall₂ hall hitem
    exact conform_of_readsItems hrow
  | [], text, items, h => by
    obtain ⟨inner, -, hlen, hall⟩ := h
    refine ⟨hall.length_eq.symm.trans hlen, fun item hitem => ?_⟩
    obtain ⟨part, -, e, rfl, htype, -⟩ := exists_of_mem_forall₂ hall hitem
    exact htype
  | [size], text, items, h => by
    obtain ⟨inner, -, hlen, hall⟩ := h
    refine ⟨hall.length_eq.symm.trans hlen, fun item hitem => ?_⟩
    obtain ⟨part, -, e, rfl, htype, -⟩ := exists_of_mem_forall₂ hall hitem
    exact htype

theorem Reflects.conforms_of_readsAggregate {expected : Aggregate} {v : Value}
    (hf : Reflects f env) (h : ReadsAggregate f.scope.symbols text expected v) :
    v.Conforms env expected.type := by
  cases h with
  | items _ h =>
    obtain ⟨hlen, hitems⟩ := conform_of_readsItems h
    exact .arrayLiteral hlen hitems
  | fields _ _ _ ht => exact .tupleLiteral ht
  | call _ hc hr =>
    obtain ⟨inner, signature, -, hs, hname, hreturns, -⟩ := Expression.call_eq_ok hc
    have hlookup := hf.lookup?_eq hs
    rw [← hr, hreturns]
    refine .call ?_ hreturns
    rw [hname]
    exact hlookup
  | array _ h => exact .whole (hf.lookup?_eq h)
  | tuple _ h => exact .whole (hf.lookup?_eq h)

/-- A value that was read with an expected type has that type. -/
theorem Reflects.conforms {type : ValueType} {v : Value} (hf : Reflects f env)
    (h : ReadsValue f.scope.symbols type text v) : v.Conforms env type := by
  cases type with
  | primitive type =>
    obtain ⟨e, rfl, rfl, -⟩ := h
    exact .scalar
  | array type =>
    exact hf.conforms_of_readsAggregate (Expression.readsAggregate_of_aggregate h)
  | tuple type =>
    exact hf.conforms_of_readsAggregate (Expression.readsAggregate_of_aggregate h)

theorem Reflects.term_agrees {token : Text} {t : Term} (hf : Reflects f env)
    (h : ReadsTerm f.scope.symbols token t) : t.Agrees env := by
  cases h with
  | scalar _ _ h => exact hf.lookup?_eq h
  | call _ _ hr => exact ⟨_, hr⟩
  | _ => trivial

/-- A piece that was read fits what its names are declared as. -/
theorem Reflects.agrees {x : Piece} (hf : Reflects f env) (h : x.IsRead f.scope.symbols text) :
    x.Agrees env := by
  cases x with
  | expression e =>
    intro t ht
    obtain ⟨token, -, hterm⟩ := Piece.exists_token_of_mem h ht
    exact hf.term_agrees hterm
  | call c =>
    obtain ⟨inner, signature, -, hs, hname, hreturns, hall⟩ := Expression.call_eq_ok h
    refine ⟨signature, ?_, hreturns, hall.imp fun p v hv => ?_⟩
    · rw [hname]
      exact hf.lookup?_eq hs
    · obtain ⟨part, -, hread⟩ := hv
      exact hf.conforms hread
  | indexing i =>
    obtain ⟨texts, array, -, ha, hname, htype, -, hall⟩ := Expression.indexing_eq_ok h
    refine ⟨array.type, ?_, htype, hall.length_eq.symm, fun e he => ?_⟩
    · rw [hname]
      exact hf.lookup?_eq ha
    · obtain ⟨size, -, hint, -⟩ := exists_of_mem_forall₂ hall he
      exact hint
  | field a =>
    obtain ⟨name, digits, tuple, -, ht, hname, hfield⟩ := Expression.fieldAccess_eq_ok h
    obtain ⟨hlt, -⟩ := List.getElem?_eq_some_iff.1 hfield
    refine ⟨tuple.type, ?_, hlt, hfield⟩
    rw [hname]
    exact hf.lookup?_eq ht
  | value v =>
    obtain ⟨type, h⟩ := h
    cases v with
    | whole name type' =>
      have hconforms := hf.conforms h
      cases hconforms with
      | whole hlookup => exact hlookup
    | _ => trivial
  | item i => trivial

/-! ### What is read is well typed -/

theorem Reflects.types {s : Statement} (hf : Reflects f env) (h : s.IsRead f) : s.Types env := by
  cases h with
  | line h =>
    cases h with
    | declaration _ _ hv => exact hf.conforms hv
    | @element i e _ _ _ _ _ htype =>
      show Value.Conforms env (.primitive i.type) (.scalar e)
      rw [← htype]
      exact .scalar
    | @whole b v _ _ hb _ hv =>
      have hlookup := hf.lookup?_eq hb
      exact ⟨b.type, by simpa using hlookup, hf.conforms hv⟩
    | jump => trivial
    | builtin _ hpanic => exact hpanic
  | result h =>
    obtain ⟨type, v, htype, rfl, hv⟩ := Statement.readResult_eq_ok h
    exact ⟨type, hf.returns type htype, hf.conforms hv⟩
  | selection h =>
    intro clause hclause e he
    obtain ⟨text, hread⟩ := h clause hclause e he
    exact (Statement.readCondition_eq_ok hread).2
  | loop h => exact (Statement.readCondition_eq_ok h).2
  | function | closer => trivial

/-- A piece inside a statement that was read, at any depth, fits what is declared. -/
theorem Reflects.agrees_of_inside {s : Statement} {x y : Piece} (hf : Reflects f env)
    (h : s.IsRead f) (hx : x ∈ s.pieces) (hy : Piece.Inside x y) : y.Agrees env := by
  obtain ⟨text, hread⟩ := s.exists_isRead_of_mem_pieces h hx
  obtain ⟨part, -, hpart⟩ := Piece.isRead_of_inside hy hread
  exact hf.agrees hpart

/-- Every statement of an accepted file is well typed in its environment. -/
theorem Program.wellTyped_of_read {source : Text} {p : Program}
    (h : Program.read source = .ok p) : p.WellTyped := by
  intro env s hs
  obtain ⟨f, hf, hread⟩ := exists_frame_of_visits h hs
  exact ⟨hf.types hread, fun x hx y hy => hf.agrees_of_inside hread hx hy⟩

theorem Program.wellTyped_of_read_call :
    ∃ p, Program.read
      (Text.block "function f(a: int[2]) -> int =" ["a[0]".toList] ++
        '\n' :: Text.block "function main() -> IO =" ["println!(f([1, 2]))".toList]) =
        .ok p ∧ p.body.statements.length = 2 ∧ p.WellTyped := by
  have haccepted : ((Program.read
      (Text.block "function f(a: int[2]) -> int =" ["a[0]".toList] ++
        '\n' :: Text.block "function main() -> IO =" ["println!(f([1, 2]))".toList])
      ).toOption.map fun p => p.body.statements.length) = some 2 := by decide +kernel
  obtain ⟨p, hp, hlen⟩ := Option.map_eq_some_iff.1 haccepted
  have hread := Check.toOption_eq_some_iff.1 hp
  exact ⟨p, hread, hlen, wellTyped_of_read hread⟩

end StellaGo
