import StellaGo.Program
import StellaGo.Proofs.Reading.Values

/-! How the statement on a line came to be read. For each reader of a line: what held of the line
and of the declared names if it gave a statement. -/

namespace StellaGo

theorem Symbols.ensureFree_eq_ok_iff {symbols : Symbols} {name : Name} :
    symbols.ensureFree name = .ok () ↔ symbols.lookup? name = none := by
  rw [ensureFree]
  cases symbols.lookup? name <;> simp

theorem Frame.declare_eq_ok_iff {f next : Frame} {d : Descriptor} :
    f.declare d = .ok next ↔ f.scope.symbols.lookup? d.name = none ∧
      next = ⟨{ f.scope with symbols := f.scope.symbols.insert d }, f.requirements⟩ := by
  constructor
  · intro h
    obtain ⟨scope, hscope, h⟩ := Check.bind_eq_ok_iff.1 h
    cases h
    obtain ⟨symbols, hsymbols, hscope⟩ := Check.bind_eq_ok_iff.1 hscope
    cases hscope
    obtain ⟨⟨⟩, hfree, hsymbols⟩ := Check.bind_eq_ok_iff.1 hsymbols
    cases hsymbols
    exact ⟨Symbols.ensureFree_eq_ok_iff.1 hfree, rfl⟩
  · rintro ⟨hfree, rfl⟩
    rw [Frame.declare, Scope.declare, Symbols.declare, Symbols.ensureFree_eq_ok_iff.2 hfree]
    rfl

/-- The scope without what is declared in it: the scopes around it, and what may be returned. -/
def Scope.place (s : Scope) : Scope := { s with symbols := .empty }

theorem Scope.kind_eq_of_place_eq {s s' : Scope} (h : s.place = s'.place) : s.kind = s'.kind := by
  have hkind := congrArg kind h
  exact hkind

theorem Frame.place_of_declare {f next : Frame} {d : Descriptor} (h : f.declare d = .ok next) :
    next.scope.place = f.scope.place := by
  obtain ⟨-, rfl⟩ := Frame.declare_eq_ok_iff.1 h
  rfl

namespace Statement

open Expression (ReadsValue)

variable {symbols : Symbols} {f after : Frame} {line : Text} {s : Statement}

/-! ### Declarations -/

theorem ofType_eq_ok {expected : Primitive} {what text : Text} {e : Expression}
    (h : Expression.ofType symbols expected what text = .ok e) :
    expression symbols text = .ok e ∧ e.type = expected := by
  obtain ⟨e', he, h⟩ := Check.bind_eq_ok_iff.1 h
  split at h
  · next htype =>
    cases h
    exact ⟨he, htype⟩
  · cases h

theorem readValue_eq_ok {what text : Text} {type : ValueType} {v : Value}
    (h : readValue symbols what type text = .ok v) : ReadsValue symbols type text v := by
  cases type with
  | primitive type =>
    obtain ⟨e, he, rfl⟩ := Check.map_eq_ok_iff.1 h
    obtain ⟨hread, htype⟩ := ofType_eq_ok he
    exact ⟨e, rfl, htype, hread⟩
  | array | tuple => exact h

theorem readDeclaration_eq_ok (h : readDeclaration f line = .ok (s, after)) :
    ∃ header type v r, LetHeader.read? line = some header ∧ Name.problem? header.name = none ∧
      f.requirements.readType header.type = (.ok type, r) ∧ type.isIO = false ∧
      ReadsValue f.scope.symbols type header.value v ∧ s = .declaration header.name type v ∧
      Frame.declare ⟨f.scope, r⟩ (.ofType header.name header.isMutable type) = .ok after := by
  unfold readDeclaration at h
  split at h
  · cases h
  next header hheader =>
  dsimp only at h
  split at h
  · cases h
  split at h
  · cases h
  next hname =>
  obtain ⟨⟨⟩, -, h⟩ := Check.bind_eq_ok_iff.1 h
  obtain ⟨type, htype, h⟩ := Check.bind_eq_ok_iff.1 h
  split at h
  · cases h
  next hio =>
  obtain ⟨v, hv, h⟩ := Check.bind_eq_ok_iff.1 h
  obtain ⟨next, hnext, h⟩ := Check.bind_eq_ok_iff.1 h
  cases h
  exact ⟨header, type, v, _, hheader, Option.eq_none_iff_forall_ne_some.2 hname,
    Prod.ext htype rfl, by simpa using hio, readValue_eq_ok hv, rfl, hnext⟩

/-! ### Assignments -/

/-- The ways in which a line spells an assignment. -/
inductive ReadsAssignment (symbols : Symbols) (line : Text) : Statement → Prop
  | element {equals : Nat} {i : Indexing} {e : Expression} (ha : line.assignmentAt? = some equals)
      (hi : indexing symbols (Text.trim (line.take equals)) = .ok i)
      (hm : (symbols.array? i.name).any (·.isMutable))
      (he : expression symbols (Text.trim (line.drop (equals + 1))) = .ok e)
      (ht : e.type = i.type) : ReadsAssignment symbols line (.assignment (.element i) (.scalar e))
  | whole {equals : Nat} {b : Binding ValueType} {v : Value} (ha : line.assignmentAt? = some equals)
      (hn : Name.problem? (Text.trim (line.take equals)) = none)
      (hb : symbols.lookup? (Text.trim (line.take equals)) =
        some (.ofType b.name b.isMutable b.type)) (hm : b.isMutable)
      (hv : ReadsValue symbols b.type (Text.trim (line.drop (equals + 1))) v) :
      ReadsAssignment symbols line (.assignment (.whole b.name) v)

theorem targetBinding_eq_ok {target : Name} {b : Binding ValueType}
    (h : targetBinding symbols target = .ok b) :
    symbols.lookup? target = some (.ofType b.name b.isMutable b.type) := by
  obtain ⟨d, hd, h⟩ := Check.bind_eq_ok_iff.1 h
  rw [Symbols.resolve_eq_ok_iff.1 hd]
  split at h <;> cases h <;> rfl

theorem readAssignment_eq_ok (h : readAssignment symbols line = .ok s) :
    ReadsAssignment symbols line s := by
  unfold readAssignment at h
  split at h
  · cases h
  next equals hequals =>
  dsimp only at h
  split at h
  · cases h
  split at h
  · obtain ⟨i, hi, h⟩ := Check.bind_eq_ok_iff.1 h
    dsimp only at h
    split at h
    · cases h
    next hmutable =>
    obtain ⟨e, he, h⟩ := Check.bind_eq_ok_iff.1 h
    cases h
    obtain ⟨hread, htype⟩ := ofType_eq_ok he
    exact .element hequals hi (by simpa using hmutable) hread htype
  · unfold readWholeAssignment at h
    split at h
    · cases h
    next hname =>
    obtain ⟨b, hb, h⟩ := Check.bind_eq_ok_iff.1 h
    dsimp only at h
    split at h
    · cases h
    next hmutable =>
    obtain ⟨v, hv, h⟩ := Check.bind_eq_ok_iff.1 h
    cases h
    exact .whole hequals (not_not.1 hname) (targetBinding_eq_ok hb) (by simpa using hmutable)
      (readValue_eq_ok hv)

/-! ### Jumps, calls with `!`, results, conditions -/

theorem readJump_eq_ok {scope : Scope} {jump : Jump} (h : readJump scope jump line = .ok s) :
    line = jump.keyword.toList ∧ scope.insideLoop ∧ s = .jump jump := by
  unfold readJump at h
  split at h
  · cases h
  next hline =>
  split at h
  · cases h
  next hloop =>
  cases h
  exact ⟨not_not.1 hline, by simpa using hloop, rfl⟩

theorem readBuiltin_eq_ok (h : readBuiltin f line = .ok (s, after)) :
    ∃ name rest callee inside argument, Name.read? line = some (name, '!' :: rest) ∧
      Builtin.ofName? name = some callee ∧ Text.inside? rest 0 = some inside ∧
      expression f.scope.symbols inside.trim = .ok argument ∧
      (callee = .panic → argument.type = .string) ∧ s = .builtin callee argument ∧
      after.scope = f.scope := by
  unfold readBuiltin at h
  split at h
  · next name rest hname =>
    split at h
    · next callee hcallee =>
      dsimp only at h
      split at h
      · cases h
      split at h
      · next inside hinside =>
        split at h
        · cases h
        obtain ⟨argument, hargument, h⟩ := Check.bind_eq_ok_iff.1 h
        obtain ⟨⟨⟩, hcheck, h⟩ := Check.bind_eq_ok_iff.1 h
        cases h
        refine ⟨name, rest, callee, inside, argument, hname, hcallee, hinside, hargument, ?_, rfl,
          rfl⟩
        rintro rfl
        by_contra htype
        rw [checkArgument, if_pos ⟨rfl, htype⟩] at hcheck
        cases hcheck
      · cases h
    · cases h
  · cases h

theorem readResult_eq_ok {scope : Scope} (h : readResult scope line = .ok s) :
    ∃ type v, scope.returns? = some type ∧ s = .result v ∧
      ReadsValue scope.symbols type line v := by
  unfold readResult at h
  split at h
  · cases h
  · cases h
  · next type hio htype =>
    obtain ⟨e, he, h⟩ := Check.bind_eq_ok_iff.1 h
    split at h
    · next ht =>
      cases h
      exact ⟨_, _, htype, rfl, e, rfl, ht, he⟩
    · cases h
  · next type htype =>
    obtain ⟨v, hv, h⟩ := Check.bind_eq_ok_iff.1 h
    cases h
    exact ⟨_, v, htype, rfl, Check.mapError_eq_ok_iff.1 hv⟩
  · next type htype =>
    obtain ⟨v, hv, h⟩ := Check.bind_eq_ok_iff.1 h
    cases h
    exact ⟨_, v, htype, rfl, Check.mapError_eq_ok_iff.1 hv⟩

theorem readCondition_eq_ok {text : Text} {e : Expression}
    (h : readCondition symbols text = .ok e) :
    expression symbols text = .ok e ∧ e.type = .bool := by
  obtain ⟨e', he, h⟩ := Check.bind_eq_ok_iff.1 h
  split at h
  · next htype =>
    cases h
    exact ⟨he, htype⟩
  · cases h

end Statement

end StellaGo
