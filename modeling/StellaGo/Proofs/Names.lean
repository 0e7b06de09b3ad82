import StellaGo.Proofs.Reading.Blocks

/-! The names that are known while a file is read. Defined here: tables that keep each name under
itself. Proved: a declaration adds its own name to the tables and changes nothing else, and the
tables that are known at any place of an accepted file keep identifiers. -/

namespace StellaGo

/-! ### Identifiers -/

namespace Name

theorem problem?_eq_none_iff {name : Name} :
    problem? name = none ↔
      isIdentifier name = true ∧ isReserved name = false ∧ isCarrier name = false := by
  by_cases hidentifier : isIdentifier name
  · by_cases hreserved : isReserved name
    · simp [problem?, hidentifier, hreserved]
    · by_cases hcarrier : isCarrier name
      · simp [problem?, hidentifier, hreserved, hcarrier]
      · simp [problem?, hidentifier, hreserved, hcarrier]
  · simp [problem?, hidentifier]

/-- A letter, and then letters, digits and `_`. -/
theorem exists_cons_of_isIdentifier {t : Text} (h : isIdentifier t) :
    ∃ c rest, t = c :: rest ∧ c.isAlpha ∧ ∀ d ∈ t, d.isAlphanum || d == '_' := by
  rw [isIdentifier] at h
  split at h
  · next name hread =>
    obtain ⟨happend, hword⟩ := read?_eq_some hread
    rw [List.append_nil] at happend
    cases t with
    | nil => cases hread
    | cons c rest =>
      rw [read?] at hread
      split at hread
      · next hc => exact ⟨c, rest, rfl, hc, happend ▸ hword⟩
      · cases hread
  · cases h

/-- A name that may be declared has letters, digits and `_` only. -/
theorem isWordChar_of_problem? {t : Text} (h : problem? t = none) :
    ∀ c ∈ t, c.isAlphanum || c == '_' := by
  obtain ⟨-, -, -, -, hword⟩ := exists_cons_of_isIdentifier (problem?_eq_none_iff.1 h).1
  exact hword

end Name

/-! ### Tables -/

namespace Symbols

theorem lookup?_eq_none_iff {s : Symbols} {name : Name} :
    s.lookup? name = none ↔ s.scalars.lookup name = none ∧ s.arrays.lookup name = none ∧
      s.tuples.lookup name = none ∧ s.functions.lookup name = none := by
  simp [lookup?]

theorem array?_of_lookup? {s : Symbols} {name : Name} {b : Binding ArrayType}
    (h : s.lookup? name = some (.array b)) : s.array? name = some b := by
  rw [array?]
  rw [lookup?] at h
  cases hs : s.scalars.lookup name <;> cases ha : s.arrays.lookup name <;>
    cases ht : s.tuples.lookup name <;> simp_all

/-- A declared name stands for what was declared, and every other name for what it stood for. -/
theorem lookup?_insert {s : Symbols} {d : Descriptor} (hfree : s.lookup? d.name = none)
    (name : Name) :
    (s.insert d).lookup? name = if name = d.name then some d else s.lookup? name := by
  obtain ⟨hs, ha, ht, hf⟩ := lookup?_eq_none_iff.1 hfree
  by_cases hname : name = d.name
  · rw [if_pos hname, hname]
    cases d <;>
      simp only [Descriptor.name] at hs ha ht hf ⊢ <;>
      simp [lookup?, insert, -List.lookup_eq_none_iff, hs, ha, ht]
  · rw [if_neg hname]
    have hne : (name == d.name) = false := beq_eq_false_iff_ne.2 hname
    cases d <;>
      simp only [Descriptor.name] at hne <;>
      simp only [lookup?, insert, List.lookup_cons, hne]

/-- Every name is kept under itself. -/
def KeepsNames (s : Symbols) : Prop := ∀ name d, s.lookup? name = some d → d.name = name

theorem keepsNames_empty : KeepsNames .empty := nofun

/-- Whatever is declared, it is kept under its name. -/
theorem KeepsNames.declare {s next : Symbols} {d : Descriptor} (h : s.KeepsNames)
    (hd : s.declare d = .ok next) : next.KeepsNames := by
  obtain ⟨⟨⟩, hfree, hd⟩ := Check.bind_eq_ok_iff.1 hd
  cases hd
  have hnone := ensureFree_eq_ok_iff.1 hfree
  intro name e he
  rw [lookup?_insert hnone] at he
  split at he
  · next heq =>
    cases he
    exact heq.symm
  · exact h name e he

/-- Every name is kept under itself, and is one that may be declared. -/
def Identifies (s : Symbols) : Prop :=
  ∀ name d, s.lookup? name = some d → d.name = name ∧ Name.problem? name = none

theorem identifies_empty : Identifies .empty := nofun

theorem Identifies.keepsNames {s : Symbols} (h : s.Identifies) : s.KeepsNames :=
  fun name d hd => (h name d hd).1

theorem Identifies.insert {s : Symbols} {d : Descriptor} (h : s.Identifies)
    (hname : Name.problem? d.name = none) (hfree : s.lookup? d.name = none) :
    (s.insert d).Identifies := by
  intro name e he
  rw [lookup?_insert hfree] at he
  split at he
  · next heq =>
    cases he
    exact ⟨heq.symm, heq ▸ hname⟩
  · exact h name e he

end Symbols

@[simp]
theorem Descriptor.name_ofType {name : Name} {isMutable : Bool} {type : ValueType} :
    (Descriptor.ofType name isMutable type).name = name := by
  cases type <;> rfl

/-! ### Signatures -/

namespace Program

theorem identifies_of_declare {f next : Frame} {d : Descriptor} (h : f.declare d = .ok next)
    (hf : f.scope.symbols.Identifies) (hname : Name.problem? d.name = none) :
    next.scope.symbols.Identifies := by
  obtain ⟨hfree, rfl⟩ := Frame.declare_eq_ok_iff.1 h
  exact hf.insert hname hfree

theorem readParameter_eq_ok {r r' : Requirements} {earlier : List Name} {text : Text}
    {p : Parameter} (h : readParameter r earlier text = .ok (p, r')) :
    Name.problem? p.name = none ∧ p.name ∉ earlier ∧ p.type.isIO = false := by
  unfold readParameter at h
  split at h
  · cases h
  next name type hcut =>
  dsimp only at h
  split at h
  · cases h
  next hname =>
  split at h
  · cases h
  next hearlier =>
  obtain ⟨t, -, h⟩ := Check.bind_eq_ok_iff.1 h
  split at h
  · cases h
  next hio =>
  cases h
  exact ⟨Option.eq_none_iff_forall_ne_some.2 hname, by simpa using hearlier, by simpa using hio⟩

/-- What held of the parameters of a header. -/
theorem readParameters_eq_ok {r r' : Requirements} {earlier : List Name} {texts : List Text}
    {parameters : List Parameter} (h : readParameters r earlier texts = .ok (parameters, r')) :
    ∀ p ∈ parameters, Name.problem? p.name = none ∧ p.name ∉ earlier ∧ p.type.isIO = false := by
  induction texts generalizing r earlier parameters with
  | nil => cases h; nofun
  | cons text texts ih =>
    obtain ⟨⟨p, r₁⟩, hp, h⟩ := Check.bind_eq_ok_iff.1 h
    obtain ⟨⟨ps, r₂⟩, hps, h⟩ := Check.bind_eq_ok_iff.1 h
    cases h
    intro q hq
    rcases List.mem_cons.1 hq with rfl | hq
    · exact readParameter_eq_ok hp
    · obtain ⟨hname, hearlier, hio⟩ := ih hps q hq
      exact ⟨hname, fun hmem => hearlier (List.mem_cons_of_mem _ hmem), hio⟩

theorem readSignature_eq_ok {f : Frame} {line : Text} {s : Signature} {r : Requirements}
    (h : readSignature f line = .ok (s, r)) :
    Name.problem? s.name = none ∧ f.scope.symbols.lookup? s.name = none ∧
      (∀ p ∈ s.parameters, Name.problem? p.name = none ∧ p.type.isIO = false) ∧
      checkSignature s = .ok () := by
  unfold readSignature at h
  split at h
  · cases h
  next header hheader =>
  dsimp only at h
  split at h
  · cases h
  next hname =>
  obtain ⟨⟨⟩, hfree, h⟩ := Check.bind_eq_ok_iff.1 h
  obtain ⟨⟨parameters, r'⟩, hparameters, h⟩ := Check.bind_eq_ok_iff.1 h
  obtain ⟨returns, -, h⟩ := Check.bind_eq_ok_iff.1 h
  obtain ⟨⟨⟩, hcheck, h⟩ := Check.bind_eq_ok_iff.1 h
  cases h
  refine ⟨Option.eq_none_iff_forall_ne_some.2 hname, Symbols.ensureFree_eq_ok_iff.1 hfree, ?_,
    hcheck⟩
  intro p hp
  obtain ⟨hproblem, -, hio⟩ := readParameters_eq_ok hparameters p hp
  exact ⟨hproblem, hio⟩

/-! ### Frames -/

theorem identifies_of_declareParameters {parameters : List Parameter} {f next : Frame}
    (hf : f.scope.symbols.Identifies) (hnames : ∀ p ∈ parameters, Name.problem? p.name = none)
    (h : declareParameters f parameters = .ok next) : next.scope.symbols.Identifies := by
  induction parameters generalizing f with
  | nil => cases h; exact hf
  | cons p rest ih =>
    obtain ⟨middle, hmiddle, h⟩ := Check.bind_eq_ok_iff.1 h
    have hname : Name.problem? p.descriptor.name = none := by
      rw [Parameter.descriptor, Descriptor.name_ofType]
      exact hnames p List.mem_cons_self
    exact ih (identifies_of_declare hmiddle hf hname)
      (fun q hq => hnames q (List.mem_cons_of_mem _ hq)) h

/-- The body of a function starts with identifiers if its header was read with identifiers. -/
theorem identifies_of_enterFunction {f entered : Frame} {line : Text} {s : Signature}
    {r : Requirements} (hf : f.scope.symbols.Identifies)
    (hs : readSignature f line = .ok (s, r)) (h : enterFunction ⟨f.scope, r⟩ s = .ok entered) :
    entered.scope.symbols.Identifies := by
  obtain ⟨hname, -, hparameters, -⟩ := readSignature_eq_ok hs
  obtain ⟨known, hknown, h⟩ := Check.bind_eq_ok_iff.1 h
  exact identifies_of_declareParameters (identifies_of_declare hknown hf hname)
    (fun p hp => (hparameters p hp).1) h

theorem Spells.identifies {f next : Frame} {s : Statement} (h : Spells f s next)
    (hf : f.scope.symbols.Identifies) : next.scope.symbols.Identifies := by
  cases h with
  | @declaration next name isMutable type text v r hname _ _ hdeclare =>
    rw [← @Descriptor.name_ofType name isMutable type] at hname
    exact identifies_of_declare hdeclare hf hname
  | builtin _ _ hscope =>
    rw [hscope]
    exact hf
  | element | whole | jump => exact hf

/-- What is known before the lines. -/
def Reading.before : Reading → Frame
  | lines f _ _ _ => f
  | clauses f _ _ _ _ => f

/-- What is known behind the lines. -/
def Reading.after : Reading → Frame
  | lines _ _ _ after => after
  | clauses _ _ _ _ after => after

theorem Reads.identifies {reading : Reading} (h : Reads reading)
    (hf : reading.before.scope.symbols.Identifies) : reading.after.scope.symbols.Identifies := by
  induction h with
  | nil | result | lastClause => exact hf
  | blank _ _ ih => exact ih hf
  | line _ hline _ ih => exact ih (hline.spells.identifies hf)
  | selection _ _ _ _ _ _ ihclauses ihrest => exact ihrest (ihclauses hf)
  | loop _ _ _ _ _ _ _ _ _ ihrest => exact ihrest hf
  | function _ _ hsignature _ _ _ _ hdeclare _ _ ihrest =>
    obtain ⟨hname, -, -⟩ := readSignature_eq_ok hsignature
    exact ihrest (identifies_of_declare hdeclare hf hname)
  | nextClause _ _ _ _ _ ihclauses => exact ihclauses hf

end Program

end StellaGo
