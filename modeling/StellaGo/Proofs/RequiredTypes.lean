import StellaGo.Proofs.GeneratedNames

/-! What a file needs besides its functions. Defined here: the types that are written in a
statement, what a statement needs, and when a reader notes some needs and no others. Proved: what is
noted when a file is accepted is what its statements need, at every depth; the carriers are noted in
ascending order. -/

namespace StellaGo

open Environment (Visits)

/-! ### Needs -/

/-- A type for tuples with so many fields, or the package that prints. -/
inductive Need where
  | carrier (arity : Nat)
  | printing
  deriving DecidableEq, Repr

def ValueType.need? : ValueType → Option Need
  | .tuple type => some (.carrier type.arity)
  | _ => none

namespace Statement

/-- The types that the statement is written with: the one of a declaration, or those of a signature.
-/
def writtenTypes : Statement → List ValueType
  | declaration _ type _ => [type]
  | function s _ => s.parameters.map (·.type) ++ [s.returns]
  | _ => []

/-- The statement prints something. A `panic!` does not. -/
def prints : Statement → Bool
  | builtin callee _ => callee != .panic
  | _ => false

/-- What the statement itself needs. -/
def needs (s : Statement) : List Need :=
  s.writtenTypes.filterMap ValueType.need? ++ if s.prints then [.printing] else []

theorem mem_needs_iff {s : Statement} {need : Need} :
    need ∈ s.needs ↔
      (∃ type ∈ s.writtenTypes, type.need? = some need) ∨ s.prints ∧ need = .printing := by
  rw [needs, List.mem_append, List.mem_filterMap]
  cases s.prints <;> simp

theorem carrier_mem_needs_iff {s : Statement} {arity : Nat} :
    .carrier arity ∈ s.needs ↔ ∃ type, .tuple type ∈ s.writtenTypes ∧ type.arity = arity := by
  rw [mem_needs_iff, or_iff_left (by simp)]
  constructor
  · rintro ⟨type, hmem, hneed⟩
    cases type with
    | tuple type => exact ⟨type, hmem, Need.carrier.inj (Option.some.inj hneed)⟩
    | primitive | array => cases hneed
  · rintro ⟨type, hmem, rfl⟩
    exact ⟨.tuple type, hmem, rfl⟩

theorem printing_mem_needs_iff {s : Statement} : .printing ∈ s.needs ↔ s.prints := by
  rw [mem_needs_iff, or_iff_right, and_iff_left rfl]
  rintro ⟨type, -, hneed⟩
  cases type <;> cases hneed

end Statement

/-- A statement that a walk over the statements meets, at any depth, has the need. -/
def Environment.Needs (env : Environment) (statements : List Statement) (need : Need) : Prop :=
  ∃ env' s, Visits env statements env' s ∧ need ∈ s.needs

namespace Environment

variable {env : Environment} {s : Statement} {statements : List Statement} {need : Need}

theorem not_needs_nil : ¬ env.Needs [] need := by
  rintro ⟨env', s, hs, -⟩
  cases hs

theorem needs_cons_of_isLine (hs : s.isLine) :
    env.Needs (s :: statements) need ↔ need ∈ s.needs ∨ (env.extend s).Needs statements need := by
  constructor
  · rintro ⟨env', s', hvisits, hneed⟩
    rcases visits_of_isLine hs hvisits with ⟨rfl, rfl⟩ | hrest
    · exact .inl hneed
    · exact .inr ⟨env', s', hrest, hneed⟩
  · rintro (hneed | ⟨env', s', hrest, hneed⟩)
    · exact ⟨env, s, .here, hneed⟩
    · exact ⟨env', s', .later hrest, hneed⟩

theorem needs_selection {clauses : List (Clause Statement)} :
    env.Needs (.selection clauses :: statements) need ↔
      (∃ clause ∈ clauses, env.Needs clause.body.statements need) ∨ env.Needs statements need := by
  constructor
  · rintro ⟨env', s', hvisits, hneed⟩
    cases hvisits with
    | here => cases hneed
    | later hrest => exact .inr ⟨env', s', hrest, hneed⟩
    | clause hc hin => exact .inl ⟨_, hc, env', s', hin, hneed⟩
  · rintro (⟨clause, hc, env', s', hin, hneed⟩ | ⟨env', s', hrest, hneed⟩)
    · exact ⟨env', s', .clause hc hin, hneed⟩
    · exact ⟨env', s', .later hrest, hneed⟩

theorem needs_loop {condition : Expression} {body : Body Statement} :
    env.Needs (.loop condition body :: statements) need ↔
      env.Needs body.statements need ∨ env.Needs statements need := by
  constructor
  · rintro ⟨env', s', hvisits, hneed⟩
    cases hvisits with
    | here => cases hneed
    | later hrest => exact .inr ⟨env', s', hrest, hneed⟩
    | loop hin => exact .inl ⟨env', s', hin, hneed⟩
  · rintro (⟨env', s', hin, hneed⟩ | ⟨env', s', hrest, hneed⟩)
    · exact ⟨env', s', .loop hin, hneed⟩
    · exact ⟨env', s', .later hrest, hneed⟩

theorem needs_function {signature : Signature} {body : Body Statement} :
    env.Needs (.function signature body :: statements) need ↔
      need ∈ (Statement.function signature body).needs ∨
        (env.enterFunction signature).Needs body.statements need ∨
        (env.add (.function signature)).Needs statements need := by
  constructor
  · rintro ⟨env', s', hvisits, hneed⟩
    cases hvisits with
    | here => exact .inl hneed
    | later hrest => exact .inr (.inr ⟨env', s', hrest, hneed⟩)
    | function hin => exact .inr (.inl ⟨env', s', hin, hneed⟩)
  · rintro (hneed | ⟨env', s', hin, hneed⟩ | ⟨env', s', hrest, hneed⟩)
    · exact ⟨env, _, .here, hneed⟩
    · exact ⟨env', s', .function hin, hneed⟩
    · exact ⟨env', s', .later hrest, hneed⟩

theorem Visits.append {env' : Environment} {xs : List Statement} (h : Visits env xs env' s)
    (ys : List Statement) : Visits env (xs ++ ys) env' s := by
  induction h with
  | here => exact .here
  | later _ ih => exact .later ih
  | clause hc h => exact .clause hc h
  | loop h => exact .loop h
  | function h => exact .function h

/-- The `}` at the end of a body needs nothing. -/
theorem needs_append_closer :
    env.Needs (statements ++ [.closer]) need ↔ env.Needs statements need := by
  constructor
  · rintro ⟨env', s', hvisits, hneed⟩
    rcases hvisits.of_append with hbody | hcloser
    · exact ⟨env', s', hbody, hneed⟩
    · cases hcloser with
      | here => cases hneed
      | later h => cases h
  · rintro ⟨env', s', hvisits, hneed⟩
    exact ⟨env', s', hvisits.append _, hneed⟩

end Environment

/-! ### What is noted -/

theorem mem_insertAscending {n m : Nat} {ns : List Nat} :
    m ∈ insertAscending n ns ↔ m ∈ ns ∨ m = n := by
  induction ns with
  | nil => simp [insertAscending]
  | cons k rest ih =>
    rw [insertAscending]
    split
    · simp [or_comm]
    · split
      · next heq =>
        rw [heq, List.mem_cons]
        tauto
      · rw [List.mem_cons, ih, List.mem_cons, or_assoc]

theorem pairwise_insertAscending {n : Nat} {ns : List Nat} (h : ns.Pairwise (· < ·)) :
    (insertAscending n ns).Pairwise (· < ·) := by
  induction ns with
  | nil => simp [insertAscending]
  | cons k rest ih =>
    obtain ⟨hk, hrest⟩ := List.pairwise_cons.1 h
    rw [insertAscending]
    split
    · next hlt =>
      refine List.pairwise_cons.2 ⟨fun m hm => ?_, h⟩
      rcases List.mem_cons.1 hm with rfl | hm
      · exact hlt
      · exact hlt.trans (hk m hm)
    · next hle =>
      split
      · exact h
      · next hne =>
        refine List.pairwise_cons.2 ⟨fun m hm => ?_, ih hrest⟩
        rcases mem_insertAscending.1 hm with hm | rfl
        · exact hk m hm
        · omega

namespace Requirements

/-- The need is met by what is noted. -/
def Has (r : Requirements) : Need → Prop
  | .carrier arity => arity ∈ r.arities
  | .printing => r.usesFmt = true

/-- Afterwards the new needs are noted too and no others, and the carriers keep ascending. -/
structure Grows (before after : Requirements) (new : Need → Prop) : Prop where
  has : ∀ need, after.Has need ↔ before.Has need ∨ new need
  ascends : before.arities.Pairwise (· < ·) → after.arities.Pairwise (· < ·)

variable {r middle after : Requirements} {p q : Need → Prop}

theorem Grows.refl (h : ∀ need, ¬ p need) : r.Grows r p :=
  ⟨fun need => (or_iff_left (h need)).symm, id⟩

theorem Grows.trans (h : r.Grows middle p) (h' : middle.Grows after q) :
    r.Grows after fun need => p need ∨ q need :=
  ⟨fun need => by rw [h'.has, h.has, or_assoc], fun hr => h'.ascends (h.ascends hr)⟩

theorem Grows.congr (h : r.Grows after p) (hpq : ∀ need, p need ↔ q need) : r.Grows after q :=
  ⟨fun need => (h.has need).trans (or_congr_right (hpq need)), h.ascends⟩

theorem grows_addFmt (r : Requirements) : r.Grows r.addFmt (· = .printing) := by
  refine ⟨fun need => ?_, id⟩
  cases need with
  | carrier => simp [Has, addFmt]
  | printing => simp [Has, addFmt]

theorem grows_addType (r : Requirements) (type : ValueType) :
    r.Grows (r.addType type) (type.need? = some ·) := by
  cases type with
  | tuple type =>
    refine ⟨fun need => ?_, pairwise_insertAscending⟩
    cases need with
    | carrier arity => simp [Has, addType, addTuple, ValueType.need?, mem_insertAscending, eq_comm]
    | printing => simp [Has, addType, addTuple, ValueType.need?]
  | primitive | array => exact .refl fun need hneed => by cases hneed

/-- A type that was read is noted. -/
theorem readType_snd {t : Text} {type : ValueType} (h : (r.readType t).1 = .ok type) :
    (r.readType t).2 = r.addType type := by
  unfold readType at h ⊢
  split
  · next hread =>
    rw [hread] at h
    cases h
    rfl
  · next hread =>
    rw [hread] at h
    cases h

end Requirements

/-! ### Statements that are read -/

namespace Program

open Requirements (Grows)

theorem grows_of_readParameter {r r' : Requirements} {earlier : List Name} {text : Text}
    {p : Parameter} (h : readParameter r earlier text = .ok (p, r')) :
    r.Grows r' (p.type.need? = some ·) := by
  unfold readParameter at h
  split at h
  · cases h
  next name type hcut =>
  dsimp only at h
  split at h
  · cases h
  split at h
  · cases h
  obtain ⟨t, ht, h⟩ := Check.bind_eq_ok_iff.1 h
  split at h
  · cases h
  cases h
  rw [Requirements.readType_snd (Check.mapError_eq_ok_iff.1 ht)]
  exact Requirements.grows_addType r t

theorem grows_of_readParameters {texts : List Text} {r r' : Requirements} {earlier : List Name}
    {ps : List Parameter} (h : readParameters r earlier texts = .ok (ps, r')) :
    r.Grows r' fun need => ∃ p ∈ ps, p.type.need? = some need := by
  induction texts generalizing r earlier ps with
  | nil =>
    cases h
    exact .refl nofun
  | cons text texts ih =>
    obtain ⟨⟨p, r₁⟩, hp, h⟩ := Check.bind_eq_ok_iff.1 h
    obtain ⟨⟨rest, r₂⟩, hrest, h⟩ := Check.bind_eq_ok_iff.1 h
    cases h
    refine ((grows_of_readParameter hp).trans (ih hrest)).congr fun need => ?_
    simp

theorem grows_of_readSignature {f : Frame} {line : Text} {s : Signature} {r : Requirements}
    (body : Body Statement) (h : readSignature f line = .ok (s, r)) :
    f.requirements.Grows r (· ∈ (Statement.function s body).needs) := by
  unfold readSignature at h
  split at h
  · cases h
  next header hheader =>
  dsimp only at h
  split at h
  · cases h
  obtain ⟨⟨⟩, -, h⟩ := Check.bind_eq_ok_iff.1 h
  obtain ⟨⟨parameters, middle⟩, hparameters, h⟩ := Check.bind_eq_ok_iff.1 h
  obtain ⟨returns, hreturns, h⟩ := Check.bind_eq_ok_iff.1 h
  obtain ⟨⟨⟩, -, h⟩ := Check.bind_eq_ok_iff.1 h
  cases h
  rw [Requirements.readType_snd (Check.mapError_eq_ok_iff.1 hreturns)]
  refine ((grows_of_readParameters hparameters).trans
    (Requirements.grows_addType middle returns)).congr fun need => ?_
  simp [Statement.mem_needs_iff, Statement.writtenTypes, Statement.prints, or_and_right, exists_or]

theorem requirements_of_declare {f next : Frame} {d : Descriptor} (h : f.declare d = .ok next) :
    next.requirements = f.requirements := by
  obtain ⟨-, rfl⟩ := Frame.declare_eq_ok_iff.1 h
  rfl

theorem requirements_of_declareParameters {parameters : List Parameter} {f next : Frame}
    (h : declareParameters f parameters = .ok next) : next.requirements = f.requirements := by
  induction parameters generalizing f with
  | nil =>
    cases h
    rfl
  | cons p rest ih =>
    obtain ⟨middle, hmiddle, h⟩ := Check.bind_eq_ok_iff.1 h
    exact (ih h).trans (requirements_of_declare hmiddle)

theorem requirements_of_enterFunction {f entered : Frame} {s : Signature}
    (h : enterFunction f s = .ok entered) : entered.requirements = f.requirements := by
  obtain ⟨known, hknown, h⟩ := Check.bind_eq_ok_iff.1 h
  have hentered := requirements_of_declare hknown
  exact (requirements_of_declareParameters h).trans hentered

theorem grows_of_readBuiltin {f after : Frame} {line : Text} {s : Statement}
    (h : Statement.readBuiltin f line = .ok (s, after)) :
    f.requirements.Grows after.requirements (· ∈ s.needs) := by
  unfold Statement.readBuiltin at h
  split at h
  · split at h
    · next callee hcallee =>
      dsimp only at h
      split at h
      · cases h
      split at h
      · split at h
        · cases h
        obtain ⟨argument, -, h⟩ := Check.bind_eq_ok_iff.1 h
        obtain ⟨⟨⟩, -, h⟩ := Check.bind_eq_ok_iff.1 h
        cases h
        cases callee with
        | print | println =>
          exact (Requirements.grows_addFmt _).congr fun need => by
            simp [Statement.mem_needs_iff, Statement.writtenTypes, Statement.prints]
        | panic => exact .refl nofun
      · cases h
    · cases h
  · cases h

/-- What a line needs is noted behind it. -/
theorem ReadsLine.grows {f next : Frame} {text : Text} {s : Statement}
    (h : ReadsLine f text s next) : f.requirements.Grows next.requirements (· ∈ s.needs) := by
  cases h with
  | declaration _ h =>
    obtain ⟨header, type, v, r, -, -, htype, -, -, rfl, hdeclare⟩ :=
      Statement.readDeclaration_eq_ok h
    have hr := Requirements.readType_snd (congrArg Prod.fst htype)
    rw [htype] at hr
    obtain rfl : r = f.requirements.addType type := hr
    rw [requirements_of_declare hdeclare]
    refine (Requirements.grows_addType _ type).congr fun need => ?_
    simp [Statement.mem_needs_iff, Statement.writtenTypes, Statement.prints]
  | assignment _ h => cases Statement.readAssignment_eq_ok h <;> exact .refl nofun
  | jump _ h =>
    obtain ⟨-, -, rfl⟩ := Statement.readJump_eq_ok h
    exact .refl nofun
  | builtin _ h => exact grows_of_readBuiltin h

/-- Behind what was read, the needs of all its statements are noted and no new ones besides. -/
def Reading.IsNoted : Reading → Prop
  | lines f _ statements after => ∀ env : Environment,
    f.requirements.Grows after.requirements (env.Needs statements)
  | clauses f _ _ cs after => ∀ env : Environment, f.requirements.Grows after.requirements
    fun need => ∃ clause ∈ cs, env.Needs clause.body.statements need

open Environment in
/-- By induction on how the lines are read: the reader of a block is given what was noted in front
of it, and hands on what was noted in it. -/
theorem Reads.isNoted {reading : Reading} (h : Reads reading) : reading.IsNoted := by
  induction h with
  | nil => exact fun env => .refl fun need => not_needs_nil
  | blank _ _ ih => exact ih
  | line _ hline _ ih =>
    exact fun env => (hline.grows.trans (ih _)).congr fun need =>
      (needs_cons_of_isLine hline.spells.isLine).symm
  | result _ _ hresult _ =>
    obtain ⟨type, v, -, rfl, -⟩ := Statement.readResult_eq_ok hresult
    intro env
    refine .refl fun need hneed => ?_
    rcases (needs_cons_of_isLine rfl).1 hneed with hneed | hneed
    · cases hneed
    · exact not_needs_nil hneed
  | selection _ _ _ _ _ _ ihclauses ihrest =>
    exact fun env => ((ihclauses env).trans (ihrest env)).congr fun need => needs_selection.symm
  | loop _ _ _ _ _ _ _ _ ihinside ihrest =>
    refine fun env => ((ihinside env).trans (ihrest env)).congr fun need => ?_
    rw [needs_loop, Frame.body, needs_append_closer]
  | @function f entered inner next after line close inside rest signature r body statements _ _
      hsignature henter _ _ _ hdeclare _ ihinside ihrest =>
    intro env
    have hinside := ihinside (env.enterFunction signature)
    have hafter := ihrest (env.add (.function signature))
    rw [requirements_of_enterFunction henter] at hinside
    rw [requirements_of_declare hdeclare] at hafter
    have hsigned := grows_of_readSignature (inner.body (body ++ [.closer])) hsignature
    refine ((hsigned.trans hinside).trans hafter).congr fun need => ?_
    rw [needs_function, Frame.body, needs_append_closer, or_assoc]
  | lastClause _ _ ihinside =>
    refine fun env => (ihinside env).congr fun need => ?_
    simp [Frame.body, needs_append_closer]
  | nextClause _ _ _ _ ihinside ihclauses =>
    refine fun env => ((ihinside env).trans (ihclauses env)).congr fun need => ?_
    simp [Frame.body]

/-- In an accepted file, the carriers are noted in ascending order. -/
theorem pairwise_arities_of_read {source : Text} {p : Program} (h : read source = .ok p) :
    p.requirements.arities.Pairwise (· < ·) := by
  obtain ⟨after, hreads, hp, -⟩ := reads_of_read h
  rw [hp]
  exact (hreads.isNoted .empty).ascends .nil

/-- What is noted for an accepted file is what its statements need. -/
theorem has_iff_of_read {source : Text} {p : Program} {need : Need} (h : read source = .ok p) :
    p.requirements.Has need ↔ Environment.empty.Needs p.body.statements need := by
  obtain ⟨after, hreads, hp, -⟩ := reads_of_read h
  have hnone : ¬ Requirements.empty.Has need := by
    cases need <;> simp [Requirements.Has, Requirements.empty]
  rw [hp]
  exact ((hreads.isNoted .empty).has need).trans (or_iff_right hnone)

end Program

/-! ### The types of declared names -/

namespace Declared

/-- The types that the name is declared with. -/
def types : Declared → List ValueType
  | value _ type => [type]
  | function s => s.parameters.map (·.type) ++ [s.returns]

theorem types_subset_of_mem_introduces {d : Declared} {s : Statement} (h : d ∈ s.introduces) :
    d.types ⊆ s.writtenTypes := by
  cases s with
  | declaration name type v =>
    obtain rfl := List.mem_singleton.1 h
    exact List.Subset.refl _
  | function signature body =>
    rcases List.mem_cons.1 h with rfl | h
    · exact List.Subset.refl _
    · obtain ⟨p, hp, rfl⟩ := List.mem_map.1 h
      intro type htype
      obtain rfl := List.mem_singleton.1 htype
      exact List.mem_append_left _ (List.mem_map_of_mem hp)
  | assignment | selection | loop | jump | builtin | result | closer => cases h

end Declared

namespace Environment

theorem foldl_add (env : Environment) (ds : List Declared) :
    ds.foldl add env = ⟨ds.reverse ++ env.declared, env.returns?⟩ := by
  induction ds generalizing env with
  | nil => rfl
  | cons d rest ih => rw [List.foldl_cons, ih, add, List.reverse_cons, List.append_assoc]; rfl

/-- A name that is known to a statement was known at the beginning of the walk or introduced by a
statement that the walk met. -/
theorem Visits.exists_of_mem_declared {start env : Environment} {statements : List Statement}
    {s : Statement} (h : Visits start statements env s) {d : Declared} (hd : d ∈ env.declared) :
    d ∈ start.declared ∨ ∃ env' s', Visits start statements env' s' ∧ d ∈ s'.introduces := by
  induction h with
  | here => exact .inl hd
  | @later start _ t _ rest _ ih =>
    rcases ih hd with hstart | ⟨env', s', hs', hd⟩
    · cases t with
      | declaration | function =>
        rcases List.mem_cons.1 hstart with rfl | hstart
        · exact .inr ⟨_, _, .here, List.mem_cons_self⟩
        · exact .inl hstart
      | _ => exact .inl hstart
    · exact .inr ⟨env', s', .later hs', hd⟩
  | clause hc _ ih =>
    exact (ih hd).imp_right fun ⟨env', s', hs', hd⟩ => ⟨env', s', .clause hc hs', hd⟩
  | loop _ ih => exact (ih hd).imp_right fun ⟨env', s', hs', hd⟩ => ⟨env', s', .loop hs', hd⟩
  | @function start _ signature body _ _ _ ih =>
    rcases ih hd with hstart | ⟨env', s', hs', hd⟩
    · rw [enterFunction, foldl_add, List.mem_append, List.mem_reverse, List.mem_cons] at hstart
      rcases hstart with hparameter | rfl | hstart
      · exact .inr ⟨_, _, .here, List.mem_cons_of_mem _ hparameter⟩
      · exact .inr ⟨_, _, .here, List.mem_cons_self⟩
      · exact .inl hstart
    · exact .inr ⟨env', s', .function hs', hd⟩

/-- What may be returned is what the function around the statement returns. -/
theorem Visits.exists_of_returns? {start env : Environment} {statements : List Statement}
    {s : Statement} (h : Visits start statements env s) {type : ValueType}
    (ht : env.returns? = some type) : start.returns? = some type ∨
      ∃ env' signature body, Visits start statements env' (.function signature body) ∧
        signature.returns = type := by
  induction h with
  | here => exact .inl ht
  | @later start _ t _ rest _ ih =>
    rcases ih ht with hstart | ⟨env', signature, body, hs', ht⟩
    · cases t <;> exact .inl hstart
    · exact .inr ⟨env', signature, body, .later hs', ht⟩
  | clause hc _ ih =>
    exact (ih ht).imp_right fun ⟨env', s', body, hs', ht⟩ => ⟨env', s', body, .clause hc hs', ht⟩
  | loop _ ih =>
    exact (ih ht).imp_right fun ⟨env', s', body, hs', ht⟩ => ⟨env', s', body, .loop hs', ht⟩
  | function _ ih =>
    rcases ih ht with hstart | ⟨env', signature, body, hs', ht⟩
    · rw [enterFunction, foldl_add] at hstart
      exact .inr ⟨_, _, _, .here, Option.some.inj hstart⟩
    · exact .inr ⟨env', signature, body, .function hs', ht⟩

end Environment

/-- What the type needs is noted. -/
def Requirements.Covers (r : Requirements) (type : ValueType) : Prop :=
  ∀ need ∈ type.need?, r.Has need

/-- The names of the environment may be declared, and the types that they are declared with are
covered, as is the one that may be returned. -/
structure Environment.IsCovered (env : Environment) (r : Requirements) : Prop where
  names : ∀ d ∈ env.declared, Name.problem? d.name = none
  types : ∀ d ∈ env.declared, ∀ type ∈ d.types, r.Covers type
  returns : ∀ type ∈ env.returns?, r.Covers type

namespace Environment.IsCovered

variable {env : Environment} {r : Requirements} {name : Name} {d : Declared}

theorem problem?_eq_none (h : env.IsCovered r) (hd : env.lookup? name = some d) :
    Name.problem? name = none := by
  rw [← name_of_lookup? hd]
  exact h.names d (List.mem_of_find?_eq_some hd)

/-- What no declaration may take is not known. -/
theorem lookup?_eq_none (h : env.IsCovered r) (hname : Name.problem? name ≠ none) :
    env.lookup? name = none := by
  by_contra hsome
  obtain ⟨d, hd⟩ := Option.ne_none_iff_exists'.1 hsome
  exact hname (h.problem?_eq_none hd)

theorem covers (h : env.IsCovered r) (hd : env.lookup? name = some d) {type : ValueType}
    (ht : type ∈ d.types) : r.Covers type :=
  h.types d (List.mem_of_find?_eq_some hd) type ht

end Environment.IsCovered

namespace Program

variable {source : Text} {p : Program} {env : Environment} {s : Statement}

theorem covers_of_mem_writtenTypes {type : ValueType} (h : read source = .ok p)
    (hs : Visits .empty p.body.statements env s) (ht : type ∈ s.writtenTypes) :
    p.requirements.Covers type := by
  intro need hneed
  exact (has_iff_of_read h).2 ⟨env, s, hs, Statement.mem_needs_iff.2 (.inl ⟨type, ht, hneed⟩)⟩

/-- Of every name of an accepted file, the type is covered wherever the name is known. -/
theorem isCovered_of_visits (h : read source = .ok p)
    (hs : Visits .empty p.body.statements env s) : env.IsCovered p.requirements := by
  have hintroduced {d : Declared} (hd : d ∈ env.declared) :
      ∃ env' s', Visits .empty p.body.statements env' s' ∧ d ∈ s'.introduces :=
    (hs.exists_of_mem_declared hd).resolve_left List.not_mem_nil
  constructor
  · intro d hd
    obtain ⟨env', s', hs', hd'⟩ := hintroduced hd
    obtain ⟨f, -, hread⟩ := exists_frame_of_visits h hs'
    exact hread.problem?_of_mem_introduces hd'
  · intro d hd type htype
    obtain ⟨env', s', hs', hd'⟩ := hintroduced hd
    exact covers_of_mem_writtenTypes h hs' (d.types_subset_of_mem_introduces hd' htype)
  · intro type htype
    rcases hs.exists_of_returns? htype with hempty | ⟨env', signature, body, hs', rfl⟩
    · cases hempty
    · exact covers_of_mem_writtenTypes h hs' (List.mem_append_right _ (List.mem_singleton_self _))

end Program

end StellaGo
