import StellaGo.Proofs.Reading.Terms

/-! How an accepted call, index, field access, array or tuple came to be read. For each reader: what
held of the text and of the declared names if it gave a result. -/

namespace StellaGo.Expression

variable {symbols : Symbols} {n : Nat}

/-! ### Calls, indices and fields -/

/-- A value of the given type that a text spells. -/
def ReadsValue (symbols : Symbols) (type : ValueType) (text : Text) (v : Value) : Prop :=
  match type with
  | .primitive type => ∃ e, v = .scalar e ∧ e.type = type ∧ expression symbols text = .ok e
  | .array type => aggregate symbols (.array type) text = .ok v
  | .tuple type => aggregate symbols (.tuple type) text = .ok v

theorem argument_eq_ok {function : Name} {position : Nat} {p : Parameter} {text : Text} {v : Value}
    {short : text.length < n}
    (h : argument (inside symbols n) function position p text short = .ok v) :
    ReadsValue symbols p.type text v := by
  obtain ⟨name, type⟩ := p
  cases type with
  | primitive type =>
    obtain ⟨e, he, h⟩ := Check.bind_eq_ok_iff.1 h
    split at h
    · next htype =>
      cases h
      exact ⟨e, rfl, htype, he⟩
    · cases h
  | array type => exact h
  | tuple type => exact h

/-- The arguments are read one by one, as long as there are parameters and texts. -/
theorem arguments_eq_ok {function : Name} :
    ∀ {position : Nat} {parameters : List Parameter} {texts : List Text} {values : List Value}
      {short : ∀ text ∈ texts, text.length < n}, texts.length = parameters.length →
      arguments (inside symbols n) function position parameters texts short = .ok values →
      List.Forall₂ (fun (p : Parameter) v => ∃ text ∈ texts, ReadsValue symbols p.type text v)
        parameters values
  | position, p :: parameters, text :: texts, values, short, hlen, h => by
    unfold arguments at h
    obtain ⟨v, hv, h⟩ := Check.bind_eq_ok_iff.1 h
    obtain ⟨vs, hvs, h⟩ := Check.bind_eq_ok_iff.1 h
    cases h
    refine .cons ⟨text, List.mem_cons_self, argument_eq_ok hv⟩ ?_
    refine (arguments_eq_ok (Nat.succ.inj hlen) hvs).imp fun p v => ?_
    rintro ⟨other, hm, hr⟩
    exact ⟨other, List.mem_cons_of_mem _ hm, hr⟩
  | _, [], [], values, _, _, h => by
    rw [arguments.eq_def] at h
    cases h
    exact .nil

/-- What held of a call. -/
theorem call_eq_ok {token : Text} {c : Call} (h : call symbols token = .ok c) :
    ∃ inner signature, token.inside? (token.takeWhile (· != '(')).length = some inner ∧
      symbols.lookup? (token.takeWhile (· != '(')) = some (.function signature) ∧
      c.name = signature.name ∧ c.returns = signature.returns ∧
      List.Forall₂ (fun (p : Parameter) v =>
        ∃ text ∈ inner.topLevelParts ',', ReadsValue symbols p.type text v)
        signature.parameters c.arguments := by
  rw [call, readCall] at h
  dsimp only at h
  split at h
  · cases h
  next inner hi =>
  obtain ⟨signature, hs, h⟩ := Check.bind_eq_ok_iff.1 h
  split at h
  · cases h
  next hlen =>
  obtain ⟨values, hv, h⟩ := Check.bind_eq_ok_iff.1 h
  cases h
  obtain ⟨d, hd, hs⟩ := Check.bind_eq_ok_iff.1 hs
  split at hs
  · cases hs
    exact ⟨inner, signature, hi, Symbols.resolve_eq_ok_iff.1 hd, rfl, rfl,
      arguments_eq_ok (not_not.1 hlen) hv⟩
  · cases hs

theorem index_eq_ok {array : Binding ArrayType} {size : Nat} {text : Text} {e : Expression}
    {short : text.length < n} (h : index (inside symbols n) array size text short = .ok e) :
    expression symbols text = .ok e ∧ e.type = .int ∧ ∀ v ∈ e.constant?, inRange v size := by
  unfold index at h
  obtain ⟨e', he, h⟩ := Check.bind_eq_ok_iff.1 h
  dsimp only at h
  split at h
  · cases h
  next htype =>
  split at h
  · next v hv =>
    split at h
    · next hr =>
      cases h
      exact ⟨he, not_not.1 htype, fun u hu => by rw [hv] at hu; cases hu; exact hr⟩
    · cases h
  · next hv =>
    cases h
    exact ⟨he, not_not.1 htype, fun u hu => by rw [hv] at hu; cases hu⟩

/-- The indices are read one by one, each for its dimension. -/
theorem indices_eq_ok {array : Binding ArrayType} :
    ∀ {sizes : List Nat} {texts : List Text} {es : List Expression}
      {short : ∀ text ∈ texts, text.length < n}, texts.length = sizes.length →
      indices (inside symbols n) array sizes texts short = .ok es →
      List.Forall₂ (fun text e => expression symbols text = .ok e) texts es ∧
        List.Forall₂ (fun size e => e.type = .int ∧ ∀ v ∈ e.constant?, inRange v size) sizes es
  | size :: sizes, text :: texts, es, short, hlen, h => by
    unfold indices at h
    obtain ⟨e, he, h⟩ := Check.bind_eq_ok_iff.1 h
    obtain ⟨others, ho, h⟩ := Check.bind_eq_ok_iff.1 h
    cases h
    obtain ⟨hread, hsize⟩ := index_eq_ok he
    obtain ⟨hreads, hsizes⟩ := indices_eq_ok (Nat.succ.inj hlen) ho
    exact ⟨.cons hread hreads, .cons hsize hsizes⟩
  | [], [], es, _, _, h => by
    rw [indices.eq_def] at h
    cases h
    exact ⟨.nil, .nil⟩

/-- What held of an indexing. -/
theorem indexing_eq_ok {token : Text} {i : Indexing} (h : indexing symbols token = .ok i) :
    ∃ texts array, token.indices? (token.takeWhile (· != '[')).length = some texts ∧
      symbols.lookup? (token.takeWhile (· != '[')) = some (.array array) ∧
      i.name = array.name ∧ i.type = array.type.base ∧
      List.Forall₂ (fun text e => expression symbols text = .ok e) texts i.indices ∧
      List.Forall₂ (fun size e => e.type = .int ∧ ∀ v ∈ e.constant?, inRange v size)
        array.type.dimensions i.indices := by
  rw [indexing, readIndexing] at h
  dsimp only at h
  split at h
  · cases h
  next texts ht =>
  obtain ⟨array, ha, h⟩ := Check.bind_eq_ok_iff.1 h
  split at h
  · cases h
  next hlen =>
  obtain ⟨es, he, h⟩ := Check.bind_eq_ok_iff.1 h
  cases h
  obtain ⟨d, hd, ha⟩ := Check.bind_eq_ok_iff.1 ha
  split at ha
  · cases ha
    exact ⟨texts, array, ht, Symbols.resolve_eq_ok_iff.1 hd, rfl, rfl,
      indices_eq_ok (not_not.1 hlen) he⟩
  · cases ha

/-- What held of a field access. -/
theorem fieldAccess_eq_ok {token : Text} {f : FieldAccess}
    (h : fieldAccess symbols token = .ok f) :
    ∃ name digits tuple, token.cut? '.' = some (name, digits) ∧
      symbols.lookup? name = some (.tuple tuple) ∧ f.name = tuple.name ∧
      tuple.type.fields[f.position]? = some f.type := by
  rw [fieldAccess, readField] at h
  split at h
  · cases h
  next name digits hcut =>
  split at h
  · cases h
  next position hp =>
  obtain ⟨d, hd, h⟩ := Check.bind_eq_ok_iff.1 h
  split at h
  · next tuple =>
    split at h
    · next type htype =>
      cases h
      exact ⟨name, digits, tuple, hcut, Symbols.resolve_eq_ok_iff.1 hd, rfl, htype⟩
    · cases h
  · cases h

/-! ### Arrays and tuples -/

theorem elements_eq_ok {base : Primitive} :
    ∀ {texts : List Text} {items : List Item} {short : ∀ text ∈ texts, text.length < n},
      elements (inside symbols n) base texts short = .ok items →
      List.Forall₂ (fun text item =>
        ∃ e, item = .scalar e ∧ e.type = base ∧ expression symbols text = .ok e) texts items
  | [], items, _, h => by
    unfold elements at h
    cases h
    exact .nil
  | text :: texts, items, _, h => by
    unfold elements at h
    obtain ⟨e, he, h⟩ := Check.bind_eq_ok_iff.1 h
    split at h
    · cases h
    next htype =>
    obtain ⟨others, ho, h⟩ := Check.bind_eq_ok_iff.1 h
    cases h
    exact .cons ⟨e, rfl, not_not.1 htype, he⟩ (elements_eq_ok ho)

theorem rows_eq_ok {row : ArrayType} {readRow : (text : Text) → text.length < n → Check (List Item)} :
    ∀ {texts : List Text} {items : List Item} {short : ∀ text ∈ texts, text.length < n},
      rows row readRow texts short = .ok items →
      List.Forall₂ (fun text item => text.startsWith '[' ∧
        ∃ inner short, item = .row inner ∧ readRow text short = .ok inner) texts items
  | [], items, _, h => by
    unfold rows at h
    cases h
    exact .nil
  | text :: texts, items, short, h => by
    unfold rows at h
    split at h
    · cases h
    next hs =>
    obtain ⟨inner, hi, h⟩ := Check.bind_eq_ok_iff.1 h
    obtain ⟨others, ho, h⟩ := Check.bind_eq_ok_iff.1 h
    cases h
    exact .cons ⟨by simpa using hs, inner, _, rfl, hi⟩ (rows_eq_ok ho)

/-- The items of an array literal with elements of type `base` and these dimensions. -/
def ReadsItems (symbols : Symbols) (base : Primitive) : List Nat → Text → List Item → Prop
  | size :: next :: deeper, text, items =>
    ∃ inner, text.inside? 0 = some inner ∧ (inner.topLevelParts ',').length = size ∧
      List.Forall₂ (fun part item => part.startsWith '[' ∧
        ∃ row, item = .row row ∧ ReadsItems symbols base (next :: deeper) part row)
        (inner.topLevelParts ',') items
  | sizes, text, items =>
    ∃ inner, text.inside? 0 = some inner ∧ (inner.topLevelParts ',').length = sizes.headD 0 ∧
      List.Forall₂ (fun part item =>
        ∃ e, item = .scalar e ∧ e.type = base ∧ expression symbols part = .ok e)
        (inner.topLevelParts ',') items

theorem readItems_eq_ok {base : Primitive} :
    ∀ {sizes : List Nat} {text : Text} {items : List Item} {short : text.length ≤ n},
      readItems (inside symbols n) base sizes text short = .ok items →
      ReadsItems symbols base sizes text items
  | size :: next :: deeper, text, items, short, h => by
    unfold readItems at h
    split at h
    · cases h
    next inner hi =>
    dsimp only at h
    split at h
    · cases h
    next hlen =>
    refine ⟨inner, hi, not_not.1 hlen, ?_⟩
    refine (rows_eq_ok h).imp fun part item => ?_
    rintro ⟨hs, row, _, rfl, hrow⟩
    exact ⟨hs, row, rfl, readItems_eq_ok hrow⟩
  | [], text, items, short, h => by
    unfold readItems at h
    split at h
    · cases h
    next inner hi =>
    dsimp only at h
    split at h
    · cases h
    next hlen => exact ⟨inner, hi, not_not.1 hlen, elements_eq_ok h⟩
  | [size], text, items, short, h => by
    unfold readItems at h
    split at h
    · cases h
    next inner hi =>
    dsimp only at h
    split at h
    · cases h
    next hlen => exact ⟨inner, hi, not_not.1 hlen, elements_eq_ok h⟩

theorem readFields_eq_ok {type : TupleType} :
    ∀ {position : Nat} {types : List Primitive} {texts : List Text} {es : List Expression}
      {short : ∀ text ∈ texts, text.length < n}, texts.length = types.length →
      readFields (inside symbols n) type position types texts short = .ok es →
      List.Forall₂ (fun text e => expression symbols text = .ok e) texts es ∧
        es.map (·.type) = types
  | position, expected :: types, text :: texts, es, short, hlen, h => by
    unfold readFields at h
    obtain ⟨e, he, h⟩ := Check.bind_eq_ok_iff.1 h
    split at h
    · cases h
    next htype =>
    obtain ⟨others, ho, h⟩ := Check.bind_eq_ok_iff.1 h
    cases h
    obtain ⟨hread, htypes⟩ := readFields_eq_ok (Nat.succ.inj hlen) ho
    exact ⟨.cons he hread, by rw [List.map_cons, htypes, not_not.1 htype]⟩
  | _, [], [], es, _, _, h => by
    rw [readFields.eq_def] at h
    cases h
    exact ⟨.nil, rfl⟩

/-- The ways in which a text spells a whole array or tuple of the expected type. -/
inductive ReadsAggregate (symbols : Symbols) (text : Text) : Aggregate → Value → Prop
  | items {type : ArrayType} {items : List Item} (hs : text.trim.startsWith '[')
      (h : ReadsItems symbols type.base type.dimensions text.trim items) :
      ReadsAggregate symbols text (.array type) (.arrayLiteral type items)
  | fields {type : TupleType} {inner : Text} {es : List Expression} (hs : text.trim.startsWith '(')
      (hi : text.trim.inside? 0 = some inner)
      (h : List.Forall₂ (fun part e => expression symbols part = .ok e)
        (inner.topLevelParts ',') es)
      (ht : es.map (·.type) = type.fields) :
      ReadsAggregate symbols text (.tuple type) (.tupleLiteral type es)
  | call {expected : Aggregate} {token : Text} {c : Call} (hs : Token.scan text.trim = .ok [token])
      (h : call symbols token = .ok c) (hr : c.returns = expected.type) :
      ReadsAggregate symbols text expected (.call c)
  | array {token : Text} {b : Binding ArrayType} (hs : Token.scan text.trim = .ok [token])
      (h : symbols.lookup? token = some (.array b)) :
      ReadsAggregate symbols text (.array b.type) (.whole b.name (.array b.type))
  | tuple {token : Text} {b : Binding TupleType} (hs : Token.scan text.trim = .ok [token])
      (h : symbols.lookup? token = some (.tuple b)) :
      ReadsAggregate symbols text (.tuple b.type) (.whole b.name (.tuple b.type))

theorem readWhole_eq_ok {expected : Aggregate} {text : Text} {v : Value}
    {short : text.trim.length ≤ n}
    (h : readWhole symbols (inside symbols n) expected text.trim short = .ok v) :
    ReadsAggregate symbols text expected v := by
  unfold readWhole at h
  change (Token.scanned text.trim >>= fun x => _) = .ok v at h
  obtain ⟨⟨tokens, within⟩, hscan, h⟩ := Check.bind_eq_ok_iff.1 h
  rw [scanned_eq_ok_iff] at hscan
  dsimp only at hscan h
  split at h
  · cases h
  · next token within =>
    split at h
    · rw [readCall_inside] at h
      obtain ⟨c, hc, h⟩ := Check.bind_eq_ok_iff.1 h
      split at h
      · next hr =>
        cases h
        exact .call hscan hc hr
      · cases h
    · split at h
      · next type =>
        unfold readArrayName at h
        split at h
        · next b hb =>
          split at h
          · next ht =>
            cases h
            subst ht
            exact .array hscan hb
          · cases h
        · cases h
        · split at h <;> cases h
      · next type =>
        unfold readTupleName at h
        obtain ⟨d, hd, h⟩ := Check.bind_eq_ok_iff.1 h
        split at h
        · next b =>
          split at h
          · next ht =>
            cases h
            subst ht
            exact .tuple hscan (Symbols.resolve_eq_ok_iff.1 hd)
          · cases h
        · cases h
  · cases h

/-- What a text spells, if it spells a whole array or tuple of the expected type. -/
theorem readsAggregate_of_aggregate {expected : Aggregate} {text : Text} {v : Value}
    (h : aggregate symbols expected text = .ok v) : ReadsAggregate symbols text expected v := by
  unfold aggregate at h
  cases expected with
  | array type =>
    simp only [readAggregate] at h
    split at h
    · next hs =>
      obtain ⟨items, hi, rfl⟩ := Check.map_eq_ok_iff.1 h
      exact .items hs (readItems_eq_ok hi)
    · exact readWhole_eq_ok h
  | tuple type =>
    simp only [readAggregate] at h
    split at h
    · next inner hs hi =>
      split at h
      · cases h
      next hlen =>
      obtain ⟨es, he, h⟩ := Check.bind_eq_ok_iff.1 h
      cases h
      obtain ⟨hread, htypes⟩ := readFields_eq_ok (not_not.1 hlen) he
      exact .fields hs hi hread htypes
    · exact readWhole_eq_ok h

end StellaGo.Expression
