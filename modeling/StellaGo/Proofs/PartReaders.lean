import StellaGo.Proofs.Grouping
import StellaGo.Proofs.Rereading

/-! Readers of parts. Defined here: the reader of each part of a call, an indexing, an array or a tuple,
and how the parts between commas are read, of which there must be so many. Proved: what stands in the
brackets is read part by part, each by its own reader. -/

namespace StellaGo

open Text (Closes)

/-- Reads the parts between the commas, of which there must be `size`. -/
def Text.readParts {α : Type} (size : Nat) (fault : Nat → Fault) (read : List Text → Check α)
    (inner : Text) : Check α :=
  if (inner.topLevelParts ',').length ≠ size then .error (fault (inner.topLevelParts ',').length)
  else read (inner.topLevelParts ',')

theorem Check.bind_ok_eq_map {ε α β : Type} (x : Except ε α) (f : α → β) :
    (x >>= fun a => .ok (f a)) = x.map f := by
  cases x <;> rfl

namespace Expression

variable {symbols : Symbols} {n : Nat}

/-! ### One part -/

section

variable (symbols)

def argumentAt (function : Name) (p : Parameter) (position : Nat) (text : Text) : Check Value :=
  argument (inside symbols (text.length + 1)) function position p text (Nat.lt_succ_self _)

def indexAt (array : Binding ArrayType) (size : Nat) (text : Text) : Check Expression :=
  index (inside symbols (text.length + 1)) array size text (Nat.lt_succ_self _)

def fieldAt (type : TupleType) (expected : Primitive) (position : Nat) (text : Text) :
    Check Expression := do
  let e ← expression symbols text
  if e.type ≠ expected then throw (.tupleField position type expected e.type)
  return e

/-- An item of an array literal, with so many items at each level inside. -/
def itemAt (base : Primitive) (sizes : List Nat) (text : Text) : Check Item :=
  match sizes with
  | [] => do
    let e ← expression symbols text
    if e.type ≠ base then throw (.arrayElement base text e.type)
    return .scalar e
  | _ :: _ => do
    if !text.startsWith '[' then throw (.arrayRow ⟨base, sizes⟩ text)
    let items ← readItems (inside symbols (text.length + 1)) base sizes text (Nat.le_succ _)
    return .row items

end

/-! ### All parts -/

theorem arguments_eq_mapM {function : Name} :
    ∀ (position : Nat) (parameters : List Parameter) (texts : List Text)
      (short : ∀ text ∈ texts, text.length < n),
      arguments (inside symbols n) function position parameters texts short =
        ((parameters.zip texts).zipIdx position).mapM
          fun ((p, text), i) => argumentAt symbols function p i text
  | position, p :: parameters, text :: texts, short => by
    rw [arguments, arguments_eq_mapM (position + 1) parameters texts, List.zip_cons_cons,
      List.zipIdx_cons, List.mapM_cons]
    rfl
  | _, [], _, _ => by rw [arguments.eq_def]; rfl
  | _, _ :: _, [], _ => by rw [arguments.eq_def]; rfl

theorem indices_eq_mapM {array : Binding ArrayType} :
    ∀ (sizes : List Nat) (texts : List Text) (short : ∀ text ∈ texts, text.length < n),
      indices (inside symbols n) array sizes texts short =
        (sizes.zip texts).mapM fun (size, text) => indexAt symbols array size text
  | size :: sizes, text :: texts, short => by
    rw [indices, indices_eq_mapM sizes texts, List.zip_cons_cons, List.mapM_cons]
    rfl
  | [], _, _ => by rw [indices.eq_def]; rfl
  | _ :: _, [], _ => by rw [indices.eq_def]; rfl

theorem readFields_eq_mapM {type : TupleType} :
    ∀ (position : Nat) (types : List Primitive) (texts : List Text)
      (short : ∀ text ∈ texts, text.length < n),
      readFields (inside symbols n) type position types texts short =
        ((types.zip texts).zipIdx position).mapM
          fun ((expected, text), i) => fieldAt symbols type expected i text
  | position, expected :: types, text :: texts, short => by
    rw [readFields, readFields_eq_mapM (position + 1) types texts, List.zip_cons_cons,
      List.zipIdx_cons, List.mapM_cons]
    change (expression symbols text >>= _) = (expression symbols text >>= _) >>= _
    cases expression symbols text with
    | error fault => rfl
    | ok e =>
      change (if _ then _ else _) = (if _ then _ else _) >>= _
      split <;> rfl
  | _, [], _, _ => by rw [readFields.eq_def]; rfl
  | _, _ :: _, [], _ => by rw [readFields.eq_def]; rfl

theorem elements_eq_mapM {base : Primitive} :
    ∀ (texts : List Text) (short : ∀ text ∈ texts, text.length < n),
      elements (inside symbols n) base texts short = texts.mapM (itemAt symbols base [])
  | [], _ => by rw [elements]; rfl
  | text :: texts, short => by
    rw [elements, elements_eq_mapM texts, List.mapM_cons]
    change (expression symbols text >>= _) = (expression symbols text >>= _) >>= _
    cases expression symbols text with
    | error fault => rfl
    | ok e =>
      change (if _ then _ else _) = (if _ then _ else _) >>= _
      split <;> rfl

theorem rows_eq_mapM {base : Primitive} {size : Nat} {sizes : List Nat}
    {readRow : (text : Text) → text.length < n → Check (List Item)}
    (hrow : ∀ text short, readRow text short =
      readItems (inside symbols (text.length + 1)) base (size :: sizes) text (Nat.le_succ _)) :
    ∀ (texts : List Text) (short : ∀ text ∈ texts, text.length < n),
      rows ⟨base, size :: sizes⟩ readRow texts short = texts.mapM (itemAt symbols base (size :: sizes))
  | [], _ => by rw [rows]; rfl
  | text :: texts, short => by
    rw [rows, rows_eq_mapM hrow texts, List.mapM_cons, hrow, itemAt]
    split
    · rfl
    · cases readItems (inside symbols (text.length + 1)) base (size :: sizes) text
        (Nat.le_succ _) <;> rfl

/-- The items of one level are read off the parts between the commas in its brackets. -/
theorem readItems_eq {base : Primitive} :
    ∀ {sizes : List Nat} {n size : Nat} {text : Text} {short : text.length ≤ n},
      readItems (inside symbols n) base (size :: sizes) text short =
        match text.inside? 0 with
        | none => .error (.arrayNotClosed text)
        | some inner =>
          inner.readParts size (.arrayLength ⟨base, size :: sizes⟩ size)
            (·.mapM (itemAt symbols base sizes))
  | [], n, size, text, short => by
    unfold readItems
    split
    · next hnone => rw [hnone]
    · next inner hsome =>
      simp only [hsome, elements_eq_mapM]
      rfl
  | next :: deeper, n, size, text, short => by
    have hrow (part : Text) (hpart : part.length < n) :
        readItems (inside symbols n) base (next :: deeper) part (Nat.le_of_lt hpart) =
          readItems (inside symbols (part.length + 1)) base (next :: deeper) part (Nat.le_succ _) := by
      rw [readItems_eq, readItems_eq]
    unfold readItems
    split
    · next hnone => rw [hnone]
    · next inner hsome =>
      simp only [hsome, rows_eq_mapM hrow]
      rfl

/-! ### What stands in brackets -/

variable {inner : Text}

variable (symbols) in
/-- The call of a declared function with the arguments that a text holds. -/
def callWith (name : Name) (inner : Text) : Check Call := do
  let s ← callee symbols name
  let values ← inner.readParts s.parameters.length (.argumentCount name s.parameters.length) fun texts =>
    ((s.parameters.zip texts).zipIdx 1).mapM fun ((p, text), i) => argumentAt symbols name p i text
  return ⟨s.name, values, s.returns⟩

theorem call_of_inside? {token : Text} {name : Name} (htake : token.takeWhile (· != '(') = name)
    (hinside : token.inside? name.length = some inner) :
    call symbols token = callWith symbols name inner := by
  rw [call, readCall, callWith]
  dsimp only
  split
  · next hnone =>
    rw [htake] at hnone
    cases hnone.symm.trans hinside
  · next found hsome =>
    rw [htake] at hsome
    obtain rfl : inner = found := Option.some.inj (hinside.symm.trans hsome)
    simp only [htake]
    cases callee symbols name with
    | error fault => rfl
    | ok s =>
      change (if _ then _ else _) = (if _ then _ else _) >>= _
      split
      · rfl
      · rw [arguments_eq_mapM]

theorem call_wrap {name : Name} {s : Signature} (hname : Name.isIdentifier name)
    (hlookup : symbols.lookup? name = some (.function s)) (hinner : Closes true [] inner) :
    call symbols (name ++ Bracket.round.wrap inner) =
      (inner.readParts s.parameters.length (.argumentCount name s.parameters.length) fun texts =>
        ((s.parameters.zip texts).zipIdx 1).mapM
          fun ((p, text), i) => argumentAt symbols name p i text).map
        fun values => ⟨s.name, values, s.returns⟩ := by
  have htake : (name ++ Bracket.round.wrap inner).takeWhile (· != '(') = name :=
    takeWhile_name hname (by decide) fun d hd => (Option.some.inj hd).symm
  have hinside : (name ++ Bracket.round.wrap inner).inside? name.length = some inner :=
    Text.inside?_group (not_isQuote_of_isIdentifier hname) hinner .round
  have hcallee : callee symbols name = .ok s := by
    rw [callee, Symbols.resolve_eq_ok_iff.2 hlookup]
    rfl
  rw [call_of_inside? htake hinside, callWith, hcallee]
  exact Check.bind_ok_eq_map _ _

theorem tuple_wrap {type : TupleType} (hinner : Closes true [] inner) :
    aggregate symbols (.tuple type) (Bracket.round.wrap inner) =
      (inner.readParts type.arity (.tupleLength type) fun texts =>
        ((type.fields.zip texts).zipIdx 0).mapM
          fun ((expected, text), i) => fieldAt symbols type expected i text).map
        (.tupleLiteral type) := by
  have htrim : Text.trim (Bracket.round.wrap inner) = Bracket.round.wrap inner :=
    Text.trim_eq_self (by decide) (Text.EndsVisibly.last (by decide) ('(' :: inner))
  have hinside : Text.inside? (Bracket.round.wrap inner).trim 0 = some inner := by
    rw [htrim]
    exact Text.inside?_group (List.forall_mem_nil _) hinner .round
  have hstart : Text.startsWith '(' (Bracket.round.wrap inner).trim := by rw [htrim]; rfl
  rw [aggregate]
  simp only [readAggregate]
  split
  · next found hstart hsome =>
    obtain rfl : inner = found := Option.some.inj (hinside.symm.trans hsome)
    change (if _ then _ else _) = Except.map _ (if _ then _ else _)
    split
    · rfl
    · change (readFields (inside symbols _) type 0 type.fields _ _ >>= _) = _
      rw [readFields_eq_mapM]
      exact Check.bind_ok_eq_map _ _
  · next hnot => exact absurd hinside (hnot inner hstart)

theorem itemAt_wrap {base : Primitive} {size : Nat} {sizes : List Nat}
    (hinner : Closes true [] inner) :
    itemAt symbols base (size :: sizes) (Bracket.square.wrap inner) =
      (inner.readParts size (.arrayLength ⟨base, size :: sizes⟩ size)
        (·.mapM (itemAt symbols base sizes))).map .row := by
  have hinside : (Bracket.square.wrap inner).inside? 0 = some inner :=
    Text.inside?_group (List.forall_mem_nil _) hinner .square
  rw [itemAt, readItems_eq, hinside]
  exact Check.bind_ok_eq_map _ _

theorem array_wrap {type : ArrayType} {size : Nat} {sizes : List Nat}
    (hsizes : type.dimensions = size :: sizes) (hinner : Closes true [] inner) :
    aggregate symbols (.array type) (Bracket.square.wrap inner) =
      (inner.readParts size (.arrayLength type size) (·.mapM (itemAt symbols type.base sizes))).map
        (.arrayLiteral type) := by
  obtain ⟨base, dimensions⟩ := type
  obtain rfl : dimensions = size :: sizes := hsizes
  have htrim : Text.trim (Bracket.square.wrap inner) = Bracket.square.wrap inner :=
    Text.trim_eq_self (by decide) (Text.EndsVisibly.last (by decide) ('[' :: inner))
  have hinside : Text.inside? (Bracket.square.wrap inner).trim 0 = some inner := by
    rw [htrim]
    exact Text.inside?_group (List.forall_mem_nil _) hinner .square
  have hstart : Text.startsWith '[' (Bracket.square.wrap inner).trim := by rw [htrim]; rfl
  rw [aggregate]
  simp only [readAggregate]
  rw [if_pos hstart]
  change (readItems (inside symbols _) base (size :: sizes) _ _).map _ = _
  rw [readItems_eq, hinside]

variable {name : Name} {array : Binding ArrayType} {texts : List Text}

theorem indexing_squareGroups (hname : Name.isIdentifier name)
    (hlookup : symbols.lookup? name = some (.array array))
    (hclosed : ∀ text ∈ texts, Closes true [] text)
    (hlength : texts.length = array.type.dimensions.length) :
    indexing symbols (name ++ Token.squareGroups texts) =
      ((array.type.dimensions.zip texts).mapM
        fun (size, text) => indexAt symbols array size text).map
          fun es => ⟨array.name, es, array.type.base⟩ := by
  obtain ⟨short, heq⟩ := indexing_of_groups hname hlookup hclosed hlength
  rw [heq, indices_eq_mapM]

/-- An indexing that is accepted has an index for each of the dimensions. -/
theorem length_eq_of_indexing {i : Indexing} (hname : Name.isIdentifier name)
    (hlookup : symbols.lookup? name = some (.array array))
    (hclosed : ∀ text ∈ texts, Closes true [] text)
    (h : indexing symbols (name ++ Token.squareGroups texts) = .ok i) :
    texts.length = array.type.dimensions.length := by
  obtain ⟨found, other, htexts, hother, -, -, hreads, hranges⟩ := indexing_eq_ok h
  rw [takeWhile_squareGroups hname] at htexts hother
  cases hlookup.symm.trans hother
  cases (indices?_squareGroups hname hclosed).symm.trans htexts
  exact hreads.length_eq.trans hranges.length_eq.symm

end Expression

end StellaGo
