import StellaGo.Proofs.Offsets.Terms

/-! Whole arrays and tuples by byte offset. Defined here: the readers of array and tuple literals, which
cut a text behind its first byte and before its last, and from them and the readers of terms the
readers for texts of any length. Proved: these come to their end on every text, with what the readers
on characters give. -/

namespace StellaGo.Offsets

open Outcome (bind_eq_ended ended ended_bind ended_ite ended_map ite_eq_ended liftM_some part?)

/-! ### Literals -/

section

variable (symbols : Symbols) (inner : Readers)

def elements (base : Primitive) : (texts : List Text) → Outcome Fault (List Item)
  | [] => return []
  | text :: texts => do
    let e ← inner.expression text
    if e.type ≠ base then throw (.arrayElement base text e.type)
    let items ← elements base texts
    return .scalar e :: items

def rows (row : ArrayType) (readRow : Text → Outcome Fault (List Item)) :
    (texts : List Text) → Outcome Fault (List Item)
  | [] => return []
  | text :: texts => do
    if !Text.startsWith '[' text then throw (.arrayRow row text)
    let items ← readRow text
    let others ← rows row readRow texts
    return .row items :: others

/-- The sizes of a row, if an array of these sizes has rows. -/
def rowSizes? (sizes : List Nat) : Option (Option (List Nat)) :=
  if 1 < sizes.length then (part? sizes 1 sizes.length).map some else some none

def readItems (base : Primitive) :
    (fuel : Nat) → (sizes : List Nat) → (text : Text) → Outcome Fault (List Item)
  | 0, _, _ => (none : Option (List Item))
  | fuel + 1, sizes, text => do
    match ← inside? text 0 with
    | none => throw (.arrayNotClosed text)
    | some inside =>
      let texts ← topLevelParts inside ','
      let size := sizes.headD 0
      if texts.length ≠ size then throw (.arrayLength ⟨base, sizes⟩ size texts.length)
      match ← rowSizes? sizes with
      | some row => rows ⟨base, row⟩ (readItems base fuel row) texts
      | none => elements inner base texts

def readFields (type : TupleType) :
    (position : Nat) → (types : List Primitive) → (texts : List Text) →
      Outcome Fault (List Expression)
  | position, expected :: types, text :: texts => do
    let e ← inner.expression text
    if e.type ≠ expected then throw (.tupleField position type expected e.type)
    let es ← readFields type (position + 1) types texts
    return e :: es
  | _, _, _ => return []

def readWhole (expected : Aggregate) (text : Text) : Outcome Fault Value := do
  match ← scan text with
  | [] => throw (Expression.noValueFault expected)
  | [token] =>
    if Text.endsWith ')' token && token.contains '(' then
      let call ← readCall symbols inner token
      if call.returns = expected.type then return .call call
      else throw (.callReturns expected.type call.name call.returns)
    else
      match expected with
      | .array type => Expression.readArrayName symbols type token
      | .tuple type => Expression.readTupleName symbols type token
  | _ => throw (Expression.operatorsFault text expected)

def readAggregate (expected : Aggregate) (text : Text) : Outcome Fault Value :=
  let trimmed := text.trim
  match expected with
  | .array type =>
    if Text.startsWith '[' trimmed then
      .arrayLiteral type <$>
        readItems inner type.base (type.dimensions.length + 1) type.dimensions trimmed
    else readWhole symbols inner expected trimmed
  | .tuple type => do
    if Text.startsWith '(' trimmed then
      match ← inside? trimmed 0 with
      | none => readWhole symbols inner expected trimmed
      | some inside =>
        let texts ← topLevelParts inside ','
        if texts.length ≠ type.arity then throw (.tupleLength type texts.length)
        let fields ← readFields inner type 0 type.fields texts
        return .tupleLiteral type fields
    else readWhole symbols inner expected trimmed

end

theorem rowSizes?_eq (sizes : List Nat) :
    rowSizes? sizes =
      some (match sizes with
        | _ :: next :: deeper => some (next :: deeper)
        | _ => none) := by
  rcases sizes with _ | ⟨size, _ | ⟨next, deeper⟩⟩
  · rfl
  · rfl
  · have hpart := Outcome.part?_append [size] (next :: deeper) []
    rw [List.append_nil, List.length_singleton, Nat.add_comm] at hpart
    rw [rowSizes?, if_pos (by simp)]
    exact congrArg (Option.map some) hpart

/-- What stands behind a first character of one byte and before the last byte. -/
theorem inside?_zero {c : Char} {text : Text} (hopen : Text.startsWith c text) (hone : c.utf8Size = 1) :
    inside? text 0 = some (text.inside? 0) := by
  cases text with
  | nil => cases hopen
  | cons d rest =>
    have hd : d = c := by simpa [Text.startsWith] using hopen
    refine inside?_byteOffset (List.cons_ne_nil d rest) (i := 0) fun e he => ?_
    obtain rfl := Option.some.inj he
    rw [hd, hone]

section

variable {symbols : Symbols} {inner : Readers} {n : Nat} (hinner : inner.Agree symbols n)
include hinner

theorem elements_eq (base : Primitive) {texts : List Text} (short : ∀ text ∈ texts, text.length < n) :
    elements inner base texts =
      ended (Expression.elements (Expression.inside symbols n) base texts short) := by
  induction texts with
  | nil => rfl
  | cons text texts ih =>
    have hitems := ih fun other h => short other (List.mem_cons_of_mem _ h)
    rw [elements, Expression.elements]
    apply bind_eq_ended (hinner.expression text (short text List.mem_cons_self))
    intro e _
    apply ite_eq_ended (fun _ => rfl)
    intro _
    exact bind_eq_ended hitems fun items _ => rfl

theorem readFields_eq (type : TupleType) (position : Nat) (types : List Primitive) {texts : List Text}
    (short : ∀ text ∈ texts, text.length < n) :
    readFields inner type position types texts =
      ended (Expression.readFields (Expression.inside symbols n) type position types texts short) := by
  induction texts generalizing position types with
  | nil => cases types <;> rfl
  | cons text texts ih =>
    cases types with
    | nil => rfl
    | cons expected types =>
      have hfields := ih (position + 1) types fun other h => short other (List.mem_cons_of_mem _ h)
      rw [readFields, Expression.readFields]
      apply bind_eq_ended (hinner.expression text (short text List.mem_cons_self))
      intro e _
      apply ite_eq_ended (fun _ => rfl)
      intro _
      exact bind_eq_ended hfields fun es _ => rfl

omit hinner in
theorem rows_eq (row : ArrayType) {readRow : Text → Outcome Fault (List Item)}
    {readRow' : (text : Text) → text.length < n → Check (List Item)}
    (hrow : ∀ text (short : text.length < n), Text.startsWith '[' text →
      readRow text = ended (readRow' text short))
    {texts : List Text} (short : ∀ text ∈ texts, text.length < n) :
    rows row readRow texts = ended (Expression.rows row readRow' texts short) := by
  induction texts with
  | nil => rfl
  | cons text texts ih =>
    have hothers := ih fun other h => short other (List.mem_cons_of_mem _ h)
    rw [rows, Expression.rows]
    apply ite_eq_ended (fun _ => rfl)
    intro hopen
    apply bind_eq_ended (hrow text (short text List.mem_cons_self) (by simpa using hopen))
    intro items _
    exact bind_eq_ended hothers fun others _ => rfl

theorem readItems_eq (base : Primitive) {fuel : Nat} {sizes : List Nat} {text : Text}
    (hfuel : sizes.length < fuel) (hopen : Text.startsWith '[' text) (short : text.length ≤ n) :
    readItems inner base fuel sizes text =
      ended (Expression.readItems (Expression.inside symbols n) base sizes text short) := by
  induction fuel generalizing sizes text with
  | zero => exact absurd hfuel (Nat.not_lt_zero _)
  | succ fuel ih =>
    have hinside := inside?_zero hopen rfl
    rw [Expression.readItems]
    split
    · next h =>
      rw [h] at hinside
      rw [readItems, hinside]
      rfl
    · next inside h =>
      rw [h] at hinside
      rw [readItems, hinside]
      simp only [rowSizes?_eq, topLevelParts_eq, liftM_some, pure_bind]
      apply ite_eq_ended (fun _ => rfl)
      intro _
      rcases sizes with _ | ⟨size, _ | ⟨next, deeper⟩⟩
      · exact elements_eq hinner base _
      · exact elements_eq hinner base _
      · exact rows_eq _ (fun part hshort hpart => ih (Nat.lt_of_succ_lt_succ hfuel) hpart
          (Nat.le_of_lt hshort)) _

theorem readWhole_eq (expected : Aggregate) {text : Text} (short : text.length ≤ n) :
    readWhole symbols inner expected text =
      ended (Expression.readWhole symbols (Expression.inside symbols n) expected text short) := by
  rw [readWhole, Expression.readWhole, scan_eq_scanned, bind_map_left, ended_bind]
  refine Outcome.bind_congr_ended fun ⟨tokens, within⟩ hscanned => ?_
  have hscan := Expression.scanned_eq_ok_iff.1 hscanned
  have hne : ∀ token ∈ tokens, token ≠ [] := fun token h =>
    ne_nil_of_shape (Token.shape_of_mem_scanInside hscan token h)
  match tokens, within with
  | [], _ => rfl
  | first :: second :: rest, _ => rfl
  | [token], within =>
    have hcall := readCall_eq hinner (hne token List.mem_cons_self)
      (Nat.le_trans (within token List.mem_cons_self) short)
    apply ite_eq_ended
    · intro _
      apply bind_eq_ended hcall
      intro call _
      exact (ended_ite _ _).symm
    · intro _
      cases expected <;> rfl

theorem readAggregate_eq (expected : Aggregate) {text : Text} (short : text.length ≤ n) :
    readAggregate symbols inner expected text =
      ended (Expression.readAggregate symbols (Expression.inside symbols n) expected text short) := by
  have shorter : text.trim.length ≤ n := Nat.le_trans (Text.length_trim_le text) short
  have hwhole := readWhole_eq hinner expected shorter
  cases expected with
  | array type =>
    rw [readAggregate, Expression.readAggregate]
    refine ite_eq_ended (fun hopen => ?_) fun _ => hwhole
    rw [readItems_eq hinner _ (Nat.lt_succ_self _) hopen shorter, ended_map]
  | tuple type =>
    rw [Expression.readAggregate]
    split
    · next inside hopen h =>
      have hinside := inside?_zero hopen rfl
      rw [h] at hinside
      rw [readAggregate, if_pos hopen, hinside]
      simp only [topLevelParts_eq, liftM_some, pure_bind]
      apply ite_eq_ended (fun _ => rfl)
      intro _
      exact bind_eq_ended (readFields_eq hinner _ _ _ _) fun fields _ => rfl
    · next hother =>
      by_cases hopen : Text.startsWith '(' text.trim
      · have hnone : text.trim.inside? 0 = none := by
          rw [Option.eq_none_iff_forall_ne_some]
          exact fun inside h => hother inside hopen h
        rw [readAggregate, if_pos hopen, inside?_zero hopen rfl, hnone]
        exact hwhole
      · rw [readAggregate, if_neg hopen]
        exact hwhole

end

/-! ### Texts of any length -/

/-- Readers that go at most `fuel` literals, calls and indices deep. -/
def readers (symbols : Symbols) : (fuel : Nat) → Readers
  | 0 => ⟨fun _ => (none : Option Expression), fun _ _ => (none : Option Value)⟩
  | fuel + 1 =>
    let inner := readers symbols fuel
    ⟨readExpression symbols inner, readAggregate symbols inner⟩

def expression (symbols : Symbols) (text : Text) : Outcome Fault Expression :=
  (readers symbols (text.length + 1)).expression text

def aggregate (symbols : Symbols) (expected : Aggregate) (text : Text) : Outcome Fault Value :=
  (readers symbols (text.length + 1)).aggregate expected text

def indexing (symbols : Symbols) (token : Text) : Outcome Fault Indexing :=
  readIndexing symbols (readers symbols token.length) token

theorem agree_readers (symbols : Symbols) (fuel : Nat) : (readers symbols fuel).Agree symbols fuel := by
  induction fuel with
  | zero => exact ⟨fun _ h => absurd h (Nat.not_lt_zero _), fun _ _ h => absurd h (Nat.not_lt_zero _)⟩
  | succ fuel ih =>
    have hinner {n : Nat} (hn : n < fuel + 1) : (readers symbols fuel).Agree symbols n :=
      ⟨fun text h => ih.expression text (by omega), fun type text h => ih.aggregate type text (by omega)⟩
    refine ⟨fun text h => ?_, fun type text h => ?_⟩
    · rw [StellaGo.expression]
      exact readExpression_eq (hinner h) (Nat.le_refl _)
    · rw [StellaGo.aggregate]
      exact readAggregate_eq (hinner h) type (Nat.le_refl _)

theorem expression_eq (symbols : Symbols) (text : Text) :
    expression symbols text = ended (StellaGo.expression symbols text) :=
  (agree_readers symbols _).expression text (Nat.lt_succ_self _)

theorem aggregate_eq (symbols : Symbols) (expected : Aggregate) (text : Text) :
    aggregate symbols expected text = ended (StellaGo.aggregate symbols expected text) :=
  (agree_readers symbols _).aggregate expected text (Nat.lt_succ_self _)

theorem indexing_eq (symbols : Symbols) (token : Text) :
    indexing symbols token = ended (StellaGo.indexing symbols token) :=
  readIndexing_eq (agree_readers symbols _) (Nat.le_refl _)

end StellaGo.Offsets
