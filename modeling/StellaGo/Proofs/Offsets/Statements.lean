import StellaGo.Program
import StellaGo.Proofs.BracketKinds
import StellaGo.Proofs.Offsets.Values

/-! Lines by byte offset. Defined here: the kind of a line, and the readers of statements of one line
and of the headers of functions, which cut a line at the offsets of a lone `=`, of round brackets and
of the last byte. Proved: they come to their end on every line, with what the readers on characters
give. -/

namespace StellaGo.Offsets

open Outcome (adapt_ended bind_eq_ended ended ended_bind ended_map ended_pure ite_eq_ended liftM_eq_ended
  liftM_some)

/-! ### Declarations and assignments -/

def ofType (symbols : Symbols) (expected : Primitive) (what text : Text) : Outcome Fault Expression := do
  let e ← expression symbols text
  if e.type = expected then return e else throw (.wrongType what expected e.type)

def readTyped (symbols : Symbols) (what : Text) (type : ValueType) (text : Text) : Outcome Fault Value :=
  match type with
  | .primitive type => .scalar <$> ofType symbols type what text
  | .array type => aggregate symbols (.array type) text
  | .tuple type => aggregate symbols (.tuple type) text

def readDeclaration (f : Frame) (line : Text) : Outcome Fault (Statement × Frame) :=
  match LetHeader.read? line with
  | none => throw (.malformedLet line)
  | some header => do
    if header.value.trim = [] then throw (.letWithoutValue header.name)
    if let some problem := Name.problem? header.name then throw (.badName problem)
    f.scope.symbols.ensureFree header.name
    let (type, requirements) := f.requirements.readType header.type
    let type ← type
    if type.isIO then throw .ioLet
    let what := '`' :: header.name ++ ['`']
    let value ← readTyped f.scope.symbols what type header.value
    let after ← { f with requirements }.declare (.ofType header.name header.isMutable type)
    return (.declaration header.name type value, after)

def readElementAssignment (symbols : Symbols) (target value : Text) : Outcome Fault Statement := do
  let element ← indexing symbols target
  if !(symbols.array? element.name).any (·.isMutable) then throw (.immutable element.name)
  let what := "an element of `".toList ++ element.name ++ ['`']
  let e ← ofType symbols element.type what value
  return .assignment (.element element) (.scalar e)

def readWholeAssignment (symbols : Symbols) (target value : Text) : Outcome Fault Statement := do
  if Name.problem? target ≠ none then throw (.badTarget target)
  let b ← Statement.targetBinding symbols target
  if !b.isMutable then throw (.immutable b.name)
  let v ← readTyped symbols ('`' :: b.name ++ ['`']) b.type value
  return .assignment (.whole b.name) v

/-- `target = value`, cut at the offset of the lone `=`. -/
def readAssignment (symbols : Symbols) (line : Text) : Outcome Fault Statement := do
  match ← assignmentAt? line with
  | none => throw (.notAssignment line)
  | some equals =>
    let target ← line.slice? 0 equals
    let value ← line.sliceFrom? (equals + 1)
    if target.trim = [] ∨ value.trim = [] then throw (.halfAssignment line)
    else if target.trim.contains '[' then readElementAssignment symbols target.trim value.trim
    else readWholeAssignment symbols target.trim value.trim

theorem ofType_eq (symbols : Symbols) (expected : Primitive) (what text : Text) :
    ofType symbols expected what text = ended (Expression.ofType symbols expected what text) := by
  apply bind_eq_ended (expression_eq symbols text)
  intro e _
  exact ite_eq_ended (fun _ => rfl) fun _ => rfl

theorem readTyped_eq (symbols : Symbols) (what : Text) (type : ValueType) (text : Text) :
    readTyped symbols what type text = ended (Statement.readValue symbols what type text) := by
  cases type with
  | primitive type => rw [readTyped, ofType_eq, Statement.readValue, ended_map]
  | array type => exact aggregate_eq symbols _ text
  | tuple type => exact aggregate_eq symbols _ text

theorem readDeclaration_eq (f : Frame) (line : Text) :
    readDeclaration f line = ended (Statement.readDeclaration f line) := by
  rw [readDeclaration, Statement.readDeclaration]
  cases LetHeader.read? line with
  | none => rfl
  | some header =>
    dsimp only
    apply ite_eq_ended (fun _ => rfl)
    intro _
    cases Name.problem? header.name with
    | some problem => rfl
    | none =>
      apply bind_eq_ended rfl
      intro _ _
      apply bind_eq_ended rfl
      intro type _
      apply ite_eq_ended (fun _ => rfl)
      intro _
      apply bind_eq_ended (readTyped_eq _ _ _ _)
      intro value _
      exact bind_eq_ended rfl fun after _ => rfl

theorem readElementAssignment_eq (symbols : Symbols) (target value : Text) :
    readElementAssignment symbols target value =
      ended (Statement.readElementAssignment symbols target value) := by
  apply bind_eq_ended (indexing_eq symbols target)
  intro element _
  apply ite_eq_ended (fun _ => rfl)
  intro _
  exact bind_eq_ended (ofType_eq _ _ _ _) fun e _ => rfl

theorem readWholeAssignment_eq (symbols : Symbols) (target value : Text) :
    readWholeAssignment symbols target value =
      ended (Statement.readWholeAssignment symbols target value) := by
  apply ite_eq_ended (fun _ => rfl)
  intro _
  apply bind_eq_ended rfl
  intro b _
  apply ite_eq_ended (fun _ => rfl)
  intro _
  exact bind_eq_ended (readTyped_eq _ _ _ _) fun v _ => rfl

theorem readAssignment_eq (symbols : Symbols) (line : Text) :
    readAssignment symbols line = ended (Statement.readAssignment symbols line) := by
  rw [readAssignment, Statement.readAssignment, assignmentAt?_eq]
  cases hequals : line.assignmentAt? with
  | none => rfl
  | some equals =>
    have hsign : line.byteOffset (equals + 1) = line.byteOffset equals + 1 :=
      Text.byteOffset_succ (Text.getElem?_of_assignmentAt? hequals)
    have htarget := Text.slice?_byteOffset line (Nat.zero_le equals)
    have hvalue := Text.sliceFrom?_byteOffset line (equals + 1)
    rw [Text.byteOffset_zero, List.drop_zero] at htarget
    rw [hsign] at hvalue
    rw [Option.map_some, liftM_some, pure_bind]
    dsimp only
    rw [htarget, hvalue, liftM_some, liftM_some, pure_bind, pure_bind]
    apply ite_eq_ended (fun _ => rfl)
    intro _
    exact ite_eq_ended (fun _ => readElementAssignment_eq _ _ _) fun _ => readWholeAssignment_eq _ _ _

/-! ### Calls with an exclamation mark, results, conditions -/

/-- `name!(argument)`, cut behind the first byte and before the last. -/
def readBuiltin (f : Frame) (line : Text) : Outcome Fault (Statement × Frame) :=
  match Name.read? line with
  | some (name, '!' :: rest) => do
    let some callee := Builtin.ofName? name | throw (.unknownBuiltin name)
    if rest.head? ≠ some '(' then throw (.builtinBrackets name)
    let some inside ← inside? rest 0 | throw (.builtinBrackets name)
    if inside.trim = [] then throw (.builtinArgument name)
    let argument ← expression f.scope.symbols inside.trim
    Statement.checkArgument callee argument
    let requirements := if callee = .panic then f.requirements else f.requirements.addFmt
    return (.builtin callee argument, { f with requirements })
  | _ => throw (.notBuiltin line)

def readResult (scope : Scope) (line : Text) : Outcome Fault Statement := do
  match scope.returns? with
  | none => throw (.returnOutside line)
  | some (.primitive .io) => throw (.returnFromIO line)
  | some (.primitive type) =>
    let e ← expression scope.symbols line
    if e.type = type then return .result (.scalar e) else throw (.returnType type e.type)
  | some (.array type) =>
    return .result (← (aggregate scope.symbols (.array type) line).adapt .inReturn)
  | some (.tuple type) =>
    return .result (← (aggregate scope.symbols (.tuple type) line).adapt .inReturn)

def readCondition (symbols : Symbols) (text : Text) : Outcome Fault Expression := do
  let e ← expression symbols text
  if e.type = .bool then return e else throw (.notBool text e.type)

theorem readBuiltin_eq (f : Frame) (line : Text) :
    readBuiltin f line = ended (Statement.readBuiltin f line) := by
  unfold Statement.readBuiltin
  split
  · next name rest hname =>
    simp only [readBuiltin, hname]
    cases Builtin.ofName? name with
    | none => rfl
    | some callee =>
      apply ite_eq_ended (fun _ => rfl)
      intro hround
      have hopen : Text.startsWith '(' rest := by simpa [Text.startsWith] using hround
      rw [inside?_zero hopen rfl, liftM_some, pure_bind]
      cases Text.inside? rest 0 with
      | none => rfl
      | some inside =>
        apply ite_eq_ended (fun _ => rfl)
        intro _
        apply bind_eq_ended (expression_eq _ _)
        intro argument _
        exact bind_eq_ended rfl fun _ _ => rfl
  · next hother =>
    unfold readBuiltin
    split
    · next name rest hname => exact absurd hname (hother name rest)
    · rfl

theorem readResult_eq (scope : Scope) (line : Text) :
    readResult scope line = ended (Statement.readResult scope line) := by
  rw [readResult, Statement.readResult]
  cases scope.returns? with
  | none => rfl
  | some returns =>
    cases returns with
    | primitive type =>
      cases type with
      | io => rfl
      | int | float | bool | byte | string =>
        apply bind_eq_ended (expression_eq _ _)
        intro e _
        exact ite_eq_ended (fun _ => rfl) fun _ => rfl
    | array type | tuple type =>
      dsimp only
      rw [aggregate_eq, adapt_ended]
      exact bind_eq_ended rfl fun value _ => rfl

theorem readCondition_eq (symbols : Symbols) (text : Text) :
    readCondition symbols text = ended (Statement.readCondition symbols text) := by
  apply bind_eq_ended (expression_eq symbols text)
  intro e _
  exact ite_eq_ended (fun _ => rfl) fun _ => rfl

/-! ### Headers of functions -/

/-- The parts of a header whose brackets and what follows them are `rest`, cut at the round bracket that
closes the first one. -/
def headerBehind (name rest : Text) : Option (Option FunctionHeader) :=
  match closerFrom? rest 0 with
  | none => some none
  | some close => do
    let behind ← rest.sliceFrom? (close + 1)
    match FunctionHeader.readReturns? behind with
    | none => return none
    | some returns =>
      let parameters ← rest.slice? 1 close
      return some ⟨name, parameters, returns⟩

def readHeader (line : Text) : Option (Option FunctionHeader) :=
  match (line.after? "function").bind Text.afterSpaces? with
  | none => some none
  | some rest =>
    let inName := fun c : Char => c != '(' && !isBlank c
    let name := rest.takeWhile inName
    let rest := Text.trimStart (rest.dropWhile inName)
    if name = [] ∨ rest.head? ≠ some '(' then some none else headerBehind name rest

theorem headerBehind_eq (name : Text) {rest : Text} (hopen : rest.head? = some '(') :
    headerBehind name rest = some do
      let close ← Text.closerFrom? rest 0
      let returns ← FunctionHeader.readReturns? (rest.drop (close + 1))
      return ⟨name, (rest.take close).tail, returns⟩ := by
  have hcloser := closerFrom?_byteOffset rest 0
  rw [Text.byteOffset_zero] at hcloser
  rw [headerBehind, hcloser]
  cases hclose : rest.closerFrom? 0 with
  | none => rfl
  | some close =>
    have hone : rest.byteOffset 1 = 1 := by
      rw [Text.byteOffset_succ (c := '(') (by rwa [← List.head?_eq_getElem?])]
      rfl
    have hpart := Text.slice?_byteOffset rest (i := 1) (lt_of_closerFrom? hclose)
    rw [hone, List.drop_one] at hpart
    simp only [Option.map_some, Option.bind_eq_bind, Option.bind_some,
      ← byteOffset_succ_of_closerFrom? hclose, Text.sliceFrom?_byteOffset, hpart]
    cases FunctionHeader.readReturns? (rest.drop (close + 1)) <;> rfl

theorem readHeader_eq (line : Text) : readHeader line = some (FunctionHeader.read? line) := by
  rw [readHeader, FunctionHeader.read?]
  cases hkeyword : line.after? "function" with
  | none => rfl
  | some behind =>
    cases hspaces : Text.afterSpaces? behind with
    | none => simp [hspaces]
    | some rest =>
      simp only [Option.bind_eq_bind, Option.bind_some, hspaces]
      by_cases hround : rest.takeWhile (fun c => c != '(' && !isBlank c) = [] ∨
          (Text.trimStart (rest.dropWhile fun c => c != '(' && !isBlank c)).head? ≠ some '('
      · rw [if_pos hround, if_pos hround]
      · rw [if_neg hround, if_neg hround]
        exact headerBehind_eq _ (by simpa using (not_or.1 hround).2)

def readSignature (f : Frame) (line : Text) : Outcome Fault (Signature × Requirements) := do
  match ← readHeader line with
  | none => throw (.malformedHeader line)
  | some header =>
    if let some problem := Name.problem? header.name then throw (.badName problem)
    f.scope.symbols.ensureFree header.name
    let texts ← topLevelParts header.parameters ','
    let (parameters, r) ← Program.readParameters f.requirements [] texts
    let (returns, r) := r.readType header.returns
    let returns ← (returns.mapError .inHeader : Check ValueType)
    let signature : Signature := ⟨header.name, parameters, returns⟩
    Program.checkSignature signature
    return (signature, r)

theorem readSignature_eq (f : Frame) (line : Text) :
    readSignature f line = ended (Program.readSignature f line) := by
  rw [readSignature, Program.readSignature, readHeader_eq, liftM_some, pure_bind]
  cases FunctionHeader.read? line with
  | none => rfl
  | some header =>
    dsimp only
    cases Name.problem? header.name with
    | some problem => rfl
    | none =>
      simp only [topLevelParts_eq, liftM_some, pure_bind, liftM_eq_ended, ended_bind, ended_pure]

/-! ### Kinds of lines -/

/-- What a line holds. A lone `=` is looked for where no word and no bracket tells. -/
def lineKind (line : Text) : Option LineKind :=
  let t := line.trim
  if t = [] then some .blank
  else if t.startsWithWord "function" then some .function
  else if t.startsWithWord "let" then some .declaration
  else if t.startsWithWord "if" then some .selection
  else if t.startsWithWord "else" then some .otherwise
  else if t.startsWithWord "loop" then some .loop
  else if t.startsWithWord "break" then some (.jump .break)
  else if t.startsWithWord "continue" then some (.jump .continue)
  else if t.startsWith '}' then some .closer
  else if isBuiltinCall t then some .builtin
  else do
    let equals? ← assignmentAt? t
    return if equals?.isSome then .assignment else .result

theorem lineKind_eq (line : Text) : lineKind line = some line.lineKind := by
  rw [lineKind, Text.lineKind]
  simp only [assignmentAt?_eq, Option.bind_eq_bind, Option.bind_some, Option.isSome_map,
    Option.pure_def, apply_ite some]

end StellaGo.Offsets
