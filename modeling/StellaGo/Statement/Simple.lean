import StellaGo.Expression
import StellaGo.Statement
import StellaGo.Statement.Header

/-! Statements of one line: declarations, assignments, jumps, calls with `!`, and the result of a
function. Each is read from its trimmed line in the scope that it stands in. -/

namespace StellaGo.Statement

/-! ### Declarations -/

/-- The value that a declaration or an assignment of the given type takes. -/
def readValue (symbols : Symbols) (what : Text) (type : ValueType) (text : Text) : Check Value :=
  match type with
  | .primitive type => (Expression.ofType symbols type what text).map .scalar
  | .array type => aggregate symbols (.array type) text
  | .tuple type => aggregate symbols (.tuple type) text

def readDeclaration (f : Frame) (line : Text) : Check (Statement × Frame) :=
  match LetHeader.read? line with
  | none => .error (.malformedLet line)
  | some header => do
    if header.value.trim = [] then throw (.letWithoutValue header.name)
    if let some problem := Name.problem? header.name then throw (.badName problem)
    f.scope.symbols.ensureFree header.name
    let (type, requirements) := f.requirements.readType header.type
    let type ← type
    if type.isIO then throw .ioLet
    let what := '`' :: header.name ++ ['`']
    let value ← readValue f.scope.symbols what type header.value
    let after ← { f with requirements }.declare (.ofType header.name header.isMutable type)
    return (.declaration header.name type value, after)

/-! ### Assignments -/

def readElementAssignment (symbols : Symbols) (target value : Text) : Check Statement := do
  let element ← indexing symbols target
  if !(symbols.array? element.name).any (·.isMutable) then throw (.immutable element.name)
  let what := "an element of `".toList ++ element.name ++ ['`']
  let e ← Expression.ofType symbols element.type what value
  return .assignment (.element element) (.scalar e)

/-- What is known of a binding that a whole value is assigned to. -/
def targetBinding (symbols : Symbols) (target : Name) : Check (Binding ValueType) := do
  match ← symbols.resolve target with
  | .scalar b => return ⟨b.name, .primitive b.type, b.isMutable⟩
  | .array b => return ⟨b.name, .array b.type, b.isMutable⟩
  | .tuple b => return ⟨b.name, .tuple b.type, b.isMutable⟩
  | .function signature => throw (.functionTarget signature.name)

def readWholeAssignment (symbols : Symbols) (target value : Text) : Check Statement := do
  if Name.problem? target ≠ none then throw (.badTarget target)
  let b ← targetBinding symbols target
  if !b.isMutable then throw (.immutable b.name)
  let v ← readValue symbols ('`' :: b.name ++ ['`']) b.type value
  return .assignment (.whole b.name) v

def readAssignment (symbols : Symbols) (line : Text) : Check Statement :=
  match line.assignmentAt? with
  | none => .error (.notAssignment line)
  | some equals =>
    let target := Text.trim (line.take equals)
    let value := Text.trim (line.drop (equals + 1))
    if target = [] ∨ value = [] then .error (.halfAssignment line)
    else if target.contains '[' then readElementAssignment symbols target value
    else readWholeAssignment symbols target value

/-! ### Jumps, calls with `!`, results -/

def readJump (scope : Scope) (jump : Jump) (line : Text) : Check Statement :=
  if line ≠ jump.keyword.toList then .error (.jumpOperands jump.keyword line)
  else if !scope.insideLoop then .error (.jumpOutside jump.keyword)
  else .ok (.jump jump)

/-- A message is a string; anything may be printed. -/
def checkArgument (callee : Builtin) (argument : Expression) : Check Unit :=
  if callee = .panic ∧ argument.type ≠ .string then .error (.panicMessage argument.type) else .ok ()

def readBuiltin (f : Frame) (line : Text) : Check (Statement × Frame) :=
  match Name.read? line with
  | some (name, '!' :: rest) => do
    let some callee := Builtin.ofName? name | throw (.unknownBuiltin name)
    if rest.head? ≠ some '(' then throw (.builtinBrackets name)
    let some inside := Text.inside? rest 0 | throw (.builtinBrackets name)
    if inside.trim = [] then throw (.builtinArgument name)
    let argument ← expression f.scope.symbols inside.trim
    checkArgument callee argument
    let requirements := if callee = .panic then f.requirements else f.requirements.addFmt
    return (.builtin callee argument, { f with requirements })
  | _ => .error (.notBuiltin line)

/-- The value of a function whose body this scope is. -/
def readResult (scope : Scope) (line : Text) : Check Statement := do
  match scope.returns? with
  | none => throw (.returnOutside line)
  | some (.primitive .io) => throw (.returnFromIO line)
  | some (.primitive type) =>
    let e ← expression scope.symbols line
    if e.type = type then return .result (.scalar e) else throw (.returnType type e.type)
  | some (.array type) =>
    return .result (← (aggregate scope.symbols (.array type) line).mapError .inReturn)
  | some (.tuple type) =>
    return .result (← (aggregate scope.symbols (.tuple type) line).mapError .inReturn)

/-! ### Conditions -/

def readCondition (symbols : Symbols) (text : Text) : Check Expression := do
  let e ← expression symbols text
  if e.type = .bool then return e else throw (.notBool text e.type)

end StellaGo.Statement
