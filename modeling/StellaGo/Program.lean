import StellaGo.Block
import StellaGo.Statement.Simple

/-! Reading a file: its lines become the functions of a program. A block is read in the lines from
its header to the line that closes it, in a scope of its own. Each of the readers below takes the
reader for the fewer lines behind its own, and `readLines` puts them together. -/

namespace StellaGo.Program

/-- Reads the first `count` of fewer than `n` lines in the scope of a frame; the other lines are
there to find the ends of blocks. -/
abbrev InnerReader (n : Nat) :=
  (lines : List Line) → lines.length < n → (count : Nat) → Frame →
    Compile (List Statement × Frame)

/-- What was read: statements, how many lines after the first they took, and what is known now. -/
structure Item where
  statements : List Statement
  used : Nat
  frame : Frame

variable {n : Nat} (inner : InnerReader n)

/-! ### Blocks -/

/-- A block: its statements, what is known at its end, and the line that closes it, which is the line
of index `index` behind the header. -/
structure Block where
  statements : List Statement
  frame : Frame
  index : Nat
  close : Line

/-- Reads the block whose header is the line before `rest`, in the scope `body`. -/
def readBlock (header : Line) (rest : List Line) (short : rest.length < n) (body : Frame) :
    Compile { block : Block // block.index < rest.length } :=
  match h : StellaGo.Block.closingLine 1 (rest.map Line.text) with
  | none => .error ⟨header.number, .unclosedBlock⟩
  | some index =>
    have within : index < rest.length := by
      simpa using StellaGo.Block.closingLine_lt_length h
    let close := rest[index]
    if !close.text.startsWith '}' then .error ⟨close.number, .closerInside⟩
    else do
      let (statements, frame) ← inner rest short index body
      return ⟨⟨statements, frame, index, close⟩, within⟩

/-- What follows the `}` on a closing line. -/
def afterCloser (close : Line) : Text := Text.trim close.text.tail

def expectPlainClose (close : Line) : Check Unit :=
  let rest := afterCloser close
  if rest = [] then .ok ()
  else if rest.startsWithWord "else" then .error .elseWithoutIf
  else .error (.afterBlock rest)

/-! ### Selections and loops -/

/-- The header of the next clause, which follows the `}` of a clause on its line. -/
def readNextHeader (symbols : Symbols) (isLast : Bool) (rest : Text) : Check ClauseHeader :=
  match rest.after? "else" with
  | none => .error (.afterBlock rest)
  | some continuation =>
    let next := continuation.trim
    if !rest.startsWithWord "else" then .error (.afterBlock rest)
    else if isLast then .error .elseAfterElse
    else if next = ['{'] then .ok .otherwise
    else if next.startsWithWord "if" then
      match next.betweenKeywordAndBrace? "if" with
      | none => .error (.malformedElseIf rest)
      | some condition => (Statement.readCondition symbols condition).map .elseIf
    else .error (.elseCondition rest)

def isOtherwise : ClauseHeader → Bool
  | .otherwise => true
  | _ => false

/-- The clauses of a selection from the one on whose header line `line` is, with the number of lines
they take behind it. Only the last clause holds the closing of its block. -/
def readClauses (f : Frame) (header : ClauseHeader) (line : Line) (rest : List Line)
    (short : rest.length < n) : Compile (List (Clause Statement) × Nat × Requirements) := do
  let ⟨block, within⟩ ← readBlock inner line rest short (f.enter .selection)
  let known := f.leave block.frame
  let following := afterCloser block.close
  if following = [] then
    let body := block.frame.body (block.statements ++ [.closer])
    return ([⟨header, body⟩], block.index + 1, known.requirements)
  else
    let next ← (readNextHeader f.scope.symbols (isOtherwise header) following).onLine
      block.close.number
    let body := block.frame.body block.statements
    let (clauses, used, requirements) ← readClauses known next block.close
      (rest.drop (block.index + 1)) (by rw [List.length_drop]; omega)
    return (⟨header, body⟩ :: clauses, block.index + 1 + used, requirements)
termination_by rest.length
decreasing_by rw [List.length_drop]; omega

def readSelection (f : Frame) (line : Line) (rest : List Line) (short : rest.length < n) :
    Compile Item :=
  match line.text.betweenKeywordAndBrace? "if" with
  | none => .error ⟨line.number, .malformedIf line.text⟩
  | some text => do
    let condition ← (Statement.readCondition f.scope.symbols text).onLine line.number
    let (clauses, used, requirements) ← readClauses inner f (.ifTrue condition) line rest short
    return ⟨[.selection clauses], used, { f with requirements }⟩

def readLoop (f : Frame) (line : Line) (rest : List Line) (short : rest.length < n) :
    Compile Item :=
  match line.text.betweenKeywordAndBrace? "loop" with
  | none => .error ⟨line.number, .malformedLoop line.text⟩
  | some text => do
    let condition ← (Statement.readCondition f.scope.symbols text).onLine line.number
    let ⟨block, _⟩ ← readBlock inner line rest short (f.enter .loop)
    (expectPlainClose block.close).onLine block.close.number
    if !Statement.anyBreaks block.statements then throw ⟨line.number, .endlessLoop⟩
    let body := block.frame.body (block.statements ++ [.closer])
    return ⟨[.loop condition body], block.index + 1, f.leave block.frame⟩

/-! ### Functions -/

/-- A parameter, `name: type`, after those of the names `earlier`. -/
def readParameter (r : Requirements) (earlier : List Name) (text : Text) :
    Check (Parameter × Requirements) :=
  match text.cut? ':' with
  | none => .error (.untypedParameter text)
  | some (name, type) => do
    let name := name.trim
    if let some problem := Name.problem? name then throw (.badName problem)
    if earlier.contains name then throw (.repeatedParameter name)
    let (type, requirements) := r.readType type
    let type ← type.mapError .inHeader
    if type.isIO then throw (.ioParameter name)
    return (⟨name, type⟩, requirements)

def readParameters (r : Requirements) (earlier : List Name) :
    List Text → Check (List Parameter × Requirements)
  | [] => .ok ([], r)
  | text :: texts => do
    let (parameter, r) ← readParameter r earlier text
    let (parameters, r) ← readParameters r (parameter.name :: earlier) texts
    return (parameter :: parameters, r)

/-- `main` alone returns `IO`, and takes no parameters. -/
def checkSignature (s : Signature) : Check Unit :=
  if s.name = "main".toList then
    if !s.returns.isIO then .error .mainReturns
    else if s.parameters ≠ [] then .error .mainParameters
    else .ok ()
  else if s.returns.isIO then .error (.ioReturns s.name)
  else .ok ()

/-- The signature on a header line. -/
def readSignature (f : Frame) (line : Text) : Check (Signature × Requirements) :=
  match FunctionHeader.read? line with
  | none => .error (.malformedHeader line)
  | some header => do
    if let some problem := Name.problem? header.name then throw (.badName problem)
    f.scope.symbols.ensureFree header.name
    let (parameters, r) ← readParameters f.requirements [] (header.parameters.topLevelParts ',')
    let (returns, r) := r.readType header.returns
    let signature : Signature := ⟨header.name, parameters, ← returns.mapError .inHeader⟩
    checkSignature signature
    return (signature, r)

def declareParameters (f : Frame) : List Parameter → Check Frame
  | [] => .ok f
  | p :: rest => do declareParameters (← f.declare p.descriptor) rest

/-- The scope of a function's body, in which the function and its parameters are known. -/
def enterFunction (f : Frame) (s : Signature) : Check Frame := do
  let body := f.enter .function
  let body := { body with scope := { body.scope with returns? := some s.returns } }
  declareParameters (← body.declare (.function s)) s.parameters

def readFunction (f : Frame) (line : Line) (rest : List Line) (short : rest.length < n) :
    Compile Item := do
  let (signature, requirements) ← (readSignature f line.text).onLine line.number
  let f := { f with requirements }
  let body ← (enterFunction f signature).onLine line.number
  let ⟨block, _⟩ ← readBlock inner line rest short body
  (expectPlainClose block.close).onLine block.close.number
  if !signature.returns.isIO && !block.statements.getLast?.any (·.isResult) then
    throw ⟨block.close.number, .noReturn signature.name signature.returns⟩
  let after ← ((f.leave block.frame).declare (.function signature)).onLine line.number
  let body := block.frame.body (block.statements ++ [.closer])
  return ⟨[.function signature body], block.index + 1, after⟩

/-! ### Lines -/

/-- Only functions stand in a file, and they stand nowhere else. -/
def checkPlace (kind : LineKind) (scope : ScopeKind) (text : Text) : Check Unit :=
  if scope = .global then
    if kind ∈ [.blank, .function, .closer] then .ok () else .error (.topLevel text)
  else if kind = .function then .error .nestedFunction
  else .ok ()

/-- A result ends its block: of the other lines in it, none holds anything. -/
def checkNothingFollows (rest : List Line) : Compile Unit :=
  match rest.find? (·.text != []) with
  | some line => .error ⟨line.number, .deadCode⟩
  | none => .ok ()

/-- What starts on a line, of which `count` lines of the same block follow. -/
def readItem (f : Frame) (line : Line) (rest : List Line) (short : rest.length < n) (count : Nat) :
    Compile Item := do
  let kind := line.text.lineKind
  (checkPlace kind f.scope.kind line.text).onLine line.number
  match kind with
  | .blank => return ⟨[], 0, f⟩
  | .function => readFunction inner f line rest short
  | .selection => readSelection inner f line rest short
  | .loop => readLoop inner f line rest short
  | .jump jump =>
    let statement ← (Statement.readJump f.scope jump line.text).onLine line.number
    return ⟨[statement], 0, f⟩
  | .declaration =>
    let (statement, after) ← (Statement.readDeclaration f line.text).onLine line.number
    return ⟨[statement], 0, after⟩
  | .assignment =>
    let statement ← (Statement.readAssignment f.scope.symbols line.text).onLine line.number
    return ⟨[statement], 0, f⟩
  | .builtin =>
    let (statement, after) ← (Statement.readBuiltin f line.text).onLine line.number
    return ⟨[statement], 0, after⟩
  | .result =>
    let statement ← (Statement.readResult f.scope line.text).onLine line.number
    checkNothingFollows (rest.take count)
    return ⟨[statement], count, f⟩
  | .otherwise => throw ⟨line.number, .elseOnOwnLine⟩
  | .closer => throw ⟨line.number, .strayBlockEnd⟩

end Program

/-- Reads the first `count` lines in the scope of a frame. -/
def Program.readLines (f : Frame) (lines : List Line) (count : Nat) :
    Compile (List Statement × Frame) :=
  match lines, count with
  | [], _ => .ok ([], f)
  | _ :: _, 0 => .ok ([], f)
  | line :: rest, count + 1 => do
    let item ← readItem (fun lines _short count f => readLines f lines count) f line rest
      (Nat.lt_succ_self _) count
    let (statements, after) ← readLines item.frame (rest.drop item.used) (count - item.used)
    return (item.statements ++ statements, after)
termination_by lines.length
decreasing_by
  all_goals simp only [List.length_cons, List.length_drop] at *
  all_goals omega

/-- The program that a source without comments spells. -/
def Program.read (source : Text) : Compile Program := do
  let lines := source.numberedLines
  let (statements, f) ← readLines ⟨.global, .empty⟩ lines lines.length
  if f.scope.symbols.function? "main".toList = none then
    throw ⟨max 1 lines.length, .noMain⟩
  return ⟨f.body statements, f.requirements⟩

end StellaGo
