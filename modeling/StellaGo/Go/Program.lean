import StellaGo.Go.Expression
import StellaGo.Statement

/-! The Go file for a program, line by line and without indentation: the package, the import if
something is printed, the types that carry tuples, and the functions. -/

namespace StellaGo.Go

/-! ### Statements -/

def builtin : Builtin → String
  | .print => "fmt.Print"
  | .println => "fmt.Println"
  | .panic => "panic"

def target : Target → Text
  | .whole name => name
  | .element e => indexing e

def clauseHeader : ClauseHeader → Text
  | .ifTrue condition => "if ".toList ++ expression condition ++ [' ', '{']
  | .elseIf condition => '}' :: " else if ".toList ++ expression condition ++ [' ', '{']
  | .otherwise => '}' :: " else ".toList ++ ['{']

def parameter (p : Parameter) : Text := p.name ++ ' ' :: p.type.goName

def functionHeader (s : Signature) : Text :=
  let returns := if s.returns.isIO then [] else ' ' :: s.returns.goName
  "func ".toList ++ s.name ++ '(' :: commas (s.parameters.map parameter) ++ ')' :: returns ++
    [' ', '{']

mutual

/-- The lines of a statement. -/
def statement : Statement → List Text
  | .declaration name type v =>
    ["var ".toList ++ name ++ ' ' :: type.goName ++ " = ".toList ++ value v]
  | .assignment t v => [target t ++ " = ".toList ++ value v]
  | .selection cs => clauses cs
  | .loop condition ⟨_, _, _, body⟩ =>
    ("for ".toList ++ expression condition ++ [' ', '{']) :: statements body
  | .jump jump => [jump.keyword.toList]
  | .function s ⟨_, _, _, body⟩ => functionHeader s :: statements body
  | .builtin callee argument => [(builtin callee).toList ++ '(' :: expression argument ++ [')']]
  | .result v => ["return ".toList ++ value v]
  | .closer => [['}']]

def clauses : List (Clause Statement) → List Text
  | [] => []
  | ⟨header, ⟨_, _, _, body⟩⟩ :: rest => clauseHeader header :: statements body ++ clauses rest

def statements : List Statement → List Text
  | [] => []
  | s :: rest => statement s ++ statements rest

end

/-! ### Files -/

/-- The generic type that carries tuples of `arity` fields. -/
def carrier (arity : Nat) : List Text :=
  let positions := (List.range arity).map Text.ofNat
  let parameters := positions.map fun i => 'T' :: i ++ " any".toList
  ("type ".toList ++ carrierName arity ++ '[' :: commas parameters ++
      ("] struct ".toList ++ ['{'])) ::
    positions.map (fun i => 'v' :: i ++ " T".toList ++ i) ++ [['}']]

def importLines (r : Requirements) : List Text :=
  if r.imports = [] then []
  else r.imports.map (fun name => "import \"".toList ++ name.toList ++ ['"']) ++ [[]]

/-- The lines of the file, with a blank line between functions. -/
def fileLines (p : Program) : List Text :=
  ["package main".toList, []] ++ importLines p.requirements ++
    p.requirements.arities.flatMap (fun arity => carrier arity ++ [[]]) ++
    List.intercalate [[]] (p.body.statements.map statement)

/-- The text of the file. -/
def file (p : Program) : Text := Text.unlines (fileLines p)

end StellaGo.Go
