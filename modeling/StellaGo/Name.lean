import StellaGo.Text

/-! Names. Defined here: what a name can stand for, the identifier at the start of a text, the words
that no declaration may take, and what makes a text unfit to be a name. -/

namespace StellaGo

/-- The name of a variable, an array, a tuple, a function or a parameter. -/
abbrev Name := Text

namespace Name

/-- What a declared name stands for. -/
inductive Kind where
  | scalar | array | tuple | function
  deriving DecidableEq, Repr

def Kind.noun : Kind → String
  | scalar => "variable"
  | array => "array"
  | tuple => "tuple"
  | function => "function"

/-- A letter, and then letters, digits and `_`; with what follows. All are ASCII. -/
def read? : Text → Option (Name × Text)
  | [] => none
  | c :: rest =>
    if c.isAlpha then
      let inName := fun d : Char => d.isAlphanum || d == '_'
      some (c :: rest.takeWhile inName, rest.dropWhile inName)
    else none

/-- The whole text is an identifier. -/
def isIdentifier (t : Text) : Bool :=
  match read? t with
  | some (_, []) => true
  | _ => false

/-- The words of the language. -/
def keywords : List String :=
  ["function", "let", "mut", "if", "else", "loop", "break", "continue", "int", "float", "bool",
    "byte", "string", "IO", "true", "false", "arr", "vec"]

/-- The words that mean something in generated code. -/
def targetWords : List String :=
  ["case", "chan", "const", "default", "defer", "fallthrough", "for", "func", "go", "goto",
    "import", "interface", "map", "package", "range", "return", "select", "struct", "switch",
    "type", "var", "nil", "fmt", "float64", "panic", "print", "println", "init"]

def isReserved (t : Text) : Bool := String.ofList t ∈ keywords ++ targetWords

/-- `tuple` and a number: the name of a generated tuple type. -/
def isCarrier (t : Text) : Bool :=
  match t.after? "tuple" with
  | some rest => rest != [] && rest.all Char.isDigit
  | none => false

/-- Why a text cannot be a name. -/
inductive Problem where
  | malformed (t : Text)
  | reserved (t : Text)
  | carrier (t : Text)
  deriving DecidableEq, Repr

def problem? (t : Text) : Option Problem :=
  if !isIdentifier t then some (.malformed t)
  else if isReserved t then some (.reserved t)
  else if isCarrier t then some (.carrier t)
  else none

def Problem.message : Problem → String
  | .malformed t =>
    s!"`{String.ofList t}` is not a valid identifier; identifiers start with a letter followed by letters, digits or `_`"
  | .reserved t => s!"`{String.ofList t}` is a reserved word"
  | .carrier t => s!"`{String.ofList t}` collides with a generated tuple type"

end Name

end StellaGo
