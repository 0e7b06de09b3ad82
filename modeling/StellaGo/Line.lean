import StellaGo.Bracket
import StellaGo.Name

/-! Lines of source and the kind of item that starts on each. -/

namespace StellaGo

inductive Jump where
  | break | continue
  deriving DecidableEq, Repr

def Jump.keyword : Jump → String
  | .break => "break"
  | .continue => "continue"

/-- What a line holds, seen from its first word or from the first thing that tells. -/
inductive LineKind where
  | blank | function | declaration | assignment | selection | otherwise | loop
  | jump (jump : Jump)
  | builtin | closer | result
  deriving DecidableEq, Repr

/-- A trimmed line is an identifier, `!` and an opening round bracket. -/
def isBuiltinCall (line : Text) : Bool :=
  match Name.read? line with
  | some (_, '!' :: '(' :: _) => true
  | _ => false

def Text.lineKind (line : Text) : LineKind :=
  let t := line.trim
  if t = [] then .blank
  else if t.startsWithWord "function" then .function
  else if t.startsWithWord "let" then .declaration
  else if t.startsWithWord "if" then .selection
  else if t.startsWithWord "else" then .otherwise
  else if t.startsWithWord "loop" then .loop
  else if t.startsWithWord "break" then .jump .break
  else if t.startsWithWord "continue" then .jump .continue
  else if t.startsWith '}' then .closer
  else if isBuiltinCall t then .builtin
  else if t.assignmentAt?.isSome then .assignment
  else .result

/-- A trimmed line of source. Lines count from 1. -/
structure Line where
  number : Nat
  text : Text
  deriving DecidableEq, Repr

/-- The lines of a source, trimmed, with their numbers. -/
def Text.numberedLines (source : Text) : List Line :=
  source.lines.mapIdx fun i line => ⟨i + 1, line.trim⟩

end StellaGo
