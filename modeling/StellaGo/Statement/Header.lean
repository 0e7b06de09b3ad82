import StellaGo.Bracket
import StellaGo.Name

/-! The parts of header lines, as texts that are not checked yet. Between the words of a header stand
spaces and tabs. -/

namespace StellaGo

/-- What follows one or more spaces and tabs. -/
def Text.afterSpaces? (t : Text) : Option Text :=
  if t.head?.any isSpace then some (t.dropWhile isSpace) else none

/-- `let [mut] name: type = value` -/
structure LetHeader where
  isMutable : Bool
  name : Text
  type : Text
  value : Text
  deriving DecidableEq, Repr

def LetHeader.read? (line : Text) : Option LetHeader := do
  let rest ← Text.afterSpaces? (← line.after? "let")
  let marked? := (Text.after? "mut" rest).bind Text.afterSpaces?
  let rest := marked?.getD rest
  let inName := fun c : Char => c != ':' && !isBlank c
  let name := rest.takeWhile inName
  let rest ← Text.after? ":" ((rest.dropWhile inName).dropWhile isSpace)
  let (type, value) ← Text.cut? '=' (rest.dropWhile isSpace)
  if name = [] ∨ type = [] then none
  else some ⟨marked?.isSome, name, Text.trim type, value⟩

/-- `function name(parameters) -> returns = {` -/
structure FunctionHeader where
  name : Text
  parameters : Text
  returns : Text
  deriving DecidableEq, Repr

namespace FunctionHeader

/-- `-> returns = {` and nothing else. -/
def readReturns? (t : Text) : Option Text := do
  let rest ← Text.after? "->" (t.dropWhile isSpace)
  let (returns, rest) ← Text.cut? '=' (rest.dropWhile isSpace)
  let rest ← Text.after? "\x7b" (rest.dropWhile isSpace)
  if returns = [] ∨ rest.any (!isSpace ·) then none else some (Text.trim returns)

def read? (line : Text) : Option FunctionHeader := do
  let rest ← Text.afterSpaces? (← line.after? "function")
  let inName := fun c : Char => c != '(' && !isBlank c
  let name := rest.takeWhile inName
  let rest := Text.trimStart (rest.dropWhile inName)
  if name = [] ∨ rest.head? ≠ some '(' then none
  else do
    let close ← Text.closerFrom? rest 0
    let returns ← readReturns? (rest.drop (close + 1))
    return ⟨name, (rest.take close).tail, returns⟩

end FunctionHeader

/-- What stands between the keyword and the `{` of a header, if there is something. -/
def Text.betweenKeywordAndBrace? (keyword : String) (header : Text) : Option Text := do
  let inner ← Text.before? '{' (← header.after? keyword)
  if inner.trim = [] then none else some inner.trim

end StellaGo
