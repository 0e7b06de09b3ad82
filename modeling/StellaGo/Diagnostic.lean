import StellaGo.Compile

/-! The diagnostic of a compile error: the error in one line, the part of the source that it is
about, and advice. -/

namespace StellaGo

/-- A part of the source, in bytes, with what is said of it. -/
structure Label where
  offset : Nat
  size : Nat
  text : String
  deriving DecidableEq, Repr

structure Diagnostic where
  display : String
  label : Label
  help? : Option String
  deriving DecidableEq, Repr

namespace Diagnostic

/-- The byte offset and the size of the line of this number without the blanks around it, if the
first of `lines` starts at `offset`. -/
def lineSpan? : (offset : Nat) → (lines : List Text) → (number : Nat) → Option (Nat × Nat)
  | _, [], _ => none
  | _, _ :: _, 0 => none
  | offset, line :: _, 1 =>
    let indent := Text.byteSize (line.takeWhile isBlank)
    some (offset + indent, Text.byteSize line.trim)
  | offset, line :: rest, number + 1 => lineSpan? (offset + Text.byteSize line + 1) rest number

/-- The span of a line of the source; a line past the end is taken to stand at the end. -/
def span (source : Text) (number : Nat) : Nat × Nat :=
  (lineSpan? 0 (source.splitOn '\n') number).getD (source.byteSize, 0)

def ofError (source : Text) (e : CompileError) : Diagnostic :=
  let (offset, size) := span source e.line
  ⟨s!"{e.category.name}: [{e.kind.code}] {e.message}",
    ⟨offset, size, s!"{e.kind.name} on line {e.line}"⟩, e.help?⟩

end Diagnostic

end StellaGo
