import StellaGo.Text

/-! A line of source is program text with string and byte literals in it. Defined here: the line as
a list of glyphs, each of which is either a character of the program text or a character of a
literal, quotes included. -/

namespace StellaGo

inductive Glyph where
  | code (c : Char)
  | quoted (c : Char)
  deriving DecidableEq, Repr

/-- A quote opens a literal and closes the literal that it opened. -/
def isQuote (c : Char) : Bool := c == '"' || c == '\''

theorem isQuote_iff {c : Char} : isQuote c ↔ c = '"' ∨ c = '\'' := by
  simp [isQuote]

namespace Glyph

def char : Glyph → Char
  | code c => c
  | quoted c => c

/-- The glyphs of a text read inside the literal that `open?` opened, or outside every literal. A
backslash in a literal takes the next character with it. -/
def read : (open? : Option Char) → Text → List Glyph
  | _, [] => []
  | none, c :: rest =>
    if isQuote c then quoted c :: read (some c) rest else code c :: read none rest
  | some q, '\\' :: c :: rest => quoted '\\' :: quoted c :: read (some q) rest
  | some q, c :: rest => quoted c :: read (if c == q then none else some q) rest

def ofText (t : Text) : List Glyph := read none t

theorem map_char_read (open? : Option Char) (t : Text) : (read open? t).map char = t := by
  fun_induction read open? t <;> simp_all [char]

theorem map_char_ofText (t : Text) : (ofText t).map char = t := map_char_read none t

theorem length_ofText (t : Text) : (ofText t).length = t.length := by
  rw [← List.length_map (f := char), map_char_ofText]

/-- The characters outside literals, each with the byte offset at which it starts. -/
def offsets : Nat → List Glyph → List (Nat × Char)
  | _, [] => []
  | i, code c :: rest => (i, c) :: offsets (i + c.utf8Size) rest
  | i, quoted c :: rest => offsets (i + c.utf8Size) rest

end Glyph

/-- The characters of a text outside its literals, by byte offset. -/
def Text.unquoted (t : Text) : List (Nat × Char) := Glyph.offsets 0 (Glyph.ofText t)

end StellaGo
