import StellaGo.Glyph

/-! Blocks of lines. A block opens with the `{` at the end of its header line and closes at the `}`
that leaves none of the braces opened since. Braces in literals do not count. -/

namespace StellaGo

namespace Glyph

/-- The number of braces open behind a line, if `depth` are open before it and one stays open all
along. -/
def braceDepth : (depth : Nat) → List Glyph → Option Nat
  | depth, [] => some depth
  | depth, code c :: rest =>
    if c == '{' then braceDepth (depth + 1) rest
    else if c == '}' then if depth ≤ 1 then none else braceDepth (depth - 1) rest
    else braceDepth depth rest
  | depth, quoted _ :: rest => braceDepth depth rest

end Glyph

/-- A block as a text: its header, the lines inside, and the line that closes it. -/
def Text.block (header : String) (inside : List Text) : Text :=
  header.toList ++ [' ', '{', '\n'] ++ unlines inside ++ ['}']

/-- How many braces a line opens and closes. -/
def Text.braces (line : Text) : Nat × Nat :=
  ((Glyph.ofText line).count (.code '{'), (Glyph.ofText line).count (.code '}'))

namespace Block

/-- The index of the line on which the last of `depth` open braces closes. -/
def closingLine : (depth : Nat) → List Text → Option Nat
  | _, [] => none
  | depth, line :: rest =>
    match Glyph.braceDepth depth (Glyph.ofText line) with
    | none => some 0
    | some deeper => (closingLine deeper rest).map (· + 1)

/-- The index of the line that closes the block whose header is the line of index `header`. -/
def end? (lines : List Text) (header : Nat) : Option Nat :=
  (closingLine 1 (lines.drop (header + 1))).map (header + 1 + ·)

theorem closingLine_lt_length {depth : Nat} {lines : List Text} {k : Nat}
    (h : closingLine depth lines = some k) : k < lines.length := by
  fun_induction closingLine depth lines generalizing k <;> grind [Option.map_eq_some_iff]

end Block

end StellaGo
