import StellaGo.Glyph

/-! Comments run from two slashes outside literals to the end of the line. Removing them keeps the
number of lines, so that a line of the result has the number that it had in the source. -/

namespace StellaGo.Comment

/-- The part of a line before its comment, read inside the literal that `open?` opened, or outside
every literal. -/
def stripInside : (open? : Option Char) → Text → Text
  | _, [] => []
  | none, '/' :: '/' :: _ => []
  | none, c :: rest => c :: stripInside (if isQuote c then some c else none) rest
  | some q, '\\' :: c :: rest => '\\' :: c :: stripInside (some q) rest
  | some q, c :: rest => c :: stripInside (if c == q then none else some q) rest

/-- The part of a line before its comment. -/
def stripLine (line : Text) : Text := stripInside none line

/-- The source without comments and without blanks at the ends of lines. -/
def strip (source : Text) : Text :=
  List.intercalate ['\n'] (source.lines.map fun line => (stripLine line).trimEnd)

end StellaGo.Comment
