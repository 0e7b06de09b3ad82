/-! Text is a list of characters. Defined here: blank characters and trimming, stripping a known
beginning or end, lines, and the place of a character counted in UTF-8 bytes. -/

namespace StellaGo

/-- Source text, a token or a name: its characters in order. -/
abbrev Text := List Char

/-- The characters with the Unicode property White_Space. -/
def isBlank (c : Char) : Bool :=
  let n := c.toNat
  (9 ≤ n && n ≤ 13) || n == 0x20 || n == 0x85 || n == 0xA0 || n == 0x1680 ||
    (0x2000 ≤ n && n ≤ 0x200A) || n == 0x2028 || n == 0x2029 || n == 0x202F || n == 0x205F ||
    n == 0x3000

/-- The two blanks that may separate the words of a header. -/
def isSpace (c : Char) : Bool := c == ' ' || c == '\t'

namespace Text

/-! ### Trimming -/

def trimStart (t : Text) : Text := t.dropWhile isBlank

def trimEnd (t : Text) : Text := (t.reverse.dropWhile isBlank).reverse

def trim (t : Text) : Text := t.trimStart.trimEnd

theorem length_trimStart_le (t : Text) : t.trimStart.length ≤ t.length :=
  (List.dropWhile_suffix isBlank).length_le

theorem length_trimEnd_le (t : Text) : t.trimEnd.length ≤ t.length := by
  have h := (List.dropWhile_suffix (l := t.reverse) isBlank).length_le
  simpa [trimEnd] using h

theorem length_trim_le (t : Text) : t.trim.length ≤ t.length :=
  Nat.le_trans (length_trimEnd_le _) (length_trimStart_le t)

/-! ### Known beginnings and ends -/

/-- What follows `start`, if the text starts with it. -/
def after? (start : String) (t : Text) : Option Text := start.toList.isPrefixOf? t

/-- What precedes `stop`, if the text ends with it. -/
def before? (stop : Char) (t : Text) : Option Text :=
  if t.getLast? = some stop then some t.dropLast else none

def startsWith (c : Char) (t : Text) : Bool := t.head? == some c

def endsWith (c : Char) (t : Text) : Bool := t.getLast? == some c

/-- The text up to the first `c`, and what follows it. -/
def cut? (c : Char) (t : Text) : Option (Text × Text) :=
  match t.dropWhile (· != c) with
  | [] => none
  | _ :: rest => some (t.takeWhile (· != c), rest)

/-- The text starts with the word `keyword`: a blank, `(`, `{` or nothing follows. -/
def startsWithWord (keyword : String) (t : Text) : Bool :=
  match t.after? keyword with
  | none => false
  | some [] => true
  | some (c :: _) => isBlank c || c == '(' || c == '{'

/-! ### Lines -/

/-- Drops one carriage return at the end. -/
def dropReturn (t : Text) : Text := (t.before? '\r').getD t

/-- A line ends with a line feed, and a carriage return before it belongs to the line end. What
follows the last line feed is a line unless it is empty. -/
def lines (t : Text) : List Text :=
  let pieces := t.splitOn '\n'
  pieces.dropLast.map dropReturn ++ pieces.getLast?.toList.filter (· != [])

/-- The lines, each with its line feed. -/
def unlines (lines : List Text) : Text := lines.flatMap (· ++ ['\n'])

/-! ### Offsets in bytes -/

/-- The UTF-8 size of a text. -/
def byteSize : Text → Nat
  | [] => 0
  | c :: rest => c.utf8Size + byteSize rest

/-- The byte at which the character of index `i` starts. -/
def byteOffset (t : Text) (i : Nat) : Nat := byteSize (t.take i)

/-- The number of characters that start before byte `b`. -/
def charIndex : Text → Nat → Nat
  | [], _ => 0
  | _, 0 => 0
  | c :: rest, b => charIndex rest (b - c.utf8Size) + 1

end Text

end StellaGo
