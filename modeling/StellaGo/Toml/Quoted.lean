import StellaGo.Text

/-! Strings of TOML. Defined here: the four forms in which a string is written, which of them a text
gets, and how each form is read. -/

namespace StellaGo.Toml

/-- A control character other than tab and line feed; no string holds one as it is. -/
def isControl (c : Char) : Bool := (c.toNat < 0x20 && c != '\t' && c != '\n') || c.toNat == 0x7F

/-- A character that stands for itself on one line. -/
def isPlain (c : Char) : Bool := !isControl c && c != '\n'

/-! ### Writing -/

inductive StringForm where
  | basic | literal | multiBasic | multiLiteral
  deriving DecidableEq, Repr

/-- The character comes three times in a row. -/
def tripled (q : Char) : Text → Bool
  | a :: b :: c :: rest => (a == q && b == q && c == q) || tripled q (b :: c :: rest)
  | _ => false

/-- The first form in which a text needs no escapes but for tabs; else an escaped one. -/
def formOf (t : Text) : StringForm :=
  let lines := t.contains '\n'
  if t.any isControl then if lines then .multiBasic else .basic
  else if !lines && !t.contains '\\' && !t.contains '"' then .basic
  else if !lines && !t.contains '\'' then .literal
  else if !t.contains '\\' && !tripled '"' t then .multiBasic
  else if !tripled '\'' t then .multiLiteral
  else if lines then .multiBasic
  else .basic

def hexDigit (n : Nat) : Char := (Nat.digitChar n).toUpper

/-- A character in a basic string. -/
def escapeChar (c : Char) : Text :=
  if c == '\x08' then ['\\', 'b']
  else if c == '\t' then ['\\', 't']
  else if c == '\n' then ['\\', 'n']
  else if c == '\x0c' then ['\\', 'f']
  else if c == '\r' then ['\\', 'r']
  else if c == '"' then ['\\', '"']
  else if c == '\\' then ['\\', '\\']
  else if isControl c then
    ['\\', 'u', '0', '0', hexDigit (c.toNat / 16), hexDigit (c.toNat % 16)]
  else [c]

/-- The inside of a basic string of several lines, where `run` quotes precede: line feeds and quotes
stand for themselves, but for every third quote in a row. -/
def multiBasicBody : (run : Nat) → Text → Text
  | _, [] => []
  | run, c :: rest =>
    if c == '"' then
      if run == 2 then '\\' :: '"' :: multiBasicBody 0 rest else '"' :: multiBasicBody (run + 1) rest
    else if c == '\n' then '\n' :: multiBasicBody 0 rest
    else escapeChar c ++ multiBasicBody 0 rest

/-- The line feed after the opening quotes, which is no part of the text. -/
def openingBreak (t : Text) : Text := if t.contains '\n' then ['\n'] else []

/-- The text as a string. -/
def quote (t : Text) : Text :=
  match formOf t with
  | .basic => '"' :: t.flatMap escapeChar ++ ['"']
  | .literal => '\'' :: t ++ ['\'']
  | .multiBasic =>
    "\"\"\"".toList ++ openingBreak t ++ multiBasicBody 0 t ++ "\"\"\"".toList
  | .multiLiteral => "'''".toList ++ openingBreak t ++ t ++ "'''".toList

/-! ### Reading -/

def hexValue? (c : Char) : Option Nat :=
  if c.isDigit then some (c.toNat - '0'.toNat)
  else if 'a' ≤ c && c ≤ 'f' then some (c.toNat - 'a'.toNat + 10)
  else if 'A' ≤ c && c ≤ 'F' then some (c.toNat - 'A'.toNat + 10)
  else none

/-- The number that digits write, the highest first. -/
def numberOf (base : Nat) (digits : List Nat) : Nat :=
  digits.foldl (fun value digit => value * base + digit) 0

/-- The character whose code is written by `n` hexadecimal digits, and what follows them. -/
def hexChar? (n : Nat) (t : Text) : Option (Char × Text) := do
  let digits ← (t.take n).mapM hexValue?
  let code := numberOf 16 digits
  if digits.length = n ∧ code.isValidChar then some (Char.ofNat code, t.drop n) else none

/-- The character that is escaped by a backslash before the text, and what follows. -/
def escape? : Text → Option (Char × Text)
  | 'b' :: rest => some ('\x08', rest)
  | 't' :: rest => some ('\t', rest)
  | 'n' :: rest => some ('\n', rest)
  | 'f' :: rest => some ('\x0c', rest)
  | 'r' :: rest => some ('\r', rest)
  | '"' :: rest => some ('"', rest)
  | '\\' :: rest => some ('\\', rest)
  | 'u' :: rest => hexChar? 4 rest
  | 'U' :: rest => hexChar? 8 rest
  | _ => none

theorem length_hexChar?_le {n : Nat} {t rest : Text} {c : Char} (h : hexChar? n t = some (c, rest)) :
    rest.length ≤ t.length := by
  simp only [hexChar?, Option.bind_eq_bind, Option.bind_eq_some_iff] at h
  obtain ⟨digits, _, h⟩ := h
  split at h
  · cases h
    simp
  · cases h

theorem length_escape?_lt {t rest : Text} {c : Char} (h : escape? t = some (c, rest)) :
    rest.length < t.length := by
  rw [escape?.eq_def] at h
  split at h
  case h_8 => exact Nat.lt_succ_of_le (length_hexChar?_le h)
  case h_9 => exact Nat.lt_succ_of_le (length_hexChar?_le h)
  all_goals
    cases h
    try exact Nat.lt_succ_self _

/-- The rest of a basic string of one line, and what follows its closing quote. -/
def basicRest? : Text → Option (Text × Text)
  | [] => none
  | '"' :: rest => some ([], rest)
  | '\\' :: rest =>
    match _h : escape? rest with
    | none => none
    | some (c, more) => (basicRest? more).map fun (body, after) => (c :: body, after)
  | c :: rest =>
    if isPlain c then (basicRest? rest).map fun (body, after) => (c :: body, after) else none
termination_by t => t.length
decreasing_by
  · exact Nat.lt_succ_of_lt (length_escape?_lt _h)
  · exact Nat.lt_succ_self _

/-- The rest of a literal string of one line, and what follows its closing quote. -/
def literalRest? : Text → Option (Text × Text)
  | [] => none
  | '\'' :: rest => some ([], rest)
  | c :: rest =>
    if isPlain c then (literalRest? rest).map fun (body, after) => (c :: body, after) else none

/-- What follows blanks and line ends. -/
def dropBlankLines : Text → Text
  | '\n' :: rest => dropBlankLines rest
  | '\r' :: '\n' :: rest => dropBlankLines rest
  | c :: rest => if isSpace c then dropBlankLines rest else c :: rest
  | [] => []

theorem length_dropBlankLines_le (t : Text) : (dropBlankLines t).length ≤ t.length := by
  fun_induction dropBlankLines t <;> simp_all <;> omega

/-- What follows one line end. -/
def lineEnd? : Text → Option Text
  | '\n' :: rest => some rest
  | '\r' :: '\n' :: rest => some rest
  | _ => none

theorem length_lineEnd?_lt {t rest : Text} (h : lineEnd? t = some rest) :
    rest.length < t.length := by
  rw [lineEnd?.eq_def] at h
  split at h <;> cases h <;> simp only [List.length_cons] <;> omega

/-- What follows a backslash at the end of a line: the line end and the blanks and line ends after it
do not count. -/
def continuation? (t : Text) : Option Text := (lineEnd? (t.dropWhile isSpace)).map dropBlankLines

theorem length_continuation?_lt {t rest : Text} (h : continuation? t = some rest) :
    rest.length < t.length := by
  obtain ⟨after, ha, rfl⟩ := Option.map_eq_some_iff.1 h
  have h1 := length_lineEnd?_lt ha
  have h2 := length_dropBlankLines_le after
  have h3 := (List.dropWhile_suffix (l := t) isSpace).length_le
  omega

/-- One or two quotes before the three that close a string belong to it. -/
def closingQuotes (q : Char) : Text → Text × Text
  | a :: b :: rest =>
    if a == q then if b == q then ([q, q], rest) else ([q], b :: rest) else ([], a :: b :: rest)
  | [a] => if a == q then ([q], []) else ([], [a])
  | [] => ([], [])

/-- The rest of a basic string of several lines, and what follows its closing quotes. -/
def multiBasicRest? : Text → Option (Text × Text)
  | [] => none
  | '"' :: '"' :: '"' :: rest => some (closingQuotes '"' rest)
  | '\\' :: rest =>
    match _h : continuation? rest with
    | some more => multiBasicRest? more
    | none =>
      match _h : escape? rest with
      | none => none
      | some (c, more) => (multiBasicRest? more).map fun (body, after) => (c :: body, after)
  | '\r' :: '\n' :: rest => (multiBasicRest? rest).map fun (body, after) => ('\n' :: body, after)
  | c :: rest =>
    if isPlain c || c == '\n' then (multiBasicRest? rest).map fun (body, after) => (c :: body, after)
    else none
termination_by t => t.length
decreasing_by
  · exact Nat.lt_succ_of_lt (length_continuation?_lt _h)
  · exact Nat.lt_succ_of_lt (length_escape?_lt _h)
  · simp only [List.length_cons]
    omega
  · exact Nat.lt_succ_self _

/-- The rest of a literal string of several lines, and what follows its closing quotes. -/
def multiLiteralRest? : Text → Option (Text × Text)
  | [] => none
  | '\'' :: '\'' :: '\'' :: rest => some (closingQuotes '\'' rest)
  | '\r' :: '\n' :: rest => (multiLiteralRest? rest).map fun (body, after) => ('\n' :: body, after)
  | c :: rest =>
    if isPlain c || c == '\n' then
      (multiLiteralRest? rest).map fun (body, after) => (c :: body, after)
    else none

/-- What follows the line end at the start of a text, if there is one. -/
def dropLineEnd (t : Text) : Text := (lineEnd? t).getD t

/-- The string at the start of a text, and what follows it. -/
def string? : Text → Option (Text × Text)
  | '"' :: '"' :: '"' :: rest => multiBasicRest? (dropLineEnd rest)
  | '\'' :: '\'' :: '\'' :: rest => multiLiteralRest? (dropLineEnd rest)
  | '"' :: rest => basicRest? rest
  | '\'' :: rest => literalRest? rest
  | _ => none

end StellaGo.Toml
