import StellaGo.Toml.Quoted
import StellaGo.Toml.Scalar

/-! Documents of TOML 1.0. Defined here: keys, values, the statements of a document, and the table
that the statements build. -/

namespace StellaGo.Toml

/-! ### Blanks and comments -/

/-- What follows a comment. -/
def dropComment : Text → Text
  | '#' :: rest => rest.dropWhile isPlain
  | t => t

/-- What follows a line on which nothing more stands but a comment. -/
def endOfLine? (t : Text) : Option Text :=
  match dropComment (t.dropWhile isSpace) with
  | [] => some []
  | t => lineEnd? t

theorem length_dropComment_le (t : Text) : (dropComment t).length ≤ t.length := by
  rw [dropComment.eq_def]
  split
  · exact Nat.le_succ_of_le (List.dropWhile_suffix isPlain).length_le
  · exact Nat.le_refl _

/-- What follows blanks, line ends and comments, as between the items of an array. -/
def dropGap (t : Text) : Text :=
  match _h : lineEnd? (dropComment (t.dropWhile isSpace)) with
  | some rest => dropGap rest
  | none => t.dropWhile isSpace
termination_by t.length
decreasing_by
  have h1 := length_lineEnd?_lt _h
  have h2 := length_dropComment_le (t.dropWhile isSpace)
  have h3 := (List.dropWhile_suffix (l := t) isSpace).length_le
  omega

/-! ### Keys -/

def isBareKeyChar (c : Char) : Bool := c.isAlphanum || c == '_' || c == '-'

/-- One part of a key: a bare word or a string on one line. -/
def keyPart? : Text → Option (Text × Text)
  | '"' :: rest => basicRest? rest
  | '\'' :: rest => literalRest? rest
  | t =>
    let word := t.takeWhile isBareKeyChar
    if word = [] then none else some (word, t.dropWhile isBareKeyChar)

/-- The parts of a key, with the blanks around them. -/
def keyParts? (t : Text) : Option (List Text × Text) := do
  let (part, rest) ← keyPart? (t.dropWhile isSpace)
  match rest.dropWhile isSpace with
  | '.' :: after =>
    if _h : after.length < t.length then
      let (parts, after) ← keyParts? after
      some (part :: parts, after)
    else none
  | after => some ([part], after)
termination_by t.length

/-- Keys have fewer parts, and values fewer levels. -/
def depthLimit : Nat := 80

def key? (t : Text) : Option (Key × Text) := do
  let (parts, rest) ← keyParts? t
  let last ← parts.getLast?
  if parts.length < depthLimit then some (⟨parts.dropLast, last⟩, rest) else none

/-! ### Values -/

/-- The items of an array up to its bracket. -/
def items? (value? : Text → Option (Value × Text)) (t : Text) : Option (List Value × Text) :=
  match dropGap t with
  | ']' :: rest => some ([], rest)
  | start => do
    let (value, rest) ← value? start
    match dropGap rest with
    | ']' :: after => some ([value], after)
    | ',' :: after =>
      if _h : after.length < t.length then
        let (values, after) ← items? value? after
        some (value :: values, after)
      else none
    | _ => none
termination_by t.length

/-- A key, its equals sign and its value. -/
def pair? (value? : Text → Option (Value × Text)) (t : Text) : Option ((Key × Value) × Text) := do
  let (key, rest) ← key? t
  let rest ← rest.after? "="
  let (value, rest) ← value? (rest.dropWhile isSpace)
  some ((key, value), rest)

/-- One or more pairs up to a brace. -/
def pairs? (value? : Text → Option (Value × Text)) (t : Text) :
    Option (List (Key × Value) × Text) := do
  let (pair, rest) ← pair? value? t
  match rest.dropWhile isSpace with
  | '}' :: after => some ([pair], after)
  | ',' :: after =>
    if _h : after.length < t.length then
      let (pairs, after) ← pairs? value? after
      some (pair :: pairs, after)
    else none
  | _ => none
termination_by t.length

/-- A value without brackets of its own. -/
def flatValue? (t : Text) : Option (Value × Text) :=
  (string? t).map (fun (text, rest) => (.string text, rest)) <|> scalar? t

/-- The value at the start of a text, with at most `depth` levels of brackets, and what follows. -/
def value? : (depth : Nat) → Text → Option (Value × Text)
  | 0, t => flatValue? t
  | depth + 1, t =>
    match t with
    | '[' :: rest => (items? (value? depth) rest).map fun (items, after) => (.array items, after)
    | '{' :: rest =>
      match rest.dropWhile isSpace with
      | '}' :: after => some (.table .inline [], after)
      | _ => do
        let (pairs, after) ← pairs? (value? depth) rest
        let table ← Value.ofPairs? pairs
        some (table, after)
    | t => flatValue? t

/-! ### Statements -/

inductive Statement where
  /-- A value for a key of the open table. -/
  | pair (key : Key) (value : Value)
  /-- A header in brackets. -/
  | table (key : Key)
  /-- A header in double brackets. -/
  | next (key : Key)

/-- The statement of a line, and what follows it on that line. -/
def statement? (t : Text) : Option (Statement × Text) :=
  match t.dropWhile isSpace with
  | '[' :: '[' :: rest => do
    let (key, rest) ← key? rest
    let rest ← rest.after? "]]"
    some (.next key, rest)
  | '[' :: rest => do
    let (key, rest) ← key? rest
    let rest ← rest.after? "]"
    some (.table key, rest)
  | t => (pair? (value? (depthLimit - 1)) t).map fun ((key, value), rest) =>
    (.pair key value, rest)

/-- The statements of a text; each ends its line. -/
def statements? (t : Text) : Option (List Statement) :=
  if t = [] then some []
  else match endOfLine? t with
    | some rest => if _h : rest.length < t.length then statements? rest else none
    | none => do
      let (statement, rest) ← statement? t
      let rest ← endOfLine? rest
      if _h : rest.length < t.length then
        let more ← statements? rest
        some (statement :: more)
      else none
termination_by t.length

/-! ### Documents -/

/-- A document of which some statements are read: its table, and the way to the open one in it. -/
structure Draft where
  root : Entries
  current : List Text

def Draft.step? (draft : Draft) : Statement → Option Draft
  | .pair key value => do
    let root ← draft.root.within? (·.putPair? (key, value)) draft.current
    some { draft with root }
  | .table key => do
    let root ← draft.root.openTable? key
    some ⟨root, key.path ++ [key.last]⟩
  | .next key => do
    let root ← draft.root.openNext? key
    some ⟨root, key.path ++ [key.last]⟩

/-- The table of a document; a byte order mark may precede it. -/
def document? (t : Text) : Option Entries := do
  let statements ← statements? ((t.after? "\uFEFF").getD t)
  let draft ← statements.foldlM Draft.step? ⟨[], []⟩
  some draft.root

end StellaGo.Toml
