import StellaGo.Glyph

/-! Brackets outside literals. Defined here: the three kinds of bracket, the bracket that closes an
opened one, the parts of a text between separators that stand in no bracket, and the place of a lone
`=`. These readers count the three kinds together. -/

namespace StellaGo

inductive Bracket where
  | round | square | curly
  deriving DecidableEq, Repr

namespace Bracket

def opener : Bracket → Char
  | round => '('
  | square => '['
  | curly => '{'

def closer : Bracket → Char
  | round => ')'
  | square => ']'
  | curly => '}'

def ofOpener? : Char → Option Bracket
  | '(' => some round
  | '[' => some square
  | '{' => some curly
  | _ => none

def ofCloser? : Char → Option Bracket
  | ')' => some round
  | ']' => some square
  | '}' => some curly
  | _ => none

theorem ofOpener?_eq_some_iff {c : Char} {b : Bracket} : ofOpener? c = some b ↔ c = b.opener := by
  constructor
  · intro h
    rw [ofOpener?.eq_def] at h
    split at h <;> cases h <;> rfl
  · rintro rfl
    cases b <;> rfl

theorem ofCloser?_eq_some_iff {c : Char} {b : Bracket} : ofCloser? c = some b ↔ c = b.closer := by
  constructor
  · intro h
    rw [ofCloser?.eq_def] at h
    split at h <;> cases h <;> rfl
  · rintro rfl
    cases b <;> rfl

end Bracket

def isOpener (c : Char) : Bool := (Bracket.ofOpener? c).isSome

def isCloser (c : Char) : Bool := (Bracket.ofCloser? c).isSome

/-- The closing bracket for an opening one; any other character stands for itself. -/
def closerFor (c : Char) : Char := ((Bracket.ofOpener? c).map Bracket.closer).getD c

namespace Glyph

/-- How many brackets are open behind a glyph, if `depth` are open before it. -/
def depthAfter (depth : Int) : Glyph → Int
  | code c => if isOpener c then depth + 1 else if isCloser c then depth - 1 else depth
  | quoted _ => depth

/-- The index of the glyph that brings the number of open brackets from `depth` down to none. A
closing bracket where none is open ends the search. -/
def closing : (depth : Nat) → List Glyph → Option Nat
  | _, [] => none
  | depth, quoted _ :: rest => (closing depth rest).map (· + 1)
  | depth, code c :: rest =>
    if isOpener c then (closing (depth + 1) rest).map (· + 1)
    else if isCloser c then
      match depth with
      | 0 => none
      | 1 => some 0
      | deeper + 1 => (closing deeper rest).map (· + 1)
    else (closing depth rest).map (· + 1)

theorem closing_lt_length {depth : Nat} {gs : List Glyph} {k : Nat}
    (h : closing depth gs = some k) : k < gs.length := by
  fun_induction closing depth gs generalizing k <;> grind [Option.map_eq_some_iff]

/-- The glyph is the separator `sep`, which must be no bracket. -/
def separates (sep : Char) : Glyph → Bool
  | code c => c == sep && !isOpener c && !isCloser c
  | quoted _ => false

/-- The pieces between the separators outside brackets; there is always one. -/
def pieces (sep : Char) : (depth : Int) → List Glyph → List Text
  | _, [] => [[]]
  | depth, g :: rest =>
    if g.separates sep && depth == 0 then [] :: pieces sep depth rest
    else (pieces sep (g.depthAfter depth) rest).modifyHead (g.char :: ·)

/-- The index of the first lone `=` outside brackets: no `=`, `!`, `<` or `>` stands before it and
no `=` after it. -/
def loneEquals (depth : Int) (before : Option Char) : List Glyph → Option Nat
  | [] => none
  | g :: rest =>
    let joined := before.any (· ∈ ['=', '!', '<', '>']) || (rest.head?.map char).any (· == '=')
    if g == code '=' && depth == 0 && !joined then some 0
    else (loneEquals (g.depthAfter depth) (some g.char) rest).map (· + 1)

/-- The insides of square brackets that follow each other and make up the whole. -/
def squareInsides? (gs : List Glyph) : Option (List Text) :=
  match gs with
  | [] => some []
  | g :: rest =>
    if g.char == '[' then
      match closing 0 (g :: rest) with
      | some k => (squareInsides? (rest.drop k)).map ((rest.take (k - 1)).map char :: ·)
      | none => none
    else none
termination_by gs.length
decreasing_by
  rw [List.length_drop, List.length_cons]
  omega

theorem length_lt_of_mem_squareInsides? {gs : List Glyph} {insides : List Text}
    (h : squareInsides? gs = some insides) : ∀ inside ∈ insides, inside.length < gs.length := by
  fun_induction squareInsides? gs generalizing insides with
  | case1 => cases h; simp
  | case2 g rest _ k _ ih =>
    obtain ⟨others, ho, rfl⟩ := Option.map_eq_some_iff.1 h
    intro inside hi
    rcases List.mem_cons.1 hi with rfl | hm
    · simp only [List.length_map, List.length_take, List.length_cons]
      omega
    · have := ih ho inside hm
      simp only [List.length_drop, List.length_cons] at this ⊢
      omega
  | case3 | case4 => cases h

theorem length_le_of_mem_pieces {sep : Char} {depth : Int} {gs : List Glyph} {piece : Text}
    (h : piece ∈ pieces sep depth gs) : piece.length ≤ gs.length := by
  induction gs generalizing depth piece with
  | nil => simp_all [pieces]
  | cons g rest ih =>
    rw [pieces] at h
    split at h
    · rcases List.mem_cons.1 h with rfl | h
      · simp
      · exact Nat.le_succ_of_le (ih h)
    · cases hp : pieces sep (g.depthAfter depth) rest with
      | nil => simp [hp] at h
      | cons first others =>
        rw [hp, List.modifyHead_cons] at h
        rcases List.mem_cons.1 h with rfl | h
        · have := @ih (g.depthAfter depth) first (by rw [hp]; simp)
          simpa using this
        · exact Nat.le_succ_of_le (@ih (g.depthAfter depth) _ (by rw [hp]; simp [h]))

end Glyph

namespace Text

/-- The index of the bracket that closes the first one at or behind the index `start`. -/
def closerFrom? (t : Text) (start : Nat) : Option Nat :=
  (Glyph.closing 0 ((Glyph.ofText t).drop start)).map (start + ·)

/-- What stands between the bracket at `start` and the last character, if these two close each
other. -/
def inside? (t : Text) (start : Nat) : Option Text :=
  if t.closerFrom? start = some (t.length - 1) then some (t.drop (start + 1)).dropLast else none

/-- The texts in the square brackets that make up the text from the index `start` on. -/
def indices? (t : Text) (start : Nat) : Option (List Text) :=
  Glyph.squareInsides? ((Glyph.ofText t).drop start)

/-- The trimmed parts of a text between the separators outside literals and brackets. An empty line
has no parts. -/
def topLevelParts (t : Text) (sep : Char) : List Text :=
  if t.trim = [] then [] else (Glyph.pieces sep 0 (Glyph.ofText t)).map trim

/-- The index of a lone `=` outside literals and brackets. -/
def assignmentAt? (t : Text) : Option Nat := Glyph.loneEquals 0 none (Glyph.ofText t)

theorem closerFrom?_lt_length {t : Text} {start k : Nat} (h : t.closerFrom? start = some k) :
    k < t.length := by
  obtain ⟨j, hj, rfl⟩ := Option.map_eq_some_iff.1 h
  have := Glyph.closing_lt_length hj
  rw [List.length_drop, Glyph.length_ofText] at this
  omega

theorem length_inside?_lt {t inner : Text} {start : Nat} (h : t.inside? start = some inner) :
    inner.length < t.length := by
  rw [inside?] at h
  split at h
  · next hc =>
    have := closerFrom?_lt_length hc
    cases h
    simp only [List.length_dropLast, List.length_drop]
    omega
  · cases h

theorem length_lt_of_mem_indices? {t : Text} {start : Nat} {indices : List Text}
    (h : t.indices? start = some indices) : ∀ index ∈ indices, index.length < t.length := by
  intro index hi
  have := Glyph.length_lt_of_mem_squareInsides? h index hi
  rw [List.length_drop, Glyph.length_ofText] at this
  omega

theorem length_le_of_mem_topLevelParts {t part : Text} {sep : Char}
    (h : part ∈ t.topLevelParts sep) : part.length ≤ t.length := by
  rw [topLevelParts] at h
  split at h
  · cases h
  · obtain ⟨piece, hp, rfl⟩ := List.mem_map.1 h
    have := Glyph.length_le_of_mem_pieces hp
    rw [Glyph.length_ofText] at this
    exact Nat.le_trans (length_trim_le piece) this

end Text

end StellaGo
