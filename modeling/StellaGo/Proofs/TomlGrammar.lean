import Mathlib.Data.List.Forall2
import Mathlib.Data.Nat.Digits.Defs
import StellaGo.Text.Decimal
import StellaGo.Toml.Library

/-! What is asked of a library for TOML. Defined here: the part of the grammar of TOML 1.0 that
documents in sections need, with all four kinds of strings; the forms in which a library writes such
documents; and the two contracts, to read the grammar and to write the forms. Proved: each form of a
string spells the string, and each document that is written spells its sections. The grammar leaves out
what no form needs: comments, blanks around keys, line ends with a carriage return, and line ends that
are escaped. -/

namespace StellaGo.Toml

/-! ### Strings -/

/-- A control character other than tab and line feed. -/
def IsControl (c : Char) : Prop := c.toNat < 0x20 ∧ c ≠ '\t' ∧ c ≠ '\n' ∨ c.toNat = 0x7F

instance (c : Char) : Decidable (IsControl c) := inferInstanceAs (Decidable (_ ∨ _))

/-- A character that may stand in a string on one line. -/
def IsPlain (c : Char) : Prop := ¬ IsControl c ∧ c ≠ '\n'

instance (c : Char) : Decidable (IsPlain c) := inferInstanceAs (Decidable (_ ∧ _))

/-- The letters behind a backslash, and the characters that they stand for. -/
def shortEscapes : List (Char × Char) :=
  [('b', '\x08'), ('t', '\t'), ('n', '\n'), ('f', '\x0c'), ('r', '\r'), ('"', '"'), ('\\', '\\')]

/-- A hexadecimal digit, as a small or a capital letter from ten on. -/
def IsHexDigit (n : Nat) (c : Char) : Prop :=
  n < 16 ∧ (c = n.digitChar ∨ c = n.digitChar.toUpper)

/-- A character of a basic string: itself, or an escape by a letter or by its code. -/
inductive BasicChar : Text → Char → Prop
  | plain {c : Char} (hc : IsPlain c) (hquote : c ≠ '"') (hslash : c ≠ '\\') : BasicChar [c] c
  | short {letter c : Char} (h : (letter, c) ∈ shortEscapes) : BasicChar ['\\', letter] c
  | code {letter c : Char} {digits : List Nat} {s : Text}
      (hlength : (letter, digits.length) ∈ [('u', 4), ('U', 8)])
      (hdigits : List.Forall₂ IsHexDigit digits s)
      (hcode : Nat.ofDigits 16 digits.reverse = c.toNat) : BasicChar ('\\' :: letter :: s) c

/-- A character of a literal string. -/
inductive LiteralChar : Text → Char → Prop
  | plain {c : Char} (hc : IsPlain c) (hquote : c ≠ '\'') : LiteralChar [c] c

/-- On several lines, a line feed also stands for itself. -/
inductive OrFeed (spells : Text → Char → Prop) : Text → Char → Prop
  | char {w : Text} {c : Char} (h : spells w c) : OrFeed spells w c
  | feed : OrFeed spells ['\n'] '\n'

/-- The inside of a string behind `run` quotes in a row, of which at most `most` may be there. -/
inductive SpellsInside (q : Char) (most : Nat) (spells : Text → Char → Prop) :
    (run : Nat) → Text → Text → Prop
  | nil {run : Nat} : SpellsInside q most spells run [] []
  | quote {run : Nat} {s t : Text} (hrun : run < most)
      (h : SpellsInside q most spells (run + 1) s t) :
      SpellsInside q most spells run (q :: s) (q :: t)
  | char {run : Nat} {w s t : Text} {c : Char} (hc : spells w c)
      (h : SpellsInside q most spells 0 s t) : SpellsInside q most spells run (w ++ s) (c :: t)

/-- A line feed right behind the opening quotes of a string on several lines does not count. -/
inductive Opens (s : Text) : Text → Prop
  | feed : Opens s ['\n']
  | nothing (h : s.head? ≠ some '\n') : Opens s []

/-- The first text is the second one as a string. -/
inductive SpellsString : Text → Text → Prop
  | basic {s t : Text} (h : SpellsInside '"' 0 BasicChar 0 s t) : SpellsString ('"' :: s ++ ['"']) t
  | literal {s t : Text} (h : SpellsInside '\'' 0 LiteralChar 0 s t) :
      SpellsString ('\'' :: s ++ ['\'']) t
  | multiBasic {opening s t : Text} (hopen : Opens s opening)
      (h : SpellsInside '"' 2 (OrFeed BasicChar) 0 s t) :
      SpellsString ("\"\"\"".toList ++ opening ++ s ++ "\"\"\"".toList) t
  | multiLiteral {opening s t : Text} (hopen : Opens s opening)
      (h : SpellsInside '\'' 2 (OrFeed LiteralChar) 0 s t) :
      SpellsString ("'''".toList ++ opening ++ s ++ "'''".toList) t

/-! ### Documents -/

inductive SpellsValue : Text → Value → Prop
  | string {s t : Text} (h : SpellsString s t) : SpellsValue s (.string t)
  | integer {n : Nat} (h : n < 2 ^ 63) : SpellsValue (Text.ofNat n) (.integer n)

def IsBareKey (key : Text) : Prop :=
  key ≠ [] ∧ ∀ c ∈ key, c.isAlphanum ∨ c = '_' ∨ c = '-'

-- by the list, since an instance for all characters would run through them
instance (key : Text) : Decidable (IsBareKey key) :=
  @instDecidableAnd _ _ inferInstance (List.decidableBAll _ key)

/-- The lines below a header, of which some may be blank. -/
inductive SpellsEntries : Text → Entries → Prop
  | nil : SpellsEntries [] []
  | blank {lines : Text} {entries : Entries} (h : SpellsEntries lines entries) :
      SpellsEntries ('\n' :: lines) entries
  | pair {key s lines : Text} {value : Value} {entries : Entries} (hkey : IsBareKey key)
      (hvalue : SpellsValue s value) (h : SpellsEntries lines entries) :
      SpellsEntries (key ++ " = ".toList ++ s ++ '\n' :: lines) ((key, value) :: entries)

/-- The text of a document in sections. -/
inductive SpellsSections : Text → List (Text × Entries) → Prop
  | nil : SpellsSections [] []
  | cons {name lines rest : Text} {entries : Entries} {more : List (Text × Entries)}
      (hname : IsBareKey name) (hentries : SpellsEntries lines entries)
      (h : SpellsSections rest more) :
      SpellsSections ('[' :: name ++ "]\n".toList ++ lines ++ rest) ((name, entries) :: more)

/-- No name is given twice, and in no section a key. -/
def DistinctKeys (sections : List (Text × Entries)) : Prop :=
  (sections.map Prod.fst).Nodup ∧ ∀ part ∈ sections, (part.2.map Prod.fst).Nodup

/-- A table holds sections as tables. How these came to be and what else there is does not matter. -/
def Entries.Holds (root : Entries) (sections : List (Text × Entries)) : Prop :=
  ∀ part ∈ sections, ∃ origin table, root.get? part.1 = some (.table origin table) ∧
    ∀ pair ∈ part.2, Entries.get? table pair.1 = some pair.2

/-- The library reads the documents of the grammar. -/
def ReadsDocuments [Library] : Prop :=
  ∀ text sections, SpellsSections text sections → DistinctKeys sections →
    ∃ root, Library.read? text = some root ∧ root.Holds sections

/-! ### Forms -/

/-- A tab in a basic string that needs no other escapes. -/
def escapeTab (c : Char) : Text := if c = '\t' then ['\\', 't'] else [c]

/-- A character in a basic string that needs escapes: by its letter, or a control character that has
none by the four digits of its code. -/
def escapeAny (c : Char) : Text :=
  match shortEscapes.find? (·.2 == c) with
  | some (letter, _) => ['\\', letter]
  | none =>
    if IsControl c then
      ['\\', 'u', '0', '0', (c.toNat / 16).digitChar.toUpper, (c.toNat % 16).digitChar.toUpper]
    else [c]

/-- The line feed behind opening quotes. -/
def openingFeed (t : Text) : Text := if '\n' ∈ t then ['\n'] else []

/-- A text that is escaped on several lines, behind `run` quotes in a row: line feeds stand for
themselves, and so may quotes unless three come in a row. -/
inductive EscapesLines : (run : Nat) → Text → Text → Prop
  | nil {run : Nat} : EscapesLines run [] []
  | quote {run : Nat} {t s : Text} (hrun : run < 2) (h : EscapesLines (run + 1) t s) :
      EscapesLines run ('"' :: t) ('"' :: s)
  | feed {run : Nat} {t s : Text} (h : EscapesLines 0 t s) :
      EscapesLines run ('\n' :: t) ('\n' :: s)
  | char {run : Nat} {c : Char} {t s : Text} (h : EscapesLines 0 t s) :
      EscapesLines run (c :: t) (escapeAny c ++ s)

/-- The forms in which a string is written, with the texts for which each of them is meant. -/
inductive WritesString (t : Text) : Text → Prop
  | basic (hcontrol : ∀ c ∈ t, ¬ IsControl c) (hslash : '\\' ∉ t) (hquote : '"' ∉ t)
      (hfeed : '\n' ∉ t) : WritesString t ('"' :: t.flatMap escapeTab ++ ['"'])
  | literal (hcontrol : ∀ c ∈ t, ¬ IsControl c) (hquote : '\'' ∉ t) (hfeed : '\n' ∉ t) :
      WritesString t ('\'' :: t ++ ['\''])
  | multiBasic (hcontrol : ∀ c ∈ t, ¬ IsControl c) (hslash : '\\' ∉ t)
      (hquotes : ¬ ['"', '"', '"'] <:+: t) :
      WritesString t ("\"\"\"".toList ++ openingFeed t ++ t.flatMap escapeTab ++ "\"\"\"".toList)
  | multiLiteral (hcontrol : ∀ c ∈ t, ¬ IsControl c) (hquotes : ¬ ['\'', '\'', '\''] <:+: t) :
      WritesString t ("'''".toList ++ openingFeed t ++ t ++ "'''".toList)
  | escaped (hfeed : '\n' ∉ t) : WritesString t ('"' :: t.flatMap escapeAny ++ ['"'])
  | multiEscaped {s : Text} (hfeed : '\n' ∈ t) (h : EscapesLines 0 t s) :
      WritesString t ("\"\"\"".toList ++ openingFeed t ++ s ++ "\"\"\"".toList)

inductive WritesValue : Value → Text → Prop
  | string {t s : Text} (h : WritesString t s) : WritesValue (.string t) s
  | integer {n : Nat} (h : n < 2 ^ 63) : WritesValue (.integer n) (Text.ofNat n)

inductive WritesEntries : Entries → Text → Prop
  | nil : WritesEntries [] []
  | cons {key s lines : Text} {value : Value} {entries : Entries} (hvalue : WritesValue value s)
      (h : WritesEntries entries lines) :
      WritesEntries ((key, value) :: entries) (key ++ " = ".toList ++ s ++ '\n' :: lines)

/-- Between two sections stands a blank line. -/
inductive WritesSections : List (Text × Entries) → Text → Prop
  | nil : WritesSections [] []
  | last {name lines : Text} {entries : Entries} (hentries : WritesEntries entries lines) :
      WritesSections [(name, entries)] ('[' :: name ++ "]\n".toList ++ lines)
  | cons {name lines rest : Text} {entries : Entries} {next : Text × Entries}
      {more : List (Text × Entries)} (hentries : WritesEntries entries lines)
      (h : WritesSections (next :: more) rest) :
      WritesSections ((name, entries) :: next :: more)
        ('[' :: name ++ "]\n".toList ++ lines ++ '\n' :: rest)

/-- A string, or a natural number that a signed word holds. -/
def Value.IsFlat : Value → Prop
  | .string _ => True
  | .integer n => 0 ≤ n ∧ n < 2 ^ 63
  | _ => False

/-- All names and keys are bare, and all values flat. -/
def IsPlainDocument (sections : List (Text × Entries)) : Prop :=
  ∀ part ∈ sections, IsBareKey part.1 ∧ ∀ pair ∈ part.2, IsBareKey pair.1 ∧ pair.2.IsFlat

/-- The library writes plain documents in the forms. -/
def WritesForms [Library] : Prop :=
  ∀ sections, IsPlainDocument sections → DistinctKeys sections →
    ∃ text, Library.write? (.ofSections sections) = some text ∧ WritesSections sections text

/-! ### Characters in their forms -/

variable {t s : Text} {c q : Char}

theorem basicChar_escapeAny (c : Char) : BasicChar (escapeAny c) c := by
  rw [escapeAny]
  split
  · next letter d hfind =>
    have hc : d = c := by simpa using List.find?_some hfind
    rw [← hc]
    exact .short (List.mem_of_find?_eq_some hfind)
  next hnone =>
  split
  · next hcontrol =>
    -- such a code has two digits
    have hcode : c.toNat < 256 := by
      unfold IsControl at hcontrol
      omega
    have hdigit {n : Nat} (hn : n < 16) : IsHexDigit n n.digitChar.toUpper := ⟨hn, .inr rfl⟩
    have hdigits : List.Forall₂ IsHexDigit [0, 0, c.toNat / 16, c.toNat % 16]
        ['0', '0', (c.toNat / 16).digitChar.toUpper, (c.toNat % 16).digitChar.toUpper] :=
      .cons (hdigit (by decide)) (.cons (hdigit (by decide))
        (.cons (hdigit (by omega)) (.cons (hdigit (by omega)) .nil)))
    refine .code (.head _) hdigits ?_
    simp [Nat.ofDigits]
    omega
  · next hcontrol =>
    have hshort {letter d : Char} (h : (letter, d) ∈ shortEscapes) : c ≠ d := by
      rintro rfl
      simpa using List.find?_eq_none.1 hnone _ h
    exact .plain ⟨hcontrol, hshort (by decide : ('n', '\n') ∈ shortEscapes)⟩
      (hshort (by decide : ('"', '"') ∈ shortEscapes))
      (hshort (by decide : ('\\', '\\') ∈ shortEscapes))

theorem basicChar_escapeTab (hcontrol : ¬ IsControl c) (hfeed : c ≠ '\n') (hquote : c ≠ '"')
    (hslash : c ≠ '\\') : BasicChar (escapeTab c) c := by
  rw [escapeTab]
  split
  · next htab =>
    rw [htab]
    exact .short (by decide)
  · exact .plain (⟨hcontrol, hfeed⟩) hquote hslash

/-! ### Strings in their forms -/

section

variable {run : Nat}

/-- A quote that stands for itself is not the third in a row. -/
theorem no_row_of_quote (h : ¬ [q, q, q] <:+: List.replicate run q ++ q :: t) :
    run < 2 ∧ ¬ [q, q, q] <:+: List.replicate (run + 1) q ++ t := by
  constructor
  · by_contra hlong
    have htwo : List.replicate run q = List.replicate (run - 2) q ++ [q, q] := by
      rw [show [q, q] = List.replicate 2 q from rfl, List.replicate_append_replicate,
        Nat.sub_add_cancel (by omega)]
    exact h ⟨List.replicate (run - 2) q, t, by simp [htwo]⟩
  · rwa [List.replicate_succ', List.append_assoc, List.singleton_append]

theorem no_row_of_cons (h : ¬ [q, q, q] <:+: List.replicate run q ++ c :: t) :
    ¬ [q, q, q] <:+: List.replicate 0 q ++ t := fun hrow =>
  h (hrow.trans ((List.suffix_cons c t).isInfix.trans (List.suffix_append _ _).isInfix))

end

namespace SpellsInside

variable {most run : Nat} {spells : Text → Char → Prop} {write : Char → Text}

theorem of_chars (h : ∀ c ∈ t, spells (write c) c) :
    SpellsInside q most spells run (t.flatMap write) t := by
  induction t generalizing run with
  | nil => exact .nil
  | cons c t ih =>
    obtain ⟨hc, hmore⟩ := List.forall_mem_cons.1 h
    rw [List.flatMap_cons]
    exact .char hc (ih hmore)

/-- On several lines quotes stand for themselves where no three come in a row. -/
theorem of_no_row (hq : write q = [q]) (h : ∀ c ∈ t, c ≠ q → spells (write c) c)
    (hrow : ¬ [q, q, q] <:+: List.replicate run q ++ t) :
    SpellsInside q 2 spells run (t.flatMap write) t := by
  induction t generalizing run with
  | nil => exact .nil
  | cons c t ih =>
    obtain ⟨hc, hmore⟩ := List.forall_mem_cons.1 h
    rw [List.flatMap_cons]
    by_cases hquote : c = q
    · subst hquote
      obtain ⟨hrun, hnext⟩ := no_row_of_quote hrow
      rw [hq, List.singleton_append]
      exact .quote hrun (ih hmore hnext)
    · exact .char (hc hquote) (ih hmore (no_row_of_cons hrow))

theorem of_escapesLines (h : EscapesLines run t s) :
    SpellsInside '"' 2 (OrFeed BasicChar) run s t := by
  induction h with
  | nil => exact .nil
  | quote hrun _ ih => exact .quote hrun ih
  | feed _ ih => exact .char .feed ih
  | char _ ih => exact .char (.char (basicChar_escapeAny _)) ih

end SpellsInside

/-- What a character is written as starts with a line feed only for a line feed. -/
theorem opens_openingFeed {write : Char → Text} (h : ∀ c, c ≠ '\n' → (write c).head? ≠ some '\n')
    (hne : ∀ c, write c ≠ []) : Opens (t.flatMap write) (openingFeed t) := by
  rw [openingFeed]
  split
  · exact .feed
  · next hfeed =>
    refine .nothing ?_
    cases t with
    | nil => simp
    | cons c t =>
      rw [List.flatMap_cons, List.head?_append_of_ne_nil _ (hne c)]
      exact h c fun hc => hfeed (hc ▸ List.mem_cons_self)

/-- Each form of a string spells it. -/
theorem WritesString.spells (h : WritesString t s) : SpellsString s t := by
  have hself : t.flatMap (fun c => [c]) = t := List.flatMap_singleton' t
  cases h with
  | basic hcontrol hslash hquote hfeed =>
    refine .basic (.of_chars fun c hc => basicChar_escapeTab (hcontrol c hc) ?_ ?_ ?_)
    · exact fun h => hfeed (h ▸ hc)
    · exact fun h => hquote (h ▸ hc)
    · exact fun h => hslash (h ▸ hc)
  | literal hcontrol hquote hfeed =>
    have hinside : SpellsInside '\'' 0 LiteralChar 0 (t.flatMap fun c => [c]) t :=
      .of_chars fun c hc => .plain
        ⟨hcontrol c hc, fun h => hfeed (h ▸ hc)⟩ fun h => hquote (h ▸ hc)
    rw [hself] at hinside
    exact .literal hinside
  | multiBasic hcontrol hslash hquotes =>
    have hopen : Opens (t.flatMap escapeTab) (openingFeed t) := by
      refine opens_openingFeed (fun c hc => ?_) fun c => ?_ <;> rw [escapeTab] <;> split <;> simp [*]
    refine .multiBasic hopen (.of_no_row rfl (fun c hc hquote => ?_) hquotes)
    by_cases hfeed : c = '\n'
    · subst hfeed
      exact .feed
    · exact .char (basicChar_escapeTab (hcontrol c hc) hfeed hquote fun h => hslash (h ▸ hc))
  | multiLiteral hcontrol hquotes =>
    have hopen : Opens (t.flatMap fun c => [c]) (openingFeed t) :=
      opens_openingFeed (fun c hc => by simpa using hc) fun c => List.cons_ne_nil c []
    have hinside : SpellsInside '\'' 2 (OrFeed LiteralChar) 0 (t.flatMap fun c => [c]) t := by
      refine .of_no_row rfl (fun c hc hquote => ?_) hquotes
      by_cases hfeed : c = '\n'
      · subst hfeed
        exact .feed
      · exact .char (.plain ⟨hcontrol c hc, hfeed⟩ hquote)
    rw [hself] at hopen hinside
    exact .multiLiteral hopen hinside
  | escaped => exact .basic (.of_chars fun c _ => basicChar_escapeAny c)
  | multiEscaped hfeed h =>
    rw [openingFeed, if_pos hfeed]
    exact .multiBasic .feed (.of_escapesLines h)

/-! ### Documents in their form -/

theorem WritesValue.spells {value : Value} (h : WritesValue value s) : SpellsValue s value := by
  cases h with
  | string h => exact .string h.spells
  | integer h => exact .integer h

theorem WritesEntries.spells {entries : Entries} {lines : Text} (h : WritesEntries entries lines)
    (hkeys : ∀ pair ∈ entries, IsBareKey pair.1) : SpellsEntries lines entries := by
  induction h with
  | nil => exact .nil
  | cons hvalue _ ih =>
    obtain ⟨hkey, hkeys⟩ := List.forall_mem_cons.1 hkeys
    exact .pair hkey hvalue.spells (ih hkeys)

/-- A blank line may come behind the lines of a section. -/
theorem SpellsEntries.append_blank {entries : Entries} {lines : Text}
    (h : SpellsEntries lines entries) : SpellsEntries (lines ++ ['\n']) entries := by
  induction h with
  | nil => exact .blank .nil
  | blank _ ih => exact .blank ih
  | pair hkey hvalue _ ih =>
    rw [List.append_assoc, List.cons_append]
    exact .pair hkey hvalue ih

/-- Each document that is written in the forms is one of the grammar. -/
theorem WritesSections.spells {sections : List (Text × Entries)} {text : Text}
    (h : WritesSections sections text)
    (hkeys : ∀ part ∈ sections, IsBareKey part.1 ∧ ∀ pair ∈ part.2, IsBareKey pair.1) :
    SpellsSections text sections := by
  induction h with
  | nil => exact .nil
  | @last name lines entries hentries =>
    obtain ⟨hname, hpairs⟩ := hkeys _ List.mem_cons_self
    rw [← List.append_nil (_ ++ lines)]
    exact .cons hname (hentries.spells hpairs) .nil
  | @cons name lines rest entries next more hentries _ ih =>
    obtain ⟨⟨hname, hpairs⟩, hmore⟩ := List.forall_mem_cons.1 hkeys
    rw [List.append_cons, List.append_assoc _ lines]
    exact .cons hname (hentries.spells hpairs).append_blank (ih hmore)

end StellaGo.Toml
