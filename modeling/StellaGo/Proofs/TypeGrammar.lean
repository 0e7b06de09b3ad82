import StellaGo.Proofs.RequiredTypes
import StellaGo.Proofs.TypeSpelling

/-! Types read by choice. Defined here: readers that take a beginning of a text each, a choice between
them that stands by the first one that can read, and the types of the texts that it takes whole.
Proved: these are the types that a whole text spells, whichever beginning a reader might have stopped
at. So the types that are read are known from their spellings, and so is what is noted of them. -/

namespace StellaGo

namespace TypeReader

open ValueType (SpellsSize SpellsField Spells)

variable {α : Type} {t rest : Text}

/-! ### Readers of a beginning -/

/-- One or more such characters, as many as there are. -/
def run (p : Char → Bool) (t : Text) : Option (Text × Text) :=
  if t.takeWhile p = [] then none else some (t.takeWhile p, t.dropWhile p)

def char (c : Char) : Text → Option Text
  | [] => none
  | d :: rest => if d = c then some rest else none

/-- What follows the spaces and tabs. -/
def spaces (t : Text) : Text := t.dropWhile isSpace

/-- As many times as it can read, each time behind the last one. -/
def repeated (read : Text → Option (α × Text)) (t : Text) : List α × Text :=
  match read t with
  | none => ([], t)
  | some (a, rest) =>
    if rest.length < t.length then
      (a :: (repeated read rest).1, (repeated read rest).2)
    else ([], t)
termination_by t.length

def element (t : Text) : Option (Primitive × Text) := do
  let (word, rest) ← run Char.isAlpha t
  let p ← ValueType.element? word
  return (p, rest)

def io (t : Text) : Option (Primitive × Text) := do
  let (word, rest) ← run Char.isAlpha t
  if word = Primitive.io.keyword.toList then return (.io, rest) else none

/-- A size that a word does not hold is not read. -/
def size (t : Text) : Option (Nat × Text) := do
  let rest ← char '[' t
  let (digits, rest) ← run Char.isDigit rest
  let n ← Text.toNatBelow? Text.wordSize digits
  let rest ← char ']' rest
  return (n, rest)

def array (t : Text) : Option (ArrayType × Text) := do
  let (base, rest) ← element t
  match repeated size rest with
  | ([], _) => none
  | (sizes, rest) => return (⟨base, sizes⟩, rest)

/-- A comma with spaces around it, and a field. -/
def nextField (t : Text) : Option (Primitive × Text) := do
  let rest ← char ',' (spaces t)
  element (spaces rest)

def tuple (t : Text) : Option (TupleType × Text) := do
  let rest ← char '(' t
  let (first, rest) ← element (spaces rest)
  let (others, rest) := repeated nextField rest
  let rest ← char ')' (spaces rest)
  return (⟨first :: others⟩, rest)

/-- The first of the readers that can read. -/
def choice (t : Text) : Option (ValueType × Text) :=
  ((tuple t).map fun (type, rest) => (.tuple type, rest)) <|>
    ((array t).map fun (type, rest) => (.array type, rest)) <|>
    ((element t).map fun (p, rest) => (.primitive p, rest)) <|>
    (io t).map fun (p, rest) => (.primitive p, rest)

/-- The type of a text that is taken whole. -/
def whole? (t : Text) : Option ValueType :=
  match choice t with
  | some (type, []) => some type
  | _ => none

/-! ### What they read -/

theorem run_eq_some_iff {p : Char → Bool} {word : Text} :
    run p t = some (word, rest) ↔
      word ≠ [] ∧ (∀ c ∈ word, p c) ∧ t = word ++ rest ∧ ∀ c ∈ rest.head?, ¬ p c := by
  rw [run]
  constructor
  · intro h
    split at h
    · cases h
    · next hne =>
      cases h
      refine ⟨hne, fun c hc => List.mem_takeWhile_imp hc, List.takeWhile_append_dropWhile.symm,
        fun c hc => ?_⟩
      have hhead := List.head?_dropWhile_not p t
      rw [Option.mem_def.1 hc] at hhead
      simpa using hhead
  · rintro ⟨hne, hall, rfl, hhead⟩
    have hrest : rest.takeWhile p = [] ∧ rest.dropWhile p = rest := by
      cases rest with
      | nil => exact ⟨rfl, rfl⟩
      | cons c more =>
        have hc := hhead c rfl
        exact ⟨List.takeWhile_cons_of_neg hc, List.dropWhile_cons_of_neg hc⟩
    rw [List.takeWhile_append_of_pos hall, List.dropWhile_append_of_pos hall, hrest.1, hrest.2,
      List.append_nil, if_neg hne]

theorem char_eq_some_iff {c : Char} : char c t = some rest ↔ t = c :: rest := by
  cases t with
  | nil => exact ⟨nofun, nofun⟩
  | cons d more => simp [char]

theorem spaces_append {before : Text} {c : Char} (hbefore : ∀ d ∈ before, isSpace d)
    (hc : isSpace c = false) : spaces (before ++ c :: t) = c :: t := by
  rw [spaces, List.dropWhile_append_of_pos hbefore, List.dropWhile_cons_of_neg (by simp [hc])]

theorem exists_before_spaces (t : Text) :
    ∃ before, t = before ++ spaces t ∧ ∀ c ∈ before, isSpace c :=
  ⟨t.takeWhile isSpace, List.takeWhile_append_dropWhile.symm, fun _ hc => List.mem_takeWhile_imp hc⟩

theorem repeated_of_none {read : Text → Option (α × Text)} (h : read t = none) :
    repeated read t = ([], t) := by
  rw [repeated, h]

theorem repeated_of_some {read : Text → Option (α × Text)} {a : α} (h : read t = some (a, rest))
    (hlt : rest.length < t.length) :
    repeated read t = (a :: (repeated read rest).1, (repeated read rest).2) := by
  rw [repeated, h]
  exact if_pos hlt

theorem element_eq_some_iff {p : Primitive} :
    element t = some (p, rest) ↔
      p ≠ .io ∧ t = p.keyword.toList ++ rest ∧ ∀ c ∈ rest.head?, ¬ c.isAlpha := by
  constructor
  · intro h
    obtain ⟨⟨word, more⟩, hrun, h⟩ := Option.bind_eq_some_iff.1 h
    obtain ⟨p, hp, h⟩ := Option.bind_eq_some_iff.1 h
    cases h
    obtain ⟨-, -, rfl, hhead⟩ := run_eq_some_iff.1 hrun
    obtain ⟨hio, rfl⟩ := ValueType.element?_eq_some_iff.1 hp
    exact ⟨hio, rfl, hhead⟩
  · rintro ⟨hio, rfl, hhead⟩
    have hne : p.keyword.toList ≠ [] := by cases p <;> decide
    have hrun := run_eq_some_iff.2 ⟨hne, p.isAlpha_of_mem_keyword, rfl, hhead⟩
    have hword := ValueType.element?_eq_some_iff.2 ⟨hio, rfl⟩
    simp only [element, hrun, hword, Option.bind_eq_bind, Option.bind_some]
    rfl

theorem io_eq_some_iff {p : Primitive} :
    io t = some (p, rest) ↔
      p = .io ∧ t = p.keyword.toList ++ rest ∧ ∀ c ∈ rest.head?, ¬ c.isAlpha := by
  constructor
  · intro h
    obtain ⟨⟨word, more⟩, hrun, hio⟩ := Option.bind_eq_some_iff.1 h
    obtain ⟨-, -, rfl, hhead⟩ := run_eq_some_iff.1 hrun
    by_cases hword : word = Primitive.io.keyword.toList
    · simp only [if_pos hword] at hio
      cases hio
      exact ⟨rfl, by rw [hword], hhead⟩
    · simp only [if_neg hword] at hio
      cases hio
  · rintro ⟨rfl, rfl, hhead⟩
    have hne : Primitive.io.keyword.toList ≠ [] := by decide
    have hrun := run_eq_some_iff.2 ⟨hne, Primitive.io.isAlpha_of_mem_keyword, rfl, hhead⟩
    simp only [io, hrun, Option.bind_eq_bind, Option.bind_some, if_true]
    rfl

theorem size_eq_some_iff {n : Nat} :
    size t = some (n, rest) ↔ n < Text.wordSize ∧ ∃ text, t = text ++ rest ∧ SpellsSize text n := by
  constructor
  · intro h
    obtain ⟨inner, hinner, h⟩ := Option.bind_eq_some_iff.1 h
    obtain ⟨⟨digits, behind⟩, hrun, h⟩ := Option.bind_eq_some_iff.1 h
    obtain ⟨size, hsize, h⟩ := Option.bind_eq_some_iff.1 h
    obtain ⟨more, hmore, h⟩ := Option.bind_eq_some_iff.1 h
    cases h
    obtain rfl := char_eq_some_iff.1 hinner
    obtain ⟨-, -, rfl, -⟩ := run_eq_some_iff.1 hrun
    obtain rfl := char_eq_some_iff.1 hmore
    obtain ⟨hvalue, hlt⟩ := Option.filter_eq_some_iff.1 hsize
    obtain ⟨zeros, rfl⟩ := Text.toNat?_eq_some_iff.1 hvalue
    exact ⟨of_decide_eq_true hlt, _, by simp, zeros, rfl⟩
  · rintro ⟨hlt, text, rfl, hspells⟩
    obtain ⟨digits, hdigits, hvalue, htext⟩ := hspells.exists_digits
    have hne : digits ≠ [] := by
      rintro rfl
      cases hvalue
    have hclose : ∀ c ∈ (']' :: rest).head?, ¬ c.isDigit := by
      intro c hc
      cases hc
      decide
    have hrun := run_eq_some_iff.2 ⟨hne, hdigits, rfl, hclose⟩
    have hbelow : Text.toNatBelow? Text.wordSize digits = some n :=
      Option.filter_eq_some_iff.2 ⟨hvalue, decide_eq_true hlt⟩
    have hopens : char '[' ('[' :: (digits ++ ']' :: rest)) = some (digits ++ ']' :: rest) :=
      char_eq_some_iff.2 rfl
    have hcloses : char ']' (']' :: rest) = some rest := char_eq_some_iff.2 rfl
    simp only [htext, size, hopens, hrun, hbelow, hcloses, Option.bind_eq_bind, Option.bind_some]
    rfl

/-! ### Sizes -/

theorem sizes_of_repeated {sizes : List Nat} (h : repeated size t = (sizes, rest)) :
    (∀ n ∈ sizes, n < Text.wordSize) ∧
      ∃ texts : List Text, t = texts.flatten ++ rest ∧ List.Forall₂ SpellsSize texts sizes := by
  fun_induction repeated size t generalizing sizes with
  | case1 =>
    cases h
    exact ⟨nofun, [], rfl, .nil⟩
  | case2 t n more hread _ ih =>
    cases h
    obtain ⟨hlt, text, rfl, hspells⟩ := size_eq_some_iff.1 hread
    obtain ⟨hbounds, texts, hmore, hothers⟩ := ih rfl
    refine ⟨List.forall_mem_cons.2 ⟨hlt, hbounds⟩, text :: texts, ?_, .cons hspells hothers⟩
    rw [List.flatten_cons, List.append_assoc, ← hmore]
  | case3 t n more hread hle =>
    -- a size takes some of the text
    obtain ⟨-, text, rfl, zeros, rfl⟩ := size_eq_some_iff.1 hread
    simp only [List.length_cons, List.length_append] at hle
    omega

theorem repeated_sizes {texts : List Text} {sizes : List Nat} (hbounds : ∀ n ∈ sizes, n < Text.wordSize)
    (h : List.Forall₂ SpellsSize texts sizes) : repeated size texts.flatten = (sizes, []) := by
  induction h with
  | nil => exact repeated_of_none rfl
  | @cons text n texts sizes hspells _ ih =>
    obtain ⟨hlt, hothers⟩ := List.forall_mem_cons.1 hbounds
    have hread : size (text ++ texts.flatten) = some (n, texts.flatten) :=
      size_eq_some_iff.2 ⟨hlt, text, rfl, hspells⟩
    have hshorter : texts.flatten.length < (text ++ texts.flatten).length := by
      obtain ⟨zeros, rfl⟩ := hspells
      simp only [List.length_append, List.length_cons]
      omega
    rw [List.flatten_cons, repeated_of_some hread hshorter, ih hothers]

theorem array_eq_some_nil_iff {type : ArrayType} :
    array t = some (type, []) ↔ (ValueType.array type).IsWritable ∧ Spells t (.array type) := by
  constructor
  · intro h
    obtain ⟨⟨base, behind⟩, hbase, harray⟩ := Option.bind_eq_some_iff.1 h
    obtain ⟨hio, rfl, -⟩ := element_eq_some_iff.1 hbase
    obtain ⟨sizes, more, hsizes⟩ : ∃ sizes more, repeated size behind = (sizes, more) := ⟨_, _, rfl⟩
    cases sizes with
    | nil =>
      simp only [hsizes] at harray
      cases harray
    | cons n others =>
      simp only [hsizes] at harray
      cases harray
      obtain ⟨hbounds, texts, rfl, hspells⟩ := sizes_of_repeated hsizes
      rw [List.append_nil]
      exact ⟨⟨hio, List.cons_ne_nil _ _, hbounds⟩, @Spells.array ⟨base, n :: others⟩ texts hspells⟩
  · rintro ⟨⟨hio, hne, hbounds⟩, h⟩
    cases h with
    | @array type texts hspells =>
      have hbracket : ∀ c ∈ texts.flatten.head?, ¬ c.isAlpha := by
        intro c hc
        rw [ValueType.head?_sizes hspells c hc]
        decide
      have hbase := element_eq_some_iff.2 ⟨hio, rfl, hbracket⟩
      simp only [array, hbase, repeated_sizes hbounds hspells, Option.bind_eq_bind, Option.bind_some]
      rfl

/-! ### Fields -/

theorem exists_of_nextField {p : Primitive} (h : nextField t = some (p, rest)) :
    ∃ before between, t = before ++ ',' :: (between ++ p.keyword.toList ++ rest) ∧ p ≠ .io ∧
      (∀ c ∈ before, isSpace c) ∧ ∀ c ∈ between, isSpace c := by
  obtain ⟨inner, hinner, h⟩ := Option.bind_eq_some_iff.1 h
  obtain ⟨before, ht, hbefore⟩ := exists_before_spaces t
  obtain ⟨between, hbetween, hspaces⟩ := exists_before_spaces inner
  obtain ⟨hio, hword, -⟩ := element_eq_some_iff.1 h
  refine ⟨before, between, ?_, hio, hbefore, hspaces⟩
  rw [List.append_assoc, ← hword, ← hbetween, ← char_eq_some_iff.1 hinner]
  exact ht

/-- Fields behind the first one, each behind a comma. -/
def behind (fields : List Text) : Text := fields.flatMap (',' :: ·)

theorem intercalate_eq (first : Text) (others : List Text) :
    List.intercalate [','] (first :: others) = first ++ behind others :=
  Text.intercalate_cons_eq [','] first others

/-- The spaces at the end belong to the last field, and those in front to the field before. -/
theorem fields_of_repeated {fields : List Primitive} {last : Text} (hlast : ∀ c ∈ last, isSpace c)
    (h : repeated nextField t = (fields, last ++ rest)) :
    (∀ p ∈ fields, p ≠ .io) ∧ ∃ before texts, (∀ c ∈ before, isSpace c) ∧
      t = before ++ behind texts ++ rest ∧ List.Forall₂ SpellsField texts fields := by
  fun_induction repeated nextField t generalizing fields with
  | case1 =>
    cases h
    exact ⟨nofun, last, [], hlast, by simp [behind], .nil⟩
  | case2 t p more hread _ ih =>
    obtain ⟨hfields, hrest⟩ := Prod.mk.inj h
    subst hfields
    obtain ⟨before, between, rfl, hio, hbefore, hbetween⟩ := exists_of_nextField hread
    obtain ⟨hothers, after, texts, hafter, hmore, hspells⟩ := ih (Prod.ext rfl hrest)
    refine ⟨List.forall_mem_cons.2 ⟨hio, hothers⟩, before,
      (between ++ p.keyword.toList ++ after) :: texts, hbefore, ?_,
      .cons ⟨between, after, rfl, hbetween, hafter⟩ hspells⟩
    rw [hmore]
    simp [behind]
  | case3 t p more hread hle =>
    -- a field takes some of the text
    obtain ⟨before, between, rfl, -⟩ := exists_of_nextField hread
    simp only [List.length_cons, List.length_append] at hle
    omega

/-- The character behind a field is no letter. -/
theorem head?_behind {after : Text} {texts : List Text} (hafter : ∀ c ∈ after, isSpace c) (rest : Text) :
    ∀ c ∈ (after ++ (behind texts ++ ')' :: rest)).head?, ¬ c.isAlpha := by
  intro c hc
  have hcases : isSpace c ∨ c = ',' ∨ c = ')' := by
    cases after with
    | cons d more =>
      cases hc
      exact .inl (hafter _ List.mem_cons_self)
    | nil =>
      cases texts with
      | cons text others =>
        cases hc
        exact .inr (.inl rfl)
      | nil =>
        cases hc
        exact .inr (.inr rfl)
  rcases hcases with hspace | rfl | rfl
  · rw [isSpace, Bool.or_eq_true, beq_iff_eq, beq_iff_eq] at hspace
    rcases hspace with rfl | rfl <;> decide
  · decide
  · decide

theorem element_spaces {p : Primitive} {before : Text} (hio : p ≠ .io)
    (hbefore : ∀ c ∈ before, isSpace c) (hrest : ∀ c ∈ rest.head?, ¬ c.isAlpha) :
    element (spaces (before ++ p.keyword.toList ++ rest)) = some (p, rest) := by
  obtain ⟨c, word, hword, hc⟩ : ∃ c word, p.keyword.toList = c :: word ∧ isSpace c = false := by
    cases p <;> exact ⟨_, _, rfl, by decide⟩
  have hstart : spaces (before ++ p.keyword.toList ++ rest) = p.keyword.toList ++ rest := by
    rw [List.append_assoc, hword, List.cons_append, spaces_append hbefore hc]
  rw [hstart]
  exact element_eq_some_iff.2 ⟨hio, rfl, hrest⟩

theorem repeated_fields {texts : List Text} {fields : List Primitive} {before : Text}
    (hio : ∀ p ∈ fields, p ≠ .io) (h : List.Forall₂ SpellsField texts fields)
    (hbefore : ∀ c ∈ before, isSpace c) (rest : Text) :
    ∃ last, (∀ c ∈ last, isSpace c) ∧
      repeated nextField (before ++ (behind texts ++ ')' :: rest)) = (fields, last ++ ')' :: rest) := by
  induction h generalizing before with
  | nil =>
    have hend : spaces (before ++ ')' :: rest) = ')' :: rest := spaces_append hbefore (by decide)
    have hcomma : char ',' (')' :: rest) = none := by simp [char]
    refine ⟨before, hbefore, repeated_of_none ?_⟩
    rw [behind, List.flatMap_nil, List.nil_append, nextField, hend, hcomma]
    rfl
  | @cons text p texts fields hspells _ ih =>
    obtain ⟨hfirst, hothers⟩ := List.forall_mem_cons.1 hio
    obtain ⟨between, after, rfl, hbetween, hafter⟩ := hspells
    obtain ⟨last, hlast, hrepeated⟩ := ih hothers hafter
    have hnext : nextField (before ++ ',' :: (between ++ p.keyword.toList ++
        (after ++ (behind texts ++ ')' :: rest)))) = some (p, after ++ (behind texts ++ ')' :: rest)) := by
      rw [nextField, spaces_append hbefore (by decide), char_eq_some_iff.2 rfl]
      exact element_spaces hfirst hbetween (head?_behind hafter rest)
    refine ⟨last, hlast, ?_⟩
    have htext : before ++ (behind ((between ++ p.keyword.toList ++ after) :: texts) ++ ')' :: rest) =
        before ++ ',' :: (between ++ p.keyword.toList ++ (after ++ (behind texts ++ ')' :: rest))) := by
      simp [behind]
    rw [htext, repeated_of_some hnext, hrepeated]
    simp only [List.length_append, List.length_cons]
    omega

theorem tuple_eq_some_nil_iff {type : TupleType} :
    tuple t = some (type, []) ↔ (ValueType.tuple type).IsWritable ∧ Spells t (.tuple type) := by
  constructor
  · intro h
    obtain ⟨inner, hopens, h⟩ := Option.bind_eq_some_iff.1 h
    obtain ⟨⟨first, more⟩, hfirst, h⟩ := Option.bind_eq_some_iff.1 h
    obtain ⟨last, hcloses, h⟩ := Option.bind_eq_some_iff.1 h
    cases h
    obtain rfl := char_eq_some_iff.1 hopens
    obtain ⟨hio, hword, -⟩ := element_eq_some_iff.1 hfirst
    obtain ⟨before, hinner, hbefore⟩ := exists_before_spaces inner
    obtain ⟨behindLast, hlast, hspaces⟩ := exists_before_spaces (repeated nextField more).2
    rw [char_eq_some_iff.1 hcloses] at hlast
    obtain ⟨hothers, after, texts, hafter, rfl, hspells⟩ :=
      fields_of_repeated hspaces (Prod.ext rfl hlast)
    have htext : '(' :: inner = '(' :: (List.intercalate [',']
        ((before ++ first.keyword.toList ++ after) :: texts) ++ [')']) := by
      rw [hinner, hword, intercalate_eq]
      simp only [List.append_assoc]
    rw [htext]
    exact ⟨⟨List.cons_ne_nil _ _, List.forall_mem_cons.2 ⟨hio, hothers⟩⟩,
      .tuple (.cons ⟨before, after, rfl, hbefore, hafter⟩ hspells)⟩
  · rintro ⟨⟨hne, hio⟩, h⟩
    cases h with
    | @tuple type texts hspells =>
      obtain ⟨fields⟩ := type
      cases hspells with
      | nil => exact absurd rfl hne
      | @cons text first others fields hfirst hothers =>
        obtain ⟨before, after, rfl, hbefore, hafter⟩ := hfirst
        obtain ⟨hioFirst, hioOthers⟩ := List.forall_mem_cons.1 hio
        obtain ⟨last, hlast, hrepeated⟩ := repeated_fields hioOthers hothers hafter []
        have hopens (rest : Text) : char '(' ('(' :: rest) = some rest := char_eq_some_iff.2 rfl
        have hletters : ∀ c ∈ (after ++ (behind others ++ [')'])).head?, ¬ c.isAlpha :=
          head?_behind hafter []
        have helement := element_spaces hioFirst hbefore hletters
        have hcloses : char ')' (spaces (last ++ [')'])) = some [] := by
          rw [spaces_append hlast (by decide), char_eq_some_iff]
        rw [intercalate_eq]
        simp only [List.append_assoc] at helement hrepeated ⊢
        simp only [tuple, hopens, helement, hrepeated, hcloses, Option.bind_eq_bind, Option.bind_some]
        rfl

/-! ### The first reader that can read -/

theorem tuple_keyword (p : Primitive) (rest : Text) : tuple (p.keyword.toList ++ rest) = none := by
  cases p <;> rfl

theorem array_keyword (p : Primitive) : array p.keyword.toList = none := by
  cases helement : element p.keyword.toList with
  | none => rw [array, helement]; rfl
  | some read =>
    obtain ⟨base, rest⟩ := read
    obtain ⟨-, hword, -⟩ := element_eq_some_iff.1 helement
    -- letters are no size, also those that a shorter keyword leaves
    have hnone : size rest = none := by
      cases hsize : size rest with
      | none => rfl
      | some found =>
        obtain ⟨-, text, rfl, zeros, rfl⟩ := size_eq_some_iff.1 hsize
        have hbracket : '[' ∈ p.keyword.toList := by simp [hword]
        exact absurd (p.isAlpha_of_mem_keyword _ hbracket) (by decide)
    simp only [array, helement, repeated_of_none hnone, Option.bind_eq_bind, Option.bind_some]

theorem choice_of_tuple {type : TupleType} (h : tuple t = some (type, rest)) :
    choice t = some (.tuple type, rest) := by
  rw [choice, h]
  rfl

theorem choice_of_array {type : ArrayType} (htuple : tuple t = none)
    (h : array t = some (type, rest)) : choice t = some (.array type, rest) := by
  rw [choice, htuple, h]
  rfl

theorem choice_of_none (htuple : tuple t = none) (harray : array t = none) :
    choice t =
      (((element t).map fun (p, rest) => (.primitive p, rest)) <|>
        (io t).map fun (p, rest) => (.primitive p, rest)) := by
  rw [choice, htuple, harray]
  rfl

/-- The choice stands by its first reader, but no text is spelled for two. -/
theorem whole?_eq_some_iff {type : ValueType} :
    whole? t = some type ↔ type.IsWritable ∧ Spells t type := by
  have hwhole : whole? t = some type ↔ choice t = some (type, []) := by
    rw [whole?]
    split
    · next h => simp [h]
    · next hne => exact ⟨nofun, fun h => absurd h (hne type)⟩
  rw [hwhole]
  constructor
  · intro h
    cases htuple : tuple t with
    | some read =>
      obtain ⟨found, rest⟩ := read
      cases (choice_of_tuple htuple).symm.trans h
      exact tuple_eq_some_nil_iff.1 htuple
    | none =>
      cases harray : array t with
      | some read =>
        obtain ⟨found, rest⟩ := read
        cases (choice_of_array htuple harray).symm.trans h
        exact array_eq_some_nil_iff.1 harray
      | none =>
        rw [choice_of_none htuple harray] at h
        cases helement : element t with
        | some read =>
          obtain ⟨p, rest⟩ := read
          rw [helement] at h
          cases h
          obtain ⟨-, rfl, -⟩ := element_eq_some_iff.1 helement
          rw [List.append_nil]
          exact ⟨trivial, .primitive _⟩
        | none =>
          rw [helement] at h
          obtain ⟨⟨p, rest⟩, hio, heq⟩ := Option.map_eq_some_iff.1 h
          cases heq
          obtain ⟨-, rfl, -⟩ := io_eq_some_iff.1 hio
          rw [List.append_nil]
          exact ⟨trivial, .primitive _⟩
  · rintro ⟨hw, h⟩
    cases type with
    | tuple type => exact choice_of_tuple (tuple_eq_some_nil_iff.2 ⟨hw, h⟩)
    | array type =>
      have hread := array_eq_some_nil_iff.2 ⟨hw, h⟩
      cases h
      exact choice_of_array (tuple_keyword _ _) hread
    | primitive p =>
      cases h
      have htuple := tuple_keyword p []
      rw [List.append_nil] at htuple
      rw [choice_of_none htuple (array_keyword p)]
      cases p <;> rfl

/-- The readers and the cuts of the text find the same types. -/
theorem whole?_eq (t : Text) : whole? t = ValueType.read? t :=
  Option.ext fun _ => whole?_eq_some_iff.trans ValueType.read?_eq_some_iff.symm

/-- The second size, which no word holds, is left, so the whole is no type. -/
example :
    choice "int[2][99999999999999999999]".toList =
        some (.array ⟨.int, [2]⟩, "[99999999999999999999]".toList) ∧
      whole? "int[2][99999999999999999999]".toList = none := by
  decide +kernel

end TypeReader

/-! ### Types that are noted -/

namespace Requirements

open ValueType (Spells spells_written trim_written)

variable (r : Requirements) (text : Text)

theorem readType_eq_ok_iff {type : ValueType} :
    (r.readType text).1 = .ok type ↔ type.IsWritable ∧ Spells text.trim type := by
  rw [← ValueType.read?_eq_some_iff, readType]
  cases ValueType.read? text.trim <;> simp

theorem readType_error {fault : Fault} (h : (r.readType text).1 = .error fault) :
    (r.readType text).2 = r := by
  rw [readType] at h ⊢
  split
  · next hread =>
    rw [hread] at h
    cases h
  · rfl

/-- The arity of a tuple type is noted, and nothing else. -/
theorem readType_notes :
    (r.readType text).2.usesFmt = r.usesFmt ∧
      (∀ n, n ∈ (r.readType text).2.arities ↔
        n ∈ r.arities ∨ ∃ type, (r.readType text).1 = .ok (.tuple type) ∧ n = type.arity) ∧
      ((∀ type, (r.readType text).1 ≠ .ok (.tuple type)) → (r.readType text).2 = r) := by
  cases hread : (r.readType text).1 with
  | error fault =>
    rw [readType_error r text hread]
    exact ⟨rfl, by simp, fun _ => rfl⟩
  | ok type =>
    rw [readType_snd hread]
    cases type with
    | tuple type =>
      exact ⟨rfl, by simp [addType, addTuple, mem_insertAscending], fun h => absurd rfl (h type)⟩
    | primitive | array => exact ⟨rfl, by simp [addType], fun _ => rfl⟩

/-- A type that can be written is read from its written form, and the texts from which it is read are
those that spell it, whichever of the readers comes first. The arity of a tuple type is noted, and
nothing else, also when no type is read. -/
theorem readType_spells :
    (∀ type : ValueType, type.IsWritable → r.readType type.written = (.ok type, r.addType type)) ∧
      (∀ type : ValueType,
        (r.readType text).1 = .ok type ↔ type.IsWritable ∧ Spells text.trim type) ∧
      TypeReader.whole? text.trim = ValueType.read? text.trim ∧
      (r.readType text).2.usesFmt = r.usesFmt ∧
      (∀ n, n ∈ (r.readType text).2.arities ↔
        n ∈ r.arities ∨ ∃ type, (r.readType text).1 = .ok (.tuple type) ∧ n = type.arity) ∧
      ((∀ type, (r.readType text).1 ≠ .ok (.tuple type)) → (r.readType text).2 = r) := by
  refine ⟨fun type hw => ?_, fun _ => readType_eq_ok_iff r text, TypeReader.whole?_eq _,
    readType_notes r text⟩
  have hread : (r.readType type.written).1 = .ok type :=
    (readType_eq_ok_iff r _).2 ⟨hw, (trim_written type).symm ▸ spells_written type⟩
  exact Prod.ext hread (readType_snd hread)

theorem readType_spells_grid :
    (ValueType.array ⟨.int, [3, 10]⟩).IsWritable ∧
      Requirements.empty.readType "int[3][10]".toList =
        (.ok (.array ⟨.int, [3, 10]⟩), Requirements.empty) := by
  have hw : (ValueType.array ⟨.int, [3, 10]⟩).IsWritable := ⟨by decide, by decide, by decide⟩
  exact ⟨hw, (readType_spells .empty []).1 _ hw⟩

end Requirements

end StellaGo
