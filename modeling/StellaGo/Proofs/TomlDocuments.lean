import Mathlib.Data.List.Nodup
import StellaGo.Proofs.QuotedStrings
import StellaGo.Proofs.TextParts
import StellaGo.Toml.Writer

/-! Documents of TOML, read and written by the library of the program. Proved: the digits of a
number are read as an integer, not as a date, a time or a float; a key with its value and a header
in brackets are read off their lines; the statements of sections build a table that holds the
sections; and so the library reads the documents of the grammar, and writes its own in the forms. -/

namespace StellaGo

/-! ### Digits -/

namespace Text

theorem isDigit_of_mem_ofNat {n : Nat} {c : Char} (h : c ∈ ofNat n) : c.isDigit :=
  Nat.isDigit_of_mem_toDigits (by decide) (by decide) h

/-- Only zero is written with a zero in front. -/
theorem head?_ofNat_ne {n : Nat} (h : n ≠ 0) : (ofNat n).head? ≠ some '0' := by
  induction n using Nat.strongRecOn with
  | ind n ih =>
    rw [ofNat, Nat.toDigits_eq_if (by decide)]
    split
    · next hn =>
      have hdigit : ∀ n < 10, n ≠ 0 → Nat.digitChar n ≠ '0' := by decide
      simpa using hdigit n hn h
    · next hn =>
      rw [List.head?_append_of_ne_nil _ Nat.toDigits_ne_nil]
      exact ih (n / 10) (by omega) (by omega)

theorem after?_of_head? {t : Text} (start : String) {c : Char}
    (hstart : start.toList.head? = some c) (h : t.head? ≠ some c) : t.after? start = none := by
  refine Option.eq_none_iff_forall_ne_some.2 fun rest hrest => h ?_
  rw [after?_eq_some_iff.1 hrest, List.head?_append, hstart]
  rfl

end Text

namespace Toml

variable {digits rest t : Text}

theorem digits?_append (hdigits : ∀ c ∈ digits, c.isDigit) (hne : digits ≠ []) :
    digits? Char.isDigit (digits ++ '\n' :: rest) = some (digits, '\n' :: rest) := by
  induction digits with
  | nil => exact absurd rfl hne
  | cons c digits ih =>
    obtain ⟨hc, hdigits⟩ := List.forall_mem_cons.1 hdigits
    cases digits with
    | nil => simp [digits?, hc]
    | cons d digits =>
      have hd := hdigits d List.mem_cons_self
      have hunderscore : d ≠ '_' := by
        rintro rfl
        exact absurd hd (by decide)
      have htail := ih hdigits (List.cons_ne_nil _ _)
      rw [List.cons_append] at htail
      simp [digits?, hc, hd, hunderscore, htail]

theorem wholeDigits?_ofNat (n : Nat) :
    wholeDigits? (Text.ofNat n ++ '\n' :: rest) = some (Text.ofNat n, '\n' :: rest) := by
  by_cases hn : n = 0
  · subst hn
    rfl
  · have hhead := Text.head?_ofNat_ne hn
    rw [wholeDigits?.eq_def]
    split
    · next heq =>
      cases hdigits : Text.ofNat n with
      | nil => exact absurd hdigits Nat.toDigits_ne_nil
      | cons c cs =>
        rw [hdigits, List.cons_append] at heq
        rw [hdigits, (List.cons.inj heq).1] at hhead
        exact absurd rfl hhead
    · exact digits?_append (fun c hc => Text.isDigit_of_mem_ofNat hc) Nat.toDigits_ne_nil

theorem head?_digits_ne (hdigits : ∀ c ∈ digits, c.isDigit) (rest : Text) {c : Char}
    (hc : c.isDigit = false) (hfeed : c ≠ '\n') : (digits ++ '\n' :: rest).head? ≠ some c := by
  cases digits with
  | nil => simpa using hfeed.symm
  | cons d digits =>
    rw [List.cons_append, List.head?_cons, ne_eq, Option.some.injEq]
    rintro rfl
    rw [hdigits d List.mem_cons_self] at hc
    cases hc

/-- A field of a date or a time takes digits only, and leaves digits. -/
theorem exists_of_field? {width low high k : Nat} (hdigits : ∀ c ∈ digits, c.isDigit)
    (h : field? width low high (digits ++ '\n' :: rest) = some (k, t)) :
    ∃ more, (∀ c ∈ more, c.isDigit) ∧ t = more ++ '\n' :: rest := by
  simp only [field?, Option.bind_eq_bind, Option.bind_eq_some_iff] at h
  obtain ⟨m, hm, h⟩ := h
  split at h
  case isFalse => cases h
  cases h
  have hall : ((digits ++ '\n' :: rest).take width).all Char.isDigit := by
    rw [Text.toNat?] at hm
    split at hm
    · next hcond => exact hcond.2
    · cases hm
  have hwidth : width ≤ digits.length := by
    by_contra hlong
    obtain ⟨k, hk⟩ : ∃ k, width - digits.length = k + 1 := ⟨width - digits.length - 1, by omega⟩
    have hfeed : '\n' ∈ (digits ++ '\n' :: rest).take width := by
      rw [List.take_append, hk, List.take_succ_cons]
      exact List.mem_append_right _ List.mem_cons_self
    exact absurd (List.all_eq_true.1 hall _ hfeed) (by decide)
  exact ⟨digits.drop width, fun c hc => hdigits c (List.mem_of_mem_drop hc),
    List.drop_append_of_le_length hwidth⟩

/-- Neither a hyphen nor a colon stands behind digits. -/
theorem after?_of_field? (mark : String) {c : Char} (hmark : mark.toList.head? = some c)
    (hc : c.isDigit = false) (hfeed : c ≠ '\n') {width low high : Nat} {read : Nat × Text}
    (hdigits : ∀ c ∈ digits, c.isDigit)
    (h : field? width low high (digits ++ '\n' :: rest) = some read) :
    read.2.after? mark = none := by
  obtain ⟨k, t⟩ := read
  obtain ⟨more, hmore, rfl⟩ := exists_of_field? hdigits h
  exact Text.after?_of_head? mark hmark (head?_digits_ne hmore rest hc hfeed)

theorem dateTime?_digits (hdigits : ∀ c ∈ digits, c.isDigit) :
    dateTime? (digits ++ '\n' :: rest) = none := by
  have hdate : date? (digits ++ '\n' :: rest) = none := by
    rw [date?]
    cases h : field? 4 0 9999 (digits ++ '\n' :: rest) with
    | none => rfl
    | some year => simp [after?_of_field? "-" rfl rfl (by decide) hdigits h]
  have htime : time? (digits ++ '\n' :: rest) = none := by
    rw [time?]
    cases h : field? 2 0 23 (digits ++ '\n' :: rest) with
    | none => rfl
    | some hour => simp [after?_of_field? ":" rfl rfl (by decide) hdigits h]
  simp [dateTime?, hdate, htime]

theorem dropSign_digits (hdigits : ∀ c ∈ digits, c.isDigit) :
    dropSign (digits ++ '\n' :: rest) = (false, digits ++ '\n' :: rest) := by
  have hminus := head?_digits_ne hdigits rest (c := '-') rfl (by decide)
  have hplus := head?_digits_ne hdigits rest (c := '+') rfl (by decide)
  rw [dropSign.eq_def]
  split <;> simp_all

theorem float?_ofNat (n : Nat) : float? (Text.ofNat n ++ '\n' :: rest) = none := by
  have hdigits : ∀ c ∈ Text.ofNat n, c.isDigit := fun c hc => Text.isDigit_of_mem_ofNat hc
  have hinf := Text.after?_of_head? "inf" rfl (head?_digits_ne hdigits rest rfl (by decide))
  have hnan := Text.after?_of_head? "nan" rfl (head?_digits_ne hdigits rest rfl (by decide))
  have hexponent : exponent? ('\n' :: rest) = none := rfl
  simp [float?, decimalFloat?, namedFloat?, dropSign_digits hdigits, wholeDigits?_ofNat, fraction?,
    hexponent, hinf, hnan]

/-- No letter behind a zero calls for another base than ten. -/
theorem integer?_ofNat_eq (n : Nat) :
    integer? (Text.ofNat n ++ '\n' :: rest) = (do
      let (negative, t) := dropSign (Text.ofNat n ++ '\n' :: rest)
      let (digits, rest) ← wholeDigits? t
      let value ← signedWord? negative (Nat.ofDigitChars 10 digits 0)
      some (value, rest)) := by
  by_cases hn : n = 0
  · subst hn
    rfl
  · have hhead : (Text.ofNat n ++ '\n' :: rest).head? ≠ some '0' := by
      rw [List.head?_append_of_ne_nil (Text.ofNat n) Nat.toDigits_ne_nil]
      exact Text.head?_ofNat_ne hn
    rw [integer?.eq_def]
    split <;> simp_all

theorem integer?_ofNat {n : Nat} (h : n < Text.signBound) :
    integer? (Text.ofNat n ++ '\n' :: rest) = some (.integer n, '\n' :: rest) := by
  have hdigits : ∀ c ∈ Text.ofNat n, c.isDigit := fun c hc => Text.isDigit_of_mem_ofNat hc
  have hvalue : Nat.ofDigitChars 10 (Text.ofNat n) 0 = n := Nat.ofDigitChars_ten_toDigits
  rw [integer?_ofNat_eq, dropSign_digits hdigits]
  simp [wholeDigits?_ofNat, hvalue, signedWord?, h]

/-! ### Values -/

theorem value?_string (depth : Nat) {s text : Text} (h : SpellsString s text) :
    value? (depth + 1) (s ++ '\n' :: rest) = some (.string text, '\n' :: rest) := by
  have hread : string? (s ++ '\n' :: rest) = some (text, '\n' :: rest) :=
    string?_of_spells h (by simp) (by simp)
  obtain ⟨c, more, rfl, hc⟩ := h.exists_cons
  rw [List.cons_append] at hread ⊢
  rcases hc with rfl | rfl <;> simp [value?, flatValue?, hread]

theorem value?_ofNat (depth : Nat) {n : Nat} (h : n < Text.signBound) :
    value? (depth + 1) (Text.ofNat n ++ '\n' :: rest) = some (.integer n, '\n' :: rest) := by
  have hdigits : ∀ c ∈ Text.ofNat n, c.isDigit := fun c hc => Text.isDigit_of_mem_ofNat hc
  have hhead {c : Char} (hc : c.isDigit = false) (hfeed : c ≠ '\n') :=
    head?_digits_ne hdigits rest hc hfeed
  have hstring : string? (Text.ofNat n ++ '\n' :: rest) = none := by
    have hquote := hhead (c := '"') rfl (by decide)
    have happostrophe := hhead (c := '\'') rfl (by decide)
    rw [string?.eq_def]
    split <;> simp_all
  have hscalar : scalar? (Text.ofNat n ++ '\n' :: rest) = some (.integer n, '\n' :: rest) := by
    simp [scalar?, dateTime?_digits hdigits, float?_ofNat, integer?_ofNat h]
  have hbracket := hhead (c := '[') rfl (by decide)
  have hbrace := hhead (c := '{') rfl (by decide)
  rw [value?.eq_def]
  simp only
  split <;> simp_all [flatValue?]

theorem value?_of_spells (depth : Nat) {s : Text} {value : Value} (h : SpellsValue s value) :
    value? (depth + 1) (s ++ '\n' :: rest) = some (value, '\n' :: rest) := by
  cases h with
  | string h => exact value?_string depth h
  | integer h => exact value?_ofNat depth h

theorem SpellsValue.head?_not_isSpace {s : Text} {value : Value} (h : SpellsValue s value) :
    ∀ c ∈ (s ++ '\n' :: rest).head?, isSpace c = false := by
  cases h with
  | string h =>
    obtain ⟨c, more, rfl, rfl | rfl⟩ := h.exists_cons <;> simp [isSpace]
  | @integer n h =>
    have hdigits : ∀ c ∈ Text.ofNat n, c.isDigit := fun c hc => Text.isDigit_of_mem_ofNat hc
    refine fun c hc => Bool.eq_false_iff.2 fun hspace => ?_
    rcases (by simpa [isSpace] using hspace : c = ' ' ∨ c = '\t') with rfl | rfl <;>
      exact absurd hc (head?_digits_ne hdigits rest rfl (by decide))

/-! ### Lines -/

variable {word : Text} {c : Char}

theorem IsBareKey.isBareKeyChar (h : IsBareKey word) : ∀ c ∈ word, isBareKeyChar c := by
  intro c hc
  have hchar := h.2 c hc
  simp only [Toml.isBareKeyChar, Bool.or_eq_true, beq_iff_eq]
  tauto

theorem head?_word_ne (hword : IsBareKey word) (rest : Text)
    (hc : isBareKeyChar c = false) : (word ++ rest).head? ≠ some c := by
  obtain ⟨d, word, rfl⟩ := List.exists_cons_of_ne_nil hword.1
  rw [List.cons_append, List.head?_cons, ne_eq, Option.some.injEq]
  rintro rfl
  rw [hword.isBareKeyChar d List.mem_cons_self] at hc
  cases hc

theorem keyPart?_word (hword : IsBareKey word)
    (hrest : ∀ c ∈ rest.head?, isBareKeyChar c = false) :
    keyPart? (word ++ rest) = some (word, rest) := by
  have hstop : rest.takeWhile isBareKeyChar = [] ∧ rest.dropWhile isBareKeyChar = rest := by
    cases rest with
    | nil => exact ⟨rfl, rfl⟩
    | cons c rest =>
      have hc := hrest c rfl
      simp [hc]
  have hbasic := head?_word_ne hword rest (c := '"') rfl
  have hliteral := head?_word_ne hword rest (c := '\'') rfl
  rw [keyPart?.eq_def]
  split
  · simp_all
  · simp_all
  · rw [List.takeWhile_append_of_pos hword.isBareKeyChar,
      List.dropWhile_append_of_pos hword.isBareKeyChar, hstop.1, hstop.2,
      List.append_nil]
    exact if_neg hword.1

theorem dropWhile_isSpace_word (hword : IsBareKey word) :
    (word ++ rest).dropWhile isSpace = word ++ rest := by
  obtain ⟨c, word, rfl⟩ := List.exists_cons_of_ne_nil hword.1
  refine List.dropWhile_cons_of_neg fun hspace => ?_
  have hc := hword.isBareKeyChar c List.mem_cons_self
  rcases (by simpa [isSpace] using hspace : c = ' ' ∨ c = '\t') with rfl | rfl <;>
    exact absurd hc (by decide)

/-- A bare word before something else than a point is a whole key. -/
theorem key?_word (hword : IsBareKey word)
    (hrest : ∀ c ∈ rest.head?, isBareKeyChar c = false)
    (hpoint : (rest.dropWhile isSpace).head? ≠ some '.') :
    key? (word ++ rest) = some (⟨[], word⟩, rest.dropWhile isSpace) := by
  have hparts : keyParts? (word ++ rest) = some ([word], rest.dropWhile isSpace) := by
    rw [keyParts?, dropWhile_isSpace_word hword, keyPart?_word hword hrest]
    simp only [Option.bind_eq_bind, Option.bind_some]
    split <;> simp_all
  rw [key?, hparts]
  rfl

theorem statement?_pair {text : Text} {value : Value} (hword : IsBareKey word)
    (hspace : ∀ c ∈ text.head?, isSpace c = false)
    (hvalue : value? (depthLimit - 1) text = some (value, rest)) :
    statement? (word ++ ' ' :: '=' :: ' ' :: text) = some (.pair ⟨[], word⟩ value, rest) := by
  have hkey : key? (word ++ ' ' :: '=' :: ' ' :: text) = some (⟨[], word⟩, '=' :: ' ' :: text) :=
    key?_word hword (by simp; rfl) (by simp [isSpace])
  have htext : (' ' :: text).dropWhile isSpace = text := by
    rw [List.dropWhile_cons_of_pos rfl]
    cases text with
    | nil => rfl
    | cons c text => exact List.dropWhile_cons_of_neg (Bool.eq_false_iff.1 (hspace c rfl))
  have hpair : pair? (value? (depthLimit - 1)) (word ++ ' ' :: '=' :: ' ' :: text) =
      some ((⟨[], word⟩, value), rest) := by
    have hequals : Text.after? "=" ('=' :: ' ' :: text) = some (' ' :: text) := rfl
    simp [pair?, hkey, hequals, htext, hvalue]
  have hbracket := head?_word_ne hword (' ' :: '=' :: ' ' :: text) (c := '[') rfl
  rw [statement?, dropWhile_isSpace_word hword]
  split
  · simp_all
  · simp_all
  · rw [hpair]
    rfl

theorem statement?_table (hword : IsBareKey word) :
    statement? ('[' :: (word ++ ']' :: rest)) = some (.table ⟨[], word⟩, rest) := by
  have hkey : key? (word ++ ']' :: rest) = some (⟨[], word⟩, ']' :: rest) :=
    key?_word hword (by simp; rfl) (by simp [isSpace])
  have hbracket := head?_word_ne hword (']' :: rest) (c := '[') rfl
  have hclose : Text.after? "]" (']' :: rest) = some rest := rfl
  rw [statement?, List.dropWhile_cons_of_neg (by decide)]
  split
  · next heq =>
    rw [(List.cons.inj heq).2] at hbracket
    exact absurd rfl hbracket
  · next heq =>
    obtain rfl := (List.cons.inj heq).2
    simp [hkey, hclose]
  · next hnone => exact absurd rfl (hnone _)

/-- A line that starts with a word or a bracket is not blank. -/
theorem endOfLine?_eq_none {c : Char} (hc : isBareKeyChar c ∨ c = '[') :
    endOfLine? (c :: t) = none := by
  have hne {d : Char} (hd : isBareKeyChar d = false) (hbracket : d ≠ '[') : c ≠ d := by
    rintro rfl
    exact hc.elim (fun h => by rw [hd] at h; cases h) hbracket
  have hspace : ¬ isSpace c := by
    simp [isSpace, hne (d := ' ') rfl (by decide), hne (d := '\t') rfl (by decide)]
  have hcomment := hne (d := '#') rfl (by decide)
  have hfeed := hne (d := '\n') rfl (by decide)
  have hreturn := hne (d := '\r') rfl (by decide)
  have hkept : dropComment (c :: t) = c :: t := by
    rw [dropComment.eq_def]
    split <;> simp_all
  rw [endOfLine?, List.dropWhile_cons_of_neg hspace, hkept]
  simp only
  rw [lineEnd?.eq_def]
  split <;> simp_all

/-- A statement on a line of its own comes before those of the lines behind it. -/
theorem statements?_line {c : Char} {s : Statement} (hc : isBareKeyChar c ∨ c = '[')
    (h : statement? (c :: t) = some (s, '\n' :: rest)) (hlt : rest.length < t.length) :
    statements? (c :: t) = (statements? rest).map (s :: ·) := by
  have hend : endOfLine? ('\n' :: rest) = some rest := rfl
  rw [statements?, if_neg (List.cons_ne_nil c t), endOfLine?_eq_none hc]
  have hshort : rest.length < (c :: t).length := Nat.lt_succ_of_lt hlt
  simp only [h, hend, Option.bind_eq_bind, Option.bind_some]
  rw [dif_pos hshort]
  exact Option.map_eq_bind.symm

theorem statements?_feed : statements? ('\n' :: rest) = statements? rest := by
  have hend : endOfLine? ('\n' :: rest) = some rest := rfl
  rw [statements?, if_neg (by simp)]
  simp [hend]

/-- A key with its value is the statement of its line. -/
theorem statements?_pair {text : Text} {value : Value} (hword : IsBareKey word)
    (hspace : ∀ c ∈ (text ++ '\n' :: rest).head?, isSpace c = false)
    (hvalue : value? (depthLimit - 1) (text ++ '\n' :: rest) = some (value, '\n' :: rest)) :
    statements? (word ++ ' ' :: '=' :: ' ' :: (text ++ '\n' :: rest)) =
      (statements? rest).map (.pair ⟨[], word⟩ value :: ·) := by
  have hstatement := statement?_pair hword hspace hvalue
  obtain ⟨c, word, rfl⟩ := List.exists_cons_of_ne_nil hword.1
  rw [List.cons_append] at hstatement ⊢
  refine statements?_line (.inl (hword.isBareKeyChar c List.mem_cons_self)) hstatement ?_
  simp only [List.length_append, List.length_cons]
  omega

theorem statements?_table (hword : IsBareKey word) :
    statements? ('[' :: (word ++ ']' :: '\n' :: rest)) =
      (statements? rest).map (.table ⟨[], word⟩ :: ·) := by
  refine statements?_line (.inr rfl) (statement?_table hword) ?_
  simp only [List.length_append, List.length_cons]
  omega

/-! ### Sections -/

/-- What the lines below a header state. -/
def Entries.statements (entries : Entries) : List Statement :=
  entries.map fun (key, value) => .pair ⟨[], key⟩ value

/-- What the lines of a section state. -/
def sectionStatements (part : Text × Entries) : List Statement :=
  .table ⟨[], part.1⟩ :: part.2.statements

theorem statements?_entries {lines : Text} {entries : Entries} (h : SpellsEntries lines entries)
    (rest : Text) :
    statements? (lines ++ rest) = (statements? rest).map (entries.statements ++ ·) := by
  induction h with
  | nil => exact Option.map_id'.symm
  | blank _ ih =>
    rw [List.cons_append, statements?_feed]
    exact ih
  | @pair key s lines value entries hkey hvalue _ ih =>
    have hspace : ∀ c ∈ (s ++ '\n' :: (lines ++ rest)).head?, isSpace c = false :=
      hvalue.head?_not_isSpace
    have hread := statements?_pair hkey hspace (value?_of_spells _ hvalue)
    have htext : key ++ " = ".toList ++ s ++ '\n' :: lines ++ rest =
        key ++ ' ' :: '=' :: ' ' :: (s ++ '\n' :: (lines ++ rest)) := by
      simp
    rw [htext, hread, ih, Option.map_map]
    rfl

theorem statements?_sections {text : Text} {sections : List (Text × Entries)}
    (h : SpellsSections text sections) :
    statements? text = some (sections.flatMap sectionStatements) := by
  induction h with
  | nil => rw [statements?, if_pos rfl, List.flatMap_nil]
  | @cons name lines rest entries more hname hentries _ ih =>
    have htext : '[' :: name ++ "]\n".toList ++ lines ++ rest =
        '[' :: (name ++ ']' :: '\n' :: (lines ++ rest)) := by
      simp
    rw [htext, statements?_table hname, statements?_entries hentries, ih]
    rfl

/-! ### Tables -/

namespace Entries

variable {entries : Entries} {key : Text} {old value : Value} {change : Option Value → Option Value}

theorem update?_of_notMem (h : key ∉ entries.map Prod.fst) :
    update? key change entries = (change none).map fun value => entries ++ [(key, value)] := by
  induction entries with
  | nil => rfl
  | cons entry rest ih =>
    rw [List.map_cons, List.mem_cons, not_or] at h
    rw [update?, if_neg (Ne.symm h.1), ih h.2, Option.map_map]
    rfl

theorem update?_append_singleton (h : key ∉ entries.map Prod.fst) :
    update? key change (entries ++ [(key, old)]) =
      (change (some old)).map fun value => entries ++ [(key, value)] := by
  induction entries with
  | nil => exact if_pos rfl
  | cons entry rest ih =>
    rw [List.map_cons, List.mem_cons, not_or] at h
    rw [List.cons_append, update?, if_neg (Ne.symm h.1), ih h.2, Option.map_map]
    rfl

theorem get?_of_mem (hkeys : (entries.map Prod.fst).Nodup) (h : (key, value) ∈ entries) :
    entries.get? key = some value := by
  induction entries with
  | nil => cases h
  | cons entry rest ih =>
    rw [List.map_cons, List.nodup_cons] at hkeys
    rcases List.mem_cons.1 h with rfl | h
    · exact List.lookup_cons_self
    · have hne : key ≠ entry.1 := fun heq =>
        hkeys.1 (heq ▸ List.mem_map.2 ⟨(key, value), h, rfl⟩)
      rw [get?, List.lookup_cons, beq_eq_false_iff_ne.2 hne]
      exact ih hkeys.2 h

theorem map_fst_ofSections (sections : List (Text × Entries)) :
    (ofSections sections).map Prod.fst = sections.map Prod.fst := by
  rw [ofSections, List.map_map]
  rfl

theorem holds_ofSections {sections : List (Text × Entries)} (h : DistinctKeys sections) :
    (ofSections sections).Holds sections := by
  intro part hpart
  refine ⟨.header, part.2, get?_of_mem ?_ (List.mem_map.2 ⟨part, hpart, rfl⟩), ?_⟩
  · rw [map_fst_ofSections]
    exact h.1
  · exact fun pair hpair => get?_of_mem (h.2 part hpart) hpair

end Entries

variable {root table : Entries} {name key : Text}

/-- A header opens a table under a new name. -/
theorem step?_table (current : List Text) (h : name ∉ root.map Prod.fst) :
    Draft.step? ⟨root, current⟩ (.table ⟨[], name⟩) =
      some ⟨root ++ [(name, .table .header [])], [name]⟩ := by
  simp [Draft.step?, Entries.openTable?, Entries.within?, Entries.update?_of_notMem h]

/-- A pair goes into the table that is open. -/
theorem step?_pair (value : Value) (hname : name ∉ root.map Prod.fst)
    (hkey : key ∉ table.map Prod.fst) :
    Draft.step? ⟨root ++ [(name, .table .header table)], [name]⟩ (.pair ⟨[], key⟩ value) =
      some ⟨root ++ [(name, .table .header (table ++ [(key, value)]))], [name]⟩ := by
  simp [Draft.step?, Entries.within?, Entries.putPair?, Entries.put?, Entries.add?,
    Entries.update?_append_singleton hname, Entries.update?_of_notMem hkey]

theorem foldlM_step?_entries {entries : Entries} (hname : name ∉ root.map Prod.fst)
    (hkeys : ((table ++ entries).map Prod.fst).Nodup) :
    entries.statements.foldlM Draft.step? ⟨root ++ [(name, .table .header table)], [name]⟩ =
      some ⟨root ++ [(name, .table .header (table ++ entries))], [name]⟩ := by
  induction entries generalizing table with
  | nil =>
    rw [List.append_nil]
    rfl
  | cons entry rest ih =>
    obtain ⟨key, value⟩ := entry
    have hkey : key ∉ table.map Prod.fst := by
      rw [List.map_append, List.map_cons, List.nodup_middle, List.nodup_cons] at hkeys
      exact fun h => hkeys.1 (List.mem_append_left _ h)
    rw [List.append_cons table] at hkeys ⊢
    rw [Entries.statements, List.map_cons, List.foldlM_cons, step?_pair value hname hkey]
    exact ih hkeys

theorem foldlM_step?_sections {sections : List (Text × Entries)} (current : List Text)
    (hnames : (root.map Prod.fst ++ sections.map Prod.fst).Nodup)
    (hkeys : ∀ part ∈ sections, (part.2.map Prod.fst).Nodup) :
    ∃ last, (sections.flatMap sectionStatements).foldlM Draft.step? ⟨root, current⟩ =
      some ⟨root ++ .ofSections sections, last⟩ := by
  induction sections generalizing root current with
  | nil => exact ⟨current, by rw [Entries.ofSections, List.map_nil, List.append_nil]; rfl⟩
  | cons part rest ih =>
    obtain ⟨hpart, hrest⟩ := List.forall_mem_cons.1 hkeys
    have hname : part.1 ∉ root.map Prod.fst := by
      rw [List.map_cons, List.nodup_middle, List.nodup_cons] at hnames
      exact fun h => hnames.1 (List.mem_append_left _ h)
    have hnext : ((root ++ [(part.1, Value.table .header part.2)]).map Prod.fst ++
        rest.map Prod.fst).Nodup := by
      rwa [List.map_append, List.append_assoc]
    have hpairs : part.2.statements.foldlM Draft.step?
        ⟨root ++ [(part.1, .table .header [])], [part.1]⟩ =
          some ⟨root ++ [(part.1, .table .header part.2)], [part.1]⟩ :=
      foldlM_step?_entries hname hpart
    obtain ⟨last, hlast⟩ := ih [part.1] hnext hrest
    refine ⟨last, ?_⟩
    rw [List.flatMap_cons, sectionStatements, List.cons_append, List.foldlM_cons,
      step?_table current hname]
    simp only [Option.bind_eq_bind, Option.bind_some]
    rw [List.foldlM_append, hpairs]
    simp only [Option.bind_eq_bind, Option.bind_some]
    rw [hlast, List.append_assoc]
    rfl

/-! ### The library -/

theorem document?_of_spells {text : Text} {sections : List (Text × Entries)}
    (h : SpellsSections text sections) (hkeys : DistinctKeys sections) :
    document? text = some (.ofSections sections) := by
  have hmark : Text.after? "\uFEFF" text = none := by
    refine Text.after?_of_head? "\uFEFF" (c := '\uFEFF') rfl ?_
    cases h with
    | nil => simp
    | cons => simp
  have hfold : ∃ last, (sections.flatMap sectionStatements).foldlM Draft.step? ⟨[], []⟩ =
      some ⟨.ofSections sections, last⟩ :=
    foldlM_step?_sections [] hkeys.1 hkeys.2
  obtain ⟨last, hlast⟩ := hfold
  rw [document?, hmark, Option.getD_none, statements?_sections h]
  simp only [Option.bind_eq_bind, Option.bind_some]
  rw [hlast]
  rfl

theorem readsDocuments : ReadsDocuments := fun _ _ h hkeys =>
  ⟨_, document?_of_spells h hkeys, Entries.holds_ofSections hkeys⟩

theorem exists_writeValue? {value : Value} (h : value.IsFlat) :
    ∃ s, writeValue? value = some s ∧ WritesValue value s := by
  cases value with
  | string text => exact ⟨quote text, rfl, .string (writesString_quote text)⟩
  | integer n =>
    obtain ⟨hn, hlt⟩ := h
    obtain ⟨k, rfl⟩ := Int.eq_ofNat_of_zero_le hn
    have hk : k < 2 ^ 63 := by exact_mod_cast hlt
    have hbound : k < Text.signBound := hk
    have hnat : (k : Int).toNat? = some k := rfl
    exact ⟨Text.ofNat k, by simp [writeValue?, hnat, hbound], .integer hk⟩
  | _ => cases h

theorem exists_writePairs? {entries : Entries} (h : ∀ pair ∈ entries, pair.2.IsFlat) :
    ∃ lines, writePairs? entries = some lines ∧ WritesEntries entries lines := by
  induction entries with
  | nil => exact ⟨[], rfl, .nil⟩
  | cons entry rest ih =>
    obtain ⟨hentry, hrest⟩ := List.forall_mem_cons.1 h
    obtain ⟨s, hs, hvalue⟩ := exists_writeValue? hentry
    obtain ⟨lines, hlines, hmore⟩ := ih hrest
    exact ⟨_, by simp only [writePairs?, hs, hlines]; rfl, .cons hvalue hmore⟩

theorem exists_writeSections? {sections : List (Text × Entries)} (h : IsPlainDocument sections) :
    ∃ texts, (Entries.ofSections sections).mapM writeSection? = some texts ∧
      WritesSections sections (List.intercalate ['\n'] texts) := by
  induction sections with
  | nil => exact ⟨[], rfl, .nil⟩
  | cons part rest ih =>
    obtain ⟨hpart, hrest⟩ := List.forall_mem_cons.1 h
    obtain ⟨lines, hlines, hentries⟩ := exists_writePairs? fun pair hpair => (hpart.2 pair hpair).2
    obtain ⟨texts, htexts, hmore⟩ := ih hrest
    refine ⟨('[' :: part.1 ++ "]\n".toList ++ lines) :: texts, ?_, ?_⟩
    · rw [Entries.ofSections] at htexts
      simp [Entries.ofSections, writeSection?, hlines, htexts]
    · cases rest with
      | nil =>
        obtain rfl : [] = texts := Option.some.inj htexts
        rw [List.intercalate_singleton]
        exact .last hentries
      | cons next more =>
        rw [Entries.ofSections, List.map_cons, List.mapM_cons] at htexts
        obtain ⟨first, -, htexts⟩ := Option.bind_eq_some_iff.1 htexts
        obtain ⟨others, -, htexts⟩ := Option.bind_eq_some_iff.1 htexts
        cases htexts
        rw [List.intercalate_cons_cons, List.append_assoc, List.singleton_append]
        exact .cons hentries hmore

theorem writesForms : WritesForms := by
  intro sections hplain _
  obtain ⟨texts, htexts, hwrites⟩ := exists_writeSections? hplain
  refine ⟨_, ?_, hwrites⟩
  change (List.mapM writeSection? _).map _ = _
  rw [htexts]
  rfl

end Toml

end StellaGo
