import StellaGo.Proofs.TomlGrammar
import StellaGo.Toml.Quoted

/-! Strings of TOML, read and written by the library of the program. Proved: every escape is read as
the character that it stands for, each reader finds the end of a string of its kind, and so every
string of the grammar is read whole, whatever follows it that is no quote. What is written for a text
is one of the forms that are meant for it. -/

namespace StellaGo.Toml

variable {t s w rest more : Text} {c q : Char}

/-! ### Characters -/

@[simp]
theorem isControl_iff : isControl c ↔ IsControl c := by
  simp [isControl, IsControl, and_assoc]

@[simp]
theorem isPlain_iff : isPlain c ↔ IsPlain c := by
  simp [isPlain, IsPlain, ← Bool.not_eq_true]

theorem escapeChar_eq_escapeAny : escapeChar = escapeAny := by
  funext c
  rw [escapeChar]
  split_ifs with hback htab hfeed hform hreturn hquote hslash hcontrol
  case pos | pos | pos | pos | pos | pos | pos =>
    simp only [beq_iff_eq] at *
    subst_vars
    rfl
  all_goals
    have hnone : shortEscapes.find? (·.2 == c) = none := by
      simp_all [shortEscapes, @eq_comm _ _ c]
    rw [isControl_iff] at hcontrol
    rw [escapeAny, hnone]
    simp [hcontrol, hexDigit]

/-- No string holds a carriage return as it is. -/
theorem ne_return_of_isPlain (hc : IsPlain c ∨ c = '\n') : c ≠ '\r' := by
  rintro rfl
  exact absurd hc (by decide)

/-! ### Escapes -/

theorem hexValue?_of_isHexDigit {n : Nat} (h : IsHexDigit n c) : hexValue? c = some n := by
  have hall : ∀ n < 16, hexValue? n.digitChar = some n ∧ hexValue? n.digitChar.toUpper = some n := by
    decide
  obtain ⟨hn, rfl | rfl⟩ := h
  · exact (hall n hn).1
  · exact (hall n hn).2

theorem mapM_hexValue? {digits : List Nat} (h : List.Forall₂ IsHexDigit digits s) :
    s.mapM hexValue? = some digits := by
  induction h with
  | nil => rfl
  | cons hc _ ih => simp [hexValue?_of_isHexDigit hc, ih]

theorem numberOf_eq_ofDigits (base : Nat) (digits : List Nat) :
    numberOf base digits = Nat.ofDigits base digits.reverse := by
  rw [numberOf, Nat.ofDigits_eq_foldr, List.foldr_reverse]
  congr 1
  funext value digit
  rw [Nat.cast_id]
  ring

theorem hexChar?_digits {digits : List Nat} (hdigits : List.Forall₂ IsHexDigit digits s)
    (hcode : Nat.ofDigits 16 digits.reverse = c.toNat) :
    hexChar? digits.length (s ++ rest) = some (c, rest) := by
  have hlength : s.length = digits.length := hdigits.length_eq.symm
  have hvalid : c.toNat.isValidChar := c.valid
  rw [hexChar?, ← hlength, List.take_left, List.drop_left, mapM_hexValue? hdigits]
  simp only [Option.bind_eq_bind, Option.bind_some]
  rw [numberOf_eq_ofDigits, hcode, if_pos ⟨hlength.symm, hvalid⟩, Char.ofNat_toNat]

/-- A character is spelled as it is, or as an escape that is read. -/
inductive Escapes : Text → Char → Prop
  | plain {c : Char} (hc : IsPlain c) (hquote : c ≠ '"') (hslash : c ≠ '\\') : Escapes [c] c
  | escape {c d : Char} {e : Text} (hd : ¬ isSpace d) (hfeed : d ≠ '\n') (hreturn : d ≠ '\r')
      (h : ∀ rest, escape? (d :: (e ++ rest)) = some (c, rest)) : Escapes ('\\' :: d :: e) c

theorem BasicChar.escapes (h : BasicChar w c) : Escapes w c := by
  cases h with
  | plain hc hquote hslash => exact .plain hc hquote hslash
  | short h =>
    simp only [shortEscapes, List.mem_cons, Prod.mk.injEq, List.not_mem_nil, or_false] at h
    rcases h with ⟨rfl, rfl⟩ | ⟨rfl, rfl⟩ | ⟨rfl, rfl⟩ | ⟨rfl, rfl⟩ | ⟨rfl, rfl⟩ | ⟨rfl, rfl⟩ |
      ⟨rfl, rfl⟩
    all_goals exact .escape (by decide) (by decide) (by decide) fun _ => rfl
  | code hlength hdigits hcode =>
    simp only [List.mem_cons, Prod.mk.injEq, List.not_mem_nil, or_false] at hlength
    rcases hlength with ⟨rfl, hlength⟩ | ⟨rfl, hlength⟩
    all_goals
      refine .escape (by decide) (by decide) (by decide) fun rest => ?_
      rw [escape?, ← hlength, hexChar?_digits hdigits hcode]

/-! ### Starts -/

/-- What a character is spelled as does not start with a quote or a carriage return. -/
def StartsBare (q : Char) (spells : Text → Char → Prop) : Prop :=
  ∀ w c, spells w c → ∃ d e, w = d :: e ∧ d ≠ q ∧ d ≠ '\r'

theorem startsBare_basicChar : StartsBare '"' BasicChar := by
  intro w c h
  cases h with
  | plain hc hquote => exact ⟨c, [], rfl, hquote, ne_return_of_isPlain (.inl hc)⟩
  | short | code => exact ⟨'\\', _, rfl, by decide, by decide⟩

theorem startsBare_literalChar : StartsBare '\'' LiteralChar := by
  intro w c h
  cases h with
  | plain hc hquote => exact ⟨c, [], rfl, hquote, ne_return_of_isPlain (.inl hc)⟩

theorem StartsBare.orFeed {spells : Text → Char → Prop} (h : StartsBare q spells) (hq : q ≠ '\n') :
    StartsBare q (OrFeed spells) := by
  intro w c hc
  cases hc with
  | char hc => exact h w c hc
  | feed => exact ⟨'\n', [], rfl, hq.symm, by decide⟩

/-! ### One line -/

theorem basicRest?_plain (hc : IsPlain c) (hquote : c ≠ '"') (hslash : c ≠ '\\') :
    basicRest? (c :: rest) = (basicRest? rest).map fun (body, after) => (c :: body, after) := by
  rw [basicRest?.eq_def]
  simp [hc]

theorem basicRest?_escape (h : escape? rest = some (c, more)) :
    basicRest? ('\\' :: rest) = (basicRest? more).map fun (body, after) => (c :: body, after) := by
  rw [basicRest?.eq_def]
  simp only
  split <;> simp_all

theorem basicRest?_inside {run : Nat} (h : SpellsInside '"' 0 BasicChar run s t) :
    basicRest? (s ++ '"' :: rest) = some (t, rest) := by
  induction h with
  | nil => rw [List.nil_append, basicRest?]
  | quote hrun => exact absurd hrun (Nat.not_lt_zero _)
  | char hc _ ih =>
    rw [List.append_assoc]
    cases hc.escapes with
    | plain hplain hquote hslash =>
      rw [List.singleton_append, basicRest?_plain hplain hquote hslash, ih]
      rfl
    | escape _ _ _ h =>
      rw [List.cons_append, List.cons_append, basicRest?_escape (h _), ih]
      rfl

theorem literalRest?_inside {run : Nat} (h : SpellsInside '\'' 0 LiteralChar run s t) :
    literalRest? (s ++ '\'' :: rest) = some (t, rest) := by
  induction h with
  | nil => rw [List.nil_append, literalRest?]
  | quote hrun => exact absurd hrun (Nat.not_lt_zero _)
  | char hc _ ih =>
    cases hc with
    | plain hc hquote =>
      rw [List.singleton_append, List.cons_append, literalRest?.eq_def]
      simp [ih, hc]

/-! ### Several lines -/

theorem closingQuotes_of_head? (h : rest.head? ≠ some q) : closingQuotes q rest = ([], rest) := by
  rw [closingQuotes.eq_def]
  split <;> simp_all

theorem closingQuotes_one (h : rest.head? ≠ some q) :
    closingQuotes q (q :: rest) = ([q], rest) := by
  rw [closingQuotes.eq_def]
  split <;> simp_all

theorem closingQuotes_two : closingQuotes q (q :: q :: rest) = ([q, q], rest) := by
  simp [closingQuotes]

/-- What a reader of strings on several lines does at quotes, and at other characters. -/
structure ReadsLines (q : Char) (spells : Text → Char → Prop)
    (read : Text → Option (Text × Text)) : Prop where
  close : ∀ rest, read (q :: q :: q :: rest) = some (closingQuotes q rest)
  /-- A quote that is not the first of three belongs to the text. -/
  quote : ∀ rest, rest.head? ≠ some q ∨ rest.tail.head? ≠ some q →
    read (q :: rest) = (read rest).map fun (body, after) => (q :: body, after)
  char : ∀ w c rest, spells w c →
    read (w ++ rest) = (read rest).map fun (body, after) => (c :: body, after)

section

variable {spells : Text → Char → Prop} {read : Text → Option (Text × Text)} {run : Nat}

theorem SpellsInside.head?_ne {most : Nat} (hspells : StartsBare q spells)
    (h : SpellsInside q most spells run s t) (hrun : most ≤ run) (hs : s ≠ []) (more : Text) :
    (s ++ more).head? ≠ some q := by
  cases h with
  | nil => exact absurd rfl hs
  | quote hlt => exact absurd hlt (Nat.not_lt.2 hrun)
  | char hc =>
    obtain ⟨d, e, rfl, hd, -⟩ := hspells _ _ hc
    simpa using hd

/-- Behind a quote that stands for itself, the string ends after one more at most, or no two quotes
follow. -/
theorem SpellsInside.behind_quote (hspells : StartsBare q spells)
    (h : SpellsInside q 2 spells (run + 1) s t) (more : Text) :
    s = [] ∧ t = [] ∨ s = [q] ∧ t = [q] ∨
      (s ++ more).head? ≠ some q ∨ (s ++ more).tail.head? ≠ some q := by
  cases h with
  | nil => exact .inl ⟨rfl, rfl⟩
  | char hc =>
    obtain ⟨d, e, rfl, hd, -⟩ := hspells _ _ hc
    exact .inr (.inr (.inl (by simpa using hd)))
  | @quote _ s t hrun h =>
    by_cases hs : s = []
    · subst hs
      generalize hempty : ([] : Text) = inside at h
      cases h with
      | nil => exact .inr (.inl ⟨rfl, rfl⟩)
      | quote => cases hempty
      | char hc =>
        obtain ⟨d, e, rfl, -, -⟩ := hspells _ _ hc
        cases hempty
    · exact .inr (.inr (.inr (h.head?_ne hspells (by omega) hs more)))

theorem ReadsLines.inside (hread : ReadsLines q spells read) (hspells : StartsBare q spells)
    (h : SpellsInside q 2 spells run s t) (hrest : rest.head? ≠ some q) :
    read (s ++ q :: q :: q :: rest) = some (t, rest) := by
  induction h with
  | nil => rw [List.nil_append, hread.close, closingQuotes_of_head? hrest]
  | @quote run s t hrun h ih =>
    rw [List.cons_append]
    rcases h.behind_quote hspells (q :: q :: q :: rest) with ⟨rfl, rfl⟩ | ⟨rfl, rfl⟩ | hnext
    · rw [List.nil_append, hread.close, closingQuotes_one hrest]
    · rw [List.singleton_append, hread.close, closingQuotes_two]
    · rw [hread.quote _ hnext, ih]
      rfl
  | char hc _ ih =>
    rw [List.append_assoc, hread.char _ _ _ hc, ih]
    rfl

end

theorem multiBasicRest?_plain (hc : IsPlain c ∨ c = '\n') (hquote : c ≠ '"') (hslash : c ≠ '\\') :
    multiBasicRest? (c :: rest) =
      (multiBasicRest? rest).map fun (body, after) => (c :: body, after) := by
  have hreturn := ne_return_of_isPlain hc
  rw [multiBasicRest?.eq_def]
  split
  case h_5 heq =>
    obtain ⟨rfl, rfl⟩ := List.cons.inj heq
    simp [hc]
  all_goals simp_all

theorem multiBasicRest?_escape {d : Char} {e : Text} (hd : ¬ isSpace d) (hfeed : d ≠ '\n')
    (hreturn : d ≠ '\r') (h : escape? (d :: e) = some (c, more)) :
    multiBasicRest? ('\\' :: d :: e) =
      (multiBasicRest? more).map fun (body, after) => (c :: body, after) := by
  have hnone : continuation? (d :: e) = none := by
    rw [continuation?, List.dropWhile_cons_of_neg hd, Option.map_eq_none_iff, lineEnd?.eq_def]
    split <;> simp_all
  rw [multiBasicRest?.eq_def]
  simp only
  split
  · next hsome =>
    rw [hnone] at hsome
    cases hsome
  · split
    · next hnone =>
      rw [h] at hnone
      cases hnone
    · next hsome =>
      rw [h] at hsome
      cases hsome
      rfl

theorem readsLines_multiBasicRest? : ReadsLines '"' (OrFeed BasicChar) multiBasicRest? where
  close rest := by rw [multiBasicRest?]
  quote rest h := by
    rw [multiBasicRest?.eq_def]
    split
    case h_5 heq =>
      obtain ⟨rfl, rfl⟩ := List.cons.inj heq
      exact if_pos (by decide)
    all_goals simp_all
  char w c rest h := by
    cases h with
    | feed => exact multiBasicRest?_plain (.inr rfl) (by decide) (by decide)
    | char h =>
      cases h.escapes with
      | plain hc hquote hslash => exact multiBasicRest?_plain (.inl hc) hquote hslash
      | escape hd hfeed hreturn h => exact multiBasicRest?_escape hd hfeed hreturn (h rest)

theorem multiLiteralRest?_plain (hc : IsPlain c ∨ c = '\n')
    (h : c = '\'' → rest.head? ≠ some '\'' ∨ rest.tail.head? ≠ some '\'') :
    multiLiteralRest? (c :: rest) =
      (multiLiteralRest? rest).map fun (body, after) => (c :: body, after) := by
  have hreturn := ne_return_of_isPlain hc
  rw [multiLiteralRest?.eq_def]
  split
  case h_4 heq =>
    obtain ⟨rfl, rfl⟩ := List.cons.inj heq
    simp [hc]
  all_goals simp_all

theorem readsLines_multiLiteralRest? : ReadsLines '\'' (OrFeed LiteralChar) multiLiteralRest? where
  close rest := by rw [multiLiteralRest?]
  quote rest h := multiLiteralRest?_plain (.inl (by decide)) fun _ => h
  char w c rest h := by
    cases h with
    | feed => exact multiLiteralRest?_plain (.inr rfl) fun h => absurd h (by decide)
    | char h =>
      cases h with
      | plain hc hquote => exact multiLiteralRest?_plain (.inl hc) (absurd · hquote)

/-! ### Whole strings -/

theorem string?_basic (h : rest.head? ≠ some '"' ∨ rest.tail.head? ≠ some '"') :
    string? ('"' :: rest) = basicRest? rest := by
  rw [string?.eq_def]
  split <;> simp_all

theorem string?_literal (h : rest.head? ≠ some '\'' ∨ rest.tail.head? ≠ some '\'') :
    string? ('\'' :: rest) = literalRest? rest := by
  rw [string?.eq_def]
  split <;> simp_all

/-- A line feed behind the opening quotes is dropped, and nothing else is. -/
theorem dropLineEnd_opening {opening : Text} {run : Nat} {spells : Text → Char → Prop}
    (hopen : Opens s opening) (hspells : StartsBare q spells)
    (h : SpellsInside q 2 spells run s t) (hq : q ≠ '\n' ∧ q ≠ '\r') (more : Text) :
    dropLineEnd (opening ++ (s ++ q :: more)) = s ++ q :: more := by
  cases hopen with
  | feed => rfl
  | nothing hfeed =>
    have hhead : (s ++ q :: more).head? ≠ some '\n' ∧ (s ++ q :: more).head? ≠ some '\r' := by
      cases h with
      | nil => simpa using hq
      | quote => simpa using hq
      | char hc =>
        obtain ⟨d, e, rfl, -, hreturn⟩ := hspells _ _ hc
        simp only [List.cons_append, List.head?_cons] at hfeed ⊢
        exact ⟨hfeed, by simpa using hreturn⟩
    rw [List.nil_append, dropLineEnd, lineEnd?.eq_def]
    split <;> simp_all

/-- Between its quotes, a string on one line starts with no quote, unless it is empty. -/
theorem SpellsInside.ne_quotes {spells : Text → Char → Prop} (hspells : StartsBare q spells)
    (h : SpellsInside q 0 spells 0 s t) (hrest : rest.head? ≠ some q) :
    (s ++ q :: rest).head? ≠ some q ∨ (s ++ q :: rest).tail.head? ≠ some q := by
  by_cases hs : s = []
  · subst hs
    exact .inr hrest
  · exact .inl (h.head?_ne hspells (Nat.le_refl 0) hs _)

theorem string?_of_spells (h : SpellsString s t) (hbasic : rest.head? ≠ some '"')
    (hliteral : rest.head? ≠ some '\'') : string? (s ++ rest) = some (t, rest) := by
  cases h with
  | @basic s _ h =>
    have hstart := h.ne_quotes startsBare_basicChar hbasic
    rw [List.append_assoc, List.singleton_append, List.cons_append, string?_basic hstart,
      basicRest?_inside h]
  | literal h =>
    have hstart := h.ne_quotes startsBare_literalChar hliteral
    rw [List.append_assoc, List.singleton_append, List.cons_append, string?_literal hstart,
      literalRest?_inside h]
  | @multiBasic opening s _ hopen h =>
    have hspells := startsBare_basicChar.orFeed (by decide)
    have hdrop := dropLineEnd_opening hopen hspells h (by decide) ('"' :: '"' :: rest)
    simp only [List.append_assoc]
    change multiBasicRest? (dropLineEnd (opening ++ (s ++ '"' :: '"' :: '"' :: rest))) = _
    rw [hdrop, readsLines_multiBasicRest?.inside hspells h hbasic]
  | @multiLiteral opening s _ hopen h =>
    have hspells := startsBare_literalChar.orFeed (by decide)
    have hdrop := dropLineEnd_opening hopen hspells h (by decide) ('\'' :: '\'' :: rest)
    simp only [List.append_assoc]
    change multiLiteralRest? (dropLineEnd (opening ++ (s ++ '\'' :: '\'' :: '\'' :: rest))) = _
    rw [hdrop, readsLines_multiLiteralRest?.inside hspells h hliteral]

theorem SpellsString.exists_cons (h : SpellsString s t) :
    ∃ c more, s = c :: more ∧ (c = '"' ∨ c = '\'') := by
  cases h with
  | basic | multiBasic => exact ⟨'"', _, rfl, .inl rfl⟩
  | literal | multiLiteral => exact ⟨'\'', _, rfl, .inr rfl⟩

/-! ### Writing -/

theorem tripled_eq_false_iff : tripled q t = false ↔ ¬ [q, q, q] <:+: t := by
  fun_induction tripled q t with
  | case1 a b c rest ih =>
    have hprefix : (a == q && b == q && c == q) = false ↔ ¬ [q, q, q] <+: a :: b :: c :: rest := by
      simp only [List.cons_prefix_cons, List.nil_prefix, and_true, Bool.eq_false_iff, ne_eq,
        Bool.and_eq_true, beq_iff_eq, and_assoc, @eq_comm _ q]
    rw [Bool.or_eq_false_iff, ih, hprefix, ← not_or]
    exact not_congr List.infix_cons_iff.symm
  | case2 t hshort =>
    refine iff_of_true rfl fun hinfix => ?_
    rcases t with _ | ⟨a, _ | ⟨b, _ | ⟨c, rest⟩⟩⟩
    · simpa using hinfix.length_le
    · simpa using hinfix.length_le
    · simpa using hinfix.length_le
    · exact hshort a b c rest rfl

theorem escapesLines_multiBasicBody {run : Nat} (hrun : run ≤ 2) :
    EscapesLines run t (multiBasicBody run t) := by
  induction t generalizing run with
  | nil => exact .nil
  | cons c t ih =>
    rw [multiBasicBody, escapeChar_eq_escapeAny]
    split
    · next hquote =>
      obtain rfl := beq_iff_eq.1 hquote
      split
      · exact .char (ih (Nat.zero_le 2))
      · next htwo =>
        have hlt : run < 2 := by
          have hne : run ≠ 2 := by simpa using htwo
          omega
        exact .quote hlt (ih hlt)
    · split
      · next hfeed =>
        obtain rfl := beq_iff_eq.1 hfeed
        exact .feed (ih (Nat.zero_le 2))
      · exact .char (ih (Nat.zero_le 2))

theorem escapeChar_eq_escapeTab (hcontrol : ¬ IsControl c) (hfeed : c ≠ '\n') (hquote : c ≠ '"')
    (hslash : c ≠ '\\') : escapeChar c = escapeTab c := by
  have hne {d : Char} (hd : IsControl d) : c ≠ d := fun h => hcontrol (h ▸ hd)
  have hback : c ≠ '\x08' := hne (by decide)
  have hform : c ≠ '\x0c' := hne (by decide)
  have hreturn : c ≠ '\r' := hne (by decide)
  rw [escapeChar, escapeTab]
  simp [hback, hform, hreturn, hcontrol, hfeed, hquote, hslash]

/-- Only tabs are escaped in a text without backslashes and with no three quotes in a row. -/
theorem multiBasicBody_eq_flatMap {run : Nat} (hcontrol : ∀ c ∈ t, ¬ IsControl c) (hslash : '\\' ∉ t)
    (hrow : ¬ ['"', '"', '"'] <:+: List.replicate run '"' ++ t) :
    multiBasicBody run t = t.flatMap escapeTab := by
  induction t generalizing run with
  | nil => rfl
  | cons c t ih =>
    obtain ⟨hc, hmore⟩ := List.forall_mem_cons.1 hcontrol
    rw [List.mem_cons, not_or] at hslash
    rw [multiBasicBody, List.flatMap_cons]
    by_cases hquote : c = '"'
    · subst hquote
      obtain ⟨hrun, hnext⟩ := no_row_of_quote hrow
      rw [if_pos (by decide), if_neg (by simpa using hrun.ne), ih hmore hslash.2 hnext]
      rfl
    have hrest := ih hmore hslash.2 (no_row_of_cons hrow)
    rw [if_neg (by simpa using hquote), hrest]
    by_cases hfeed : c = '\n'
    · rw [if_pos (by simpa using hfeed), hfeed]
      rfl
    · rw [if_neg (by simpa using hfeed),
        escapeChar_eq_escapeTab hc hfeed hquote (Ne.symm hslash.1)]

/-- A text is written in a form that is meant for it. -/
theorem writesString_quote (t : Text) : WritesString t (quote t) := by
  have hopening : openingBreak t = openingFeed t := by
    simp [openingBreak, openingFeed]
  have hcontrol (h : ¬ t.any isControl) : ∀ c ∈ t, ¬ IsControl c :=
    fun c hc hcontrol => h (List.any_eq_true.2 ⟨c, hc, isControl_iff.2 hcontrol⟩)
  rw [quote, hopening, escapeChar_eq_escapeAny]
  simp only [formOf]
  split_ifs with hany hlines hbasic hliteral hmulti htripled hlines
  all_goals simp only [List.contains_eq_mem, Bool.and_eq_true, Bool.not_eq_true',
    decide_eq_true_eq, decide_eq_false_iff_not, tripled_eq_false_iff] at *
  · exact .multiEscaped hlines (escapesLines_multiBasicBody (Nat.zero_le 2))
  · exact .escaped hlines
  · exact .escaped hbasic.1.1
  · exact .literal (hcontrol hany) hliteral.2 hliteral.1
  · have hbody : multiBasicBody 0 t = t.flatMap escapeTab :=
      multiBasicBody_eq_flatMap (hcontrol hany) hmulti.1 hmulti.2
    rw [hbody]
    exact .multiBasic (hcontrol hany) hmulti.1 hmulti.2
  · exact .multiLiteral (hcontrol hany) htripled
  · exact .multiEscaped hlines (escapesLines_multiBasicBody (Nat.zero_le 2))
  · exact .escaped hlines

end StellaGo.Toml
