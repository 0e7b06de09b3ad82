import Mathlib.Data.List.Find
import Mathlib.Data.List.Infix
import StellaGo.Proofs.GoBraces
import StellaGo.Proofs.LineEnds

/-! How Go splits a text into tokens. Defined here: Go's operators and separators, the tokens of a
text by the rule of the longest match, and pairs of characters that a token can hold next to each
other. Proved: texts that follow each other have the tokens of each, if the first one ends outside
literals and the two characters where they meet do not join. -/

namespace StellaGo

/-! ### Texts that end outside literals -/

/-- The text ends outside literals. -/
def Text.IsClosed (t : Text) : Prop :=
  ∀ rest, Glyph.ofText (t ++ rest) = Glyph.ofText t ++ Glyph.ofText rest

namespace Text.IsClosed

variable {t u : Text}

theorem nil : IsClosed [] := fun _ => rfl

theorem append (ht : t.IsClosed) (hu : u.IsClosed) : IsClosed (t ++ u) := by
  intro rest
  rw [List.append_assoc, ht, hu, ht, List.append_assoc]

theorem cons_iff {c : Char} (hc : ¬ isQuote c) : IsClosed (c :: t) ↔ t.IsClosed := by
  simp only [IsClosed, List.cons_append, Pairs.ofText_cons hc, List.cons.injEq, true_and]

theorem append_iff (hp : ∀ c ∈ t, ¬ isQuote c) : IsClosed (t ++ u) ↔ u.IsClosed := by
  induction t with
  | nil => rfl
  | cons c rest ih =>
    obtain ⟨hc, hrest⟩ := List.forall_mem_cons.1 hp
    rw [List.cons_append, cons_iff hc, ih hrest]

theorem of_forall (h : ∀ c ∈ t, ¬ isQuote c) : t.IsClosed := by
  have happend := append_iff (u := []) h
  rw [List.append_nil] at happend
  exact happend.2 nil

theorem ofText_literal {quote : Char} {rest body more : Text} (hq : isQuote quote)
    (hl : Token.literal? quote rest = some (body, more)) (u : Text) :
    Glyph.ofText (quote :: (body ++ u)) = (quote :: body).map .quoted ++ Glyph.ofText u := by
  rw [Glyph.ofText, Glyph.read, if_pos hq, Pairs.read_literal hl]
  rfl

theorem literal_iff {quote : Char} {rest body more : Text} (hq : isQuote quote)
    (hl : Token.literal? quote rest = some (body, more)) :
    IsClosed (quote :: (body ++ t)) ↔ t.IsClosed := by
  simp only [IsClosed, List.cons_append, List.append_assoc, ofText_literal hq hl,
    List.append_cancel_left_eq]

/-- Behind a quote that nothing closes every character is quoted. -/
theorem quoted_of_literal?_eq_none {quote : Char} {rest : Text}
    (hl : Token.literal? quote rest = none) (c : Char) :
    ∀ g ∈ Glyph.read (some quote) (rest ++ [c]), ∃ d, g = .quoted d := by
  fun_induction Token.literal? quote rest with
  | case1 | case2 => simp [Glyph.read]
  | case3 d rest ih =>
    rw [List.cons_append, List.cons_append, Glyph.read]
    simpa using ih (Option.map_eq_none_iff.1 hl)
  | case4 => cases hl
  | case5 d rest hlast hnext hd ih =>
    have hback : d ≠ '\\' := by
      rintro rfl
      cases rest with
      | nil => exact hlast rfl rfl
      | cons e after => exact hnext e after rfl rfl
    rw [List.cons_append, Pairs.read_some_cons hback, if_neg hd]
    simpa using ih (Option.map_eq_none_iff.1 hl)

theorem exists_literal {quote : Char} {rest : Text} (hq : isQuote quote)
    (h : IsClosed (quote :: rest)) : ∃ body more, Token.literal? quote rest = some (body, more) := by
  cases hl : Token.literal? quote rest with
  | some literal => exact ⟨literal.1, literal.2, rfl⟩
  | none =>
    have hends := h ['a']
    rw [List.cons_append, Glyph.ofText, Glyph.read, if_pos hq] at hends
    have hlast : Glyph.code 'a' ∈ Glyph.quoted quote :: Glyph.read (some quote) (rest ++ ['a']) := by
      rw [hends]
      exact List.mem_append_right _ List.mem_cons_self
    obtain hcons | hread := List.mem_cons.1 hlast
    · cases hcons
    · obtain ⟨d, hd⟩ := quoted_of_literal?_eq_none hl 'a' _ hread
      cases hd

end Text.IsClosed

theorem Token.literal?_cons {quote c : Char} (hc : c ≠ '\\') (u : Text) :
    literal? quote (c :: u) = if c == quote then some ([c], u)
      else (literal? quote u).map fun (body, more) => (c :: body, more) := by
  rw [literal?.eq_def]
  split <;> simp_all

/-- A literal is found in front of every text. -/
theorem Token.literal?_append {quote : Char} {t body more : Text}
    (h : literal? quote t = some (body, more)) (u : Text) :
    literal? quote (body ++ u) = some (body, u) := by
  fun_induction literal? quote t generalizing body with
  | case1 | case2 => cases h
  | case3 c rest ih =>
    obtain ⟨⟨inner, after⟩, hi, heq⟩ := Option.map_eq_some_iff.1 h
    cases heq
    rw [List.cons_append, List.cons_append, literal?, ih hi]
    rfl
  | case4 c rest hlast hnext hc =>
    cases h
    have hback : c ≠ '\\' := by
      intro heq
      cases more with
      | nil => exact hlast heq rfl
      | cons d after => exact hnext d after heq rfl
    rw [List.singleton_append, literal?_cons hback, if_pos hc]
  | case5 c rest hlast hnext hc ih =>
    obtain ⟨⟨inner, after⟩, hi, heq⟩ := Option.map_eq_some_iff.1 h
    cases heq
    have hback : c ≠ '\\' := by
      intro heq
      cases rest with
      | nil => exact hlast heq rfl
      | cons d after => exact hnext d after heq rfl
    rw [List.cons_append, literal?_cons hback, if_neg hc, ih hi]
    rfl

namespace Go

/-! ### The tokens of a text -/

/-- Operators and separators, the longer ones first. -/
def symbols : List Text :=
  ["<<=", ">>=", "&^=", "...", "<<", ">>", "&^", "+=", "-=", "*=", "/=", "%=", "&=", "|=", "^=",
    "&&", "||", "<-", "++", "--", "==", "!=", "<=", ">=", ":=", "//", "/*", "+", "-", "*", "/", "%",
    "&", "|", "^", "<", ">", "=", "!", "~", "(", ")", "[", "]", ",", ";", ".",
    ":"].map String.toList ++ [['{'], ['}']]

/-- The longest operator or separator at the start of a text. -/
def symbol? (t : Text) : Option Text := symbols.find? (·.isPrefixOf t)

def isSymbolChar (c : Char) : Bool := symbols.any (c ∈ ·)

/-- A character of names, keywords and numbers. -/
def isWordChar (c : Char) : Bool := !isBlank c && !isQuote c && !isSymbolChar c

/-- A word that starts with `first` goes on with `c`. A number has points in it. -/
def continuesWord (first c : Char) : Bool := isWordChar c || first.isDigit && c == '.'

theorem symbol_ne_nil {s : Text} (h : s ∈ symbols) : s ≠ [] := by
  have hall : ∀ s ∈ symbols, s ≠ [] := by decide
  exact hall s h

/-- The tokens of a text: literals, the longest operators, and words. -/
def lex (t : Text) : List Text :=
  match t with
  | [] => []
  | c :: rest =>
    if isBlank c then lex rest
    else if isQuote c then
      match _h : Token.literal? c rest with
      | none => [c :: rest]
      | some (body, more) => (c :: body) :: lex more
    else
      match _h : symbol? (c :: rest) with
      | some s => s :: lex ((c :: rest).drop s.length)
      | none => (c :: rest.takeWhile (continuesWord c)) :: lex (rest.dropWhile (continuesWord c))
termination_by t.length
decreasing_by
  · simp
  · have := Token.literal?_length _h
    simp only [List.length_cons]
    omega
  · have := List.length_pos_iff.2 (symbol_ne_nil (List.mem_of_find?_eq_some _h))
    simp only [List.length_drop, List.length_cons]
    omega
  · have := (List.dropWhile_suffix (continuesWord c) (l := rest)).length_le
    simp only [List.length_cons]
    omega

theorem prefix_of_symbol? {t s : Text} (h : symbol? t = some s) : s <+: t := by
  have hstart := List.find?_some h
  exact List.isPrefixOf_iff_prefix.1 hstart

theorem not_isQuote_of_mem_symbols {s : Text} (h : s ∈ symbols) : ∀ c ∈ s, ¬ isQuote c := by
  have hall : ∀ s ∈ symbols, ∀ c ∈ s, ¬ isQuote c := by decide
  exact hall s h

theorem not_isQuote_of_isBlank {c : Char} (h : isBlank c) : ¬ isQuote c := by
  rw [isQuote_iff]
  rintro (rfl | rfl) <;> exact absurd h (by decide)

/-- A character outside blanks and literals starts an operator or a word. -/
theorem isWordChar_of_symbol? {c : Char} {rest : Text} (hb : isBlank c = false)
    (hq : isQuote c = false) (h : symbol? (c :: rest) = none) : isWordChar c := by
  have hsingle : ∀ s ∈ symbols, ∀ c ∈ s, [c] ∈ symbols := by decide
  have hsymbol : isSymbolChar c = false := by
    rw [← Bool.not_eq_true, isSymbolChar, List.any_eq_true]
    rintro ⟨s, hs, hc⟩
    exact List.find?_eq_none.1 h [c] (hsingle s hs c (by simpa using hc)) (by simp)
  rw [isWordChar, hb, hq, hsymbol]
  rfl

/-! ### The first token -/

theorem lex_nil : lex [] = [] := lex.eq_def []

theorem lex_cons_blank {c : Char} (hc : isBlank c) (t : Text) : lex (c :: t) = lex t := by
  rw [lex.eq_def]
  exact if_pos hc

theorem lex_cons_quote {quote : Char} {rest body more : Text} (hq : isQuote quote)
    (hl : Token.literal? quote rest = some (body, more)) :
    lex (quote :: rest) = (quote :: body) :: lex more := by
  have hblank : ¬ isBlank quote := fun h => not_isQuote_of_isBlank h hq
  rw [lex.eq_def]
  dsimp only
  rw [if_neg hblank, if_pos hq]
  split
  · next hnone => cases hnone.symm.trans hl
  · next hsome =>
    cases hsome.symm.trans hl
    rfl

theorem lex_cons_symbol {c : Char} {rest s : Text} (hs : symbol? (c :: rest) = some s) :
    lex (c :: rest) = s :: lex ((c :: rest).drop s.length) := by
  have hmem := List.mem_of_find?_eq_some hs
  have hc : c ∈ s := by
    obtain ⟨d, more, rfl⟩ := List.exists_cons_of_ne_nil (symbol_ne_nil hmem)
    rw [(List.cons_prefix_cons.1 (prefix_of_symbol? hs)).1]
    exact List.mem_cons_self
  have hblank : ∀ s ∈ symbols, ∀ c ∈ s, ¬ isBlank c := by decide
  rw [lex.eq_def]
  dsimp only
  rw [if_neg (hblank s hmem c hc), if_neg (not_isQuote_of_mem_symbols hmem c hc)]
  split
  · next hsome =>
    cases hsome.symm.trans hs
    rfl
  · next hnone => cases hnone.symm.trans hs

theorem symbol?_of_isWordChar {c : Char} (hc : isWordChar c) (rest : Text) :
    symbol? (c :: rest) = none := by
  simp only [isWordChar, Bool.and_eq_true, Bool.not_eq_true', isSymbolChar, List.any_eq_false,
    decide_eq_true_eq] at hc
  refine List.find?_eq_none.2 fun s hs => ?_
  rw [List.isPrefixOf_iff_prefix]
  intro hstart
  cases s with
  | nil => exact symbol_ne_nil hs rfl
  | cons d more =>
    obtain rfl : d = c := (List.cons_prefix_cons.1 hstart).1
    exact hc.2 _ hs List.mem_cons_self

theorem lex_cons_word {c : Char} (hc : isWordChar c) (rest : Text) :
    lex (c :: rest) =
      (c :: rest.takeWhile (continuesWord c)) :: lex (rest.dropWhile (continuesWord c)) := by
  have hplain := hc
  simp only [isWordChar, Bool.and_eq_true, Bool.not_eq_true'] at hplain
  rw [lex.eq_def]
  dsimp only
  rw [if_neg (by rw [hplain.1.1]; decide), if_neg (by rw [hplain.1.2]; decide)]
  split
  · next hsome => cases hsome.symm.trans (symbol?_of_isWordChar hc rest)
  · rfl

/-! ### Where two texts meet -/

/-- A character that a word may hold. -/
def isHeld (c : Char) : Bool := isWordChar c || c == '.'

/-- A token other than a literal may hold these characters next to each other. -/
def joins (c d : Char) : Bool :=
  isHeld c && isHeld d || symbols.any fun s => [c, d] <:+: s

/-- No token reaches over the place where these texts meet. -/
def Apart (t u : Text) : Prop := ∀ c ∈ t.getLast?, ∀ d ∈ u.head?, joins c d = false

variable {t u : Text}

theorem not_isQuote_of_isHeld {c : Char} (h : isHeld c) : ¬ isQuote c := by
  rw [isQuote_iff]
  rintro (rfl | rfl) <;> exact absurd h (by decide)

theorem isHeld_of_continuesWord {first c : Char} (h : continuesWord first c) : isHeld c := by
  rw [continuesWord, Bool.or_eq_true, Bool.and_eq_true] at h
  rw [isHeld, Bool.or_eq_true]
  exact h.imp_right And.right

/-- The end of a text is as far from what follows as the text. -/
theorem Apart.of_append {v : Text} (h : Apart (v ++ t) u) : Apart t u := by
  intro c hc
  refine h c ?_
  rw [List.getLast?_append, Option.mem_def.1 hc]
  rfl

theorem Apart.of_cons {c : Char} (h : Apart (c :: t) u) : Apart t u := .of_append (v := [c]) h

theorem joins_of_mem_symbols {c d : Char} (front behind : Text)
    (h : front ++ [c, d] ++ behind ∈ symbols) : joins c d := by
  rw [joins, Bool.or_eq_true, List.any_eq_true]
  exact .inr ⟨_, h, decide_eq_true ⟨front, behind, rfl⟩⟩

/-- An operator at the beginning does not reach into what follows. -/
theorem symbol?_append (ht : t ≠ []) (h : Apart t u) : symbol? (t ++ u) = symbol? t := by
  refine List.find?_congr fun s hs => ?_
  rw [Bool.eq_iff_iff, List.isPrefixOf_iff_prefix, List.isPrefixOf_iff_prefix]
  refine ⟨fun hstart => ?_, fun hstart => hstart.trans (List.prefix_append _ _)⟩
  obtain ⟨after, hafter⟩ := hstart
  rcases List.append_eq_append_iff.1 hafter with ⟨between, heq, -⟩ | ⟨beyond, rfl, rfl⟩
  · exact ⟨between, heq.symm⟩
  cases beyond with
  | nil => exact ⟨[], by rw [List.append_nil, List.append_nil]⟩
  | cons d behind =>
    have hjoin : joins (t.getLast ht) d := by
      refine joins_of_mem_symbols t.dropLast behind ?_
      rwa [List.append_cons, ← List.dropLast_append_getLast ht, List.append_assoc t.dropLast] at hs
    have hapart := h _ (List.getLast?_eq_some_getLast ht) d rfl
    exact absurd hjoin (by rw [hapart]; decide)

/-- A word at the beginning does not reach into what follows. -/
theorem takeWhile_append_of_apart {p : Char → Bool}
    (h : (∀ c ∈ t, p c) → ∀ d ∈ u.head?, p d = false) :
    (t ++ u).takeWhile p = t.takeWhile p ∧ (t ++ u).dropWhile p = t.dropWhile p ++ u := by
  induction t with
  | nil =>
    have hu := h nofun
    cases u with
    | nil => exact ⟨rfl, rfl⟩
    | cons d more =>
      have hd : ¬ p d := by rw [hu d rfl]; decide
      rw [List.nil_append, List.takeWhile_cons_of_neg hd, List.dropWhile_cons_of_neg hd]
      exact ⟨rfl, rfl⟩
  | cons c rest ih =>
    rw [List.cons_append, List.takeWhile_cons, List.takeWhile_cons, List.dropWhile_cons,
      List.dropWhile_cons]
    by_cases hc : p c
    · obtain ⟨htake, hdrop⟩ := ih fun hrest => h (List.forall_mem_cons.2 ⟨hc, hrest⟩)
      rw [if_pos hc, if_pos hc, if_pos hc, if_pos hc, htake, hdrop]
      exact ⟨rfl, rfl⟩
    · rw [if_neg hc, if_neg hc, if_neg hc, if_neg hc]
      exact ⟨rfl, rfl⟩

/-- No character that a word would go on with follows it. -/
theorem continuesWord_eq_false {c d : Char} (hc : isWordChar c)
    (hall : ∀ x ∈ t, continuesWord c x) (h : Apart (c :: t) u) (hd : d ∈ u.head?) :
    continuesWord c d = false := by
  have hlast : isHeld ((c :: t).getLast (List.cons_ne_nil c t)) := by
    rcases List.mem_cons.1 (List.getLast_mem (List.cons_ne_nil c t)) with heq | hmem
    · rw [heq, isHeld, hc, Bool.true_or]
    · exact isHeld_of_continuesWord (hall _ hmem)
  have hapart := h _ (List.getLast?_eq_some_getLast (List.cons_ne_nil c t)) d hd
  rw [joins, Bool.or_eq_false_iff, hlast, Bool.true_and] at hapart
  by_contra hcontinues
  rw [isHeld_of_continuesWord (Bool.of_not_eq_false hcontinues)] at hapart
  exact absurd hapart.1 (by decide)

/-- Texts that follow each other have the tokens of each, if the first one ends outside literals and
no token reaches over the place where they meet. -/
theorem lex_append (ht : t.IsClosed) (h : Apart t u) : lex (t ++ u) = lex t ++ lex u := by
  fun_induction lex t with
  | case1 => rfl
  | case2 c rest hblank ih =>
    rw [List.cons_append, lex_cons_blank hblank]
    exact ih ((Text.IsClosed.cons_iff (not_isQuote_of_isBlank hblank)).1 ht) h.of_cons
  | case3 c rest hblank hq hl =>
    obtain ⟨body, more, hsome⟩ := Text.IsClosed.exists_literal hq ht
    cases hl.symm.trans hsome
  | case4 c rest hblank hq body more hl ih =>
    obtain rfl := Token.append_of_literal? hl
    have hfound := Token.literal?_append hl (more ++ u)
    rw [List.cons_append, List.append_assoc, lex_cons_quote hq hfound,
      ih ((Text.IsClosed.literal_iff hq hl).1 ht) h.of_cons.of_append, List.cons_append]
  | case5 c rest hblank hq s hs ih =>
    have hfound := (symbol?_append (List.cons_ne_nil c rest) h).trans hs
    obtain ⟨more, hmore⟩ := prefix_of_symbol? hs
    have hplain := not_isQuote_of_mem_symbols (List.mem_of_find?_eq_some hs)
    rw [← hmore] at h ht
    have hrest := ih (by rw [← hmore, List.drop_left]; exact (Text.IsClosed.append_iff hplain).1 ht)
      (by rw [← hmore, List.drop_left]; exact h.of_append)
    rw [← hmore, List.drop_left] at hrest
    rw [List.cons_append] at hfound ⊢
    rw [lex_cons_symbol hfound, ← List.cons_append, ← hmore, List.append_assoc, List.drop_left,
      List.drop_left, hrest, List.cons_append]
  | case6 c rest hblank hq hs ih =>
    have hword := isWordChar_of_symbol? (by simpa using hblank) (by simpa using hq) hs
    obtain ⟨htake, hdrop⟩ := takeWhile_append_of_apart (t := rest) (u := u) fun hall d hd =>
      continuesWord_eq_false hword hall h hd
    have hwords : ∀ d ∈ rest.takeWhile (continuesWord c), ¬ isQuote d := fun d hd =>
      not_isQuote_of_isHeld (isHeld_of_continuesWord (List.mem_takeWhile_imp hd))
    have hsplit := List.takeWhile_append_dropWhile (p := continuesWord c) (l := rest)
    have hclosed := (Text.IsClosed.cons_iff hq).1 ht
    have hapart := h.of_cons
    rw [← hsplit] at hclosed hapart
    rw [List.cons_append, lex_cons_word hword, htake, hdrop,
      ih ((Text.IsClosed.append_iff hwords).1 hclosed) hapart.of_append, List.cons_append]

/-! ### Characters that no longer token holds -/

/-- No token other than a literal holds the character and another one. -/
def isLone (c : Char) : Bool := !isHeld c && symbols.all fun s => s == [c] || c ∉ s

theorem joins_of_isLone {c d : Char} (h : isLone c ∨ isLone d) : joins c d = false := by
  rw [← Bool.not_eq_true, joins, Bool.or_eq_true, Bool.and_eq_true, List.any_eq_true]
  simp only [isLone, Bool.and_eq_true, Bool.not_eq_true', List.all_eq_true, Bool.or_eq_true,
    beq_iff_eq, decide_eq_true_eq] at h
  rintro (⟨hc, hd⟩ | ⟨s, hs, hin⟩)
  · rcases h with ⟨hlone, -⟩ | ⟨hlone, -⟩
    · exact absurd hc (by rw [hlone]; decide)
    · exact absurd hd (by rw [hlone]; decide)
  · have hin : [c, d] <:+: s := by simpa using hin
    have hlength := hin.length_le
    rcases h with ⟨-, hlone⟩ | ⟨-, hlone⟩
    · rcases hlone s hs with rfl | hnot
      · simp at hlength
      · exact hnot (hin.subset List.mem_cons_self)
    · rcases hlone s hs with rfl | hnot
      · simp at hlength
      · exact hnot (hin.subset (List.mem_cons_of_mem _ List.mem_cons_self))

/-- No token goes on with a `:`. -/
theorem joins_colon (c : Char) : joins c ':' = false := by
  have hall : ∀ s ∈ symbols, ':' ∉ s.tail := by decide
  have hheld : isHeld ':' = false := by decide
  rw [joins, hheld, Bool.and_false, Bool.false_or, List.any_eq_false]
  intro s hs hin
  have hin : [c, ':'] <:+: s := by simpa using hin
  obtain ⟨front, behind, rfl⟩ := hin
  refine hall _ hs ?_
  cases front <;> simp

theorem Apart.nil_right : Apart t [] := fun _ _ => nofun

theorem Apart.single {c d : Char} (h : joins c d = false) (u : Text) : Apart [c] (d :: u) := by
  intro b hb e he
  obtain rfl : c = b := Option.some.inj hb
  obtain rfl : d = e := Option.some.inj he
  exact h

theorem Apart.before {c : Char} (hc : isLone c) (t u : Text) : Apart t (c :: u) := by
  intro b _ d hd
  obtain rfl : c = d := Option.some.inj hd
  exact joins_of_isLone (.inr hc)

theorem Apart.behind {c : Char} (hc : isLone c) (t u : Text) : Apart (t ++ [c]) u := by
  intro b hb d _
  rw [List.getLast?_concat] at hb
  obtain rfl : c = b := Option.some.inj hb
  exact joins_of_isLone (.inl hc)

/-! ### Tokens by themselves -/

theorem not_isQuote_of_word {c : Char} (h : c.isAlphanum || c == '_') : ¬ isQuote c := by
  rw [isQuote_iff]
  rintro (rfl | rfl) <;> exact absurd h (by decide)

theorem isWordChar_of_word {c : Char} (h : c.isAlphanum || c == '_') : isWordChar c := by
  have hsymbol : isSymbolChar c = false := by
    have hall : ∀ s ∈ symbols, ∀ d ∈ s, (d.isAlphanum || d == '_') = false := by decide
    rw [← Bool.not_eq_true, isSymbolChar, List.any_eq_true]
    rintro ⟨s, hs, hc⟩
    exact absurd h (by rw [hall s hs c (by simpa using hc)]; decide)
  have hquote := Bool.eq_false_of_not_eq_true (not_isQuote_of_word h)
  rw [isWordChar, isBlank_eq_false_of_word h, hquote, hsymbol]
  rfl

/-- A word, of which every character continues the first one, in front of what does not. -/
theorem lex_word_append {c : Char} {rest : Text} (hc : isWordChar c)
    (hrest : ∀ d ∈ rest, continuesWord c d) (hu : ∀ d ∈ u.head?, continuesWord c d = false) :
    lex (c :: (rest ++ u)) = (c :: rest) :: lex u := by
  obtain ⟨htake, hdrop⟩ := takeWhile_append_of_apart (t := rest) fun _ => hu
  rw [lex_cons_word hc, htake, hdrop, List.takeWhile_eq_self_iff.2 hrest,
    List.dropWhile_eq_nil_iff.2 hrest, List.nil_append]

theorem lex_word {c : Char} {rest : Text} (hc : isWordChar c) (hrest : ∀ d ∈ rest, continuesWord c d) :
    lex (c :: rest) = [c :: rest] := by
  have hlex := lex_word_append (u := []) hc hrest nofun
  rw [List.append_nil, lex_nil] at hlex
  exact hlex

/-- Letters, digits and `_`. -/
theorem lex_of_forall (hne : t ≠ []) (h : ∀ c ∈ t, c.isAlphanum || c == '_') : lex t = [t] := by
  cases t with
  | nil => exact absurd rfl hne
  | cons c rest =>
    obtain ⟨hc, hrest⟩ := List.forall_mem_cons.1 h
    refine lex_word (isWordChar_of_word hc) fun d hd => ?_
    rw [continuesWord, isWordChar_of_word (hrest d hd), Bool.true_or]

theorem isAlphanum_of_mem_ofNat {c : Char} {n : Nat} (h : c ∈ Text.ofNat n) :
    c.isAlphanum || c == '_' := by
  have hdigit : c.isDigit := Nat.isDigit_of_mem_toDigits (by decide) (by decide) h
  rw [Char.isAlphanum, hdigit, Bool.or_true, Bool.true_or]

theorem lex_ofNat (n : Nat) : lex (Text.ofNat n) = [Text.ofNat n] :=
  lex_of_forall Nat.toDigits_ne_nil fun _ => isAlphanum_of_mem_ofNat

theorem lex_literal {quote : Char} {rest body more : Text} (hq : isQuote quote)
    (hl : Token.literal? quote rest = some (body, more)) : lex (quote :: body) = [quote :: body] := by
  have hfound := Token.literal?_append hl []
  rw [List.append_nil] at hfound
  rw [lex_cons_quote hq hfound, lex_nil]

theorem lex_symbol {s : Text} (h : s ∈ symbols) : lex s = [s] := by
  have hall : ∀ s ∈ symbols, symbol? s = some s := by decide
  obtain ⟨c, rest, rfl⟩ := List.exists_cons_of_ne_nil (symbol_ne_nil h)
  rw [lex_cons_symbol (hall _ h), List.drop_length, lex_nil]

theorem mem_symbols (op : Operator) : op.symbol.toList ∈ symbols := by cases op <;> decide

/-- Two `-` without a blank between them are one token. -/
theorem lex_minus_minus (t : Text) : lex ('-' :: '-' :: t) = ['-', '-'] :: lex t := by
  have hfound : symbol? ('-' :: '-' :: t) = some ['-', '-'] := rfl
  rw [lex_cons_symbol hfound]
  rfl

end Go

end StellaGo
