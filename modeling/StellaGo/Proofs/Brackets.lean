import StellaGo.Proofs.TextParts

/-! Brackets in program text. Defined here: which brackets close each other if the three kinds are
counted together, and texts that end outside literals, with the brackets that they close and leave
open. Proved: the scanner of an expression accepts no text in which a bracket closes one of another
kind. -/

namespace StellaGo

/-! ### Pairs -/

namespace Glyph

/-- The brackets that close each other, and those that stay open behind the glyphs, if `stack` are
open before them. A closing bracket closes the innermost open one, of whatever kind. -/
def pairs? : (stack : List Bracket) → List Glyph → Option (List (Bracket × Bracket) × List Bracket)
  | stack, [] => some ([], stack)
  | stack, quoted _ :: rest => pairs? stack rest
  | stack, code c :: rest =>
    match Bracket.ofOpener? c, Bracket.ofCloser? c, stack with
    | some b, _, _ => pairs? (b :: stack) rest
    | none, some b, top :: below =>
      (pairs? below rest).map fun (pairs, left) => ((top, b) :: pairs, left)
    | none, some _, [] => none
    | none, none, _ => pairs? stack rest

variable {stack left : List Bracket} {pairs : List (Bracket × Bracket)} {gs : List Glyph}

theorem pairs?_opener (stack : List Bracket) (b : Bracket) (gs : List Glyph) :
    pairs? stack (.code b.opener :: gs) = pairs? (b :: stack) gs := by
  cases b <;> rfl

theorem pairs?_closer (top b : Bracket) (below : List Bracket) (gs : List Glyph) :
    pairs? (top :: below) (.code b.closer :: gs) =
      (pairs? below gs).map fun (pairs, left) => ((top, b) :: pairs, left) := by
  cases b <;> rfl

theorem pairs?_code {c : Char} (ho : Bracket.ofOpener? c = none) (hc : Bracket.ofCloser? c = none)
    (stack : List Bracket) (gs : List Glyph) : pairs? stack (.code c :: gs) = pairs? stack gs := by
  rw [pairs?.eq_def]
  simp only [ho, hc]

theorem pairs?_append (stack : List Bracket) (xs ys : List Glyph) :
    pairs? stack (xs ++ ys) = (pairs? stack xs).bind fun front =>
      (pairs? front.2 ys).map fun behind => (front.1 ++ behind.1, behind.2) := by
  fun_induction pairs? stack xs with
  | case1 => exact Option.map_id'.symm
  | case2 _ _ _ ih => exact ih
  | case3 stack c rest b hb ih =>
    obtain rfl := Bracket.ofOpener?_eq_some_iff.1 hb
    rw [List.cons_append, pairs?_opener, ih]
  | case4 c rest b top below hb ho ih =>
    obtain rfl := Bracket.ofCloser?_eq_some_iff.1 hb
    rw [List.cons_append, pairs?_closer, ih, Option.map_bind, Option.bind_map]
    congr 1
    funext front
    rw [Function.comp_apply, Option.map_map]
    rfl
  | case5 c rest b hb ho =>
    obtain rfl := Bracket.ofCloser?_eq_some_iff.1 hb
    cases b <;> rfl
  | case6 stack c rest hc ho ih => rw [List.cons_append, pairs?_code ho hc, ih]

/-- Brackets that were open before stay open. -/
theorem pairs?_add (below : List Bracket) (h : pairs? stack gs = some (pairs, left)) :
    pairs? (stack ++ below) gs = some (pairs, left ++ below) := by
  fun_induction pairs? stack gs generalizing pairs with
  | case1 =>
    cases h
    rfl
  | case2 _ _ _ ih => exact ih h
  | case3 stack c rest b hb ih =>
    obtain rfl := Bracket.ofOpener?_eq_some_iff.1 hb
    rw [pairs?_opener]
    exact ih h
  | case4 c rest b top under hb ho ih =>
    obtain ⟨⟨inner, last⟩, hinner, heq⟩ := Option.map_eq_some_iff.1 h
    cases heq
    obtain rfl := Bracket.ofCloser?_eq_some_iff.1 hb
    rw [List.cons_append, pairs?_closer, ih hinner]
    rfl
  | case5 => cases h
  | case6 stack c rest hc ho ih =>
    rw [pairs?_code ho hc]
    exact ih h

theorem pairs?_map_quoted (stack : List Bracket) (t : Text) (gs : List Glyph) :
    pairs? stack (t.map .quoted ++ gs) = pairs? stack gs := by
  induction t with
  | nil => rfl
  | cons c rest ih => exact ih

end Glyph

/-- Behind the glyphs `closed` of the brackets that were open before them are closed, and `opened`
others are open. `same` tells whether brackets that close each other are of one kind. -/
def Glyph.Pairs (closed opened : List Bracket) (same : Prop) (gs : List Glyph) : Prop :=
  ∃ pairs, pairs? closed gs = some (pairs, opened) ∧ ((∀ pair ∈ pairs, pair.1 = pair.2) ↔ same)

namespace Glyph.Pairs

variable {closed opened : List Bracket} {same other : Prop} {gs : List Glyph}

theorem congr (h : Pairs closed opened same gs) (hsame : same ↔ other) :
    Pairs closed opened other gs := by
  obtain ⟨pairs, hrun, hpairs⟩ := h
  exact ⟨pairs, hrun, hpairs.trans hsame⟩

/-- Whether the kinds agree depends on nothing else. -/
theorem same_iff (h : Pairs closed opened same gs) (hother : Pairs closed opened other gs) :
    same ↔ other := by
  obtain ⟨pairs, hrun, hpairs⟩ := h
  obtain ⟨pairs', hrun', hpairs'⟩ := hother
  cases hrun.symm.trans hrun'
  exact hpairs.symm.trans hpairs'

theorem nil : Pairs closed closed True [] := ⟨[], rfl, by simp⟩

/-- Brackets that were open before stay open. -/
theorem keep (h : Pairs closed opened same gs) (below : List Bracket) :
    Pairs (closed ++ below) (opened ++ below) same gs := by
  obtain ⟨pairs, hrun, hpairs⟩ := h
  exact ⟨pairs, pairs?_add below hrun, hpairs⟩

theorem append {next : List Bracket} {hs : List Glyph} (hg : Pairs closed opened same gs)
    (hh : Pairs opened next other hs) : Pairs closed next (same ∧ other) (gs ++ hs) := by
  obtain ⟨pairs, hrun, hpairs⟩ := hg
  obtain ⟨more, hmore, hpairs'⟩ := hh
  refine ⟨pairs ++ more, ?_, by rw [List.forall_mem_append, hpairs, hpairs']⟩
  rw [pairs?_append, hrun, Option.bind_some, hmore]
  rfl

end Glyph.Pairs

/-! ### Texts that close and open brackets -/

/-- The text ends outside literals, and closes and opens these brackets. -/
structure Text.Pairs (closed opened : List Bracket) (same : Prop) (t : Text) : Prop where
  ends : ∀ rest, Glyph.ofText (t ++ rest) = Glyph.ofText t ++ Glyph.ofText rest
  run : Glyph.Pairs closed opened same (Glyph.ofText t)

namespace Text.Pairs

variable {closed opened : List Bracket} {same : Prop} {t : Text}

theorem congr {other : Prop} (h : Pairs closed opened same t) (hsame : same ↔ other) :
    Pairs closed opened other t := ⟨h.ends, h.run.congr hsame⟩

theorem nil : Pairs closed closed True [] := ⟨fun _ => rfl, .nil⟩

theorem keep (h : Pairs closed opened same t) (below : List Bracket) :
    Pairs (closed ++ below) (opened ++ below) same t := ⟨h.ends, h.run.keep below⟩

theorem append {next : List Bracket} {same' : Prop} {u : Text} (ht : Pairs closed opened same t)
    (hu : Pairs opened next same' u) : Pairs closed next (same ∧ same') (t ++ u) := by
  constructor
  · intro rest
    rw [List.append_assoc, ht.ends, hu.ends, ht.ends, List.append_assoc]
  · rw [ht.ends]
    exact ht.run.append hu.run

/-- A text without pairs of different kinds, and another text behind it. -/
theorem append_same {next : List Bracket} {u : Text} (ht : Pairs closed opened True t)
    (hu : Pairs opened next same u) : Pairs closed next same (t ++ u) :=
  (ht.append hu).congr (iff_of_eq (true_and same))

theorem ofText_cons {c : Char} (hq : ¬ isQuote c) (u : Text) :
    Glyph.ofText (c :: u) = .code c :: Glyph.ofText u := by
  rw [Glyph.ofText, Glyph.read, if_neg hq]
  rfl

theorem not_isQuote_opener (b : Bracket) : ¬ isQuote b.opener := by cases b <;> decide

theorem not_isQuote_closer (b : Bracket) : ¬ isQuote b.closer := by cases b <;> decide

theorem ofText_opener (b : Bracket) (u : Text) :
    Glyph.ofText (b.opener :: u) = .code b.opener :: Glyph.ofText u :=
  ofText_cons (not_isQuote_opener b) u

theorem ofText_closer (b : Bracket) (u : Text) :
    Glyph.ofText (b.closer :: u) = .code b.closer :: Glyph.ofText u :=
  ofText_cons (not_isQuote_closer b) u

theorem opener {b : Bracket} (h : Pairs (b :: closed) opened same t) :
    Pairs closed opened same (b.opener :: t) := by
  obtain ⟨pairs, hrun, hpairs⟩ := h.run
  have hread := ofText_opener b
  constructor
  · intro rest
    rw [List.cons_append, hread, hread, h.ends, List.cons_append]
  · exact ⟨pairs, by rw [hread, Glyph.pairs?_opener, hrun], hpairs⟩

/-- The innermost open bracket is closed by one of its own or of another kind. -/
theorem closer {b c : Bracket} (h : Pairs closed opened same t) :
    Pairs (b :: closed) opened (b = c ∧ same) (c.closer :: t) := by
  obtain ⟨pairs, hrun, hpairs⟩ := h.run
  have hread := ofText_closer c
  constructor
  · intro rest
    rw [List.cons_append, hread, hread, h.ends, List.cons_append]
  · refine ⟨(b, c) :: pairs, ?_, by rw [List.forall_mem_cons, hpairs]⟩
    rw [hread, Glyph.pairs?_closer, hrun]
    rfl

theorem closer_same {b : Bracket} (h : Pairs closed opened same t) :
    Pairs (b :: closed) opened same (b.closer :: t) :=
  h.closer.congr (by rw [eq_self, true_and])

theorem cons {c : Char} (hq : ¬ isQuote c) (ho : Bracket.ofOpener? c = none)
    (hc : Bracket.ofCloser? c = none) (h : Pairs closed opened same t) :
    Pairs closed opened same (c :: t) := by
  obtain ⟨pairs, hrun, hpairs⟩ := h.run
  have hread := ofText_cons hq
  constructor
  · intro rest
    rw [List.cons_append, hread, hread, h.ends, List.cons_append]
  · exact ⟨pairs, by rw [hread, Glyph.pairs?_code ho hc, hrun], hpairs⟩

end Text.Pairs

/-- No character of the text is a quote or a bracket. -/
def Text.isFlat (t : Text) : Bool := t.all fun c => !isQuote c && !isOpener c && !isCloser c

/-- Characters of a class that has no quote and no bracket in it. -/
theorem Text.isFlat_of_forall {p : Char → Bool} {t : Text} (hquotes : p '"' = false ∧ p '\'' = false)
    (hbrackets : ∀ b : Bracket, p b.opener = false ∧ p b.closer = false) (h : ∀ c ∈ t, p c) :
    t.isFlat := by
  refine List.all_eq_true.2 fun c hc => ?_
  have hne {d : Char} (hd : p d = false) : c ≠ d := by
    rintro rfl
    exact Bool.false_ne_true (hd.symm.trans (h c hc))
  have ho : Bracket.ofOpener? c = none := Option.eq_none_iff_forall_ne_some.2 fun b hb =>
    hne (hbrackets b).1 (Bracket.ofOpener?_eq_some_iff.1 hb)
  have hc : Bracket.ofCloser? c = none := Option.eq_none_iff_forall_ne_some.2 fun b hb =>
    hne (hbrackets b).2 (Bracket.ofCloser?_eq_some_iff.1 hb)
  have hq : isQuote c = false := by
    rw [← Bool.not_eq_true, isQuote_iff, not_or]
    exact ⟨hne hquotes.1, hne hquotes.2⟩
  rw [isOpener, isCloser, ho, hc, hq]
  rfl

theorem Text.isFlat_of_blank {t : Text} (h : ∀ c ∈ t, isBlank c) : t.isFlat :=
  isFlat_of_forall (by decide) (fun b => by cases b <;> decide) h

theorem Text.isFlat_of_space {t : Text} (h : ∀ c ∈ t, isSpace c) : t.isFlat :=
  isFlat_of_forall (by decide) (fun b => by cases b <;> decide) h

/-- Letters, digits and `_` are no brackets. -/
theorem Text.isFlat_of_word {t : Text} (h : ∀ c ∈ t, c.isAlphanum || c == '_') : t.isFlat :=
  isFlat_of_forall (p := fun c => c.isAlphanum || c == '_') (by decide)
    (fun b => by cases b <;> decide) h

@[simp]
theorem Text.isFlat_append {t u : Text} : Text.isFlat (t ++ u) ↔ t.isFlat ∧ u.isFlat := by
  rw [isFlat, List.all_append, Bool.and_eq_true]
  rfl

namespace Text.Pairs

variable {closed opened : List Bracket} {same : Prop} {t : Text}

theorem after_flat {u : Text} (h : u.isFlat) (ht : Pairs closed opened same t) :
    Pairs closed opened same (u ++ t) := by
  induction u with
  | nil => exact ht
  | cons c rest ih =>
    simp only [isFlat, List.all_cons, Bool.and_eq_true, Bool.not_eq_true', isOpener, isCloser,
      Option.isSome_eq_false_iff, Option.isNone_iff_eq_none] at h
    obtain ⟨⟨⟨hq, ho⟩, hc⟩, hrest⟩ := h
    refine cons (by simp [hq]) ho hc (ih ?_)
    simpa [isFlat, isOpener, isCloser] using hrest

theorem of_flat (h : t.isFlat) : Pairs closed closed True t := by
  rw [← List.append_nil t]
  exact nil.after_flat h

theorem before_flat {u : Text} (ht : Pairs closed opened same t) (h : u.isFlat) :
    Pairs closed opened same (t ++ u) :=
  (ht.append (of_flat h)).congr (iff_of_eq (and_true same))

theorem of_trim (h : Pairs closed opened same t.trim) : Pairs closed opened same t := by
  obtain ⟨before, behind, ht, hbefore, hbehind⟩ := exists_blanks_around_trim t
  rw [ht]
  exact (h.before_flat (isFlat_of_blank hbehind)).after_flat (isFlat_of_blank hbefore)

/-! ### Literals -/

theorem read_some_cons {quote c : Char} (hc : c ≠ '\\') (u : Text) :
    Glyph.read (some quote) (c :: u) =
      .quoted c :: Glyph.read (if c == quote then none else some quote) u := by
  rw [Glyph.read.eq_def]
  split <;> simp_all

theorem read_literal {quote : Char} {rest body more : Text}
    (h : Token.literal? quote rest = some (body, more)) (u : Text) :
    Glyph.read (some quote) (body ++ u) = body.map .quoted ++ Glyph.ofText u := by
  fun_induction Token.literal? quote rest generalizing body with
  | case1 | case2 => cases h
  | case3 c rest ih =>
    obtain ⟨⟨inner, after⟩, hi, heq⟩ := Option.map_eq_some_iff.1 h
    cases heq
    rw [List.cons_append, List.cons_append, Glyph.read, ih hi]
    rfl
  | case4 c rest hlast hnext hc =>
    cases h
    have hback : c ≠ '\\' := by
      intro heq
      cases more with
      | nil => exact hlast heq rfl
      | cons d after => exact hnext d after heq rfl
    rw [List.singleton_append, read_some_cons hback, if_pos hc]
    rfl
  | case5 c rest hlast hnext hc ih =>
    obtain ⟨⟨inner, after⟩, hi, heq⟩ := Option.map_eq_some_iff.1 h
    cases heq
    have hback : c ≠ '\\' := by
      intro heq
      cases rest with
      | nil => exact hlast heq rfl
      | cons d after => exact hnext d after heq rfl
    rw [List.cons_append, read_some_cons hback, if_neg hc, ih hi]
    rfl

/-- A literal in front changes nothing. -/
theorem literal {quote : Char} {rest body more : Text} (hq : isQuote quote)
    (hl : Token.literal? quote rest = some (body, more)) (h : Pairs closed opened same t) :
    Pairs closed opened same (quote :: (body ++ t)) := by
  have hread (u : Text) : Glyph.ofText (quote :: (body ++ u)) =
      (quote :: body).map .quoted ++ Glyph.ofText u := by
    rw [Glyph.ofText, Glyph.read, if_pos hq, read_literal hl]
    rfl
  obtain ⟨pairs, hrun, hpairs⟩ := h.run
  constructor
  · intro rest
    rw [List.cons_append, List.append_assoc, hread, hread, h.ends, List.append_assoc]
  · exact ⟨pairs, by rw [hread, Glyph.pairs?_map_quoted, hrun], hpairs⟩

/-! ### Tokens -/

theorem group {word t g after : Text} {stack : List Bracket}
    (h : Token.group word stack t = .ok (g, after)) : Pairs stack [] True g := by
  fun_induction Token.group word stack t generalizing g with
  | case1 | case2 | case5 | case8 => cases h
  | case3 stack c rest hq body more hl ih =>
    obtain ⟨⟨tail, behind⟩, ht, heq⟩ := Check.map_eq_ok_iff.1 h
    cases heq
    exact literal hq hl (ih ht)
  | case4 stack c rest hq b hb ih =>
    obtain ⟨⟨tail, behind⟩, ht, heq⟩ := Check.map_eq_ok_iff.1 h
    cases heq
    obtain rfl := Bracket.ofOpener?_eq_some_iff.1 hb
    exact opener (ih ht)
  | case6 c rest hq b top hb ho hsame =>
    cases h
    obtain rfl := Bracket.ofCloser?_eq_some_iff.1 hb
    obtain rfl := not_not.1 hsame
    exact closer_same nil
  | case7 c rest hq b top below hb ho hsame hbelow ih =>
    obtain ⟨⟨tail, behind⟩, ht, heq⟩ := Check.map_eq_ok_iff.1 h
    cases heq
    obtain rfl := Bracket.ofCloser?_eq_some_iff.1 hb
    obtain rfl := not_not.1 hsame
    exact closer_same (ih ht)
  | case9 stack c rest hq hc ho ih =>
    obtain ⟨⟨tail, behind⟩, ht, heq⟩ := Check.map_eq_ok_iff.1 h
    cases heq
    exact cons hq ho hc (ih ht)

theorem word {whole t w after : Text} (h : Token.word whole t = .ok (w, after)) :
    Pairs closed closed True w := by
  fun_induction Token.word whole t generalizing w with
  | case1 | case4 =>
    cases h
    exact nil
  | case2 => cases h
  | case3 c rest b hb g more hg ih =>
    obtain ⟨⟨tail, behind⟩, ht, heq⟩ := Check.map_eq_ok_iff.1 h
    cases heq
    obtain rfl := Bracket.ofOpener?_eq_some_iff.1 hb
    exact opener (((group hg).keep closed).append_same (ih ht))
  | case5 c rest ho he ih =>
    obtain ⟨⟨tail, behind⟩, ht, heq⟩ := Check.map_eq_ok_iff.1 h
    cases heq
    obtain ⟨hq, hcloser, -, -⟩ := Token.not_endsWord_iff.1 he
    exact cons hq ho (Option.not_isSome_iff_eq_none.1 hcloser) (ih ht)

theorem scanInside {stack : List Bracket} {tokens : List Text}
    (h : Token.scanInside stack t = .ok tokens) : Pairs stack [] True t := by
  fun_induction Token.scanInside stack t generalizing tokens with
  | case1 => exact nil
  | case2 | case3 | case6 | case9 | case10 | case13 => cases h
  | case4 stack c rest _ hq body more hl ih =>
    obtain ⟨ts, hts, rfl⟩ := Check.map_eq_ok_iff.1 h
    rw [← Token.append_of_literal? hl]
    exact literal hq hl (ih hts)
  | case5 stack c rest _ _ hb ih =>
    have hblank : isFlat [c] := isFlat_of_blank fun d hd => by
      rw [List.mem_singleton.1 hd]
      exact hb
    exact (ih h).after_flat hblank
  | case7 stack c rest _ _ _ _ op more hr ih =>
    obtain ⟨ts, hts, rfl⟩ := Check.map_eq_ok_iff.1 h
    rw [← Operator.append_of_read? hr]
    exact (ih hts).after_flat (by cases op <;> decide)
  | case8 c rest _ _ _ _ b below hb ih =>
    obtain ⟨ts, hts, rfl⟩ := Check.map_eq_ok_iff.1 h
    obtain rfl := Bracket.ofCloser?_eq_some_iff.1 hb
    exact closer_same (ih hts)
  | case11 stack c rest _ hb ih | case12 stack c rest _ hb ih =>
    obtain ⟨ts, hts, rfl⟩ := Check.map_eq_ok_iff.1 h
    obtain rfl := Bracket.ofOpener?_eq_some_iff.1 hb
    exact opener (ih hts)
  | case14 stack c rest _ w more hw _ _ ih =>
    obtain ⟨ts, hts, rfl⟩ := Check.map_eq_ok_iff.1 h
    rw [← Token.append_of_word hw]
    exact (word hw).append_same (ih hts)

/-- The text of an accepted expression. -/
theorem of_scan {tokens : List Text} (h : Token.scan t = .ok tokens) : Pairs [] [] True t :=
  scanInside h

/-! ### Headers -/

/-- A header around an expression opens the brace at its end. -/
theorem of_header {keyword : String} {header inner : Text} (hk : isFlat keyword.toList)
    (h : betweenKeywordAndBrace? keyword header = some inner) (hi : Pairs [] [] same inner) :
    Pairs [] [.curly] same header := by
  obtain ⟨between, rfl, rfl⟩ := betweenKeywordAndBrace?_eq_some h
  have hbrace : Pairs [] [.curly] True ['{'] := opener (b := .curly) nil
  rw [List.append_assoc]
  exact ((hi.of_trim.append hbrace).congr (iff_of_eq (and_true same))).after_flat hk

end Text.Pairs

end StellaGo
