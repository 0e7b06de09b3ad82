import StellaGo.Proofs.BracketGroups
import StellaGo.Proofs.Rescanning

/-! How the scanner goes through a text. Defined here: words with their groups, the steps that the
scanner takes from token to token, and tokens that are spread over a text with blanks in between.
Proved: the scanner takes just these steps. So no part of a text is lost but blanks, the brackets
among the tokens and in each of them close each other by kind, and the tokens are found again when
the scanner goes through them with blanks in between, or through one of them alone. -/

namespace StellaGo

namespace Token

open Text (Closes)

/-- A word with its groups, to the scanner one token up to the next character that ends words. -/
structure IsWord (w : Text) : Prop where
  starts : ∃ c rest, w = c :: rest ∧ endsWord c = false ∧ c ∉ ['(', '{']
  runs : Runs w
  closes : Closes true [] w

/-- The steps of the scanner through a text before which the brackets `stack` are open. -/
inductive Scans : (stack : List Bracket) → Text → (tokens : List Text) → Prop
  | nil : Scans [] [] []
  | blank {stack : List Bracket} {c : Char} {t : Text} {tokens : List Text} (hc : isBlank c)
      (h : Scans stack t tokens) : Scans stack (c :: t) tokens
  | literal {stack : List Bracket} {quote : Char} {body t : Text} {tokens : List Text}
      (hq : isQuote quote) (hl : literal? quote body = some (body, []))
      (h : Scans stack t tokens) : Scans stack (quote :: body ++ t) ((quote :: body) :: tokens)
  | operator {stack : List Bracket} {op : Operator} {t : Text} {tokens : List Text}
      (hr : Operator.read? (op.symbol.toList ++ t) = some (op, t)) (h : Scans stack t tokens) :
      Scans stack (op.symbol.toList ++ t) (op.symbol.toList :: tokens)
  | opener {stack : List Bracket} {b : Bracket} {t : Text} {tokens : List Text} (hb : b ≠ .square)
      (h : Scans (b :: stack) t tokens) : Scans stack (b.opener :: t) ([b.opener] :: tokens)
  | closer {stack : List Bracket} {b : Bracket} {t : Text} {tokens : List Text} (hb : b ≠ .square)
      (h : Scans stack t tokens) : Scans (b :: stack) (b.closer :: t) ([b.closer] :: tokens)
  | word {stack : List Bracket} {w t : Text} {tokens : List Text} (hw : IsWord w)
      (ht : ∀ c ∈ t.head?, endsWord c) (h : Scans stack t tokens) :
      Scans stack (w ++ t) (w :: tokens)

/-! ### Words -/

theorem literal?_body {quote : Char} {t body more : Text} (h : literal? quote t = some (body, more)) :
    literal? quote body = some (body, []) := by
  have hbody := literal?_append h []
  rwa [List.append_nil] at hbody

/-- A group ends with the bracket that closes the outermost open one. -/
theorem exists_inside_of_group {whole t g after : Text} {open_ stack : List Bracket} {b : Bracket}
    (h : group whole open_ t = .ok (g, after)) (hopen : open_ = stack ++ [b]) :
    ∃ inside, g = inside ++ [b.closer] ∧ Closes true stack inside := by
  fun_induction group whole open_ t generalizing g stack with
  | case1 | case2 | case5 | case8 => cases h
  | case3 _ c rest hq body more hl ih =>
    obtain ⟨⟨tail, behind⟩, ht, heq⟩ := Check.map_eq_ok_iff.1 h
    cases heq
    obtain ⟨inside, rfl, hclosed⟩ := ih ht hopen
    exact ⟨c :: (body ++ inside), by simp, .literal hq (literal?_body hl) hclosed⟩
  | case4 _ c rest hq opened hb ih =>
    obtain ⟨⟨tail, behind⟩, ht, heq⟩ := Check.map_eq_ok_iff.1 h
    cases heq
    obtain rfl := Bracket.ofOpener?_eq_some_iff.1 hb
    obtain ⟨inside, rfl, hclosed⟩ := ih ht (by rw [hopen, List.cons_append])
    exact ⟨opened.opener :: inside, rfl, .opener opened hclosed⟩
  | case6 c rest hq closed top hb ho hsame =>
    cases h
    obtain rfl := Bracket.ofCloser?_eq_some_iff.1 hb
    obtain rfl := not_not.1 hsame
    obtain ⟨rfl, rfl⟩ : stack = [] ∧ top = b := by
      cases stack with
      | nil => exact ⟨rfl, (List.cons.inj hopen).1⟩
      | cons _ _ => simp at hopen
    exact ⟨[], rfl, .nil⟩
  | case7 c rest hq closed top below hb ho hsame hbelow ih =>
    obtain ⟨⟨tail, behind⟩, ht, heq⟩ := Check.map_eq_ok_iff.1 h
    cases heq
    obtain rfl := Bracket.ofCloser?_eq_some_iff.1 hb
    obtain rfl := not_not.1 hsame
    cases stack with
    | nil => exact absurd (List.cons.inj hopen).2 hbelow
    | cons first under =>
      obtain ⟨rfl, rfl⟩ := List.cons.inj hopen
      obtain ⟨inside, rfl, hclosed⟩ := ih ht rfl
      exact ⟨top.closer :: inside, rfl, .closer top hclosed⟩
  | case9 _ c rest hq hc ho ih =>
    obtain ⟨⟨tail, behind⟩, ht, heq⟩ := Check.map_eq_ok_iff.1 h
    cases heq
    obtain ⟨inside, rfl, hclosed⟩ := ih ht hopen
    have hflat : Text.isFlat [c] := Text.isFlat_singleton_iff.2 ⟨hq, ho, hc⟩
    exact ⟨c :: inside, rfl, .plain hflat (fun _ => .inl rfl) hclosed⟩

/-- A word goes up to a character that ends words. -/
theorem runs_of_word {whole t w after : Text} (h : word whole t = .ok (w, after)) :
    Runs w ∧ Closes true [] w ∧ ∀ c ∈ after.head?, endsWord c := by
  fun_induction word whole t generalizing w with
  | case1 =>
    cases h
    exact ⟨.nil, .nil, fun d hd => by cases hd⟩
  | case2 => cases h
  | case3 c rest b hb g more hg ih =>
    obtain ⟨⟨tail, behind⟩, ht, heq⟩ := Check.map_eq_ok_iff.1 h
    cases heq
    obtain rfl := Bracket.ofOpener?_eq_some_iff.1 hb
    obtain ⟨inside, rfl, hclosed⟩ := exists_inside_of_group hg (List.nil_append [b]).symm
    obtain ⟨hruns, hcloses, hends⟩ := ih ht
    exact ⟨(Runs.group hclosed b).append hruns, (hclosed.group b).append hcloses .inl, hends⟩
  | case4 c rest ho hc =>
    cases h
    exact ⟨.nil, .nil, fun d hd => by rwa [← Option.some.inj hd]⟩
  | case5 c rest ho hc ih =>
    obtain ⟨⟨tail, behind⟩, ht, heq⟩ := Check.map_eq_ok_iff.1 h
    cases heq
    obtain ⟨hruns, hcloses, hends⟩ := ih ht
    have hword : Runs [c] := .plain (List.forall_mem_singleton.2 ⟨ho, Bool.eq_false_iff.2 hc⟩)
    have hflat := Text.isFlat_of_not_endsWord ho hc
    exact ⟨hword.append hruns, .plain hflat (fun _ => .inl rfl) hcloses, hends⟩

/-! ### Steps -/

variable {stack : List Bracket} {t : Text} {tokens : List Text}

theorem Scans.scanInside (h : Scans stack t tokens) : scanInside stack t = .ok tokens := by
  induction h with
  | nil => rw [Token.scanInside.eq_def]
  | blank hc _ ih => rw [scanInside_blank hc, ih]
  | literal hq hl _ ih =>
    rw [scanInside_literal hq hl, ih]
    rfl
  | operator hr _ ih =>
    rw [scanInside_operator _ hr, ih]
    rfl
  | opener hb _ ih =>
    rw [scanInside_opener hb, ih]
    rfl
  | closer _ _ ih =>
    rw [scanInside_closer, ih]
    rfl
  | word hw ht _ ih =>
    obtain ⟨c, rest, rfl, hc, hb⟩ := hw.starts
    rw [scanInside_word hc hb hw.runs _ ht, ih]
    rfl

theorem scans_of_scanInside (hs : .square ∉ stack) (h : scanInside stack t = .ok tokens) :
    Scans stack t tokens := by
  fun_induction Token.scanInside stack t generalizing tokens with
  | case1 => cases h; exact .nil
  | case2 | case3 | case6 | case9 | case10 | case13 => cases h
  | case4 stack c rest hc hq body more hl ih =>
    obtain ⟨ts, hts, rfl⟩ := Check.map_eq_ok_iff.1 h
    obtain rfl := append_of_literal? hl
    exact .literal hq (literal?_body hl) (ih hs hts)
  | case5 stack c rest _ _ hblank ih => exact .blank hblank (ih hs h)
  | case7 stack c rest _ _ _ _ op more hr ih =>
    obtain ⟨ts, hts, rfl⟩ := Check.map_eq_ok_iff.1 h
    have happend := Operator.append_of_read? hr
    rw [← happend] at hr ⊢
    exact .operator hr (ih hs hts)
  | case8 c rest _ _ _ _ b below hb ih =>
    obtain ⟨ts, hts, rfl⟩ := Check.map_eq_ok_iff.1 h
    obtain rfl := Bracket.ofCloser?_eq_some_iff.1 hb
    exact .closer (fun hsquare => hs (hsquare ▸ List.mem_cons_self))
      (ih (fun hm => hs (List.mem_cons_of_mem _ hm)) hts)
  | case11 stack c rest _ hb ih | case12 stack c rest _ hb ih =>
    obtain ⟨ts, hts, rfl⟩ := Check.map_eq_ok_iff.1 h
    obtain rfl := Bracket.ofOpener?_eq_some_iff.1 hb
    exact .opener (by decide) (ih (by simpa using hs) hts)
  | case14 stack c rest hc w more hw hround hcurly ih =>
    obtain ⟨ts, hts, rfl⟩ := Check.map_eq_ok_iff.1 h
    have hc : endsWord c = false := by simpa using hc
    obtain ⟨tail, rfl⟩ := exists_cons_of_word hc hw
    obtain ⟨hruns, hcloses, hends⟩ := runs_of_word hw
    have hstart : c ∉ ['(', '{'] := by
      intro hm
      simp only [List.mem_cons, List.not_mem_nil, or_false] at hm
      rcases hm with rfl | rfl
      · exact hround rfl
      · exact hcurly rfl
    rw [← append_of_word hw]
    exact .word ⟨⟨c, tail, rfl, hc, hstart⟩, hruns, hcloses⟩ hends (ih hs hts)

/-- The scanner takes just these steps. -/
theorem scan_eq_ok_iff : scan t = .ok tokens ↔ Scans [] t tokens :=
  ⟨scans_of_scanInside (List.not_mem_nil), Scans.scanInside⟩

/-! ### What is left out -/

/-- The tokens, none of them empty, stand in the text in this order, with nothing but blanks before,
between and behind them. -/
inductive Spread : Text → (tokens : List Text) → Prop
  | blanks {t : Text} (h : ∀ c ∈ t, isBlank c) : Spread t []
  | token {before token rest : Text} {tokens : List Text} (hb : ∀ c ∈ before, isBlank c)
      (hne : token ≠ []) (h : Spread rest tokens) : Spread (before ++ token ++ rest) (token :: tokens)

theorem Spread.blank {c : Char} (hc : isBlank c) (h : Spread t tokens) : Spread (c :: t) tokens := by
  cases h with
  | blanks h => exact .blanks (List.forall_mem_cons.2 ⟨hc, h⟩)
  | token hb hne h =>
    rw [← List.cons_append, ← List.cons_append]
    exact .token (List.forall_mem_cons.2 ⟨hc, hb⟩) hne h

theorem Spread.cons {token : Text} (hne : token ≠ []) (h : Spread t tokens) :
    Spread (token ++ t) (token :: tokens) := .token (List.forall_mem_nil _) hne h

theorem Scans.spread (h : Scans stack t tokens) : Spread t tokens := by
  induction h with
  | nil => exact .blanks (List.forall_mem_nil _)
  | blank hc _ ih => exact ih.blank hc
  | literal _ _ _ ih => exact ih.cons (List.cons_ne_nil _ _)
  | @operator _ op _ _ _ _ ih => exact ih.cons (by cases op <;> decide)
  | @opener _ b _ _ _ _ ih => exact ih.cons (List.cons_ne_nil b.opener [])
  | @closer _ b _ _ _ _ ih => exact ih.cons (List.cons_ne_nil b.closer [])
  | word hw _ _ ih =>
    obtain ⟨c, rest, rfl, -⟩ := hw.starts
    exact ih.cons (List.cons_ne_nil _ _)

/-! ### What is closed -/

/-- A text that was scanned can stand in brackets. -/
theorem Scans.closes (h : Scans stack t tokens) : Closes true stack t := by
  induction h with
  | nil => exact .nil
  | @blank _ c _ _ hc _ ih =>
    have hflat : Text.isFlat [c] := Text.isFlat_of_blank (List.forall_mem_singleton.2 hc)
    exact .plain hflat (fun _ => .inl rfl) ih
  | literal hq hl _ ih => exact .literal hq hl ih
  | @operator _ op _ _ _ _ ih =>
    have hsymbol : Closes true [] op.symbol.toList := by
      cases op <;> exact .flat (by decide) (by decide)
    exact hsymbol.append ih fun _ => .inl rfl
  | opener _ _ ih => exact .opener _ ih
  | closer _ _ ih => exact .closer _ ih
  | word hw _ _ ih => exact hw.closes.append ih fun _ => .inl rfl

/-- A token that is no operator and no bracket is a token by itself. -/
theorem Scans.alone (h : Scans stack t tokens) :
    ∀ token ∈ tokens, classify token = .value → Scans [] token [token] := by
  induction h with
  | nil => nofun
  | blank _ _ ih => exact ih
  | literal hq hl _ ih =>
    have halone := Scans.literal hq hl .nil
    rw [List.append_nil] at halone
    exact List.forall_mem_cons.2 ⟨fun _ => halone, ih⟩
  | operator _ _ ih =>
    refine List.forall_mem_cons.2 ⟨fun hv => ?_, ih⟩
    rw [classify_symbol] at hv
    cases hv
  | opener hb _ ih =>
    refine List.forall_mem_cons.2 ⟨fun hv => ?_, ih⟩
    rw [classify_opener hb] at hv
    cases hv
  | closer hb _ ih =>
    refine List.forall_mem_cons.2 ⟨fun hv => ?_, ih⟩
    rw [classify_closer hb] at hv
    cases hv
  | word hw _ _ ih =>
    have halone := Scans.word hw (by nofun) .nil
    rw [List.append_nil] at halone
    exact List.forall_mem_cons.2 ⟨fun _ => halone, ih⟩

/-! ### Tokens with blanks in between -/

/-- What stands behind a token if blanks are put between the tokens. -/
def spaced : (tokens : List Text) → Text
  | [] => []
  | token :: tokens => ' ' :: (token ++ spaced tokens)

theorem intercalate_cons (token : Text) (tokens : List Text) :
    List.intercalate [' '] (token :: tokens) = token ++ spaced tokens := by
  induction tokens generalizing token with
  | nil => rw [List.intercalate_singleton, spaced, List.append_nil]
  | cons next more ih =>
    rw [List.intercalate_cons_cons, ih, List.append_assoc]
    rfl

/-- Before a token there is a blank, before the end there is nothing. -/
theorem head?_spaced (tokens : List Text) : ∀ c ∈ (spaced tokens).head?, c = ' ' := by
  cases tokens with
  | nil => nofun
  | cons token tokens => exact fun c hc => (Option.some.inj hc).symm

theorem Scans.spaced (h : Scans stack t tokens) : Scans stack (spaced tokens) tokens := by
  have hblank {stack : List Bracket} {t : Text} {tokens : List Text} (h : Scans stack t tokens) :
      Scans stack (' ' :: t) tokens := .blank (by decide) h
  induction h with
  | nil => exact .nil
  | blank _ _ ih => exact ih
  | literal hq hl _ ih => exact hblank (.literal hq hl ih)
  | operator _ _ ih =>
    refine hblank (.operator (read?_symbol _ fun heq => ?_) ih)
    exact absurd (head?_spaced _ '=' heq) (by decide)
  | opener hb _ ih => exact hblank (.opener hb ih)
  | closer hb _ ih => exact hblank (.closer hb ih)
  | word hw _ _ ih =>
    refine hblank (.word hw (fun c hc => ?_) ih)
    rw [head?_spaced _ c hc]
    decide

theorem scan_intercalate (tokens : List Text) :
    scan (List.intercalate [' '] tokens) = scan (spaced tokens) := by
  cases tokens with
  | nil => rfl
  | cons token tokens => rw [intercalate_cons, spaced, scan, scan, scanInside_blank (by decide)]

/-- Scanning loses nothing but blanks. The brackets among the tokens close each other by kind, and so
do those in each other token; and the tokens are found again, with blanks in between, or one alone. -/
theorem scan_stable {text : Text} {tokens : List Text} (h : scan text = .ok tokens) :
    Spread text tokens ∧ Nested [] (tokens.map classify) ∧
      (∀ token ∈ tokens, classify token = .value → token.Matched ∧ scan token = .ok [token]) ∧
      scan (List.intercalate [' '] tokens) = .ok tokens := by
  have hscans := scan_eq_ok_iff.1 h
  refine ⟨hscans.spread, nested_of_scanInside (List.not_mem_nil) h, fun token ht hv => ?_,
    (scan_intercalate tokens).trans (scan_eq_ok_iff.2 hscans.spaced)⟩
  have halone := scan_eq_ok_iff.2 (hscans.alone token ht hv)
  exact ⟨Text.Pairs.of_scan halone, halone⟩

theorem scan_stable_call :
    ∃ text tokens, scan text = .ok tokens ∧ tokens.length = 6 ∧
      Spread text tokens ∧ Nested [] (tokens.map classify) ∧
      (∀ token ∈ tokens, classify token = .value → token.Matched ∧ scan token = .ok [token]) ∧
      scan (List.intercalate [' '] tokens) = .ok tokens := by
  let tokens := ["f(xs[1], \"é)\")", "<=", "(", "-", "t.0", ")"].map String.toList
  have hscan : scan "f(xs[1], \"é)\")<= (-t.0 )".toList = .ok tokens := by decide +kernel
  exact ⟨_, tokens, hscan, rfl, scan_stable hscan⟩

end Token

end StellaGo
