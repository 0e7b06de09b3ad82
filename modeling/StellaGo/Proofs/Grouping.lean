import StellaGo.Proofs.Grammar
import StellaGo.Proofs.Operands
import StellaGo.Proofs.Results
import StellaGo.Proofs.SameNames
import StellaGo.Proofs.Scanning

/-! Expressions in brackets. Defined here: a text in a pair of brackets, an expression in such a pair,
and checks with results that are good alike. Proved: a text that can be scanned is an expression if and
only if it is one in round or curly brackets. The two are of one type, and in Go text they differ by a
pair of round brackets. -/

namespace StellaGo

/-- The text in a pair of brackets. -/
def Bracket.wrap (b : Bracket) (t : Text) : Text := b.opener :: (t ++ [b.closer])

/-- The expression in a pair of brackets. -/
def Expression.grouped (b : Bracket) (e : Expression) : Expression :=
  ⟨.opening b :: (e.terms ++ [.closing b]), e.type⟩

/-- Both results are good, and related by `R`, or both are faults. -/
def Check.Alike {α β : Type} (R : α → β → Prop) : Check α → Check β → Prop :=
  Check.Rel (fun _ _ => True) R

variable {b : Bracket} {t u left right : Text} {stack stack' : List Bracket} {tokens more : List Text}

/-! ### Scanning -/

/-- An operator is read in front of all but the `=` that would make it another one. -/
theorem Operator.read?_symbol_iff {op : Operator} :
    read? (op.symbol.toList ++ t) = some (op, t) ↔
      (t.head? = some '=' → op ∉ [.less, .greater, .not]) := by
  by_cases ht : t.head? = some '='
  · obtain ⟨rest, rfl⟩ := List.head?_eq_some_iff.1 ht
    cases op <;> simp [read?, symbol]
  · exact iff_of_true (Token.read?_symbol op ht) fun h => absurd h ht

namespace Token

/-- The scanner goes on with what stands behind a text, where a word and an operator end. -/
theorem Scans.append (h : Scans stack t tokens) (hu : Scans stack' u more)
    (hends : ∀ c ∈ u.head?, endsWord c ∧ c ≠ '=') :
    Scans (stack ++ stack') (t ++ u) (tokens ++ more) := by
  induction h with
  | nil => exact hu
  | blank hc _ ih => exact .blank hc ih
  | literal hq hl _ ih =>
    rw [List.append_assoc]
    exact .literal hq hl ih
  | operator hr _ ih =>
    rw [List.append_assoc]
    refine .operator (Operator.read?_symbol_iff.2 fun heq => ?_) ih
    rw [List.head?_append] at heq
    rcases Option.or_eq_some_iff.1 heq with heq | ⟨-, heq⟩
    · exact Operator.read?_symbol_iff.1 hr heq
    · exact absurd rfl (hends _ heq).2
  | opener hb _ ih => exact .opener hb ih
  | closer hb _ ih => exact .closer hb ih
  | @word stack w t tokens hw ht _ ih =>
    rw [List.append_assoc]
    refine .word hw (fun c hc => ?_) ih
    rw [List.head?_append] at hc
    rcases Option.or_eq_some_iff.1 hc with hc | ⟨-, hc⟩
    · exact ht c hc
    · exact (hends c hc).1

theorem Scans.wrap (hb : b ≠ .square) (h : Scans [] t tokens) :
    Scans [] (b.wrap t) ([b.opener] :: (tokens ++ [[b.closer]])) := by
  have hends : ∀ c ∈ [b.closer].head?, endsWord c ∧ c ≠ '=' := by
    intro c hc
    cases hc
    cases b <;> decide
  exact .opener hb (h.append (.closer hb .nil) hends)

theorem scan_wrap (hb : b ≠ .square) (h : scan t = .ok tokens) :
    scan (b.wrap t) = .ok ([b.opener] :: (tokens ++ [[b.closer]])) :=
  scan_eq_ok_iff.2 ((scan_eq_ok_iff.1 h).wrap hb)

/-! ### Blanks around a text -/

theorem Scans.blanks (ht : ∀ c ∈ t, isBlank c) : Scans [] t [] := by
  induction t with
  | nil => exact .nil
  | cons c rest ih =>
    obtain ⟨hc, hrest⟩ := List.forall_mem_cons.1 ht
    exact .blank hc (ih hrest)

theorem scan_blanks_append (hleft : ∀ c ∈ left, isBlank c) (t : Text) : scan (left ++ t) = scan t := by
  induction left with
  | nil => rfl
  | cons c rest ih =>
    obtain ⟨hc, hrest⟩ := List.forall_mem_cons.1 hleft
    rw [List.cons_append, scan, scanInside_blank hc]
    exact ih hrest

theorem scan_append_blanks (hright : ∀ c ∈ right, isBlank c) (h : scan t = .ok tokens) :
    scan (t ++ right) = .ok tokens := by
  have hends : ∀ c ∈ right.head?, endsWord c ∧ c ≠ '=' := by
    intro c hc
    have hblank := hright c (List.mem_of_mem_head? hc)
    refine ⟨by rw [endsWord, hblank, Bool.or_true, Bool.true_or], ?_⟩
    rintro rfl
    cases hblank
  have hscans := (scan_eq_ok_iff.1 h).append (.blanks hright) hends
  rw [List.append_nil, List.append_nil] at hscans
  exact scan_eq_ok_iff.2 hscans

/-- What a text ends with is no blank, so blanks behind a longer one stand behind the rest of it. -/
theorem exists_of_append_blanks {w : Text} (hw : w.EndsVisibly) (hright : ∀ c ∈ right, isBlank c)
    (h : w ++ t = u ++ right) : ∃ rest, u = w ++ rest ∧ t = rest ++ right := by
  rcases List.append_eq_append_iff.1 h with ⟨rest, rfl, ht⟩ | ⟨front, rfl, hfront⟩
  · exact ⟨rest, rfl, ht⟩
  · rcases List.eq_nil_or_concat' front with rfl | ⟨inner, c, rfl⟩
    · exact ⟨[], by simp, by simpa using hfront.symm⟩
    · obtain ⟨before, d, heq, hd⟩ := hw
      rw [← List.append_assoc] at heq
      obtain ⟨-, hlast⟩ := List.append_inj' heq rfl
      obtain rfl : c = d := by simpa using hlast
      have hblank := hright c (by simp [hfront])
      cases hd.symm.trans hblank

theorem IsWord.endsVisibly {w : Text} (h : IsWord w) : w.EndsVisibly := by
  obtain ⟨c, rest, rfl, -⟩ := h.starts
  have hword := h.runs [] []
  rw [List.append_nil, word] at hword
  have hwhole : word [] (c :: rest) = .ok (c :: rest ++ [], []) := hword
  rw [List.append_nil] at hwhole
  exact endsVisibly_word hwhole (List.cons_ne_nil c rest)

theorem head?_subset_append (t u : Text) {c : Char} (h : c ∈ t.head?) : c ∈ (t ++ u).head? := by
  obtain ⟨rest, rfl⟩ := List.head?_eq_some_iff.1 h
  rfl

/-- Blanks behind a text do not help the scanner. -/
theorem Scans.of_append_blanks (h : Scans stack t tokens) (hright : ∀ c ∈ right, isBlank c)
    (heq : t = u ++ right) : Scans stack u tokens := by
  induction h generalizing u right with
  | nil =>
    obtain ⟨rfl, -⟩ := List.append_eq_nil_iff.1 heq.symm
    exact .nil
  | @blank stack c t tokens hc _ ih =>
    cases u with
    | nil =>
      rw [List.nil_append] at heq
      exact ih (fun d hd => hright d (heq ▸ List.mem_cons_of_mem c hd)) rfl
    | cons d rest =>
      obtain ⟨rfl, hrest⟩ := List.cons.inj heq
      exact .blank hc (ih hright hrest)
  | @literal _ quote body _ _ hq hl _ ih =>
    have hquote : isBlank quote = false :=
      Bool.eq_false_iff.2 fun hblank => Go.not_isQuote_of_isBlank hblank hq
    have hends : Text.EndsVisibly (quote :: body) := (endsVisibly_literal? hquote hl).cons quote
    obtain ⟨rest, rfl, ht⟩ := exists_of_append_blanks hends hright heq
    exact .literal hq hl (ih hright ht)
  | @operator _ op _ _ hr _ ih =>
    have hends : Text.EndsVisibly op.symbol.toList := by cases op <;> exact .of_getLast? rfl
    obtain ⟨rest, rfl, rfl⟩ := exists_of_append_blanks hends hright heq
    refine .operator (Operator.read?_symbol_iff.2 fun hequals => ?_) (ih hright rfl)
    exact Operator.read?_symbol_iff.1 hr (head?_subset_append rest right hequals)
  | @opener _ b _ _ hb _ ih =>
    have hends : Text.EndsVisibly [b.opener] := by cases b <;> exact .of_getLast? rfl
    obtain ⟨rest, rfl, ht⟩ := exists_of_append_blanks hends hright heq
    exact .opener hb (ih hright ht)
  | @closer _ b _ _ hb _ ih =>
    obtain ⟨rest, rfl, ht⟩ := exists_of_append_blanks (.last (isBlank_closer b) []) hright heq
    exact .closer hb (ih hright ht)
  | word hw ht _ ih =>
    obtain ⟨rest, rfl, rfl⟩ := exists_of_append_blanks hw.endsVisibly hright heq
    exact .word hw (fun c hc => ht c (head?_subset_append rest right hc)) (ih hright rfl)

/-- The text without the blanks around it has the same tokens. -/
theorem scan_trim (h : scan t = .ok tokens) : scan t.trim = .ok tokens := by
  obtain ⟨left, right, heq, hleft, hright⟩ := Text.exists_blanks_around_trim t
  rw [heq, scan_blanks_append hleft] at h
  exact scan_eq_ok_iff.2 ((scan_eq_ok_iff.1 h).of_append_blanks hright rfl)

end Token

/-! ### Order and types -/

/-- A row that nests can follow in brackets just where it can follow without them. -/
theorem canFollow_append_closing {behind : Bool} {cs : List Token.Class}
    (hn : Token.Nested stack cs) (b : Bracket) :
    CanFollow (stack ++ [b]) behind (cs ++ [.closing b]) ↔ CanFollow stack behind cs := by
  induction cs generalizing stack behind with
  | nil =>
    obtain rfl : stack = [] := hn
    simp [CanFollow]
  | cons c rest ih =>
    cases c with
    | operator op => exact and_congr_right fun _ => ih hn
    | value => exact and_congr_right fun _ => ih hn
    | opening o => exact and_congr_right fun _ => @ih (o :: stack) false hn
    | closing o =>
      obtain ⟨below, rfl, hbelow⟩ := hn
      refine and_congr_right fun _ => ?_
      simp [ih hbelow]

namespace Inference

theorem infer_grouped {tree : Tree} (ht : tree.FollowsGo) (b : Bracket) :
    infer (.opening b :: (tree.terms ++ [.closing b])) = infer tree.terms := by
  have hgroup : (Tree.group b tree).FollowsGo := ht
  exact infer_congr ((Tree.stripGroups_terms hgroup).trans (Tree.stripGroups_terms ht).symm)

end Inference

namespace Expression

variable {symbols : Symbols}

/-- A text that was scanned is an expression if its tokens can follow on nothing and spell terms that
have a type. -/
theorem expression_eq_ok_iff_of_scan {x : Expression} (h : Token.scan t = .ok tokens) :
    expression symbols t = .ok x ↔
      CanFollow [] false (tokens.map Token.classify) ∧ tokens.mapM (term symbols) = .ok x.terms ∧
        Inference.infer x.terms = .ok x.type := by
  rw [expression_eq_ok_iff, Check.mapM_eq_ok_iff]
  constructor
  · rintro ⟨found, hscan, hne, hcheck, hterms, htype⟩
    cases h.symm.trans hscan
    refine ⟨?_, hterms, htype⟩
    exact canFollow_of_check (Token.nested_of_scanInside (List.not_mem_nil) hscan) hcheck
      fun hnil => absurd hnil hne
  · rintro ⟨hfollow, hterms, htype⟩
    refine ⟨tokens, h, ?_, Placement.check_of_canFollow hfollow, hterms, htype⟩
    rintro rfl
    cases hfollow.2

theorem exists_tree_of_canFollow {terms : List Term}
    (hfollow : CanFollow [] false (tokens.map Token.classify))
    (hterms : tokens.mapM (term symbols) = .ok terms) :
    ∃ tree : Tree, tree.FollowsGo ∧ tree.terms = terms := by
  have hclass : tokens.map Token.classify = terms.map Term.class := by
    rw [← List.forall₂_eq_eq_eq, List.forall₂_map_left_iff, List.forall₂_map_right_iff]
    exact (Check.mapM_eq_ok_iff.1 hterms).imp fun _ _ ht => (class_of_term ht).symm
  rw [hclass] at hfollow
  obtain ⟨tree, htree⟩ := Parse.exists_finish (p := Parse.start) hfollow
  exact ⟨tree, Tree.parse_eq_some_iff.1 htree⟩

theorem mapM_term_wrap (hb : b ≠ .square) (tokens : List Text) :
    ([b.opener] :: (tokens ++ [[b.closer]])).mapM (term symbols) =
      (tokens.mapM (term symbols)).map fun inner => .opening b :: (inner ++ [.closing b]) := by
  have hopener : term symbols [b.opener] = .ok (.opening b) := by
    rw [term, readTerm, Token.classify_opener hb]
  have hcloser : term symbols [b.closer] = .ok (.closing b) := by
    rw [term, readTerm, Token.classify_closer hb]
  rw [List.mapM_cons, List.mapM_append, List.mapM_cons, List.mapM_nil, hopener, hcloser]
  cases tokens.mapM (term symbols) <;> rfl

/-- A text in brackets is an expression just if it is one without them. -/
theorem expression_wrap_eq_ok_iff {y : Expression} (hb : b ≠ .square)
    (h : Token.scan t = .ok tokens) :
    expression symbols (b.wrap t) = .ok y ↔ ∃ x, expression symbols t = .ok x ∧ y = x.grouped b := by
  have hfollow : CanFollow [] false (([b.opener] :: (tokens ++ [[b.closer]])).map Token.classify) ↔
      CanFollow [] false (tokens.map Token.classify) := by
    rw [List.map_cons, List.map_append, List.map_singleton, Token.classify_opener hb,
      Token.classify_closer hb]
    refine (and_iff_right rfl).trans ?_
    exact canFollow_append_closing (Token.nested_of_scanInside (List.not_mem_nil) h) b
  have hinfer {inner : List Term} (hfollow : CanFollow [] false (tokens.map Token.classify))
      (hterms : tokens.mapM (term symbols) = .ok inner) :
      Inference.infer (.opening b :: (inner ++ [.closing b])) = Inference.infer inner := by
    obtain ⟨tree, htree, rfl⟩ := exists_tree_of_canFollow hfollow hterms
    exact Inference.infer_grouped htree b
  rw [expression_eq_ok_iff_of_scan (Token.scan_wrap hb h), hfollow, mapM_term_wrap hb,
    Check.map_eq_ok_iff]
  simp only [expression_eq_ok_iff_of_scan h]
  obtain ⟨terms, type⟩ := y
  constructor
  · rintro ⟨hfollow, ⟨inner, hinner, rfl⟩, htype⟩
    exact ⟨⟨inner, type⟩, ⟨hfollow, hinner, (hinfer hfollow hinner).symm.trans htype⟩, rfl⟩
  · rintro ⟨x, ⟨hfollow, hinner, htype⟩, heq⟩
    cases heq
    exact ⟨hfollow, ⟨x.terms, hinner, rfl⟩, (hinfer hfollow hinner).trans htype⟩

/-- Blanks around an expression do not count. -/
theorem expression_trim (h : Token.scan t = .ok tokens) :
    expression symbols t.trim = expression symbols t := by
  rw [expression_of_scan h, expression_of_scan (Token.scan_trim h)]

theorem alike_expression_wrap (hb : b ≠ .square) (h : Token.scan t = .ok tokens) :
    Check.Alike (fun x y => y = x.grouped b) (expression symbols t)
      (expression symbols (b.wrap t)) := by
  cases hx : expression symbols t with
  | ok x =>
    rw [(expression_wrap_eq_ok_iff hb h).2 ⟨x, hx, rfl⟩]
    exact .ok rfl
  | error fault =>
    cases hy : expression symbols (b.wrap t) with
    | error _ => exact .error trivial
    | ok y =>
      obtain ⟨x, hx', -⟩ := (expression_wrap_eq_ok_iff hb h).1 hy
      cases hx.symm.trans hx'

end Expression

/-! ### Go text -/

namespace Go

theorem terms_append_closing (unary glued : Bool) (ts : List Term) (b : Bracket) :
    terms unary glued (ts ++ [.closing b]) = terms unary glued ts ++ [')'] := by
  induction ts generalizing unary glued with
  | nil => simp [terms, term, Term.isClosing]
  | cons t rest ih =>
    rw [List.cons_append, terms, ih, terms]
    simp only [List.append_assoc]

theorem expression_grouped (e : Expression) (b : Bracket) :
    expression (e.grouped b) = Bracket.round.wrap (expression e) := by
  obtain ⟨ts, type⟩ := e
  rw [Expression.grouped, expression, terms, terms_append_closing]
  rfl

end Go

end StellaGo
