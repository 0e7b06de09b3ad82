import StellaGo.Proofs.ParseTree
import StellaGo.Proofs.Reading.Terms

/-! The order of the tokens of an accepted expression. Defined here: when a row of token classes can
follow on some open brackets, before or behind an operand. Proved: the brackets among the tokens of
a text nest, tokens that nest and fit between their neighbours can follow on nothing, and terms in
such an order have a parse tree. So an accepted expression has exactly one reading in Go. -/

namespace StellaGo

/-! ### Classes of tokens -/

namespace Token

theorem classify_symbol (op : Operator) : classify op.symbol.toList = .operator op := by
  cases op <;> decide

/-- A token that starts with none of these characters is an operand. -/
theorem classify_eq_value {c : Char} {rest : Text} (ho : isOperatorChar c = false)
    (hb : c ∉ ['(', '{', ')', '}']) : classify (c :: rest) = .value := by
  have hnone : Operator.ofSymbol? (c :: rest) = none := by
    rw [Operator.ofSymbol?]
    split
    · next op hr =>
      rw [Operator.read?.eq_def] at hr
      split at hr <;> simp_all [isOperatorChar]
    · rfl
  rw [classify.eq_def]
  split <;> simp_all

/-- Opening and closing tokens nest, where the brackets `stack` are open before them. -/
def Nested : List Bracket → List Class → Prop
  | stack, [] => stack = []
  | stack, .opening b :: rest => Nested (b :: stack) rest
  | stack, .closing b :: rest => ∃ below, stack = b :: below ∧ Nested below rest
  | stack, .operator _ :: rest | stack, .value :: rest => Nested stack rest

theorem classify_opener {b : Bracket} (hb : b ≠ .square) : classify [b.opener] = .opening b := by
  cases b <;> first | rfl | exact absurd rfl hb

theorem classify_closer {b : Bracket} (hb : b ≠ .square) : classify [b.closer] = .closing b := by
  cases b <;> first | rfl | exact absurd rfl hb

/-- A word starts with its first character. -/
theorem exists_cons_of_word {whole rest w after : Text} {c : Char} (hc : endsWord c = false)
    (h : word whole (c :: rest) = .ok (w, after)) : ∃ tail, w = c :: tail := by
  cases w with
  | nil => exact absurd rfl (ne_nil_of_word hc h)
  | cons d tail =>
    have happ := append_of_word h
    rw [List.cons_append, List.cons.injEq] at happ
    exact ⟨tail, by rw [happ.1]⟩

theorem nested_of_scanInside {stack : List Bracket} {t : Text} {tokens : List Text}
    (hs : .square ∉ stack) (h : scanInside stack t = .ok tokens) :
    Nested stack (tokens.map classify) := by
  fun_induction scanInside stack t generalizing tokens with
  | case1 => cases h; rfl
  | case2 | case3 | case6 | case9 | case10 | case13 => cases h
  | case4 stack c rest hc hq body more hl ih =>
    obtain ⟨ts, hts, rfl⟩ := Check.map_eq_ok_iff.1 h
    have hv : classify (c :: body) = .value := by
      rcases (by simpa [isQuote] using hq : c = '"' ∨ c = '\'') with rfl | rfl <;>
        exact classify_eq_value (by decide) (by decide)
    rw [List.map_cons, hv]
    exact ih hs hts
  | case5 stack c rest _ _ _ ih => exact ih hs h
  | case7 stack c rest _ _ _ _ op more hr ih =>
    obtain ⟨ts, hts, rfl⟩ := Check.map_eq_ok_iff.1 h
    rw [List.map_cons, classify_symbol]
    exact ih hs hts
  | case8 c rest _ _ _ _ b below hb ih =>
    obtain ⟨ts, hts, rfl⟩ := Check.map_eq_ok_iff.1 h
    obtain rfl := Bracket.ofCloser?_eq_some_iff.1 hb
    rw [List.map_cons, classify_closer (fun hsq => hs (hsq ▸ List.mem_cons_self))]
    exact ⟨below, rfl, ih (fun hm => hs (List.mem_cons_of_mem _ hm)) hts⟩
  | case11 stack c rest _ hb ih | case12 stack c rest _ hb ih =>
    obtain ⟨ts, hts, rfl⟩ := Check.map_eq_ok_iff.1 h
    obtain rfl := Bracket.ofOpener?_eq_some_iff.1 hb
    rw [List.map_cons, classify_opener (by decide)]
    exact ih (by simpa using hs) hts
  | case14 stack c rest hc w more hw hround hcurly ih =>
    obtain ⟨ts, hts, rfl⟩ := Check.map_eq_ok_iff.1 h
    obtain ⟨tail, rfl⟩ := exists_cons_of_word (by simpa using hc) hw
    have hv : classify (c :: tail) = .value := by
      refine classify_eq_value ?_ ?_
      · exact eq_false_of_ne_true (not_endsWord_iff.1 hc).2.2.2
      · intro hm
        simp only [List.mem_cons, List.not_mem_nil, or_false] at hm
        rcases hm with rfl | rfl | rfl | rfl
        · exact hround rfl
        · exact hcurly rfl
        · exact hc (by decide)
        · exact hc (by decide)
    rw [List.map_cons, hv]
    exact ih hs hts

end Token

/-! ### Rows that can follow -/

/-- A row of classes can follow where the brackets `stack` are open, `behind` an operand or not. -/
def CanFollow : (stack : List Bracket) → (behind : Bool) → List Token.Class → Prop
  | stack, behind, [] => stack = [] ∧ behind
  | stack, behind, .operator op :: rest =>
    (if behind then op.canBeBinary else op.canBeUnary) ∧ CanFollow stack false rest
  | stack, behind, .opening b :: rest => behind = false ∧ CanFollow (b :: stack) false rest
  | stack, behind, .closing b :: rest =>
    behind ∧ ∃ below, stack = b :: below ∧ CanFollow below true rest
  | stack, behind, .value :: rest => behind = false ∧ CanFollow stack true rest

/-- Tokens that nest and fit between their neighbours can follow. -/
theorem canFollow_of_check {stack : List Bracket} {previous : Option Text} {tokens : List Text}
    (hn : Token.Nested stack (tokens.map Token.classify))
    (hc : Placement.check previous tokens = .ok ())
    (he : tokens = [] → Placement.endsOperand (previous.map Token.classify)) :
    CanFollow stack (Placement.endsOperand (previous.map Token.classify))
      (tokens.map Token.classify) := by
  induction tokens generalizing stack previous with
  | nil => exact ⟨hn, he rfl⟩
  | cons token rest ih =>
    unfold Placement.check at hc
    split at hc
    case isFalse => cases hc
    next hfits =>
    have hlast : rest = [] → Placement.endsOperand (some (Token.classify token)) := by
      rintro rfl
      cases hclass : Token.classify token <;>
        simp_all [Placement.fits, Placement.startsOperand, Placement.endsOperand]
    have hrest {below : List Bracket} (hn : Token.Nested below (rest.map Token.classify)) :=
      @ih below (some token) hn hc hlast
    simp only [List.map_cons, Option.map_some] at hn hrest ⊢
    cases hclass : Token.classify token with
    | operator op =>
      rw [hclass] at hn hfits hrest
      refine ⟨?_, hrest hn⟩
      split <;> simp_all [Placement.fits]
    | value =>
      rw [hclass] at hn hfits hrest
      exact ⟨by simp_all [Placement.fits], hrest hn⟩
    | opening b =>
      rw [hclass] at hn hfits hrest
      exact ⟨by simp_all [Placement.fits], hrest hn⟩
    | closing b =>
      rw [hclass] at hn hfits hrest
      obtain ⟨below, rfl, hn⟩ := hn
      exact ⟨by simp_all [Placement.fits], below, rfl, hrest hn⟩

/-- The class of a term. -/
def Term.class : Term → Token.Class
  | .operator op => .operator op
  | .opening b => .opening b
  | .closing b => .closing b
  | _ => .value

theorem Expression.class_of_term {symbols : Symbols} {token : Text} {t : Term}
    (h : term symbols token = .ok t) : t.class = Token.classify token := by
  cases readsTerm_of_term h <;> simp_all [Term.class]

/-! ### Parsing rows that can follow -/

namespace Parse

/-- The brackets that are open. -/
def openBrackets : List Pending → List Bracket
  | [] => []
  | .group b :: below => b :: openBrackets below
  | .unary _ :: below | .binary _ _ :: below => openBrackets below

theorem openBrackets_reduce (limit : Nat) (pending : List Pending) (t : Tree) :
    openBrackets (reduce limit pending t).1 = openBrackets pending := by
  fun_induction reduce limit pending t <;> simp_all [openBrackets]

/-- With no limit, closing goes on to the innermost bracket. -/
theorem reduce_zero (pending : List Pending) (t : Tree) :
    ∃ inside, reduce 0 pending t = ([], inside) ∨
      ∃ b below, reduce 0 pending t = (.group b :: below, inside) := by
  fun_induction reduce 0 pending t <;> simp_all

/-- A parse takes in a term that can follow, and the rest can follow then. -/
theorem exists_step {p : Parse} {term : Term} {rest : List Term}
    (h : CanFollow (openBrackets p.pending) p.operand?.isSome
      ((term :: rest).map Term.class)) :
    ∃ next, p.step term = some next ∧
      CanFollow (openBrackets next.pending) next.operand?.isSome (rest.map Term.class) := by
  obtain ⟨pending, _ | t⟩ := p
  · cases term with
    | operator op =>
      obtain ⟨hop, hrest⟩ := h
      exact ⟨_, if_pos hop, hrest⟩
    | opening b => exact ⟨_, rfl, h.2⟩
    | closing b => exact absurd h.1 (by simp)
    | literal | scalar | call | element | field => exact ⟨_, rfl, h.2⟩
  · cases term with
    | operator op =>
      obtain ⟨hop, hrest⟩ := h
      refine ⟨_, if_pos hop, ?_⟩
      rwa [openBrackets, openBrackets_reduce]
    | opening b => exact absurd h.1 (by simp)
    | closing b =>
      obtain ⟨-, below, hopen, hrest⟩ := h
      have hkeep := openBrackets_reduce 0 pending t
      obtain ⟨inside, hr | ⟨opened, under, hr⟩⟩ := reduce_zero pending t
      · rw [hr, hopen] at hkeep
        cases hkeep
      · rw [hr, hopen] at hkeep
        obtain ⟨rfl, rfl⟩ := List.cons.inj hkeep
        exact ⟨⟨under, some (.group opened inside)⟩, by simp [step, hr], hrest⟩
    | literal | scalar | call | element | field => exact absurd h.1 (by simp)

/-- A parse takes in a row of terms that can follow, and nothing stays open. -/
theorem exists_finish {p : Parse} {ts : List Term}
    (h : CanFollow (openBrackets p.pending) p.operand?.isSome (ts.map Term.class)) :
    ∃ whole, (ts.foldlM step p).bind finish = some whole := by
  induction ts generalizing p with
  | nil =>
    obtain ⟨hopen, hsome⟩ := h
    obtain ⟨t, ht⟩ := Option.isSome_iff_exists.1 hsome
    have hkeep := openBrackets_reduce 0 p.pending t
    obtain ⟨inside, hr | ⟨opened, rest, hr⟩⟩ := reduce_zero p.pending t
    · exact ⟨inside, by simp [finish, ht, hr]⟩
    · rw [hr, hopen] at hkeep
      cases hkeep
  | cons term rest ih =>
    obtain ⟨next, hstep, hrest⟩ := exists_step h
    obtain ⟨whole, hwhole⟩ := ih hrest
    exact ⟨whole, by rw [List.foldlM_cons, hstep]; exact hwhole⟩

end Parse

/-- The terms that the tokens of a text spell can follow on nothing, if the tokens fit between their
neighbours. -/
theorem Expression.canFollow_of_terms {symbols : Symbols} {text : Text} {tokens : List Text}
    {terms : List Term} (hscan : Token.scan text = .ok tokens) (hne : tokens ≠ [])
    (hcheck : Placement.check none tokens = .ok ())
    (hterms : List.Forall₂ (fun token t => term symbols token = .ok t) tokens terms) :
    CanFollow [] false (terms.map Term.class) := by
  have hclass : tokens.map Token.classify = terms.map Term.class := by
    rw [← List.forall₂_eq_eq_eq, List.forall₂_map_left_iff, List.forall₂_map_right_iff]
    exact hterms.imp fun _ _ ht => (class_of_term ht).symm
  exact hclass ▸ canFollow_of_check (Token.nested_of_scanInside (by simp) hscan) hcheck
    (fun h => absurd h hne)

/-- The terms of an accepted expression can follow on nothing. -/
theorem Expression.canFollow_of_expression {symbols : Symbols} {text : Text} {e : Expression}
    (h : expression symbols text = .ok e) : CanFollow [] false (e.terms.map Term.class) := by
  obtain ⟨tokens, hscan, hne, hcheck, hterms, -⟩ := expression_eq_ok_iff.1 h
  exact canFollow_of_terms hscan hne hcheck hterms

/-- An accepted expression has exactly one reading under Go's grammar. -/
theorem Expression.existsUnique_tree {symbols : Symbols} {text : Text} {e : Expression}
    (h : expression symbols text = .ok e) : ∃! t : Tree, t.FollowsGo ∧ t.terms = e.terms := by
  obtain ⟨t, ht⟩ := Parse.exists_finish (p := Parse.start) (canFollow_of_expression h)
  obtain ⟨hf, hts⟩ := Tree.parse_eq_some_iff.1 ht
  exact ⟨t, ⟨hf, hts⟩, fun u hu => Tree.eq_of_terms_eq hu.1 hf (hu.2.trans hts.symm)⟩

end StellaGo
