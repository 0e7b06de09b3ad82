import StellaGo.Proofs.ClosedTexts
import StellaGo.Proofs.TokenNames

/-! Scanning Go text. Defined here: texts that are one operand to the scanner, whatever stands behind
them. Proved: how the scanner takes in a token of each kind, that literals, names, calls and indexings
as Go writes them are such texts, and that the scanner finds the terms of a row in their Go text. -/

namespace StellaGo

namespace Token

open Text (Closes)

/-! ### Words -/

theorem not_endsWord_opener (b : Bracket) : endsWord b.opener = false := by cases b <;> decide

theorem word_group {whole rest g more : Text} {b : Bracket} (h : group whole [b] rest = .ok (g, more)) :
    word whole (b.opener :: rest) = behind (b.opener :: g) (word whole more) := by
  have hopener : Bracket.ofOpener? b.opener = some b := Bracket.ofOpener?_eq_some_iff.2 rfl
  rw [word.eq_def]
  simp only [hopener]
  split
  · next hfault => cases hfault.symm.trans h
  · next hok =>
    cases hok.symm.trans h
    rfl

theorem word_cons {whole rest : Text} {c : Char} (ho : Bracket.ofOpener? c = none)
    (hc : endsWord c = false) : word whole (c :: rest) = behind [c] (word whole rest) := by
  rw [word.eq_def]
  simp only [ho, hc]
  rfl

/-- What stands in front of a word's end. -/
theorem word_of_ends {whole u : Text} (h : ∀ c ∈ u.head?, endsWord c) : word whole u = .ok ([], u) := by
  cases u with
  | nil => rw [word]
  | cons c rest =>
    have hc : endsWord c := h c rfl
    have ho : Bracket.ofOpener? c = none := Option.eq_none_iff_forall_ne_some.2 fun b hb => by
      rw [Bracket.ofOpener?_eq_some_iff.1 hb, not_endsWord_opener] at hc
      cases hc
    rw [word.eq_def]
    simp only [ho, hc, if_true]

/-- A word that has come to the text goes on behind it. -/
def Runs (t : Text) : Prop := ∀ whole u, word whole (t ++ u) = behind t (word whole u)

namespace Runs

variable {t u : Text}

theorem nil : Runs [] := fun _ _ => (behind_nil _).symm

theorem append (ht : Runs t) (hu : Runs u) : Runs (t ++ u) := fun whole v => by
  rw [List.append_assoc, ht, hu, behind_behind]

theorem plain (h : ∀ c ∈ t, Bracket.ofOpener? c = none ∧ endsWord c = false) : Runs t := by
  induction t with
  | nil => exact nil
  | cons c rest ih =>
    obtain ⟨⟨ho, hc⟩, hrest⟩ := List.forall_mem_cons.1 h
    intro whole u
    rw [List.cons_append, word_cons ho hc, ih hrest, behind_behind, List.singleton_append]

theorem group (h : Closes true [] t) (b : Bracket) : Runs (b.opener :: (t ++ [b.closer])) := by
  intro whole u
  have hgroup := h.group_append whole b [] (b.closer :: u)
  rw [List.nil_append, group_last] at hgroup
  rw [List.cons_append, List.append_assoc, List.singleton_append, word_group hgroup]

end Runs

/-! ### Tokens -/

variable {u : Text}

theorem scanInside_blank {c : Char} (hc : isBlank c) (stack : List Bracket) (u : Text) :
    scanInside stack (c :: u) = scanInside stack u := by
  have hq : isQuote c = false := Bool.eq_false_iff.2 fun hq => by
    rcases isQuote_iff.1 hq with rfl | rfl <;> cases hc
  have hends : endsWord c := by rw [endsWord, hc, Bool.or_true, Bool.true_or]
  rw [scanInside.eq_def]
  simp only [hends, hq, hc, dif_pos, if_true, Bool.false_eq_true, if_false]

theorem scanInside_opener {b : Bracket} (hb : b ≠ .square) (stack : List Bracket) (u : Text) :
    scanInside stack (b.opener :: u) = (scanInside (b :: stack) u).map ([b.opener] :: ·) := by
  rw [scanInside.eq_def]
  cases b with
  | round | curly => rfl
  | square => exact absurd rfl hb

theorem scanInside_closer (b : Bracket) (stack : List Bracket) (u : Text) :
    scanInside (b :: stack) (b.closer :: u) = (scanInside stack u).map ([b.closer] :: ·) := by
  rw [scanInside.eq_def]
  cases b <;> rfl

theorem scanInside_literal {quote : Char} {body : Text} (hq : isQuote quote)
    (hl : literal? quote body = some (body, [])) (stack : List Bracket) (u : Text) :
    scanInside stack (quote :: body ++ u) = (scanInside stack u).map ((quote :: body) :: ·) := by
  have hliteral := literal?_append hl u
  have hends : endsWord quote := by rw [endsWord, hq]; rfl
  rw [List.cons_append, scanInside.eq_def]
  simp only [hends, hq, if_true, dif_pos]
  split
  · next hnone => cases hnone.symm.trans hliteral
  · next hsome =>
    cases hsome.symm.trans hliteral
    rfl

theorem scanInside_word {c : Char} {t : Text} (hc : endsWord c = false) (hb : c ∉ ['(', '{'])
    (hr : Runs (c :: t)) (stack : List Bracket) (hu : ∀ d ∈ u.head?, endsWord d) :
    scanInside stack (c :: t ++ u) = (scanInside stack u).map ((c :: t) :: ·) := by
  have hword := hr (c :: (t ++ u)) u
  rw [word_of_ends hu, List.cons_append] at hword
  rw [List.cons_append, scanInside.eq_def]
  simp only [hc, Bool.false_eq_true, dif_neg, not_false_eq_true]
  split
  · next ho =>
    obtain rfl := Bracket.ofOpener?_eq_some_iff.1 ho
    exact absurd (by decide) hb
  · next ho =>
    obtain rfl := Bracket.ofOpener?_eq_some_iff.1 ho
    exact absurd (by decide) hb
  · split
    · next hfault => cases hfault.symm.trans hword
    · next hok =>
      cases hok.symm.trans hword
      simp

theorem read?_symbol (op : Operator) (hu : u.head? ≠ some '=') :
    Operator.read? (op.symbol.toList ++ u) = some (op, u) := by
  have hequals : ∀ rest, u ≠ '=' :: rest := fun rest heq => hu (by rw [heq, List.head?_cons])
  cases op with
  | less | greater | not =>
    cases u with
    | nil => rfl
    | cons c rest => simp [Operator.symbol, Operator.read?]
  | _ => rfl

theorem scanInside_operator {op : Operator} (stack : List Bracket)
    (hread : Operator.read? (op.symbol.toList ++ u) = some (op, u)) :
    scanInside stack (op.symbol.toList ++ u) = (scanInside stack u).map (op.symbol.toList :: ·) := by
  obtain ⟨c, tail, hsymbol, hoperator, hq, hblank⟩ : ∃ c tail, op.symbol.toList = c :: tail ∧
      isOperatorChar c = true ∧ isQuote c = false ∧ isBlank c = false := by
    cases op <;> exact ⟨_, _, rfl, by decide, by decide, by decide⟩
  have hends : endsWord c := by rw [endsWord, hoperator, Bool.or_true]
  rw [hsymbol, List.cons_append] at hread ⊢
  rw [scanInside.eq_def]
  simp only [hends, hq, hblank, hoperator, dif_pos, if_true, Bool.false_eq_true, if_false]
  split
  · next hnone => cases hnone.symm.trans hread
  · next hsome =>
    cases hsome.symm.trans hread
    rw [hsymbol]

/-! ### Operands -/

/-- The text is one operand to the scanner. -/
structure IsOperand (t : Text) : Prop where
  scans : ∀ (stack : List Bracket) (u : Text), (∀ c ∈ u.head?, endsWord c) →
    scanInside stack (t ++ u) = (scanInside stack u).map (t :: ·)
  closes : Closes false [] t
  starts : ∃ c rest, t = c :: rest ∧ (c.isAlphanum ∨ isQuote c)
  ends : t.EndsVisibly

/-- A character of a name or of a number. -/
def isHeldChar (c : Char) : Bool := c.isAlphanum || c == '_' || c == '.'

theorem isHeldChar_of_word {c : Char} (h : c.isAlphanum || c == '_') : isHeldChar c := by
  rw [isHeldChar, h, Bool.true_or]

theorem isFlat_of_held {t : Text} (h : ∀ c ∈ t, isHeldChar c) : t.isFlat :=
  Text.isFlat_of_forall (by decide) (fun b => by cases b <;> decide) h

theorem endsWord_eq_false {c : Char} (h : isHeldChar c) : endsWord c = false := by
  obtain ⟨hq, -, hcl⟩ := Text.isFlat_singleton_iff.1 (isFlat_of_held (List.forall_mem_singleton.2 h))
  have hblank : isBlank c = false := by
    rcases Bool.or_eq_true _ _ ▸ h with hword | hpoint
    · exact isBlank_eq_false_of_word hword
    · rw [beq_iff_eq.1 hpoint]
      decide
  have hoperator : isOperatorChar c = false := by
    rw [isOperatorChar, decide_eq_false_iff_not]
    rintro hmem
    simp only [List.mem_cons, List.not_mem_nil, or_false] at hmem
    rcases hmem with rfl | rfl | rfl | rfl | rfl | rfl | rfl | rfl | rfl | rfl <;> cases h
  rw [endsWord, isCloser, hcl, hblank, hoperator, Bool.eq_false_iff.2 hq]
  rfl

theorem Runs.of_held {t : Text} (h : ∀ c ∈ t, isHeldChar c) : Runs t := by
  refine .plain fun c hc => ⟨?_, endsWord_eq_false (h c hc)⟩
  exact (Text.isFlat_singleton_iff.1 (isFlat_of_held (List.forall_mem_singleton.2 (h c hc)))).2.1

namespace IsOperand

variable {t u : Text}

/-- A word that starts with a letter or a digit. -/
theorem of_runs {c : Char} (hc : c.isAlphanum) (hr : Runs (c :: t)) (hcloses : Closes false [] (c :: t))
    (hends : Text.EndsVisibly (c :: t)) : IsOperand (c :: t) where
  scans stack u hu := by
    have hheld : isHeldChar c := isHeldChar_of_word (by rw [hc, Bool.true_or])
    have hb : c ∉ ['(', '{'] := by
      intro hm
      simp only [List.mem_cons, List.not_mem_nil, or_false] at hm
      rcases hm with rfl | rfl <;> cases hc
    exact scanInside_word (endsWord_eq_false hheld) hb hr stack hu
  closes := hcloses
  starts := ⟨c, t, rfl, .inl hc⟩
  ends := hends

theorem of_literal {quote : Char} {body : Text} (hq : isQuote quote)
    (hl : literal? quote body = some (body, [])) : IsOperand (quote :: body) where
  scans stack u _ := scanInside_literal hq hl stack u
  closes := by simpa using Closes.literal hq hl .nil
  starts := ⟨quote, body, rfl, .inr hq⟩
  ends := by
    have hblank : isBlank quote = false := by
      rcases isQuote_iff.1 hq with rfl | rfl <;> rfl
    exact (endsVisibly_literal? hblank hl).cons quote

/-- A name or a number. -/
theorem of_held {c : Char} (hc : c.isAlphanum) (h : ∀ d ∈ c :: t, isHeldChar d) : IsOperand (c :: t) := by
  have hcomma : ',' ∉ c :: t := fun hmem => absurd (h ',' hmem) (by decide)
  have hblank : ∀ d ∈ c :: t, isBlank d = false := fun d hd => by
    have hends := not_endsWord_iff.1 (ne_true_of_eq_false (endsWord_eq_false (h d hd)))
    exact eq_false_of_ne_true hends.2.2.1
  exact of_runs hc (.of_held h) (.flat (isFlat_of_held h) hcomma) (.of_forall (List.cons_ne_nil c t) hblank)

end IsOperand

/-- Groups of square brackets one behind the other, with nothing open in between. -/
def squareGroups (insides : List Text) : Text := insides.flatMap fun inside => '[' :: (inside ++ [']'])

theorem Runs.squareGroups {insides : List Text} (h : ∀ inside ∈ insides, Closes true [] inside) :
    Runs (squareGroups insides) := by
  induction insides with
  | nil => exact nil
  | cons first others ih =>
    obtain ⟨hfirst, hothers⟩ := List.forall_mem_cons.1 h
    exact (group hfirst .square).append (ih hothers)

theorem closes_squareGroups {insides : List Text} (h : ∀ inside ∈ insides, Closes true [] inside) :
    Closes false [] (squareGroups insides) := by
  induction insides with
  | nil => exact .nil
  | cons first others ih =>
    obtain ⟨hfirst, hothers⟩ := List.forall_mem_cons.1 h
    exact (hfirst.group .square).append (ih hothers) .inl

/-- Square brackets end with one. -/
theorem exists_squareGroups_eq {insides : List Text} (hne : insides ≠ []) :
    ∃ front, squareGroups insides = front ++ [']'] := by
  obtain ⟨others, last, rfl⟩ := (List.eq_nil_or_concat' insides).resolve_left hne
  refine ⟨squareGroups others ++ '[' :: last, ?_⟩
  rw [squareGroups, List.flatMap_append, List.flatMap_singleton, List.append_assoc, List.cons_append]
  rfl

theorem endsVisibly_squareGroups {insides : List Text} (hne : insides ≠ []) :
    Text.EndsVisibly (squareGroups insides) := by
  obtain ⟨front, heq⟩ := exists_squareGroups_eq hne
  exact ⟨front, ']', heq, rfl⟩

end Token

namespace Go

open Text (Closes)
open Token (IsOperand endsWord scanInside)

variable {stack : List Bracket} {ts : List Term}

/-- Each operand of the row is one for the scanner. -/
def HasOperands (ts : List Term) : Prop := ∀ t ∈ ts, t.class = .value → IsOperand (term t)

/-- Behind an operand comes a blank or a closing bracket. -/
theorem endsWord_of_head? (h : CanFollow stack true (ts.map Term.class)) :
    ∀ c ∈ (terms false false ts).head?, endsWord c := by
  cases ts with
  | nil => nofun
  | cons t rest =>
    cases t with
    | operator op | closing b =>
      intro c hc
      obtain rfl : _ = c := Option.some.inj hc
      decide
    | _ => exact absurd h.1 (by decide)

/-- A term that can start an operand does not start with `=`. -/
theorem head?_term_ne_equals {t : Term} {rest : List Term}
    (h : CanFollow stack false ((t :: rest).map Term.class)) (ht : t.class = .value → IsOperand (term t))
    (u : Text) : (term t ++ u).head? ≠ some '=' := by
  have hvalue (hoperand : IsOperand (term t)) : (term t ++ u).head? ≠ some '=' := by
    obtain ⟨c, tail, heq, hc⟩ := hoperand.starts
    rw [heq]
    rintro ⟨⟩
    exact absurd hc (by decide)
  cases t with
  | operator op =>
    have hunary : op.canBeUnary := h.1
    rw [term]
    cases op with
    | minus | not => exact fun heq => absurd (Option.some.inj heq) (by decide)
    | _ => cases hunary
  | opening b => exact fun heq => absurd (Option.some.inj heq) (by decide)
  | closing b => exact absurd h.1 (by decide)
  | _ => exact hvalue (ht rfl)

/-- Behind an operator comes no `=`. -/
theorem head?_ne_equals {glued : Bool} (h : CanFollow stack false (ts.map Term.class))
    (hops : HasOperands ts) : (terms true glued ts).head? ≠ some '=' := by
  cases ts with
  | nil => nofun
  | cons t rest =>
    rw [terms, List.append_assoc]
    split
    · exact head?_term_ne_equals h (hops t List.mem_cons_self) _
    · exact fun heq => absurd (Option.some.inj heq) (by decide)

/-- Where the brackets `stack` are open in source, round ones are in Go text. -/
def roundStack (stack : List Bracket) : List Bracket := stack.map fun _ => .round

/-- The scanner finds the terms of a row in its text. -/
theorem scanInside_terms {behind glued : Bool} (h : CanFollow stack behind (ts.map Term.class))
    (hops : HasOperands ts) :
    scanInside (roundStack stack) (terms (!behind) glued ts) = .ok (ts.map term) := by
  induction ts generalizing stack behind glued with
  | nil =>
    obtain ⟨rfl, -⟩ := h
    rw [terms, scanInside.eq_def]
    rfl
  | cons t rest ih =>
    have hblank (u : Text) : scanInside (roundStack stack)
        ((if glued || t.isClosing then [] else [' ']) ++ u) = scanInside (roundStack stack) u := by
      split
      · rfl
      · exact Token.scanInside_blank (by decide) _ u
    obtain ⟨ht, hrest⟩ := List.forall_mem_cons.1 hops
    rw [terms, List.append_assoc, hblank, List.map_cons]
    have hvalue (hv : t.class = .value) (hfollow : CanFollow stack true (rest.map Term.class)) :
        scanInside (roundStack stack) (term t ++ terms false false rest) =
          .ok (term t :: rest.map term) := by
      have hothers : scanInside (roundStack stack) (terms (!true) false rest) = _ := ih hfollow hrest
      rw [(ht hv).scans _ _ (endsWord_of_head? hfollow)]
      exact congrArg _ hothers
    cases t with
    | operator op =>
      obtain ⟨-, hfollow⟩ := h
      have hothers : scanInside (roundStack stack) (terms (!false) (!behind) rest) = _ := ih hfollow hrest
      change scanInside _ (op.symbol.toList ++ terms true (!behind) rest) = _
      rw [Token.scanInside_operator _ (Token.read?_symbol op (head?_ne_equals hfollow hrest)), term]
      exact congrArg _ hothers
    | opening b =>
      obtain ⟨-, hfollow⟩ := h
      have hothers : scanInside (roundStack (b :: stack)) (terms (!false) true rest) = _ := ih hfollow hrest
      change scanInside _ (Bracket.round.opener :: terms true true rest) = _
      rw [Token.scanInside_opener (by decide), term]
      exact congrArg _ hothers
    | closing b =>
      obtain ⟨-, below, rfl, hfollow⟩ := h
      have hothers : scanInside (roundStack below) (terms (!true) false rest) = _ := ih hfollow hrest
      change scanInside (.round :: roundStack below) (Bracket.round.closer :: terms false false rest) = _
      rw [Token.scanInside_closer, term]
      exact congrArg _ hothers
    | _ => exact hvalue rfl h.2

/-- The text of a row closes the brackets that are open before it. -/
theorem closes_terms {behind unary glued : Bool} (h : CanFollow stack behind (ts.map Term.class))
    (hops : HasOperands ts) : Closes false (roundStack stack) (terms unary glued ts) := by
  induction ts generalizing stack behind unary glued with
  | nil =>
    obtain ⟨rfl, -⟩ := h
    exact .nil
  | cons t rest ih =>
    obtain ⟨ht, hrest⟩ := List.forall_mem_cons.1 hops
    have hblank {u : Text} (hu : Closes false (roundStack stack) u) : Closes false (roundStack stack)
        ((if glued || t.isClosing then [] else [' ']) ++ u) := by
      split
      · exact hu
      · exact .plain (by decide) nofun hu
    have hvalue (hv : t.class = .value) (hfollow : CanFollow stack true (rest.map Term.class)) :
        Closes false (roundStack stack) (term t ++ terms false false rest) :=
      (ht hv).closes.append (ih hfollow hrest) .inl
    rw [terms, List.append_assoc]
    refine hblank ?_
    cases t with
    | operator op =>
      obtain ⟨-, hfollow⟩ := h
      have hsymbol : Closes false [] op.symbol.toList := by
        cases op <;> exact .flat (by decide) (by decide)
      exact hsymbol.append (ih hfollow hrest) .inl
    | opening b =>
      obtain ⟨-, hfollow⟩ := h
      have hothers : Closes false (roundStack (b :: stack)) (terms true true rest) := ih hfollow hrest
      exact .opener .round hothers
    | closing b =>
      obtain ⟨-, below, rfl, hfollow⟩ := h
      exact .closer .round (ih hfollow hrest)
    | _ => exact hvalue rfl h.2

end Go

end StellaGo
