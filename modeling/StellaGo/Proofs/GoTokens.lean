import StellaGo.Proofs.TokenNames

/-! The tokens of generated expressions. Defined here: the Go tokens of a checked expression, term
by term, expressions in which a `-` before its operand is followed by another `-`, and texts that
split into given tokens but for pairs of `-`. Proved: a row of such terms that can follow each other
is such a text. -/

namespace StellaGo

/-! ### The tokens of pieces -/

namespace Go

/-- The tokens of texts with commas between them. -/
def commaTokens (parts : List (List Text)) : List Text := List.intercalate [[',']] parts

mutual

/-- The tokens of a term. What names are made of is not known here. -/
def termTokens : Term → List Text
  | .literal text _ => [text]
  | .scalar name _ => [name]
  | .call c => callTokens c
  | .element i => indexingTokens i
  | .field f => lex (term (.field f))
  | .operator op => [op.symbol.toList]
  | .opening _ => [['(']]
  | .closing _ => [[')']]

def termsTokens : List Term → List Text
  | [] => []
  | t :: rest => termTokens t ++ termsTokens rest

def expressionTokens : Expression → List Text
  | ⟨ts, _⟩ => termsTokens ts

def callTokens : Call → List Text
  | ⟨name, arguments, _⟩ => lex name ++ ['('] :: commaTokens (valuesTokens arguments) ++ [[')']]

def indexingTokens : Indexing → List Text
  | ⟨name, indices, _⟩ => lex name ++ bracketsTokens indices

def bracketsTokens : List Expression → List Text
  | [] => []
  | e :: rest => ['['] :: expressionTokens e ++ [']'] :: bracketsTokens rest

def valueTokens : Value → List Text
  | .scalar e => expressionTokens e
  | .arrayLiteral type items =>
    lex type.goName ++ ['{'] :: commaTokens (rowsTokens items) ++ [['}']]
  | .tupleLiteral type fields =>
    lex type.goName ++ ['{'] :: commaTokens (namedFieldsTokens 0 fields) ++ [['}']]
  | .whole name _ => lex name
  | .call c => callTokens c

def valuesTokens : List Value → List (List Text)
  | [] => []
  | v :: rest => valueTokens v :: valuesTokens rest

def namedFieldsTokens (position : Nat) : List Expression → List (List Text)
  | [] => []
  | e :: rest =>
    (('v' :: Text.ofNat position) :: [':'] :: expressionTokens e) ::
      namedFieldsTokens (position + 1) rest

def itemTokens : Item → List Text
  | .scalar e => expressionTokens e
  | .row items => ['{'] :: commaTokens (rowsTokens items) ++ [['}']]

def rowsTokens : List Item → List (List Text)
  | [] => []
  | i :: rest => itemTokens i :: rowsTokens rest

end

theorem valuesTokens_eq_map (vs : List Value) : valuesTokens vs = vs.map valueTokens := by
  induction vs with
  | nil => rw [valuesTokens, List.map_nil]
  | cons v rest ih => rw [valuesTokens, List.map_cons, ih]

theorem rowsTokens_eq_map (items : List Item) : rowsTokens items = items.map itemTokens := by
  induction items with
  | nil => rw [rowsTokens, List.map_nil]
  | cons i rest ih => rw [rowsTokens, List.map_cons, ih]

/-- A field of a tuple literal, with its position. -/
def namedField (field : Expression × Nat) : Text :=
  'v' :: Text.ofNat field.2 ++ ": ".toList ++ expression field.1

def namedFieldTokens (field : Expression × Nat) : List Text :=
  ('v' :: Text.ofNat field.2) :: [':'] :: expressionTokens field.1

theorem namedFields_eq_map (es : List Expression) (position : Nat) :
    namedFields position es = (es.zipIdx position).map namedField := by
  induction es generalizing position with
  | nil => rw [namedFields, List.zipIdx_nil, List.map_nil]
  | cons e rest ih => rw [namedFields, List.zipIdx_cons, List.map_cons, ih, namedField]

theorem namedFieldsTokens_eq_map (es : List Expression) (position : Nat) :
    namedFieldsTokens position es = (es.zipIdx position).map namedFieldTokens := by
  induction es generalizing position with
  | nil => rw [namedFieldsTokens, List.zipIdx_nil, List.map_nil]
  | cons e rest ih => rw [namedFieldsTokens, List.zipIdx_cons, List.map_cons, ih, namedFieldTokens]

end Go

def Term.isMinus : Term → Bool
  | operator .minus => true
  | _ => false

/-- A `-` that stands before its operand is followed by another `-`. In front of the terms an
operator would stand before its operand if `unary` says so. -/
def Term.doublesMinus (unary : Bool) : List Term → Bool
  | [] => false
  | t :: rest =>
    unary && t.isMinus && rest.head?.any isMinus ||
      doublesMinus (t.isOperator || t.isOpening) rest

namespace Piece

/-- The tokens of the Go text of a piece. -/
def tokens : Piece → List Text
  | expression e => Go.expressionTokens e
  | call c => Go.callTokens c
  | indexing i => Go.indexingTokens i
  | field f => Go.termTokens (.field f)
  | value v => Go.valueTokens v
  | item i => Go.itemTokens i

/-- In no expression in the piece a `-` before its operand is followed by another `-`. -/
def KeepsMinus (x : Piece) : Prop :=
  ∀ e, Inside x (.expression e) → Term.doublesMinus true e.terms = false

theorem keepsMinus_iff {x : Piece} :
    x.KeepsMinus ↔ (∀ e, x = .expression e → Term.doublesMinus true e.terms = false) ∧
      ∀ y, Part y x → y.KeepsMinus := by
  constructor
  · intro h
    refine ⟨?_, fun y hy e he => h e (.head hy he)⟩
    rintro e rfl
    exact h e .refl
  · rintro ⟨hself, hparts⟩ e he
    rcases he.cases_head with rfl | ⟨y, hy, hin⟩
    · exact hself e rfl
    · exact hparts y hy e hin

end Piece

/-! ### Texts and their tokens -/

namespace Go

/-- The same tokens, but some pairs of `-` next to each other are one token. -/
inductive Merges : List Text → List Text → Prop
  | nil : Merges [] []
  | cons {t : Text} {xs ys : List Text} (h : Merges xs ys) : Merges (t :: xs) (t :: ys)
  | minus {xs ys : List Text} (h : Merges xs ys) : Merges (['-'] :: ['-'] :: xs) (['-', '-'] :: ys)

namespace Merges

variable {xs ys us vs : List Text}

theorem refl (xs : List Text) : Merges xs xs := by
  induction xs with
  | nil => exact .nil
  | cons t rest ih => exact .cons ih

theorem append (h : Merges xs ys) (h' : Merges us vs) : Merges (xs ++ us) (ys ++ vs) := by
  induction h with
  | nil => exact h'
  | cons _ ih => exact .cons ih
  | minus _ ih => exact .minus ih

theorem length_le (h : Merges xs ys) : ys.length ≤ xs.length := by
  induction h with
  | nil => exact Nat.le_refl _
  | cons _ ih => exact Nat.succ_le_succ ih
  | minus _ ih => exact Nat.le_succ_of_le (Nat.succ_le_succ ih)

end Merges

/-- A text has these tokens but for pairs of `-`, and has these just if the condition holds. -/
structure Splits (t : Text) (tokens : List Text) (apart : Prop) : Prop where
  closed : t.IsClosed
  merges : Merges tokens (lex t)
  eq_iff : lex t = tokens ↔ apart

namespace Splits

variable {t u : Text} {xs ys : List Text} {p q : Prop}

theorem of_lex (hc : t.IsClosed) (h : lex t = xs) : Splits t xs True :=
  ⟨hc, h ▸ .refl _, iff_true_intro h⟩

theorem congr (h : Splits t xs p) (hpq : p ↔ q) : Splits t xs q :=
  ⟨h.closed, h.merges, h.eq_iff.trans hpq⟩

theorem append (ht : Splits t xs p) (hu : Splits u ys q) (h : Apart t u) :
    Splits (t ++ u) (xs ++ ys) (p ∧ q) := by
  have hlex := lex_append ht.closed h
  refine ⟨ht.closed.append hu.closed, hlex ▸ ht.merges.append hu.merges, ?_⟩
  rw [hlex, ← ht.eq_iff, ← hu.eq_iff]
  constructor
  · intro heq
    have htotal := congrArg List.length heq
    rw [List.length_append, List.length_append] at htotal
    have := ht.merges.length_le
    have := hu.merges.length_le
    exact List.append_inj heq (by omega)
  · rintro ⟨rfl, rfl⟩
    rfl

/-! #### Texts around a character of its own -/

theorem lone {c : Char} (hs : [c] ∈ symbols) : Splits [c] [[c]] True :=
  of_lex (.of_forall (not_isQuote_of_mem_symbols hs)) (lex_symbol hs)

/-- Two texts around a character of its own. -/
theorem between {c : Char} (hs : [c] ∈ symbols) (hc : isLone c) (ht : Splits t xs p)
    (hu : Splits u ys q) : Splits (t ++ c :: u) (xs ++ [c] :: ys) (p ∧ q) := by
  have hrest := ((lone hs).append hu (.behind hc [] u)).congr (iff_of_eq (true_and q))
  exact ht.append hrest (.before hc t u)

theorem cons {c : Char} (hs : [c] ∈ symbols) (hc : isLone c) (hu : Splits u ys q) :
    Splits (c :: u) ([c] :: ys) q :=
  ((lone hs).append hu (.behind hc [] u)).congr (iff_of_eq (true_and q))

theorem concat {c : Char} (hs : [c] ∈ symbols) (hc : isLone c) (ht : Splits t xs p) :
    Splits (t ++ [c]) (xs ++ [[c]]) p :=
  (ht.append (lone hs) (.before hc t [])).congr (iff_of_eq (and_true p))

/-- A bracket, the text, and another bracket. -/
theorem around {c d : Char} (hc : [c] ∈ symbols ∧ isLone c) (ht : Splits t xs p)
    (hd : [d] ∈ symbols ∧ isLone d) : Splits (c :: t ++ [d]) ([c] :: xs ++ [[d]]) p :=
  (ht.cons hc.1 hc.2).concat hd.1 hd.2

theorem blank (h : Splits t xs p) : Splits (' ' :: t) xs p := by
  have hlex : lex (' ' :: t) = lex t := lex_cons_blank (by decide) t
  exact ⟨(Text.IsClosed.cons_iff (by decide)).2 h.closed, hlex ▸ h.merges, hlex ▸ h.eq_iff⟩

theorem commas_map {α : Type} {f : α → Text} {g : α → List Text} {P : α → Prop} {as : List α}
    (h : ∀ a ∈ as, Splits (f a) (g a) (P a)) :
    Splits (commas (as.map f)) (commaTokens (as.map g)) (∀ a ∈ as, P a) := by
  induction as with
  | nil => exact (of_lex .nil lex_nil).congr (iff_of_true trivial (List.forall_mem_nil _))
  | cons a rest ih =>
    obtain ⟨ha, hrest⟩ := List.forall_mem_cons.1 h
    have hrest := ih hrest
    cases rest with
    | nil =>
      rw [List.map_singleton, List.map_singleton, Go.commas, commaTokens, List.intercalate_singleton,
        List.intercalate_singleton, List.forall_mem_singleton]
      exact ha
    | cons b more =>
      rw [List.forall_mem_cons]
      exact ha.between (by decide) (by decide) hrest.blank

theorem brackets {P : Expression → Prop} {es : List Expression}
    (h : ∀ e ∈ es, Splits (expression e) (expressionTokens e) (P e)) :
    Splits (Go.brackets es) (bracketsTokens es) (∀ e ∈ es, P e) := by
  induction es with
  | nil =>
    rw [Go.brackets, bracketsTokens]
    exact (of_lex .nil lex_nil).congr (iff_of_true trivial (List.forall_mem_nil _))
  | cons e rest ih =>
    obtain ⟨he, hrest⟩ := List.forall_mem_cons.1 h
    rw [Go.brackets, bracketsTokens, List.forall_mem_cons]
    exact (he.cons (by decide) (by decide)).between (by decide) (by decide) (ih hrest)

/-- A letter and a number are one word. -/
theorem numbered {c : Char} (hc : c.isAlphanum || c == '_') (n : Nat) :
    Splits (c :: Text.ofNat n) [c :: Text.ofNat n] True := by
  have hword : ∀ d ∈ c :: Text.ofNat n, d.isAlphanum || d == '_' :=
    List.forall_mem_cons.2 ⟨hc, fun _ => isAlphanum_of_mem_ofNat⟩
  exact of_lex (.of_forall fun d hd => not_isQuote_of_word (hword d hd))
    (lex_of_forall (List.cons_ne_nil _ _) hword)

theorem namedField {field : Expression × Nat}
    (h : Splits (expression field.1) (expressionTokens field.1) p) :
    Splits (Go.namedField field) (namedFieldTokens field) p := by
  have hname : Splits ('v' :: Text.ofNat field.2) ['v' :: Text.ofNat field.2] True :=
    numbered (by decide) field.2
  have hcolon : Splits (':' :: ' ' :: expression field.1) ([':'] :: expressionTokens field.1) p :=
    ((lone (by decide)).append h.blank (.before (by decide) _ _)).congr (iff_of_eq (true_and _))
  have hmeet : Apart ('v' :: Text.ofNat field.2) (':' :: ' ' :: expression field.1) := by
    intro c _ d hd
    obtain rfl : ':' = d := Option.some.inj hd
    exact joins_colon c
  have htext : Go.namedField field =
      ('v' :: Text.ofNat field.2) ++ ':' :: ' ' :: expression field.1 := by
    rw [Go.namedField, List.append_assoc]
    rfl
  rw [htext]
  exact (hname.append hcolon hmeet).congr (iff_of_eq (true_and _))

end Splits

/-! ### Terms -/

/-- The first character does not join with a `-` or `!` in front of it. -/
def StartsPlainly (t : Text) : Prop := ∃ c rest, t = c :: rest ∧ c ∉ ['-', '=']

theorem apart_of_startsPlainly {op : Operator} {t : Text} (hop : op.canBeUnary)
    (ht : StartsPlainly t) (u : Text) : Apart op.symbol.toList (t ++ u) := by
  obtain ⟨c, rest, rfl, hc⟩ := ht
  intro b hb d hd
  obtain rfl : c = d := Option.some.inj hd
  have hall : ∀ b ∈ ['-', '!'], isHeld b = false ∧ ∀ s ∈ symbols, ∀ d ∈ s, [b, d] <:+: s →
      d ∈ ['-', '='] := by decide
  have hmem : b ∈ ['-', '!'] := by
    cases op with
    | minus | not =>
      obtain rfl := Option.some.inj hb
      decide
    | _ => cases hop
  obtain ⟨hheld, hsymbols⟩ := hall b hmem
  rw [joins, hheld, Bool.false_and, Bool.false_or, List.any_eq_false]
  intro s hs hin
  have hin : [b, c] <:+: s := by simpa using hin
  exact hc (hsymbols s hs c (hin.subset (List.mem_cons_of_mem _ List.mem_cons_self)) hin)

/-- What is known of the texts of terms. -/
structure Spells (t : Term) (p : Prop) : Prop where
  splits : Splits (term t) (termTokens t) p
  plain : t.isOperator = false → StartsPlainly (term t)

/-- Where a blank is due between terms, or a closing bracket follows, nothing joins. -/
theorem apart_of_blank (t : Text) (r : Term) (u : Text) :
    Apart t ((if r.isClosing then [] else [' ']) ++ term r ++ u) := by
  cases r with
  | closing b =>
    rw [term]
    exact .before (by decide) t u
  | _ => exact .before (by decide) t _

/-- A term and those behind it do not join, unless both are a `-` and the first one stands before
its operand. -/
theorem apart_terms {stack : List Bracket} {unary : Bool} {t : Term} {rest : List Term}
    (hfollow : CanFollow stack (!unary) ((t :: rest).map Term.class))
    (hplain : ∀ r ∈ rest, r.isOperator = false → StartsPlainly (term r))
    (hminus : (unary && t.isMinus && rest.head?.any Term.isMinus) = false) :
    Apart (term t)
      (terms (t.isOperator || t.isOpening) (t.isOpening || t.isOperator && unary) rest) := by
  cases rest with
  | nil =>
    rw [terms]
    exact .nil_right
  | cons r more =>
    rw [terms]
    cases t with
    | opening b =>
      rw [term]
      exact .behind (by decide) [] _
    | operator op =>
      cases unary with
      | false => exact apart_of_blank _ r _
      | true =>
        obtain ⟨hop, hnext⟩ := hfollow
        rw [term]
        cases r with
        | operator next =>
          have hunary : next.canBeUnary := hnext.1
          rw [term]
          cases op with
          | minus =>
            cases next with
            | minus => cases hminus
            | not => exact .single (c := '-') (d := '!') (by decide) _
            | _ => cases hunary
          | not =>
            cases next with
            | minus => exact .single (c := '!') (d := '-') (by decide) _
            | not => exact .single (c := '!') (d := '!') (by decide) _
            | _ => cases hunary
          | _ => cases hop
        | _ => exact apart_of_startsPlainly hop (hplain _ List.mem_cons_self rfl) _
    | _ => exact apart_of_blank _ r _

/-- What is behind a term can follow too. -/
theorem exists_canFollow {stack : List Bracket} {behind : Bool} {t : Term} {rest : List Term}
    (h : CanFollow stack behind ((t :: rest).map Term.class)) :
    ∃ below, CanFollow below (!(t.isOperator || t.isOpening)) (rest.map Term.class) := by
  cases t with
  | closing b =>
    obtain ⟨-, below, -, hrest⟩ := h
    exact ⟨below, hrest⟩
  | _ => exact ⟨_, h.2⟩

theorem exists_of_minus_minus {unary : Bool} {t : Term} {rest : List Term}
    (h : (unary && t.isMinus && rest.head?.any Term.isMinus) = true) :
    ∃ more, unary = true ∧ t = .operator .minus ∧ rest = .operator .minus :: more := by
  have hminus {t : Term} (ht : t.isMinus) : t = .operator .minus := by
    unfold Term.isMinus at ht
    split at ht
    · rfl
    · cases ht
  simp only [Bool.and_eq_true, Option.any_eq_true] at h
  obtain ⟨⟨hunary, ht⟩, r, hr, hrminus⟩ := h
  obtain ⟨more, rfl⟩ := List.head?_eq_some_iff.1 hr
  exact ⟨more, hunary, hminus ht, by rw [hminus hrminus]⟩

/-- By induction on the number of terms: a `-` before another one goes with it. -/
theorem splits_terms {P : Term → Prop} : ∀ {ts : List Term} {stack : List Bracket} {unary : Bool}
    (glued : Bool), CanFollow stack (!unary) (ts.map Term.class) → (∀ t ∈ ts, Spells t (P t)) →
      Splits (terms unary glued ts) (termsTokens ts)
        (Term.doublesMinus unary ts = false ∧ ∀ t ∈ ts, P t)
  | [], _, _, _, _, _ => by
    rw [terms, termsTokens]
    exact (Splits.of_lex .nil lex_nil).congr (iff_of_true trivial ⟨rfl, List.forall_mem_nil _⟩)
  | t :: rest, stack, unary, glued, hfollow, h => by
    obtain ⟨ht, hrest⟩ := List.forall_mem_cons.1 h
    have hblank {u : Text} {xs : List Text} {p : Prop} (hu : Splits u xs p) :
        Splits ((if glued || t.isClosing then [] else [' ']) ++ u) xs p := by
      split
      · exact hu
      · exact hu.blank
    rw [terms, termsTokens, List.append_assoc, Term.doublesMinus, Bool.or_eq_false_iff,
      List.forall_mem_cons]
    refine hblank ?_
    cases hminus : unary && t.isMinus && rest.head?.any Term.isMinus with
    | false =>
      have hmeet := apart_terms hfollow (fun r hr => (hrest r hr).plain) hminus
      obtain ⟨below, hbehind⟩ := exists_canFollow hfollow
      exact (ht.splits.append (splits_terms _ hbehind hrest) hmeet).congr (by tauto)
    | true =>
      obtain ⟨more, rfl, rfl, rfl⟩ := exists_of_minus_minus hminus
      obtain ⟨below, hnext⟩ := exists_canFollow hfollow
      obtain ⟨under, hmore⟩ := exists_canFollow hnext
      have hsplits : Splits (terms true true more) (termsTokens more) _ :=
        splits_terms true hmore (List.forall_mem_cons.1 hrest).2
      have htext : term (.operator .minus) ++ terms true true (.operator .minus :: more) =
          '-' :: '-' :: terms true true more := by
        rw [terms, term]
        rfl
      have htokens : termTokens (.operator .minus) ++ termsTokens (.operator .minus :: more) =
          ['-'] :: ['-'] :: termsTokens more := by
        rw [termsTokens, termTokens]
        rfl
      have hdash : ¬ isQuote '-' := by decide
      have hlex := lex_minus_minus (terms true true more)
      rw [htokens]
      simp only [Term.isOperator, Term.isOpening, Bool.or_false, Bool.false_or, Bool.and_true]
      rw [htext]
      refine ⟨?_, ?_, ?_⟩
      · exact (Text.IsClosed.cons_iff hdash).2 ((Text.IsClosed.cons_iff hdash).2 hsplits.closed)
      · rw [hlex]
        exact .minus hsplits.merges
      · rw [hlex]
        exact iff_of_false (fun heq => absurd (List.cons.inj heq).1 (by decide))
          fun hkeeps => Bool.false_ne_true hkeeps.1.1.symm
termination_by ts => ts.length

end Go

end StellaGo
