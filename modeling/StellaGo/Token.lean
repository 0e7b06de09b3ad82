import StellaGo.Bracket
import StellaGo.Check

/-! The tokens of an expression. A token is an operator, a literal, a round or curly bracket, or a
word together with the bracketed groups that belong to it, so that a call, an index or an array
literal is one token. Proved: the tokens of a text are no longer than the text. -/

namespace StellaGo.Token

/-! ### Classes -/

inductive Class where
  | opening (b : Bracket)
  | closing (b : Bracket)
  | operator (op : Operator)
  | value
  deriving DecidableEq, Repr

/-- The class of a token, seen from its text alone. -/
def classify (token : Text) : Class :=
  match token with
  | ['('] => .opening .round
  | ['{'] => .opening .curly
  | [')'] => .closing .round
  | ['}'] => .closing .curly
  | _ =>
    match Operator.ofSymbol? token with
    | some op => .operator op
    | none => .value

/-! ### Scanning -/

/-- The rest of a literal through the quote that closes it, and what follows. -/
def literal? (quote : Char) : Text → Option (Text × Text)
  | [] => none
  | ['\\'] => none
  | '\\' :: c :: rest => (literal? quote rest).map fun (body, more) => ('\\' :: c :: body, more)
  | c :: rest =>
    if c == quote then some ([c], rest)
    else (literal? quote rest).map fun (body, more) => (c :: body, more)

theorem append_of_literal? {quote : Char} {t body more : Text}
    (h : literal? quote t = some (body, more)) : body ++ more = t := by
  fun_induction literal? quote t generalizing body <;> grind [Option.map_eq_some_iff]

/-- The rest of a group through the bracket that closes the outermost of the open brackets `stack`,
and what follows. The group belongs to a word that starts `word`. -/
def group (word : Text) (stack : List Bracket) (t : Text) : Check (Text × Text) :=
  match t with
  | [] => .error (.neverClosed word)
  | c :: rest =>
    if isQuote c then
      match _h : literal? c rest with
      | none => .error (.openLiteral c)
      | some (body, more) =>
        (group word stack more).map fun (tail, after) => (c :: (body ++ tail), after)
    else
      match Bracket.ofOpener? c, Bracket.ofCloser? c, stack with
      | some b, _, _ => (group word (b :: stack) rest).map fun (tail, after) => (c :: tail, after)
      | none, some b, top :: below =>
        if top ≠ b then .error (.wrongCloser c)
        else if below = [] then .ok ([c], rest)
        else (group word below rest).map fun (tail, after) => (c :: tail, after)
      | none, some _, [] => .error (.wrongCloser c)
      | none, none, _ => (group word stack rest).map fun (tail, after) => (c :: tail, after)
termination_by t.length
decreasing_by
  all_goals simp only [List.length_cons]
  · have := congrArg List.length (append_of_literal? _h)
    simp only [List.length_append] at this
    omega
  all_goals omega

theorem append_of_group {word t g after : Text} {stack : List Bracket}
    (h : group word stack t = .ok (g, after)) : g ++ after = t := by
  fun_induction group word stack t generalizing g <;>
    grind [Check.map_eq_ok_iff, append_of_literal?]

/-- A character at which a word ends. -/
def endsWord (c : Char) : Bool := isQuote c || isCloser c || isBlank c || isOperatorChar c

theorem not_endsWord_iff {c : Char} :
    ¬ endsWord c ↔ ¬ isQuote c ∧ ¬ isCloser c ∧ ¬ isBlank c ∧ ¬ isOperatorChar c := by
  simp only [endsWord, Bool.or_eq_true, not_or, and_assoc]

/-- The rest of a word that starts `whole`, with its groups, and what follows. -/
def word (whole : Text) (t : Text) : Check (Text × Text) :=
  match t with
  | [] => .ok ([], [])
  | c :: rest =>
    match Bracket.ofOpener? c with
    | some b =>
      match _h : group whole [b] rest with
      | .error fault => .error fault
      | .ok (g, more) => (word whole more).map fun (tail, after) => (c :: (g ++ tail), after)
    | none =>
      if endsWord c then .ok ([], c :: rest)
      else (word whole rest).map fun (tail, after) => (c :: tail, after)
termination_by t.length
decreasing_by
  all_goals simp only [List.length_cons]
  · have := congrArg List.length (append_of_group _h)
    simp only [List.length_append] at this
    omega
  · omega

theorem append_of_word {whole t w after : Text} (h : word whole t = .ok (w, after)) :
    w ++ after = t := by
  fun_induction word whole t generalizing w <;> grind [Check.map_eq_ok_iff, append_of_group]

theorem ne_nil_of_word {whole rest w after : Text} {c : Char} (hc : endsWord c = false)
    (h : word whole (c :: rest) = .ok (w, after)) : w ≠ [] := by
  rw [word] at h
  grind [Check.map_eq_ok_iff]

/-- The tokens of a text inside the open brackets `stack`. -/
def scanInside (stack : List Bracket) (t : Text) : Check (List Text) :=
  match t with
  | [] =>
    match stack with
    | [] => .ok []
    | b :: _ => .error (.neverClosed [b.opener])
  | c :: rest =>
    if _hc : endsWord c then
      if isQuote c then
        match _h : literal? c rest with
        | none => .error (.openLiteral c)
        | some (body, more) => (scanInside stack more).map ((c :: body) :: ·)
      else if isBlank c then scanInside stack rest
      else if isOperatorChar c then
        match _h : Operator.read? (c :: rest) with
        | none => .error (.noOperator c)
        | some (op, more) => (scanInside stack more).map (op.symbol.toList :: ·)
      else
        match Bracket.ofCloser? c, stack with
        | some b, top :: below =>
          if top = b then (scanInside below rest).map ([c] :: ·) else .error (.strayCloser c)
        | _, _ => .error (.strayCloser c)
    else
      match Bracket.ofOpener? c with
      | some .round => (scanInside (.round :: stack) rest).map ([c] :: ·)
      | some .curly => (scanInside (.curly :: stack) rest).map ([c] :: ·)
      | _ =>
        match _h : word (c :: rest) (c :: rest) with
        | .error fault => .error fault
        | .ok (w, more) => (scanInside stack more).map (w :: ·)
termination_by t.length
decreasing_by
  all_goals try simp only [List.length_cons]
  · have := congrArg List.length (append_of_literal? _h)
    simp only [List.length_append] at this
    omega
  · omega
  · have := Operator.length_read?_lt _h
    simpa using this
  · omega
  · omega
  · omega
  · have hw := congrArg List.length (append_of_word _h)
    have hp := List.length_pos_iff.2 (ne_nil_of_word (by simpa using _hc) _h)
    simp only [List.length_append, List.length_cons] at hw
    omega

/-- The tokens of an expression. -/
def scan (t : Text) : Check (List Text) := scanInside [] t

theorem literal?_length {quote : Char} {t body more : Text}
    (h : literal? quote t = some (body, more)) : body.length + more.length = t.length := by
  simpa using congrArg List.length (append_of_literal? h)

theorem word_length {whole t w after : Text} (h : word whole t = .ok (w, after)) :
    w.length + after.length = t.length := by
  simpa using congrArg List.length (append_of_word h)

theorem read?_length {t rest : Text} {op : Operator} (h : Operator.read? t = some (op, rest)) :
    op.symbol.toList.length + rest.length = t.length := by
  simpa using congrArg List.length (Operator.append_of_read? h)

private theorem bound_cons {x : Check (List Text)} {tokens : List Text} {token : Text} {n m : Nat}
    (h : x.map (token :: ·) = .ok tokens) (ht : token.length ≤ m) (hnm : n ≤ m)
    (hx : ∀ {ts}, x = .ok ts → ∀ t ∈ ts, t.length ≤ n) : ∀ t ∈ tokens, t.length ≤ m := by
  obtain ⟨ts, hts, rfl⟩ := Check.map_eq_ok_iff.1 h
  intro t ht'
  rcases List.mem_cons.1 ht' with rfl | hm
  · exact ht
  · exact Nat.le_trans (hx hts t hm) hnm

theorem length_le_of_mem_scanInside {t : Text} {stack : List Bracket} {tokens : List Text}
    (h : scanInside stack t = .ok tokens) : ∀ token ∈ tokens, token.length ≤ t.length := by
  fun_induction scanInside stack t generalizing tokens with
  | case1 => cases h; simp
  | case2 | case3 | case6 | case9 | case10 | case13 => cases h
  | case4 stack c rest _ _ body more hl ih =>
    have := literal?_length hl
    exact bound_cons h (by simp; omega) (by simp; omega) ih
  | case5 stack c rest _ _ _ ih => exact fun u hu => Nat.le_succ_of_le (ih h u hu)
  | case7 stack c rest _ _ _ _ op more hr ih =>
    have := read?_length hr
    exact bound_cons h (by omega) (by omega) ih
  | case8 _ _ _ _ _ _ _ _ _ ih | case11 _ _ _ _ _ ih | case12 _ _ _ _ _ ih =>
    exact bound_cons h (by simp) (Nat.le_succ _) ih
  | case14 _ _ _ _ _ _ hw _ _ ih =>
    have := word_length hw
    exact bound_cons h (by omega) (by omega) ih

/-- The tokens of an expression, known to be no longer than the expression. -/
def scanned (t : Text) : Check { tokens : List Text // ∀ token ∈ tokens, token.length ≤ t.length } :=
  match h : scan t with
  | .error fault => .error fault
  | .ok tokens => .ok ⟨tokens, length_le_of_mem_scanInside h⟩

end StellaGo.Token
