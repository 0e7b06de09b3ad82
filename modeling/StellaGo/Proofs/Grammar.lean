import StellaGo.Proofs.TokenOrder

/-! The grammar of expressions, over the classes of their tokens:

    E ::= U (B U)*
    U ::= P U | value | ( E ) | { E }

where `P` is `-` or `!`, and `B` is any operator but `!`. Defined here: what the grammar derives.
Proved: a derived row can follow on nothing, and a row that can follow on nothing is derived along
its parse tree. So the tokens of a text fit between their neighbours, which is a matter of three
tokens at a time, exactly when their classes are derived. -/

namespace StellaGo

namespace Grammar

/-- What the grammar derives: an expression, one of its operands, or what may stand behind its first
operand. -/
inductive Symbol where
  | expression | operand | tail
  deriving DecidableEq, Repr

inductive Derives : Symbol → List Token.Class → Prop
  | expression {us ts : List Token.Class} (first : Derives .operand us) (more : Derives .tail ts) :
      Derives .expression (us ++ ts)
  | last : Derives .tail []
  | joined {op : Operator} {us ts : List Token.Class} (hop : op ≠ .not) (next : Derives .operand us)
      (more : Derives .tail ts) : Derives .tail (.operator op :: (us ++ ts))
  | signed {op : Operator} {us : List Token.Class} (hop : op = .minus ∨ op = .not)
      (h : Derives .operand us) : Derives .operand (.operator op :: us)
  | value : Derives .operand [.value]
  | round {es : List Token.Class} (h : Derives .expression es) :
      Derives .operand (.opening .round :: (es ++ [.closing .round]))
  | curly {es : List Token.Class} (h : Derives .expression es) :
      Derives .operand (.opening .curly :: (es ++ [.closing .curly]))

variable {us ts xs ys : List Token.Class} {op : Operator}

theorem canBeUnary_iff : op.canBeUnary ↔ op = .minus ∨ op = .not := by
  cases op <;> decide

theorem canBeBinary_iff : op.canBeBinary ↔ op ≠ .not := by
  cases op <;> decide

/-! ### What is derived can follow -/

/-- A derived row can follow wherever its symbol may stand, before all that can follow an operand.
-/
theorem Derives.canFollow {symbol : Symbol} (h : Derives symbol xs) {stack : List Bracket}
    {rest : List Token.Class} (hrest : CanFollow stack true rest) :
    CanFollow stack (symbol == .tail) (xs ++ rest) := by
  induction h generalizing stack rest with
  | expression _ _ first more =>
    rw [List.append_assoc]
    exact first (more hrest)
  | last => exact hrest
  | joined hop _ _ next more =>
    rw [List.cons_append, List.append_assoc]
    exact ⟨canBeBinary_iff.2 hop, next (more hrest)⟩
  | signed hop _ ih => exact ⟨canBeUnary_iff.2 hop, ih hrest⟩
  | value => exact ⟨rfl, hrest⟩
  | round _ ih =>
    have hclosed : CanFollow (.round :: stack) true (.closing .round :: rest) :=
      ⟨rfl, stack, rfl, hrest⟩
    rw [List.cons_append, List.append_assoc]
    exact ⟨rfl, ih hclosed⟩
  | curly _ ih =>
    have hclosed : CanFollow (.curly :: stack) true (.closing .curly :: rest) :=
      ⟨rfl, stack, rfl, hrest⟩
    rw [List.cons_append, List.append_assoc]
    exact ⟨rfl, ih hclosed⟩

/-! ### What can follow is derived -/

theorem Derives.of_operand (h : Derives .operand us) : Derives .expression us := by
  simpa using Derives.expression h .last

theorem Derives.append_tail (h : Derives .tail xs) (more : Derives .tail ts) :
    Derives .tail (xs ++ ts) := by
  generalize hs : Symbol.tail = symbol at h
  induction h with
  | last => exact more
  | joined hop next _ _ ih =>
    rw [List.cons_append, List.append_assoc]
    exact .joined hop next (ih hs)
  | expression | signed | value | round | curly => cases hs

/-- Two expressions around a binary operator are one. -/
theorem Derives.binary (hop : op ≠ .not) (left : Derives .expression xs)
    (right : Derives .expression ys) : Derives .expression (xs ++ .operator op :: ys) := by
  cases left with
  | expression first more =>
    cases right with
    | expression next rest =>
      rw [List.append_assoc]
      exact .expression first (more.append_tail (.joined hop next rest))

theorem Derives.group {b : Bracket} (hb : b ≠ .square) (h : Derives .expression xs) :
    Derives .operand (.opening b :: (xs ++ [.closing b])) := by
  cases b with
  | round => exact .round h
  | curly => exact .curly h
  | square => exact absurd rfl hb

/-- The classes of what a tree spells are derived. A tree that no binary operator holds together is
an operand. -/
theorem derives_of_tree {t : Tree} (ht : t.FollowsGo)
    (hsquare : .opening .square ∉ t.terms.map Term.class) :
    Derives .expression (t.terms.map Term.class) ∧
      (6 ≤ t.level → Derives .operand (t.terms.map Term.class)) := by
  induction t with
  | leaf term =>
    have hvalue : term.class = .value := by
      simp only [Tree.FollowsGo] at ht
      cases term <;> simp_all [Term.isOperand, Term.class]
    simp only [Tree.terms, List.map_cons, List.map_nil, hvalue]
    exact ⟨Derives.value.of_operand, fun _ => .value⟩
  | unary op operand ih =>
    obtain ⟨hop, hlevel, hf⟩ := ht
    obtain ⟨-, hoperand⟩ := ih hf (fun h => hsquare (by simp [Tree.terms, Term.class, h]))
    have h := Derives.signed (canBeUnary_iff.1 hop) (hoperand hlevel)
    exact ⟨h.of_operand, fun _ => h⟩
  | binary op left right ihl ihr =>
    obtain ⟨hop, -, -, hfl, hfr⟩ := ht
    simp only [Tree.terms, List.map_append, List.map_cons, List.mem_append, List.mem_cons,
      not_or] at hsquare ⊢
    obtain ⟨hsl, -, hsr⟩ := hsquare
    refine ⟨(ihl hfl hsl).1.binary (canBeBinary_iff.1 hop) (ihr hfr hsr).1, fun hlevel => ?_⟩
    exact absurd (Nat.le_trans hlevel op.precedence_le) (by decide)
  | group b inside ih =>
    simp only [Tree.terms, List.map_cons, List.map_append, List.mem_append, List.mem_cons,
      not_or] at hsquare ⊢
    obtain ⟨hb, hinside, -⟩ := hsquare
    have h := (ih ht hinside).1.group (b := b) (fun hsq => hb (by rw [hsq]; rfl))
    exact ⟨h.of_operand, fun _ => h⟩

/-- A term of the class. -/
def termOf : Token.Class → Term
  | .opening b => .opening b
  | .closing b => .closing b
  | .operator op => .operator op
  | .value => .literal [] .int

theorem map_class_termOf (xs : List Token.Class) : (xs.map termOf).map Term.class = xs := by
  rw [List.map_map]
  refine (List.map_congr_left fun c _ => ?_).trans (List.map_id xs)
  cases c <;> rfl

theorem derives_iff_canFollow (hsquare : .opening .square ∉ xs) :
    Derives .expression xs ↔ CanFollow [] false xs := by
  constructor
  · intro h
    have hend : CanFollow [] true [] := ⟨rfl, rfl⟩
    have hall := h.canFollow hend
    rwa [List.append_nil] at hall
  · intro h
    rw [← map_class_termOf xs] at h
    obtain ⟨t, ht⟩ := Parse.exists_finish (p := Parse.start) h
    obtain ⟨hf, hterms⟩ := Tree.parse_eq_some_iff.1 ht
    have hclasses : t.terms.map Term.class = xs := by rw [hterms, map_class_termOf]
    exact hclasses ▸ (derives_of_tree hf (hclasses ▸ hsquare)).1

end Grammar

/-! ### Tokens that fit -/

namespace Placement

variable {stack : List Bracket} {previous : Option Text} {tokens : List Text}

theorem startsOperand_of_canFollow (h : CanFollow stack false (tokens.map Token.classify)) :
    startsOperand (tokens.head?.map Token.classify) := by
  rw [← List.head?_map]
  cases hrow : tokens.map Token.classify with
  | nil =>
    rw [hrow] at h
    exact absurd h.2 (by decide)
  | cons c rest =>
    rw [hrow] at h
    cases c with
    | operator op => exact h.1
    | closing b => exact absurd h.1 (by decide)
    | opening | value => rfl

theorem followsOperand_of_canFollow (h : CanFollow stack true (tokens.map Token.classify)) :
    followsOperand (tokens.head?.map Token.classify) := by
  rw [← List.head?_map]
  cases hrow : tokens.map Token.classify with
  | nil => rfl
  | cons c rest =>
    rw [hrow] at h
    cases c with
    | operator op => exact h.1
    | closing b => rfl
    | opening | value => exact absurd h.1 (by decide)

/-- Tokens whose classes can follow fit between their neighbours. -/
theorem check_of_canFollow
    (h : CanFollow stack (endsOperand (previous.map Token.classify)) (tokens.map Token.classify)) :
    check previous tokens = .ok () := by
  induction tokens generalizing stack previous with
  | nil => rfl
  | cons token rest ih =>
    have hrest {below : List Bracket} := @ih below (some token)
    rw [List.map_cons] at h
    rw [check]
    simp only [Option.map_some] at hrest
    cases hclass : Token.classify token with
    | operator op =>
      rw [hclass] at h hrest
      obtain ⟨hop, hbehind⟩ := h
      rw [if_pos, hrest hbehind]
      simpa [fits, startsOperand_of_canFollow hbehind] using hop
    | value =>
      rw [hclass] at h hrest
      obtain ⟨hprevious, hbehind⟩ := h
      rw [if_pos, hrest hbehind]
      simp [fits, hprevious, followsOperand_of_canFollow hbehind]
    | opening b =>
      rw [hclass] at h hrest
      obtain ⟨hprevious, hbehind⟩ := h
      rw [if_pos, hrest hbehind]
      simp [fits, hprevious, startsOperand_of_canFollow hbehind]
    | closing b =>
      rw [hclass] at h hrest
      obtain ⟨hprevious, below, -, hbehind⟩ := h
      rw [if_pos, hrest hbehind]
      simp [fits, hprevious, followsOperand_of_canFollow hbehind]

/-- A square bracket is never a token. -/
theorem classify_ne_square (token : Text) : Token.classify token ≠ .opening .square := by
  rw [Token.classify.eq_def]
  split
  iterate 4 simp
  split <;> simp

/-- The tokens of a text fit between their neighbours exactly when the grammar derives their classes
from an expression. -/
theorem check_eq_ok_iff_derives {text : Text}
    (hscan : Token.scan text = .ok tokens) (hne : tokens ≠ []) :
    check none tokens = .ok () ↔ Grammar.Derives .expression (tokens.map Token.classify) := by
  have hsquare : .opening .square ∉ tokens.map Token.classify := by
    intro hmem
    obtain ⟨token, -, hclass⟩ := List.mem_map.1 hmem
    exact classify_ne_square token hclass
  rw [Grammar.derives_iff_canFollow hsquare]
  constructor
  · intro h
    exact canFollow_of_check (Token.nested_of_scanInside (by simp) hscan) h
      (fun hnil => absurd hnil hne)
  · exact fun h => check_of_canFollow h

theorem check_eq_ok_iff_derives_group :
    Token.scan ('!' :: '{' :: "-a < f(b)".toList ++ '}' :: " && c".toList) =
        .ok [['!'], ['{'], ['-'], ['a'], ['<'], "f(b)".toList, ['}'], "&&".toList, ['c']] ∧
      Grammar.Derives .expression [.operator .not, .opening .curly, .operator .minus, .value,
        .operator .less, .value, .closing .curly, .operator .and, .value] := by
  have hscan : Token.scan ('!' :: '{' :: "-a < f(b)".toList ++ '}' :: " && c".toList) =
      .ok [['!'], ['{'], ['-'], ['a'], ['<'], "f(b)".toList, ['}'], "&&".toList, ['c']] := by
    decide +kernel
  exact ⟨hscan, (check_eq_ok_iff_derives hscan (by decide)).1 (by decide)⟩

end Placement

end StellaGo
