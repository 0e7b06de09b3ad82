import Mathlib.Logic.ExistsUnique
import StellaGo.Term

/-! Parse trees of expressions under Go's grammar: prefix operators bind tightest, then the five
levels of binary operators, each grouping to the left, and brackets group. Defined here: trees, the
terms they spell, when a tree follows the grammar, and a parser that keeps a stack of what is open
to the left. Proved: the parser finds a tree exactly when the tree spells the terms and follows the
grammar, so that no row of terms has two readings. -/

namespace StellaGo

namespace Operator

/-- How tightly an operator binds two operands. -/
def precedence : Operator → Nat
  | times | divide => 5
  | plus | minus => 4
  | equal | unequal | less | greater | lessEqual | greaterEqual => 3
  | and => 2
  | or => 1
  | not => 0

theorem precedence_le (op : Operator) : op.precedence ≤ 5 := by
  cases op <;> decide

end Operator

/-- A term that is an operand by itself. -/
def Term.isOperand : Term → Bool
  | .operator _ | .opening _ | .closing _ => false
  | _ => true

inductive Tree where
  | leaf (term : Term)
  | unary (op : Operator) (operand : Tree)
  | binary (op : Operator) (left right : Tree)
  | group (b : Bracket) (inside : Tree)

namespace Tree

/-- The terms that a tree spells. -/
def terms : Tree → List Term
  | leaf term => [term]
  | unary op operand => .operator op :: operand.terms
  | binary op left right => left.terms ++ .operator op :: right.terms
  | group b inside => .opening b :: (inside.terms ++ [.closing b])

/-- How tightly the root holds its parts together. -/
def level : Tree → Nat
  | binary op _ _ => op.precedence
  | unary _ _ => 6
  | leaf _ | group _ _ => 7

/-- The tree is grouped as Go groups its terms. -/
def FollowsGo : Tree → Prop
  | leaf term => term.isOperand
  | unary op operand => op.canBeUnary ∧ 6 ≤ operand.level ∧ operand.FollowsGo
  | binary op left right =>
    op.canBeBinary ∧ op.precedence ≤ left.level ∧ op.precedence < right.level ∧
      left.FollowsGo ∧ right.FollowsGo
  | group _ inside => inside.FollowsGo

end Tree

/-! ### Parsing -/

/-- What waits to the left for the operand that is read. -/
inductive Pending where
  | unary (op : Operator)
  | binary (left : Tree) (op : Operator)
  | group (b : Bracket)

/-- A parse in progress: what is pending, the innermost first, and the operand read last, if none is
due next. -/
structure Parse where
  pending : List Pending
  operand? : Option Tree

namespace Parse

/-- Closes what is pending and binds at least as tightly as `limit`, up to the innermost bracket. -/
def reduce (limit : Nat) : List Pending → Tree → List Pending × Tree
  | .unary op :: below, t => reduce limit below (.unary op t)
  | .binary left op :: below, t =>
    if limit ≤ op.precedence then reduce limit below (.binary op left t)
    else (.binary left op :: below, t)
  | .group b :: below, t => (.group b :: below, t)
  | [], t => ([], t)

/-- Takes in the next term. -/
def step (p : Parse) (term : Term) : Option Parse :=
  match p.operand?, term with
  | none, .operator op => if op.canBeUnary then some ⟨.unary op :: p.pending, none⟩ else none
  | none, .opening b => some ⟨.group b :: p.pending, none⟩
  | some t, .operator op =>
    let (below, left) := reduce op.precedence p.pending t
    if op.canBeBinary then some ⟨.binary left op :: below, none⟩ else none
  | some t, .closing b =>
    match reduce 0 p.pending t with
    | (.group opened :: below, inside) =>
      if opened = b then some ⟨below, some (.group b inside)⟩ else none
    | _ => none
  | none, term => if term.isOperand then some ⟨p.pending, some (.leaf term)⟩ else none
  | some _, _ => none

/-- The whole tree, if nothing is open. -/
def finish (p : Parse) : Option Tree :=
  match p.operand? with
  | none => none
  | some t =>
    match reduce 0 p.pending t with
    | ([], whole) => some whole
    | _ => none

def start : Parse := ⟨[], none⟩

end Parse

/-- The tree that a row of terms spells under Go's grammar. -/
def Tree.parse (ts : List Term) : Option Tree := (ts.foldlM Parse.step Parse.start).bind Parse.finish

namespace Parse

/-! ### Only readings are found -/

/-- The terms of what is pending. -/
def pendingTerms : List Pending → List Term
  | [] => []
  | .unary op :: below => pendingTerms below ++ [.operator op]
  | .binary left op :: below => pendingTerms below ++ left.terms ++ [.operator op]
  | .group b :: below => pendingTerms below ++ [.opening b]

/-- The terms taken in. -/
def terms (p : Parse) : List Term := pendingTerms p.pending ++ (p.operand?.map Tree.terms).getD []

/-- The least level of a tree that may close under what is pending. -/
def room : List Pending → Nat
  | .unary _ :: _ => 6
  | .binary _ op :: _ => op.precedence + 1
  | .group _ :: _ | [] => 0

/-- What is pending follows the grammar so far. -/
def PendingFollowsGo : List Pending → Prop
  | [] => True
  | .unary op :: below => op.canBeUnary ∧ PendingFollowsGo below
  | .binary left op :: below =>
    op.canBeBinary ∧ op.precedence ≤ left.level ∧ left.FollowsGo ∧ room below ≤ op.precedence ∧
      PendingFollowsGo below
  | .group _ :: below => PendingFollowsGo below

/-- The parse follows the grammar so far. An operand that was just read is a whole one. -/
def FollowsGo (p : Parse) : Prop :=
  PendingFollowsGo p.pending ∧ ∀ t ∈ p.operand?, t.FollowsGo ∧ t.level = 7

theorem room_le (pending : List Pending) : room pending ≤ 6 := by
  rcases pending with _ | ⟨_ | _ | _, below⟩
  · decide
  · exact Nat.le_refl 6
  · next op => exact Nat.succ_le_succ op.precedence_le
  · exact Nat.zero_le 6

/-- Closing keeps to the grammar and loses no term. What is left pending has room for an operator
that binds as tightly as `limit`. -/
theorem reduce_follows {limit : Nat} (pending : List Pending) {t : Tree} (hl : limit ≤ 6)
    (hp : PendingFollowsGo pending) (ht : t.FollowsGo) (hr : room pending ≤ t.level)
    (hlt : limit ≤ t.level) :
    PendingFollowsGo (reduce limit pending t).1 ∧ (reduce limit pending t).2.FollowsGo ∧
      room (reduce limit pending t).1 ≤ limit ∧ limit ≤ (reduce limit pending t).2.level ∧
      pendingTerms (reduce limit pending t).1 ++ (reduce limit pending t).2.terms =
        pendingTerms pending ++ t.terms := by
  fun_induction reduce limit pending t with
  | case1 op below t ih =>
    obtain ⟨h1, h2, h3, h4, h5⟩ := ih hp.2 ⟨hp.1, hr, ht⟩ (room_le below) hl
    exact ⟨h1, h2, h3, h4, by rw [h5]; simp [pendingTerms, Tree.terms]⟩
  | case2 left op below t hle ih =>
    obtain ⟨hop, hleft, hf, hroom, hbelow⟩ := hp
    obtain ⟨h1, h2, h3, h4, h5⟩ := ih hbelow ⟨hop, hleft, hr, hf, ht⟩ hroom hle
    exact ⟨h1, h2, h3, h4, by rw [h5]; simp [pendingTerms, Tree.terms]⟩
  | case3 left op below t hlt' =>
    exact ⟨hp, ht, by simp only [room]; omega, hlt, rfl⟩
  | case4 b below t => exact ⟨hp, ht, Nat.zero_le _, hlt, rfl⟩
  | case5 t => exact ⟨hp, ht, Nat.zero_le _, hlt, rfl⟩

theorem step_follows {p next : Parse} {term : Term} (hp : p.FollowsGo)
    (h : p.step term = some next) : next.FollowsGo ∧ next.terms = p.terms ++ [term] := by
  obtain ⟨pending, operand?⟩ := p
  obtain ⟨hpending, hoperand⟩ := hp
  simp only [step] at h
  split at h
  · -- a prefix operator
    split at h
    · next hop =>
      cases h
      exact ⟨⟨⟨hop, hpending⟩, by simp⟩, by simp [terms, pendingTerms]⟩
    · cases h
  · cases h
    exact ⟨⟨hpending, by simp⟩, by simp [terms, pendingTerms]⟩
  · next t op =>
    obtain ⟨ht, hlevel⟩ := hoperand t rfl
    have hlimit : op.precedence ≤ 6 := Nat.le_succ_of_le op.precedence_le
    obtain ⟨h1, h2, h3, h4, h5⟩ := reduce_follows pending hlimit hpending ht
      (hlevel ▸ Nat.le_succ_of_le (room_le pending)) (hlevel ▸ Nat.le_succ_of_le hlimit)
    split at h
    · next hop =>
      cases h
      refine ⟨⟨⟨hop, h4, h2, h3, h1⟩, by simp⟩, ?_⟩
      simpa [terms, pendingTerms] using congrArg (· ++ [Term.operator op]) h5
    · cases h
  · next t b =>
    obtain ⟨ht, hlevel⟩ := hoperand t rfl
    obtain ⟨h1, h2, -, -, h5⟩ := reduce_follows pending (Nat.zero_le 6) hpending ht
      (hlevel ▸ Nat.le_succ_of_le (room_le pending)) (Nat.zero_le _)
    split at h
    · next opened below inside hr =>
      rw [hr] at h1 h2 h5
      split at h
      · next hb =>
        cases h
        subst hb
        refine ⟨⟨h1, by simpa [Tree.level, Tree.FollowsGo] using h2⟩, ?_⟩
        simpa [terms, pendingTerms, Tree.terms] using congrArg (· ++ [Term.closing opened]) h5
      · cases h
    · cases h
  · split at h
    · next hterm =>
      cases h
      exact ⟨⟨hpending, by simpa [Tree.level, Tree.FollowsGo] using hterm⟩, by simp [terms, Tree.terms]⟩
    · cases h
  · cases h

theorem run_follows {p last : Parse} {ts : List Term} (hp : p.FollowsGo)
    (h : ts.foldlM step p = some last) : last.FollowsGo ∧ last.terms = p.terms ++ ts := by
  induction ts generalizing p with
  | nil =>
    cases h
    exact ⟨hp, (List.append_nil _).symm⟩
  | cons term rest ih =>
    rw [List.foldlM_cons] at h
    obtain ⟨next, hnext, h⟩ := Option.bind_eq_some_iff.1 h
    obtain ⟨hf, hts⟩ := step_follows hp hnext
    obtain ⟨hlast, hall⟩ := ih hf h
    exact ⟨hlast, by rw [hall, hts, List.append_assoc]; rfl⟩

theorem finish_follows {p : Parse} {whole : Tree} (hp : p.FollowsGo) (h : p.finish = some whole) :
    whole.FollowsGo ∧ whole.terms = p.terms := by
  unfold finish at h
  split at h
  · cases h
  · next t ht =>
    obtain ⟨hf, hlevel⟩ := hp.2 t ht
    obtain ⟨-, h2, -, -, h5⟩ := reduce_follows p.pending (Nat.zero_le 6) hp.1 hf
      (hlevel ▸ Nat.le_succ_of_le (room_le p.pending)) (Nat.zero_le _)
    split at h
    · next whole' hr =>
      cases h
      rw [hr] at h2 h5
      exact ⟨h2, by simpa [terms, pendingTerms, ht] using h5⟩
    · cases h

/-! ### Every reading is found -/

/-- What is pending behind the terms of a tree, and the operand read last. -/
def spine (pending : List Pending) : Tree → List Pending × Tree
  | .leaf term => (pending, .leaf term)
  | .group b inside => (pending, .group b inside)
  | .unary op operand => spine (.unary op :: pending) operand
  | .binary op left right => spine (.binary left op :: pending) right

theorem reduce_spine {limit : Nat} (pending : List Pending) {t : Tree} (hl : limit ≤ t.level)
    (ht : t.FollowsGo) :
    reduce limit (spine pending t).1 (spine pending t).2 = reduce limit pending t := by
  induction t generalizing pending with
  | leaf term => rfl
  | group b inside => rfl
  | unary op operand ih =>
    rw [spine, ih _ (Nat.le_trans hl ht.2.1) ht.2.2, reduce]
  | binary op left right _ ih =>
    obtain ⟨-, -, hright, -, hf⟩ := ht
    have hop : limit ≤ op.precedence := hl
    rw [spine, ih _ (Nat.le_of_lt (Nat.lt_of_le_of_lt hop hright)) hf, reduce, if_pos hop]

/-- Where there is room for an operator, nothing that is pending closes before it. -/
theorem reduce_of_room {op : Operator} {pending : List Pending} {t : Tree}
    (hr : room pending ≤ op.precedence) : reduce op.precedence pending t = (pending, t) := by
  rcases pending with _ | ⟨_ | ⟨left, above⟩ | _, below⟩
  · rfl
  · have : 6 ≤ 5 := Nat.le_trans hr op.precedence_le
    omega
  · exact if_neg (by simp only [room] at hr; omega)
  · rfl

/-- The terms of a tree are taken in as the grammar asks for. -/
theorem foldlM_step_terms {t : Tree} (ht : t.FollowsGo) (pending : List Pending)
    (hr : room pending ≤ t.level) :
    t.terms.foldlM step ⟨pending, none⟩ =
      some ⟨(spine pending t).1, some (spine pending t).2⟩ := by
  induction t generalizing pending with
  | leaf term =>
    simp only [Tree.FollowsGo] at ht
    cases term <;> simp_all [Tree.terms, step, spine, Term.isOperand]
  | unary op operand ih =>
    obtain ⟨hop, hlevel, hf⟩ := ht
    simp [Tree.terms, step, hop, ih hf (.unary op :: pending) hlevel, spine]
  | binary op left right ihl ihr =>
    obtain ⟨hop, hleft, hright, hfl, hfr⟩ := ht
    rw [Tree.terms, List.foldlM_append, ihl hfl pending (Nat.le_trans hr hleft)]
    simp [step, reduce_spine pending hleft hfl, reduce_of_room hr, hop,
      ihr hfr (.binary left op :: pending) hright, spine]
  | group b inside ih =>
    have hrun := ih ht (.group b :: pending) (Nat.zero_le _)
    have hclose := reduce_spine (.group b :: pending) (Nat.zero_le inside.level) ht
    rw [reduce] at hclose
    simp [Tree.terms, List.foldlM_append, step, hrun, hclose, spine]

end Parse

namespace Tree

/-- The parser finds the readings and nothing else. -/
theorem parse_eq_some_iff {ts : List Term} {t : Tree} :
    parse ts = some t ↔ t.FollowsGo ∧ t.terms = ts := by
  constructor
  · intro h
    obtain ⟨p, hp, h⟩ := Option.bind_eq_some_iff.1 h
    obtain ⟨hf, hts⟩ := Parse.run_follows (p := Parse.start) ⟨trivial, by simp [Parse.start]⟩ hp
    obtain ⟨ht, hall⟩ := Parse.finish_follows hf h
    exact ⟨ht, by rw [hall, hts]; rfl⟩
  · rintro ⟨ht, rfl⟩
    have hrun := Parse.foldlM_step_terms ht [] (Nat.zero_le _)
    have hclose := Parse.reduce_spine [] (Nat.zero_le t.level) ht
    simp [parse, Parse.start, hrun, Parse.finish, hclose, Parse.reduce]

/-- No row of terms has two readings. -/
theorem eq_of_terms_eq {t u : Tree} (ht : t.FollowsGo) (hu : u.FollowsGo)
    (h : t.terms = u.terms) : t = u := by
  have hparse := parse_eq_some_iff.2 ⟨ht, rfl⟩
  rw [h, parse_eq_some_iff.2 ⟨hu, rfl⟩] at hparse
  exact (Option.some.inj hparse).symm

end Tree

end StellaGo
