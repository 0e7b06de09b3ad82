import Mathlib.Data.List.Nodup
import StellaGo.Proofs.Names
import StellaGo.Session

/-! The names that a session knows after any run. Defined here: the operations of a session, the
sessions on the way of a run, and when a declaration of the run is in force. Proved: what one
operation does to the stack of scopes, and from it, by induction on the run, that the tables of
every scope keep each name once and under itself, that a name stands for the one declaration of it
that is in force, and that leaving a scope brings back the stack from before it was entered. -/

namespace StellaGo

/-! ### Tables -/

namespace Symbols

/-- The names in each of the four tables. -/
def keySets (s : Symbols) : List (List Name) :=
  [s.scalars.map Prod.fst, s.arrays.map Prod.fst, s.tuples.map Prod.fst, s.functions.map Prod.fst]

/-- No name is in two tables or twice in one, and each entry stands under its own name. -/
structure WellKept (s : Symbols) : Prop where
  disjoint : s.keySets.Pairwise List.Disjoint
  nodup : ∀ keys ∈ s.keySets, keys.Nodup
  scalars : ∀ entry ∈ s.scalars, entry.2.name = entry.1
  arrays : ∀ entry ∈ s.arrays, entry.2.name = entry.1
  tuples : ∀ entry ∈ s.tuples, entry.2.name = entry.1
  functions : ∀ entry ∈ s.functions, entry.2.name = entry.1

theorem wellKept_empty : WellKept .empty := by
  constructor <;> simp [keySets, empty]

theorem notMem_keySets {s : Symbols} {name : Name} (h : s.lookup? name = none) :
    ∀ keys ∈ s.keySets, name ∉ keys := by
  obtain ⟨hs, ha, ht, hf⟩ := lookup?_eq_none_iff.1 h
  simp only [List.lookup_eq_none_iff] at hs ha ht hf
  simp only [keySets, List.mem_cons, List.not_mem_nil, or_false]
  rintro keys (rfl | rfl | rfl | rfl) <;>
    simp only [List.mem_map, not_exists, not_and] <;>
    intro entry hentry hname
  · simpa [hname] using hs entry hentry
  · simpa [hname] using ha entry hentry
  · simpa [hname] using ht entry hentry
  · simpa [hname] using hf entry hentry

theorem WellKept.insert {s : Symbols} {d : Descriptor} (h : s.WellKept)
    (hfree : s.lookup? d.name = none) : (s.insert d).WellKept := by
  obtain ⟨hdisjoint, hnodup, hscalars, harrays, htuples, hfunctions⟩ := h
  have hnew := notMem_keySets hfree
  simp only [keySets, List.mem_cons, List.not_mem_nil, or_false, forall_eq_or_imp, forall_eq,
    List.pairwise_cons, List.Pairwise.nil, and_true, false_implies, implies_true]
    at hdisjoint hnodup hnew
  cases d <;>
    simp only [Descriptor.name] at hnew <;>
    constructor <;>
    simp only [Symbols.insert, keySets, List.map_cons, List.mem_cons, List.not_mem_nil, or_false,
      forall_eq_or_imp, forall_eq, List.pairwise_cons, List.Pairwise.nil, and_true, false_implies,
      implies_true, List.nodup_cons, List.disjoint_cons_left, List.disjoint_cons_right] <;>
    tauto

end Symbols

/-! ### Operations -/

/-- What is asked of a session. -/
inductive Operation where
  | enter (kind : ScopeKind)
  | leave
  | declare (d : Descriptor)
  | parameter (p : Parameter)
  deriving DecidableEq, Repr

/-- What an operation asks to be declared. -/
def Operation.declared? : Operation → Option Descriptor
  | declare d => some d
  | parameter p => some p.descriptor
  | enter _ | leave => none

namespace Session

def scopes (s : Session) : List Scope := s.scope :: s.outer

/-- The number of scopes around the innermost one. -/
def height (s : Session) : Nat := s.outer.length

def lookup? (s : Session) (name : Name) : Option Descriptor := s.scope.symbols.lookup? name

/-- Declares a name. A session that refuses it stays as it is. -/
def attempt (s : Session) (d : Descriptor) : Check Unit × Session :=
  match s.declare d with
  | .ok next => (.ok (), next)
  | .error fault => (.error fault, s)

/-- The answer to an operation, and the session after it. -/
def perform (s : Session) : Operation → Check Unit × Session
  | .enter kind => (.ok (), s.enter kind)
  | .leave => (.ok (), s.leave)
  | .declare d => s.attempt d
  | .parameter p => s.attempt p.descriptor

/-- The session after the first `n` of the operations. -/
def after (ops : List Operation) (n : Nat) : Session :=
  (ops.take n).foldl (fun s op => (s.perform op).2) start

/-- All that an operation can do. -/
inductive Performs (s : Session) : Operation → Check Unit × Session → Prop
  | enter {kind : ScopeKind} : Performs s (.enter kind) (.ok (), s.enter kind)
  | stay (h : s.outer = []) : Performs s .leave (.ok (), s)
  | leave {scope : Scope} {outer : List Scope} (h : s.outer = scope :: outer) :
      Performs s .leave (.ok (), { s with scope := scope, outer := outer })
  | declare {op : Operation} {d : Descriptor} (hop : op.declared? = some d)
      (hfree : s.lookup? d.name = none) :
      Performs s op
        (.ok (), { s with scope := { s.scope with symbols := s.scope.symbols.insert d } })
  | refuse {op : Operation} {d known : Descriptor} (hop : op.declared? = some d)
      (hknown : s.lookup? d.name = some known) :
      Performs s op (.error (.taken d.name known.kind), s)

variable {s : Session} {op : Operation} {d : Descriptor}

theorem attempt_of_free (h : s.lookup? d.name = none) :
    s.attempt d =
      (.ok (), { s with scope := { s.scope with symbols := s.scope.symbols.insert d } }) := by
  rw [lookup?] at h
  simp [attempt, declare, Scope.declare, Symbols.declare, Symbols.ensureFree, h, bind, Except.bind,
    pure, Except.pure]

theorem attempt_of_known {known : Descriptor} (h : s.lookup? d.name = some known) :
    s.attempt d = (.error (.taken d.name known.kind), s) := by
  rw [lookup?] at h
  simp [attempt, declare, Scope.declare, Symbols.declare, Symbols.ensureFree, h, bind, Except.bind]

theorem performs (s : Session) (op : Operation) : Performs s op (s.perform op) := by
  have hdeclare {op : Operation} {d : Descriptor} (hop : op.declared? = some d) :
      Performs s op (s.attempt d) := by
    cases hlookup : s.lookup? d.name with
    | none =>
      rw [attempt_of_free hlookup]
      exact .declare hop hlookup
    | some known =>
      rw [attempt_of_known hlookup]
      exact .refuse hop hlookup
  cases op with
  | enter kind => exact .enter
  | leave =>
    simp only [perform, Session.leave]
    split
    · next h => exact .stay h
    · next h => exact .leave h
  | declare d => exact hdeclare rfl
  | parameter p => exact hdeclare rfl

/-- A declaration is answered as the question whether its name is free, and one that is refused
changes nothing. -/
theorem perform_declared (hop : op.declared? = some d) :
    (s.perform op).1 = s.scope.symbols.ensureFree d.name ∧
      (¬ (s.perform op).1.isOk → (s.perform op).2 = s) := by
  have hperforms := performs s op
  generalize s.perform op = result at hperforms
  cases hperforms with
  | enter | stay | leave => cases hop
  | declare hop' hfree =>
    obtain rfl := Option.some.inj (hop.symm.trans hop')
    exact ⟨(Symbols.ensureFree_eq_ok_iff.2 hfree).symm, fun h => absurd rfl h⟩
  | refuse hop' hknown =>
    obtain rfl := Option.some.inj (hop.symm.trans hop')
    refine ⟨?_, fun _ => rfl⟩
    rw [lookup?] at hknown
    rw [Symbols.ensureFree, hknown]

/-! ### Runs -/

variable {ops : List Operation} {i j m n : Nat}

theorem after_succ (h : ops[n]? = some op) :
    after ops (n + 1) = ((after ops n).perform op).2 := by
  rw [after, List.take_add_one, h, List.foldl_append]
  rfl

theorem after_succ_of_none (h : ops[n]? = none) : after ops (n + 1) = after ops n := by
  rw [after, List.take_add_one, h, Option.toList_none, List.append_nil, after]

/-- What every operation keeps holds on the whole way of a run. -/
theorem after_induction {P : Session → Prop} (hstart : P start)
    (hstep : ∀ s op, P s → P (s.perform op).2) (ops : List Operation) (n : Nat) :
    P (after ops n) := by
  induction n with
  | zero => exact hstart
  | succ n ih =>
    cases hop : ops[n]? with
    | none => rwa [after_succ_of_none hop]
    | some op => exact after_succ hop ▸ hstep _ _ ih

theorem wellKept_perform (h : ∀ scope ∈ s.scopes, scope.symbols.WellKept) :
    ∀ scope ∈ (s.perform op).2.scopes, scope.symbols.WellKept := by
  obtain ⟨htop, houter⟩ := List.forall_mem_cons.1 h
  have hperforms := performs s op
  generalize s.perform op = result at hperforms
  cases hperforms with
  | enter => exact List.forall_mem_cons.2 ⟨htop, h⟩
  | stay | refuse => exact h
  | leave hscopes =>
    rw [hscopes] at houter
    exact houter
  | declare hop hfree => exact List.forall_mem_cons.2 ⟨htop.insert hfree, houter⟩

theorem wellKept_after (ops : List Operation) (n : Nat) :
    ∀ scope ∈ (after ops n).scopes, scope.symbols.WellKept :=
  after_induction (P := fun s => ∀ scope ∈ s.scopes, scope.symbols.WellKept)
    (List.forall_mem_singleton.2 Symbols.wellKept_empty) (fun _ _ => wellKept_perform) ops n

/-! ### Declarations in force -/

/-- The operation at place `i` declares `d`, and is not refused. -/
def DeclaresAt (ops : List Operation) (i : Nat) (d : Descriptor) : Prop :=
  ∃ op, ops[i]? = some op ∧ op.declared? = some d ∧ ((after ops i).perform op).1 = .ok ()

/-- After `n` operations, the declaration at place `i` is in force: the scope where it was made is
on the stack still, as innermost or around it, for the stack was never lower since. Only the
innermost scope is declared in, so an inner one that is on the stack now was entered later. -/
structure InForce (ops : List Operation) (n i : Nat) (d : Descriptor) : Prop where
  declares : DeclaresAt ops i d
  lt : i < n
  stays : ∀ j, i < j → j ≤ n → (after ops i).height ≤ (after ops j).height

theorem DeclaresAt.lookup?_eq_none (h : DeclaresAt ops i d) :
    (after ops i).lookup? d.name = none := by
  obtain ⟨op, -, hop, hok⟩ := h
  rw [(perform_declared hop).1] at hok
  exact Symbols.ensureFree_eq_ok_iff.1 hok

theorem DeclaresAt.unique {e : Descriptor} (h : DeclaresAt ops i d) (h' : DeclaresAt ops i e) :
    d = e := by
  obtain ⟨op, hi, hop, -⟩ := h
  obtain ⟨op', hi', hop', -⟩ := h'
  obtain rfl := Option.some.inj (hi.symm.trans hi')
  exact Option.some.inj (hop.symm.trans hop')

theorem InForce.of_le (h : InForce ops n i d) (him : i < m) (hmn : m ≤ n) : InForce ops m i d :=
  ⟨h.declares, him, fun j hij hjm => h.stays j hij (Nat.le_trans hjm hmn)⟩

/-- A declaration stays in force as long as the stack is not lower. -/
theorem inForce_succ_iff (hin : i < n) : InForce ops (n + 1) i d ↔
    InForce ops n i d ∧ (after ops i).height ≤ (after ops (n + 1)).height := by
  constructor
  · exact fun h => ⟨h.of_le hin n.le_succ, h.stays _ (Nat.lt_succ_of_lt hin) (Nat.le_refl _)⟩
  · rintro ⟨h, hle⟩
    refine ⟨h.declares, Nat.lt_succ_of_lt hin, fun j hij hj => ?_⟩
    rcases Nat.le_succ_iff.1 hj with hj | rfl
    · exact h.stays j hij hj
    · exact hle

/-- The scope knows, of the declarations in force, those made in it or in the scopes `below` it. -/
def KnowsDeclared (ops : List Operation) (n : Nat) (scope : Scope) (below : List Scope) : Prop :=
  ∀ name d, scope.symbols.lookup? name = some d ↔
    d.name = name ∧ ∃ i, InForce ops n i d ∧ (after ops i).height ≤ below.length

variable {scope : Scope} {below : List Scope}

/-- A scope that stays on the stack knows what it knew, unless the operation declares in it. -/
theorem KnowsDeclared.succ (h : KnowsDeclared ops n scope below)
    (hbelow : below.length ≤ (after ops (n + 1)).height)
    (hnew : ∀ d, DeclaresAt ops n d → below.length < (after ops n).height) :
    KnowsDeclared ops (n + 1) scope below := by
  intro name d
  rw [h name d]
  refine and_congr_right fun _ => exists_congr fun i => and_congr_left fun hheight => ?_
  constructor
  · intro hforce
    exact (inForce_succ_iff hforce.lt).2 ⟨hforce, Nat.le_trans hheight hbelow⟩
  · intro hforce
    rcases Nat.lt_succ_iff_lt_or_eq.1 hforce.lt with hin | rfl
    · exact ((inForce_succ_iff hin).1 hforce).1
    · exact absurd hheight (Nat.not_le_of_lt (hnew d hforce.declares))

/-- An inner scope knows what is known where it is entered. -/
theorem KnowsDeclared.enter {kind : ScopeKind} (h : KnowsDeclared ops n scope below)
    (hheight : (after ops n).height = below.length)
    (hsucc : (after ops (n + 1)).height = below.length + 1) (hnew : ∀ d, ¬ DeclaresAt ops n d) :
    KnowsDeclared ops (n + 1) (scope.enter kind) (scope :: below) := by
  intro name d
  rw [Scope.enter, h name d]
  refine and_congr_right fun _ => exists_congr fun i => ⟨?_, ?_⟩
  · rintro ⟨hforce, hle⟩
    exact ⟨(inForce_succ_iff hforce.lt).2 ⟨hforce, by omega⟩, Nat.le_succ_of_le hle⟩
  · rintro ⟨hforce, -⟩
    rcases Nat.lt_succ_iff_lt_or_eq.1 hforce.lt with hin | rfl
    · obtain ⟨hforce, -⟩ := (inForce_succ_iff hin).1 hforce
      exact ⟨hforce, hheight ▸ hforce.stays n hin (Nat.le_refl n)⟩
    · exact absurd hforce.declares (hnew d)

/-- A declaration is known where it is made, and nothing else changes there. -/
theorem KnowsDeclared.insert (h : KnowsDeclared ops n scope below)
    (hheight : (after ops n).height = below.length)
    (hsucc : (after ops (n + 1)).height = below.length)
    (hfree : scope.symbols.lookup? d.name = none) (hd : DeclaresAt ops n d) :
    KnowsDeclared ops (n + 1) { scope with symbols := scope.symbols.insert d } below := by
  have hnow : InForce ops (n + 1) n d := by
    refine ⟨hd, n.lt_succ_self, fun j hnj hj => ?_⟩
    obtain rfl : j = n + 1 := by omega
    exact (hheight.trans hsucc.symm).le
  intro name e
  rw [Symbols.lookup?_insert hfree]
  split
  · next hname =>
    constructor
    · rintro ⟨⟩
      exact ⟨hname.symm, n, hnow, hheight.le⟩
    · rintro ⟨he, i, hforce, hle⟩
      rcases Nat.lt_succ_iff_lt_or_eq.1 hforce.lt with hin | rfl
      · -- what was in force before was known, but the name was free
        have hknown := (h name e).2 ⟨he, i, ((inForce_succ_iff hin).1 hforce).1, hle⟩
        rw [hname, hfree] at hknown
        cases hknown
      · rw [hd.unique hforce.declares]
  · next hname =>
    rw [h name e]
    refine and_congr_right fun he => exists_congr fun i => and_congr_left fun hle => ⟨?_, ?_⟩
    · intro hforce
      exact (inForce_succ_iff hforce.lt).2 ⟨hforce, hsucc ▸ hle⟩
    · intro hforce
      rcases Nat.lt_succ_iff_lt_or_eq.1 hforce.lt with hin | rfl
      · exact ((inForce_succ_iff hin).1 hforce).1
      · rw [hd.unique hforce.declares] at hname
        exact absurd he.symm hname

theorem declaresAt_iff (h : ops[n]? = some op) :
    DeclaresAt ops n d ↔ op.declared? = some d ∧ ((after ops n).perform op).1 = .ok () := by
  rw [DeclaresAt, h]
  simp

/-- On the whole way of a run, every scope knows the declarations in force that were made in it or
around it. -/
theorem knowsDeclared_after (ops : List Operation) (n : Nat) :
    ∀ scope below, scope :: below <:+ (after ops n).scopes → KnowsDeclared ops n scope below := by
  induction n with
  | zero =>
    intro scope below hsuffix name d
    obtain ⟨rfl, rfl⟩ : scope = .global ∧ below = [] := by
      simpa [after, start, scopes, List.suffix_cons_iff] using hsuffix
    refine iff_of_false nofun ?_
    rintro ⟨-, i, hforce, -⟩
    exact absurd hforce.lt (Nat.not_lt_zero i)
  | succ n ih =>
    intro scope below hsuffix
    have hheight := hsuffix.length_le
    rw [scopes, List.length_cons, List.length_cons, Nat.succ_le_succ_iff] at hheight
    have htop := ih _ _ (List.suffix_refl _)
    cases hop : ops[n]? with
    | none =>
      rw [after_succ_of_none hop] at hsuffix
      refine (ih _ _ hsuffix).succ hheight ?_
      rintro d ⟨op, hop', -⟩
      rw [hop] at hop'
      cases hop'
    | some op =>
      have hdeclares (d : Descriptor) := declaresAt_iff (d := d) hop
      have hsucc := after_succ hop
      have hperforms := performs (after ops n) op
      generalize (after ops n).perform op = result at hdeclares hsucc hperforms
      rw [hsucc] at hsuffix
      cases hperforms with
      | enter =>
        have hnew (d : Descriptor) : ¬ DeclaresAt ops n d :=
          fun hd => nomatch ((hdeclares d).1 hd).1
        rcases List.suffix_cons_iff.1 hsuffix with heq | hsuffix
        · obtain ⟨rfl, rfl⟩ := List.cons.inj heq
          exact htop.enter rfl (by rw [hsucc]; rfl) hnew
        · exact (ih _ _ hsuffix).succ hheight fun d hd => absurd hd (hnew d)
      | stay =>
        exact (ih _ _ hsuffix).succ hheight fun d hd => nomatch ((hdeclares d).1 hd).1
      | leave hscopes =>
        have hold : scope :: below <:+ (after ops n).outer := by
          rw [hscopes]
          exact hsuffix
        exact (ih _ _ (hold.trans (List.suffix_cons _ _))).succ hheight fun d hd =>
          nomatch ((hdeclares d).1 hd).1
      | declare hop' hfree =>
        have hd := (hdeclares _).2 ⟨hop', rfl⟩
        rcases List.suffix_cons_iff.1 hsuffix with heq | hsuffix
        · obtain ⟨rfl, rfl⟩ := List.cons.inj heq
          exact htop.insert rfl (by rw [hsucc]; rfl) hfree hd
        · have hlower := hsuffix.length_le
          exact (ih _ _ (hsuffix.trans (List.suffix_cons _ _))).succ hheight fun _ _ => hlower
      | refuse =>
        exact (ih _ _ hsuffix).succ hheight fun d hd => nomatch ((hdeclares d).1 hd).2

/-- A name has one declaration in force at most: behind the first one it is taken. -/
theorem InForce.unique {e : Descriptor} (hi : InForce ops n i d) (hj : InForce ops n j e)
    (hname : d.name = e.name) : i = j := by
  have htaken {i j : Nat} {d e : Descriptor} (hi : InForce ops n i d) (hj : InForce ops n j e)
      (hname : d.name = e.name) : ¬ i < j := by
    intro hij
    have hknown := (knowsDeclared_after ops j _ _ (List.suffix_refl _) e.name d).2
      ⟨hname, i, hi.of_le hij (Nat.le_of_lt hj.lt), hi.stays j hij (Nat.le_of_lt hj.lt)⟩
    have hfree := hj.declares.lookup?_eq_none
    rw [lookup?, hknown] at hfree
    cases hfree
  exact Nat.le_antisymm (Nat.not_lt.1 (htaken hj hi hname.symm)) (Nat.not_lt.1 (htaken hi hj hname))

/-- A name stands for the one declaration of it that is in force, if there is one. -/
theorem lookup?_after (ops : List Operation) (n : Nat) (name : Name) :
    match (after ops n).lookup? name with
    | some d => d.name = name ∧ ∃ i, InForce ops n i d ∧
        ∀ j e, InForce ops n j e → e.name = name → j = i
    | none => ∀ i d, InForce ops n i d → d.name ≠ name := by
  have hknows := knowsDeclared_after ops n _ _ (List.suffix_refl _) name
  rw [lookup?]
  cases hlookup : (after ops n).scope.symbols.lookup? name with
  | some d =>
    obtain ⟨hname, i, hforce, -⟩ := (hknows d).1 hlookup
    exact ⟨hname, i, hforce, fun j e hj he => hj.unique hforce (he.trans hname.symm)⟩
  | none =>
    intro i d hforce hname
    have hknown := (hknows d).2 ⟨hname, i, hforce, hforce.stays n hforce.lt (Nat.le_refl n)⟩
    rw [hlookup] at hknown
    cases hknown

/-! ### Leaving -/

/-- The operation at place `i` enters the scope that the one at place `j` leaves: between them the
stack is higher than before the scope was entered, and at the end by just that scope. -/
structure Encloses (ops : List Operation) (i j : Nat) : Prop where
  enters : ∃ kind, ops[i]? = some (.enter kind)
  leaves : ops[j]? = some .leave
  lt : i < j
  inside : ∀ m, i < m → m ≤ j → (after ops i).height < (after ops m).height
  back : (after ops j).height = (after ops i).height + 1

/-- Only entering a scope makes the stack higher. -/
theorem height_perform_le (h : ∀ kind, op ≠ .enter kind) : (s.perform op).2.height ≤ s.height := by
  have hperforms := performs s op
  generalize s.perform op = result at hperforms
  cases hperforms with
  | enter => exact absurd rfl (h _)
  | stay | declare | refuse => exact Nat.le_refl _
  | leave hscopes =>
    rw [height, height, hscopes]
    exact Nat.le_succ _

/-- For every scope around the innermost one, the run holds the place where the next scope was
opened that is on the stack still. -/
theorem exists_enter {h : Nat} (hlt : h < (after ops n).height) :
    ∃ i, i < n ∧ (∃ kind, ops[i]? = some (.enter kind)) ∧ (after ops i).height = h ∧
      ∀ m, i < m → m ≤ n → h < (after ops m).height := by
  induction n with
  | zero => exact absurd hlt (Nat.not_lt_zero h)
  | succ n ih =>
    by_cases hbefore : h < (after ops n).height
    · obtain ⟨i, hin, henter, hheight, hinside⟩ := ih hbefore
      refine ⟨i, Nat.lt_succ_of_lt hin, henter, hheight, fun m him hm => ?_⟩
      rcases Nat.le_succ_iff.1 hm with hm | rfl
      · exact hinside m him hm
      · exact hlt
    · cases hop : ops[n]? with
      | none =>
        rw [after_succ_of_none hop] at hlt
        exact absurd hlt hbefore
      | some op =>
        rw [after_succ hop] at hlt
        cases op with
        | enter kind =>
          have hheight : (after ops n).height = h :=
            Nat.le_antisymm (Nat.not_lt.1 hbefore) (Nat.lt_succ_iff.1 hlt)
          refine ⟨n, n.lt_succ_self, ⟨kind, hop⟩, hheight, fun m hnm hm => ?_⟩
          obtain rfl : m = n + 1 := by omega
          rwa [after_succ hop]
        | leave | declare | parameter =>
          exact absurd (Nat.lt_of_lt_of_le hlt (height_perform_le nofun)) hbefore

/-- Scopes around the innermost one stay as they are unless the stack gets lower than they reach. -/
theorem suffix_outer_perform {base : List Scope} (h : base <:+ s.outer)
    (hlength : base.length ≤ (s.perform op).2.height) : base <:+ (s.perform op).2.outer := by
  have hperforms := performs s op
  generalize s.perform op = result at hperforms hlength
  cases hperforms with
  | enter => exact h.trans (List.suffix_cons _ _)
  | stay | declare | refuse => exact h
  | leave hscopes =>
    rw [hscopes] at h
    rcases List.suffix_cons_iff.1 h with rfl | h
    · exact absurd hlength (Nat.not_succ_le_self _)
    · exact h

/-- Inside a scope, the stack from before it was entered stands around it. -/
theorem Encloses.suffix_outer (h : Encloses ops i j) (him : i < m) (hmj : m ≤ j) :
    (after ops i).scopes <:+ (after ops m).outer := by
  induction m, him using Nat.le_induction with
  | base =>
    obtain ⟨kind, hkind⟩ := h.enters
    rw [after_succ hkind]
    exact List.suffix_refl _
  | succ m him ih =>
    have hinside := h.inside (m + 1) (Nat.lt_succ_of_lt him) hmj
    have hbefore := ih (Nat.le_of_succ_le hmj)
    cases hop : ops[m]? with
    | none => rwa [after_succ_of_none hop]
    | some op =>
      rw [after_succ hop] at hinside ⊢
      exact suffix_outer_perform hbefore hinside

/-- Leaving a scope brings back the whole stack from before it was entered. -/
theorem Encloses.scopes_eq (h : Encloses ops i j) :
    (after ops (j + 1)).scopes = (after ops i).scopes := by
  have houter : (after ops i).scopes = (after ops j).outer :=
    (h.suffix_outer h.lt (Nat.le_refl j)).eq_of_length h.back.symm
  rw [after_succ h.leaves, houter, perform, Session.leave]
  split
  · next hnil =>
    rw [hnil] at houter
    cases houter
  · next hcons => exact hcons.symm

/-- On the whole way of a run: in each scope on the stack, no name stands in two tables or twice in
one, and each entry stands under its name. A name stands for the one declaration of it that is in
force. A declaration is answered as the question whether its name is free, and changes nothing if it
is refused. Leaving a scope, which some operation before has entered, brings back what was known
before; the first scope is never left. -/
theorem tables_of_run (ops : List Operation) (n : Nat) :
    (∀ scope ∈ (after ops n).scopes, scope.symbols.WellKept) ∧
      (∀ name, match (after ops n).lookup? name with
        | some d => d.name = name ∧ ∃ i, InForce ops n i d ∧
            ∀ j e, InForce ops n j e → e.name = name → j = i
        | none => ∀ i d, InForce ops n i d → d.name ≠ name) ∧
      (∀ op d, op.declared? = some d →
        ((after ops n).perform op).1 = (after ops n).scope.symbols.ensureFree d.name ∧
          (¬ ((after ops n).perform op).1.isOk → ((after ops n).perform op).2 = after ops n)) ∧
      (∀ i, Encloses ops i n → (after ops (n + 1)).scopes = (after ops i).scopes) ∧
      (ops[n]? = some .leave → 0 < (after ops n).height → ∃ i, Encloses ops i n) ∧
      (ops[n]? = some .leave → (after ops n).height = 0 → after ops (n + 1) = after ops n) := by
  refine ⟨wellKept_after ops n, lookup?_after ops n, fun op d hop => perform_declared hop,
    fun i h => h.scopes_eq, fun hleave hpos => ?_, fun hleave hzero => ?_⟩
  · obtain ⟨i, hin, henter, hheight, hinside⟩ := exists_enter (Nat.sub_lt hpos Nat.one_pos)
    exact ⟨i, henter, hleave, hin, fun m him hm => hheight ▸ hinside m him hm, by omega⟩
  · have hnil : (after ops n).outer = [] := List.eq_nil_of_length_eq_zero hzero
    rw [after_succ hleave, perform, Session.leave, hnil]

/-- A name is declared in the file and refused in a function; in a loop of that function, another is
declared. -/
def loopRun : List Operation :=
  [.declare (.scalar ⟨"a".toList, .int, true⟩), .enter .function,
    .declare (.array ⟨"a".toList, ⟨.int, [2]⟩, false⟩), .enter .loop,
    .parameter ⟨"b".toList, .primitive .bool⟩, .leave, .leave, .leave]

theorem tables_of_run_loop :
    (∃ i, Encloses loopRun i 5 ∧ (after loopRun 6).scopes = (after loopRun i).scopes) ∧
      after loopRun 8 = after loopRun 7 ∧
      ((after loopRun 2).perform (.declare (.array ⟨"a".toList, ⟨.int, [2]⟩, false⟩))).2 =
        after loopRun 2 := by
  obtain ⟨-, -, -, hback, henter, -⟩ := tables_of_run loopRun 5
  obtain ⟨i, hi⟩ := henter rfl (by decide)
  obtain ⟨-, -, -, -, -, hstay⟩ := tables_of_run loopRun 7
  obtain ⟨-, -, hanswer, -⟩ := tables_of_run loopRun 2
  exact ⟨⟨i, hi, hback i hi⟩, hstay rfl rfl, (hanswer _ _ rfl).2 (by decide)⟩

end Session

end StellaGo
