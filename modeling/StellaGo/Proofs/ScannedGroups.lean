import StellaGo.Proofs.LineFaults
import StellaGo.Proofs.Offsets.Text
import StellaGo.Proofs.PartReaders
import StellaGo.Proofs.Splitting

/-! Groups as the scanner saw them. Defined here: the scanner of expressions, noting for each token the
brackets around each of its groups, and tokens in which the search for closing brackets finds these.
Proved: it finds them in every token of a text that is scanned. So a name in front of a single group
is read as a call with the arguments in that group. -/

namespace StellaGo

/-! ### Groups of the scanner -/

namespace Token.Grouped

/-- The places of the brackets around a group. -/
structure Group where
  start : Nat
  stop : Nat
  deriving DecidableEq, Repr

/-- Scans the rest of a word from its character `i` on, and notes the groups. -/
def word (whole : Text) (i : Nat) (t : Text) : Check (Text × List Group × Text) :=
  match t with
  | [] => .ok ([], [], [])
  | c :: rest =>
    match Bracket.ofOpener? c with
    | some b =>
      match _h : group whole [b] rest with
      | .error fault => .error fault
      | .ok (g, more) =>
        (word whole (i + g.length + 1) more).map fun (tail, groups, after) =>
          (c :: (g ++ tail), ⟨i, i + g.length⟩ :: groups, after)
    | none =>
      if endsWord c then .ok ([], [], c :: rest)
      else (word whole (i + 1) rest).map fun (tail, found) => (c :: tail, found)
termination_by t.length
decreasing_by
  all_goals simp only [List.length_cons]
  · have := congrArg List.length (append_of_group _h)
    simp only [List.length_append] at this
    omega
  · omega

theorem append_of_word {whole t w after : Text} {i : Nat} {groups : List Group}
    (h : word whole i t = .ok (w, groups, after)) : w ++ after = t := by
  fun_induction word whole i t generalizing w groups <;>
    grind [Check.map_eq_ok_iff, append_of_group]

theorem ne_nil_of_word {whole rest w after : Text} {i : Nat} {c : Char} {groups : List Group}
    (hc : endsWord c = false) (h : word whole i (c :: rest) = .ok (w, groups, after)) : w ≠ [] := by
  rw [word] at h
  grind [Check.map_eq_ok_iff]

/-- Scans a text inside the open brackets `stack`, and notes the groups of each token. -/
def scanInside (stack : List Bracket) (t : Text) : Check (List (Text × List Group)) :=
  match t with
  | [] =>
    match stack with
    | [] => .ok []
    | b :: _ => .error (.neverClosed [b.opener])
  | c :: rest =>
    if _hc : endsWord c then
      if isQuote c then
        match _h : literal? c rest with
        | none => .error (.openLiteral c)
        | some (body, more) => (scanInside stack more).map ((c :: body, []) :: ·)
      else if isBlank c then scanInside stack rest
      else if isOperatorChar c then
        match _h : Operator.read? (c :: rest) with
        | none => .error (.noOperator c)
        | some (op, more) => (scanInside stack more).map ((op.symbol.toList, []) :: ·)
      else
        match Bracket.ofCloser? c, stack with
        | some b, top :: below =>
          if top = b then (scanInside below rest).map (([c], []) :: ·) else .error (.strayCloser c)
        | _, _ => .error (.strayCloser c)
    else
      match Bracket.ofOpener? c with
      | some .round => (scanInside (.round :: stack) rest).map (([c], []) :: ·)
      | some .curly => (scanInside (.curly :: stack) rest).map (([c], []) :: ·)
      | _ =>
        match _h : word (c :: rest) 0 (c :: rest) with
        | .error fault => .error fault
        | .ok (w, groups, more) => (scanInside stack more).map ((w, groups) :: ·)
termination_by t.length
decreasing_by
  all_goals try simp only [List.length_cons]
  · have := congrArg List.length (append_of_literal? _h)
    simp only [List.length_append] at this
    omega
  · omega
  · have := Operator.length_read?_lt _h
    simpa using this
  · omega
  · omega
  · omega
  · have hw := congrArg List.length (append_of_word _h)
    have hp := List.length_pos_iff.2 (ne_nil_of_word (by simpa using _hc) _h)
    simp only [List.length_append, List.length_cons] at hw
    omega

def scan (t : Text) : Check (List (Text × List Group)) := scanInside [] t

end Token.Grouped

/-! ### Groups of a text -/

namespace Text

open Token.Grouped (Group)

/-- The groups start at the brackets that open at depth zero, and each ends where the search for the
closing bracket, which may also go by bytes, finds its end. -/
structure HasGroups (t : Text) (groups : List Group) : Prop where
  start_iff : ∀ start, (∃ b : Bracket, (Glyph.ofText t)[start]? = some (.code b.opener) ∧
    t.depthAt start = 0) ↔ ∃ stop, ⟨start, stop⟩ ∈ groups
  stop : ∀ group ∈ groups, t.closerFrom? group.start = some group.stop
  stop_bytes : ∀ group ∈ groups,
    Offsets.closerFrom? t (t.byteOffset group.start) = some (t.byteOffset group.stop)

/-- The same, if the text ends outside literals and at depth zero, and its first character is the one
of number `i`. -/
structure GroupsFrom (i : Nat) (t : Text) (groups : List Group) : Prop where
  closed : t.IsClosed
  balance : Glyph.balance (Glyph.ofText t) = 0
  start_iff : ∀ k, (∃ b : Bracket, (Glyph.ofText t)[k]? = some (.code b.opener) ∧
    t.depthAt k = 0) ↔ ∃ stop, ⟨i + k, stop⟩ ∈ groups
  stop : ∀ group ∈ groups, ∃ k stop, group = ⟨i + k, i + stop⟩ ∧ t.closerFrom? k = some stop

theorem HasGroups.of_from {t : Text} {groups : List Group} (h : GroupsFrom 0 t groups) :
    t.HasGroups groups := by
  have hstop : ∀ group ∈ groups, t.closerFrom? group.start = some group.stop := by
    intro group hgroup
    obtain ⟨k, stop, rfl, hk⟩ := h.stop group hgroup
    rwa [Nat.zero_add, Nat.zero_add]
  refine ⟨fun start => ?_, hstop, fun group hgroup => ?_⟩
  · rw [h.start_iff, Nat.zero_add]
  · rw [Offsets.closerFrom?_byteOffset, hstop group hgroup]
    rfl

end Text

namespace Glyph

/-- What stands behind the end of the search does not matter. -/
theorem closing_append {depth k : Nat} {xs : List Glyph} (h : closing depth xs = some k)
    (ys : List Glyph) : closing depth (xs ++ ys) = some k := by
  induction xs generalizing depth k with
  | nil => cases h
  | cons g rest ih =>
    have hnext {d : Nat} (h : (closing d rest).map (· + 1) = some k) :
        (closing d (rest ++ ys)).map (· + 1) = some k := by
      obtain ⟨j, hj, rfl⟩ := Option.map_eq_some_iff.1 h
      rw [ih hj, Option.map_some]
    cases g with
    | quoted c => exact hnext h
    | code c =>
      rw [List.cons_append]
      rw [closing.eq_def] at h ⊢
      dsimp only at h ⊢
      split at h
      · next ho => exact (if_pos ho).trans (hnext h)
      · next ho =>
        rw [if_neg ho]
        split at h
        · next hc =>
          rw [if_pos hc]
          cases depth with
          | zero => cases h
          | succ outer =>
            cases outer with
            | zero => exact h
            | succ deeper => exact hnext h
        · next hc => exact (if_neg hc).trans (hnext h)

/-- No prefix of glyphs closes brackets that were not open. -/
theorem balance_take_nonneg {stack left : List Bracket} {pairs : List (Bracket × Bracket)}
    {gs : List Glyph} (h : pairs? stack gs = some (pairs, left)) (k : Nat) :
    0 ≤ stack.length + balance (gs.take k) := by
  rw [← List.take_append_drop k gs, pairs?_append] at h
  obtain ⟨⟨inner, open_⟩, hinner, -⟩ := Option.bind_eq_some_iff.1 h
  have hdepth := foldl_depthAfter_of_pairs? hinner
  rw [foldl_depthAfter] at hdepth
  omega

end Glyph

namespace Text

open Token.Grouped (Group)

theorem Closes.pairs {inside : Bool} {stack : List Bracket} {t : Text} (h : Closes inside stack t) :
    Pairs stack [] True t := by
  induction h with
  | nil => exact .nil
  | literal hq hl _ ih => exact ih.literal hq hl
  | opener b _ ih => exact ih.opener
  | closer b _ ih => exact ih.closer_same
  | plain hc _ _ ih =>
    obtain ⟨hq, ho, hcl⟩ := isFlat_singleton_iff.1 hc
    exact ih.cons hq ho hcl

theorem Closes.balance {inside : Bool} {t : Text} (h : Closes inside [] t) :
    Glyph.balance (Glyph.ofText t) = 0 := by
  obtain ⟨pairs, hrun, -⟩ := h.pairs.run
  have hdepth := Glyph.foldl_depthAfter_of_pairs? hrun
  rw [Glyph.foldl_depthAfter] at hdepth
  exact Int.add_left_cancel (hdepth.trans (Int.add_zero 0).symm)

namespace GroupsFrom

variable {i : Nat} {t u : Text} {groups more : List Group}

/-- A group starts inside of the text. -/
theorem start_lt (h : GroupsFrom i t groups) {start stop : Nat} (hm : ⟨start, stop⟩ ∈ groups) :
    i ≤ start ∧ start < i + t.length := by
  obtain ⟨k, stop', heq, hk⟩ := h.stop _ hm
  cases Group.mk.inj heq
  have hstart := Offsets.lt_of_closerFrom? hk
  have hstop := closerFrom?_lt_length hk
  omega

theorem append (ht : GroupsFrom i t groups) (hu : GroupsFrom (i + t.length) u more) :
    GroupsFrom i (t ++ u) (groups ++ more) := by
  have hlength := Glyph.length_ofText t
  refine ⟨ht.closed.append hu.closed, ?_, fun k => ?_, fun group hgroup => ?_⟩
  · rw [ht.closed, Glyph.balance_append, ht.balance, hu.balance, Int.add_zero]
  · rw [depthAt, ht.closed]
    by_cases hk : k < t.length
    · have hmem (stop : Nat) : (⟨i + k, stop⟩ : Group) ∈ groups ++ more ↔ ⟨i + k, stop⟩ ∈ groups := by
        rw [List.mem_append, or_iff_left fun hm => absurd (hu.start_lt hm).1 (by omega)]
      simp only [hmem]
      rw [List.take_append_of_le_length (by omega), ← depthAt]
      simp only [List.getElem?_append_left (hlength ▸ hk)]
      exact ht.start_iff k
    · obtain ⟨j, rfl⟩ := Nat.exists_eq_add_of_le (Nat.not_lt.1 hk)
      have hmem (stop : Nat) : (⟨i + (t.length + j), stop⟩ : Group) ∈ groups ++ more ↔
          ⟨i + t.length + j, stop⟩ ∈ more := by
        rw [List.mem_append, or_iff_right fun hm => absurd (ht.start_lt hm).2 (by omega), Nat.add_assoc]
      have hdepth : Glyph.balance ((Glyph.ofText t ++ Glyph.ofText u).take (t.length + j)) =
          u.depthAt j := by
        rw [← hlength, List.take_length_add_append, Glyph.balance_append, ht.balance, Int.zero_add,
          depthAt]
      have hget : (Glyph.ofText t ++ Glyph.ofText u)[t.length + j]? = (Glyph.ofText u)[j]? := by
        rw [← hlength, List.getElem?_append_right (Nat.le_add_right _ _), Nat.add_sub_cancel_left]
      simp only [hmem, hdepth, hget]
      exact hu.start_iff j
  · rcases List.mem_append.1 hgroup with hm | hm
    · have hstart := (ht.start_lt hm).2
      obtain ⟨k, stop, rfl, hk⟩ := ht.stop group hm
      refine ⟨k, stop, rfl, ?_⟩
      obtain ⟨j, hj, rfl⟩ := Option.map_eq_some_iff.1 hk
      rw [closerFrom?, ht.closed, List.drop_append_of_le_length (by dsimp only at hstart; omega),
        Glyph.closing_append hj, Option.map_some]
    · obtain ⟨k, stop, rfl, hk⟩ := hu.stop group hm
      refine ⟨t.length + k, t.length + stop, by rw [Nat.add_assoc, Nat.add_assoc], ?_⟩
      obtain ⟨j, hj, rfl⟩ := Option.map_eq_some_iff.1 hk
      rw [closerFrom?, ht.closed, ← hlength, ← List.drop_drop, List.drop_left, hj, Option.map_some,
        Nat.add_assoc]

/-- A text in which no bracket opens has no groups. -/
theorem of_no_openers (hclosed : t.IsClosed) (hbalance : Glyph.balance (Glyph.ofText t) = 0)
    (h : ∀ b : Bracket, .code b.opener ∉ Glyph.ofText t) : GroupsFrom i t [] :=
  ⟨hclosed, hbalance, fun _ => iff_of_false (fun ⟨b, hb, _⟩ => h b (List.mem_of_getElem? hb)) nofun,
    nofun⟩

theorem nil (i : Nat) : GroupsFrom i [] [] := .of_no_openers .nil rfl fun _ => nofun

theorem plain {c : Char} (hc : isFlat [c]) (i : Nat) : GroupsFrom i [c] [] := by
  obtain ⟨hq, ho, -⟩ := isFlat_singleton_iff.1 hc
  refine .of_no_openers ((IsClosed.cons_iff hq).2 .nil) (Glyph.balance_of_flat hc) fun b hb => ?_
  rw [Pairs.ofText_cons hq, Glyph.ofText, Glyph.read, List.mem_singleton] at hb
  cases hb
  cases ho.symm.trans (Bracket.ofOpener?_eq_some_iff.2 rfl)

theorem cons {c : Char} (hc : isFlat [c]) (h : GroupsFrom (i + 1) t groups) :
    GroupsFrom i (c :: t) groups := (plain hc i).append h

/-- Inside of a group the depth is not zero. -/
theorem group (h : Closes true [] t) (b : Bracket) (i : Nat) :
    GroupsFrom i (b.opener :: (t ++ [b.closer])) [⟨i, i + (t.length + 1)⟩] := by
  have hgroup : Closes true [] (b.opener :: (t ++ [b.closer])) := h.group b
  have hread : Glyph.ofText (b.opener :: (t ++ [b.closer])) =
      .code b.opener :: (Glyph.ofText t ++ [.code b.closer]) := by
    rw [Pairs.ofText_opener, h.isClosed, Pairs.ofText_closer]
    rfl
  refine ⟨hgroup.isClosed, hgroup.balance, fun k => ⟨?_, ?_⟩, ?_⟩
  · rintro ⟨b', hb', hdepth⟩
    cases k with
    | zero => exact ⟨_, List.mem_singleton.2 rfl⟩
    | succ j =>
      have hlt := (List.getElem?_eq_some_iff.1 hb').1
      rw [hread, List.length_cons, List.length_append, List.length_singleton] at hlt
      have hopen : Glyph.balance [.code b.opener] = 1 := by cases b <;> rfl
      obtain ⟨pairs, hrun, -⟩ := h.pairs.run
      have hinner := Glyph.balance_take_nonneg hrun j
      rw [depthAt, hread, List.take_succ_cons, List.take_append_of_le_length (by omega),
        ← List.singleton_append, Glyph.balance_append, hopen] at hdepth
      rw [List.length_nil] at hinner
      omega
  · rintro ⟨stop, hm⟩
    cases Group.mk.inj (List.mem_singleton.1 hm)
    obtain rfl : k = 0 := by omega
    exact ⟨b, by rw [hread]; rfl, rfl⟩
  · intro group hm
    rw [List.mem_singleton] at hm
    refine ⟨0, t.length + 1, hm, ?_⟩
    rw [closerFrom?, List.drop_zero, h.closing_group b [], Option.map_some, Nat.zero_add]

end GroupsFrom

end Text

/-! ### Groups of scanned tokens -/

namespace Token.Grouped

open Text (GroupsFrom HasGroups)

/-- What the scanner takes as a word is taken here too, and its groups are noted. -/
theorem exists_groups_of_word {whole t w after : Text} {i : Nat}
    (h : Token.word whole t = .ok (w, after)) :
    ∃ groups, word whole i t = .ok (w, groups, after) ∧ GroupsFrom i w groups := by
  fun_induction Token.word whole t generalizing w i with
  | case1 =>
    cases h
    exact ⟨[], by rw [word.eq_def], .nil i⟩
  | case2 => cases h
  | case3 c rest b hb g more hg ih =>
    obtain ⟨⟨tail, behind⟩, ht, heq⟩ := Check.map_eq_ok_iff.1 h
    cases heq
    obtain rfl := Bracket.ofOpener?_eq_some_iff.1 hb
    obtain ⟨inside, rfl, hclosed⟩ := exists_inside_of_group hg (List.nil_append [b]).symm
    obtain ⟨groups, hword, htail⟩ := ih (i := i + (inside ++ [b.closer]).length + 1) ht
    have hlength : (inside ++ [b.closer]).length = inside.length + 1 := List.length_append
    refine ⟨⟨i, i + (inside.length + 1)⟩ :: groups, ?_, ?_⟩
    · rw [word.eq_def]
      simp only [hb]
      split
      · next herror => cases hg.symm.trans herror
      · next hok =>
        cases hg.symm.trans hok
        rw [hword, hlength]
        rfl
    · exact (GroupsFrom.group hclosed b i).append htail
  | case4 c rest ho hc =>
    cases h
    refine ⟨[], ?_, .nil i⟩
    rw [word.eq_def]
    simp only [ho, if_pos hc]
  | case5 c rest ho hc ih =>
    obtain ⟨⟨tail, behind⟩, ht, heq⟩ := Check.map_eq_ok_iff.1 h
    cases heq
    have hflat := Text.isFlat_of_not_endsWord ho hc
    obtain ⟨groups, hword, hgroups⟩ := ih (i := i + 1) ht
    refine ⟨groups, ?_, hgroups.cons hflat⟩
    rw [word.eq_def]
    simp only [ho, if_neg hc, hword]
    rfl

/-- A literal and a closing bracket have no groups. -/
theorem hasGroups_nil {t : Text} (h : ∀ b : Bracket, .code b.opener ∉ Glyph.ofText t) :
    t.HasGroups [] where
  start_iff _ := iff_of_false (fun ⟨b, hb, _⟩ => h b (List.mem_of_getElem? hb)) nofun
  stop := nofun
  stop_bytes := nofun

/-- A token of a value has the groups that were noted. -/
def IsNoted (x : Text × List Group) : Prop := classify x.1 = .value → x.1.HasGroups x.2

theorem isNoted_literal {c : Char} {rest body more : Text} (hq : isQuote c)
    (hl : literal? c rest = some (body, more)) : IsNoted (c :: body, []) := by
  intro _
  have hread := Text.IsClosed.ofText_literal hq (literal?_body hl) []
  rw [List.append_nil] at hread
  refine hasGroups_nil fun b hb => ?_
  rw [hread] at hb
  simp [Glyph.ofText, Glyph.read] at hb

theorem isNoted_operator (op : Operator) : IsNoted (op.symbol.toList, []) := by
  intro hvalue
  cases op <;> cases hvalue

theorem isNoted_closer (b : Bracket) : IsNoted ([b.closer], []) := by
  refine fun _ => hasGroups_nil fun b' hb' => ?_
  rw [Text.Pairs.ofText_closer, Glyph.ofText, Glyph.read, List.mem_singleton,
    Glyph.code.injEq] at hb'
  cases b <;> cases b' <;> cases hb'

/-- The rest of a text is scanned to `tokens`, of which the groups are noted. -/
def Notes (stack : List Bracket) (t : Text) (tokens : List Text) : Prop :=
  ∃ noted, scanInside stack t = .ok noted ∧ noted.map Prod.fst = tokens ∧ ∀ x ∈ noted, IsNoted x

theorem Notes.cons {stack inner : List Bracket} {t more token : Text} {groups : List Group}
    {tokens : List Text} (h : Notes inner more tokens) (htoken : IsNoted (token, groups))
    (hscan : scanInside stack t = (scanInside inner more).map ((token, groups) :: ·)) :
    Notes stack t (token :: tokens) := by
  obtain ⟨noted, hmore, rfl, hnoted⟩ := h
  exact ⟨(token, groups) :: noted, by rw [hscan, hmore]; rfl, rfl,
    List.forall_mem_cons.2 ⟨htoken, hnoted⟩⟩

/-- The scanner's tokens are found here too, and their groups are noted. -/
theorem notes_of_scanInside {t : Text} {tokens : List Text} {stack : List Bracket}
    (h : Token.scanInside stack t = .ok tokens) : Notes stack t tokens := by
  fun_induction Token.scanInside stack t generalizing tokens with
  | case1 =>
    cases h
    exact ⟨[], by rw [scanInside.eq_def], rfl, List.forall_mem_nil _⟩
  | case2 | case3 | case6 | case9 | case10 | case13 => cases h
  | case4 stack c rest hc hq body more hl ih =>
    obtain ⟨ts, hts, rfl⟩ := Check.map_eq_ok_iff.1 h
    refine (ih hts).cons (isNoted_literal hq hl) ?_
    rw [scanInside.eq_def]
    simp only [dif_pos hc, if_pos hq]
    split
    · next hnone => cases hl.symm.trans hnone
    · next hsome =>
      cases hl.symm.trans hsome
      rfl
  | case5 stack c rest hc hq hb ih =>
    obtain ⟨noted, hscan, hrest⟩ := ih h
    refine ⟨noted, ?_, hrest⟩
    rw [scanInside.eq_def]
    simp only [dif_pos hc, if_neg hq, if_pos hb, hscan]
  | case7 stack c rest hc hq hb ho op more hr ih =>
    obtain ⟨ts, hts, rfl⟩ := Check.map_eq_ok_iff.1 h
    refine (ih hts).cons (isNoted_operator op) ?_
    rw [scanInside.eq_def]
    simp only [dif_pos hc, if_neg hq, if_neg hb, if_pos ho]
    split
    · next hnone => cases hr.symm.trans hnone
    · next hsome =>
      cases hr.symm.trans hsome
      rfl
  | case8 c rest hc hq hb ho b below hcl ih =>
    obtain ⟨ts, hts, rfl⟩ := Check.map_eq_ok_iff.1 h
    refine (ih hts).cons (Bracket.ofCloser?_eq_some_iff.1 hcl ▸ isNoted_closer b) ?_
    rw [scanInside.eq_def]
    simp only [dif_pos hc, if_neg hq, if_neg hb, if_neg ho, hcl, if_true]
  | case11 stack c rest hc hb ih | case12 stack c rest hc hb ih =>
    obtain ⟨ts, hts, rfl⟩ := Check.map_eq_ok_iff.1 h
    have hopener : IsNoted ([c], []) := by
      intro hvalue
      rw [Bracket.ofOpener?_eq_some_iff.1 hb] at hvalue
      cases hvalue
    refine (ih hts).cons hopener ?_
    rw [scanInside.eq_def]
    simp only [dif_neg hc, hb]
  | case14 stack c rest hc w more hw hround hcurly ih =>
    obtain ⟨ts, hts, rfl⟩ := Check.map_eq_ok_iff.1 h
    obtain ⟨groups, hword, hgroups⟩ := exists_groups_of_word (i := 0) hw
    refine (ih hts).cons (fun _ => .of_from hgroups) ?_
    rw [scanInside.eq_def]
    simp only [dif_neg hc]
    split
    · next herror => cases hword.symm.trans herror
    · next hok =>
      cases hword.symm.trans hok
      rfl

end Token.Grouped

/-! ### Calls -/

/-- What is wrong with the arguments of a call is not that the call itself is malformed. -/
theorem Expression.raises_callWith (symbols : Symbols) (name : Name) (inner : Text) :
    Check.Raises (Fault.FitsIn inner.length) (callWith symbols name inner) := by
  refine .bind (raises_callee name) fun s => .bind ?_ fun _ => .ok _
  unfold Text.readParts
  split
  · exact .error trivial
  refine .mapM fun ((p, text), position) hmem => ?_
  have hzip := List.fst_mem_of_mem_zipIdx hmem
  have htext : text.length ≤ inner.length :=
    Text.length_le_of_mem_topLevelParts (List.of_mem_zip hzip).2
  refine Check.Raises.imp (raises_argument ?_ fun type => ?_) fun _ h => h.mono htext
  · exact raises_expression symbols text
  · exact raises_aggregate symbols type text

/-- In every token of a value the groups that the scanner took are those that are found by searching
for closing brackets. A name and a single group behind it are a call with the arguments in the group,
which is never malformed. -/
theorem Token.groups_of_scan {t : Text} {tokens : List Text} (h : scan t = .ok tokens) :
    ∃ noted, Grouped.scan t = .ok noted ∧ noted.map Prod.fst = tokens ∧
      ∀ token groups, (token, groups) ∈ noted → classify token = .value →
        token.HasGroups groups ∧
        ∀ start stop, groups = [⟨start, stop⟩] → Name.isIdentifier (token.take start) →
          token[start]? = some '(' → stop + 1 = token.length → ∀ symbols,
            call symbols token =
              Expression.callWith symbols (token.take start) ((token.take stop).drop (start + 1)) ∧
            call symbols token ≠ .error (.malformedCall token) := by
  obtain ⟨noted, hscan, htokens, hnoted⟩ := Grouped.notes_of_scanInside h
  refine ⟨noted, hscan, htokens, fun token groups hmem hvalue => ?_⟩
  have hgroups : token.HasGroups groups := hnoted (token, groups) hmem hvalue
  refine ⟨hgroups, fun start stop heq hname hopen hlast symbols => ?_⟩
  have hstop : token.closerFrom? start = some stop := hgroups.stop ⟨start, stop⟩ (by simp [heq])
  obtain ⟨hstart, hchar⟩ := List.getElem?_eq_some_iff.1 hopen
  have hcut : token.take start ++ '(' :: token.drop (start + 1) = token := by
    rw [← hchar, List.getElem_cons_drop, List.take_append_drop]
  have htake := Expression.takeWhile_name (u := '(' :: token.drop (start + 1)) hname (c := '(')
    (by decide) fun d hd => (Option.some.inj hd).symm
  rw [hcut] at htake
  have hlength : (token.take start).length = start := List.length_take_of_le hstart.le
  have hinside : token.inside? (token.take start).length =
      some ((token.take stop).drop (start + 1)) := by
    rw [hlength, Text.inside?, if_pos (by rw [hstop]; congr 1; omega), List.dropLast_eq_take,
      List.drop_take, List.length_drop]
    congr 2
    omega
  have hcall : call symbols token = Expression.callWith symbols (token.take start)
      ((token.take stop).drop (start + 1)) := Expression.call_of_inside? htake hinside
  refine ⟨hcall, fun herror => ?_⟩
  have hfits := Expression.raises_callWith _ _ _ _ (hcall.symm.trans herror)
  have hshort : token.length ≤ ((token.take stop).drop (start + 1)).length := hfits
  rw [List.length_drop, List.length_take] at hshort
  omega

theorem Token.groups_of_scan_call :
    Grouped.scan "n + f(a[1], \")\")".toList =
        .ok [(['n'], []), (['+'], []), ("f(a[1], \")\")".toList, [⟨1, 11⟩])] ∧
      Text.HasGroups "f(a[1], \")\")".toList [⟨1, 11⟩] ∧
      ∀ symbols, call symbols "f(a[1], \")\")".toList =
          Expression.callWith symbols ['f'] "a[1], \")\"".toList ∧
        call symbols "f(a[1], \")\")".toList ≠
          .error (.malformedCall "f(a[1], \")\")".toList) := by
  have htokens : scan "n + f(a[1], \")\")".toList =
      .ok [['n'], ['+'], "f(a[1], \")\")".toList] :=
    Check.toOption_eq_some_iff.1 (by decide +kernel)
  have hnoted : Grouped.scan "n + f(a[1], \")\")".toList =
      .ok [(['n'], []), (['+'], []), ("f(a[1], \")\")".toList, [⟨1, 11⟩])] :=
    Check.toOption_eq_some_iff.1 (by decide +kernel)
  obtain ⟨noted, hscan, -, hgroups⟩ := groups_of_scan htokens
  cases hnoted.symm.trans hscan
  obtain ⟨hhas, hcall⟩ := hgroups "f(a[1], \")\")".toList [⟨1, 11⟩] (by decide +kernel) (by decide +kernel)
  exact ⟨hnoted, hhas, hcall 1 11 rfl (by decide +kernel) (by decide +kernel) (by decide +kernel)⟩

end StellaGo
