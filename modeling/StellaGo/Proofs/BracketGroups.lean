import StellaGo.Proofs.Brackets

/-! Groups in brackets. Defined here: the bracketed groups of a text whose ends are found by counting
brackets of all kinds together. Proved: what stands in such a group closes no bracket around it, and
the brackets in a text of such groups close their own kind just if each group ends with the bracket
for the one that it starts with. -/

namespace StellaGo

namespace Glyph

/-- In front of a character of program text the literals have ended. -/
theorem exists_append_of_read {open? : Option Char} {t : Text} {before after : List Glyph} {c : Char}
    (h : read open? t = before ++ code c :: after) :
    ∃ front behind, t = front ++ c :: behind ∧ ¬ isQuote c ∧
      (∀ u, read open? (front ++ u) = before ++ read none u) ∧ read none behind = after := by
  fun_induction read open? t generalizing before with
  | case1 => exact absurd h (by simp)
  | case2 d rest hd ih =>
    cases before with
    | nil => cases h
    | cons g before =>
      obtain ⟨rfl, hrest⟩ := List.cons.inj h
      obtain ⟨front, behind, rfl, hc, hfront, hbehind⟩ := ih hrest
      exact ⟨d :: front, behind, rfl, hc, fun u => by simp [read, hd, hfront], hbehind⟩
  | case3 d rest hd ih =>
    cases before with
    | nil =>
      cases h
      exact ⟨[], rest, rfl, hd, fun _ => rfl, rfl⟩
    | cons g before =>
      obtain ⟨rfl, hrest⟩ := List.cons.inj h
      obtain ⟨front, behind, rfl, hc, hfront, hbehind⟩ := ih hrest
      exact ⟨d :: front, behind, rfl, hc, fun u => by simp [read, hd, hfront], hbehind⟩
  | case4 quote d rest ih =>
    cases before with
    | nil => cases h
    | cons g before =>
      cases before with
      | nil => cases h
      | cons g' before =>
        obtain ⟨rfl, hmore⟩ := List.cons.inj h
        obtain ⟨rfl, hrest⟩ := List.cons.inj hmore
        obtain ⟨front, behind, rfl, hc, hfront, hbehind⟩ := ih hrest
        exact ⟨'\\' :: d :: front, behind, rfl, hc, fun u => by simp [read, hfront], hbehind⟩
  | case5 quote d rest hback ih =>
    cases before with
    | nil => cases h
    | cons g before =>
      obtain ⟨rfl, hrest⟩ := List.cons.inj h
      obtain ⟨front, behind, rfl, hc, hfront, hbehind⟩ := ih hrest
      have hd : d ≠ '\\' := by
        rintro rfl
        obtain ⟨e, more, hmore⟩ := List.exists_cons_of_ne_nil
          (List.append_ne_nil_of_right_ne_nil front (List.cons_ne_nil c behind))
        exact hback e more rfl hmore
      refine ⟨d :: front, behind, rfl, hc, fun u => ?_, hbehind⟩
      rw [List.cons_append, Text.Pairs.read_some_cons hd, hfront, List.cons_append]

/-- Counting from one more open bracket than there are, the search for the end comes to a closing
bracket, and in front of it just the others are closed. -/
theorem exists_pairs?_of_closing {stack : List Bracket} {gs : List Glyph} {k : Nat}
    (h : closing (stack.length + 1) gs = some k) :
    ∃ before c after pairs, gs = before ++ code (Bracket.closer c) :: after ∧ before.length = k ∧
      pairs? stack before = some (pairs, []) := by
  induction gs generalizing stack k with
  | nil => cases h
  | cons g rest ih =>
    cases g with
    | quoted d =>
      obtain ⟨i, hi, rfl⟩ := Option.map_eq_some_iff.1 h
      obtain ⟨before, c, after, pairs, rfl, hlength, hpairs⟩ := ih hi
      exact ⟨quoted d :: before, c, after, pairs, rfl, by simp [hlength], hpairs⟩
    | code d =>
      rw [closing.eq_def] at h
      dsimp only at h
      split at h
      · next ho =>
        obtain ⟨o, ho⟩ := Option.isSome_iff_exists.1 ho
        obtain rfl := Bracket.ofOpener?_eq_some_iff.1 ho
        obtain ⟨i, hi, rfl⟩ := Option.map_eq_some_iff.1 h
        rw [← List.length_cons (a := o)] at hi
        obtain ⟨before, c, after, pairs, rfl, hlength, hpairs⟩ := ih hi
        refine ⟨code o.opener :: before, c, after, pairs, rfl, by simp [hlength], ?_⟩
        rw [pairs?_opener]
        exact hpairs
      · next ho =>
        split at h
        · next hc =>
          obtain ⟨e, he⟩ := Option.isSome_iff_exists.1 hc
          obtain rfl := Bracket.ofCloser?_eq_some_iff.1 he
          cases stack with
          | nil =>
            cases h
            exact ⟨[], e, rest, [], rfl, rfl, rfl⟩
          | cons top below =>
            obtain ⟨i, hi, rfl⟩ := Option.map_eq_some_iff.1 h
            obtain ⟨before, c, after, pairs, rfl, hlength, hpairs⟩ := ih hi
            refine ⟨code e.closer :: before, c, after, (top, e) :: pairs, rfl, by simp [hlength], ?_⟩
            rw [pairs?_closer, hpairs]
            rfl
        · next hc =>
          rw [isOpener, Bool.not_eq_true, Option.isSome_eq_false_iff, Option.isNone_iff_eq_none] at ho
          rw [isCloser, Bool.not_eq_true, Option.isSome_eq_false_iff, Option.isNone_iff_eq_none] at hc
          obtain ⟨i, hi, rfl⟩ := Option.map_eq_some_iff.1 h
          obtain ⟨before, c, after, pairs, rfl, hlength, hpairs⟩ := ih hi
          refine ⟨code d :: before, c, after, pairs, rfl, by simp [hlength], ?_⟩
          rw [pairs?_code ho hc]
          exact hpairs

/-- The counted depth is the number of open brackets. -/
theorem foldl_depthAfter_of_pairs? {stack left : List Bracket} {pairs : List (Bracket × Bracket)}
    {gs : List Glyph} (h : pairs? stack gs = some (pairs, left)) :
    gs.foldl depthAfter (stack.length : Int) = left.length := by
  fun_induction pairs? stack gs generalizing pairs with
  | case1 =>
    cases h
    rfl
  | case2 _ _ _ ih => exact ih h
  | case3 stack c rest b hb ih =>
    rw [List.foldl_cons, depthAfter, isOpener, hb, ← ih h]
    rfl
  | case4 c rest b top below hb ho ih =>
    obtain ⟨⟨inner, last⟩, hinner, heq⟩ := Option.map_eq_some_iff.1 h
    cases heq
    have hdepth : ((top :: below).length : Int) - 1 = below.length := by simp
    rw [List.foldl_cons, depthAfter, isOpener, isCloser, ho, hb, ← ih hinner, ← hdepth]
    rfl
  | case5 => cases h
  | case6 stack c rest hc ho ih =>
    rw [List.foldl_cons, depthAfter, isOpener, isCloser, ho, hc, ← ih h]
    rfl

theorem exists_pieces_eq_cons (sep : Char) (depth : Int) (gs : List Glyph) :
    ∃ first others, pieces sep depth gs = first :: others := by
  fun_induction pieces sep depth gs with
  | case1 => exact ⟨[], [], rfl⟩
  | case2 depth g rest => exact ⟨[], _, rfl⟩
  | case3 depth g rest _ ih =>
    obtain ⟨first, others, heq⟩ := ih
    exact ⟨g.char :: first, others, by rw [heq, List.modifyHead_cons]⟩

theorem eq_code_of_separates {sep : Char} {g : Glyph} (h : g.separates sep) : g = code sep := by
  cases g with
  | quoted c => cases h
  | code c =>
    simp only [separates, Bool.and_eq_true, beq_iff_eq] at h
    rw [h.1.1]

theorem intercalate_pieces (sep : Char) (depth : Int) (gs : List Glyph) :
    List.intercalate [sep] (pieces sep depth gs) = gs.map char := by
  induction gs generalizing depth with
  | nil => rfl
  | cons g rest ih =>
    rw [pieces]
    split
    · next hsep =>
      obtain ⟨first, others, heq⟩ := exists_pieces_eq_cons sep depth rest
      obtain rfl := eq_code_of_separates (Bool.and_eq_true _ _ ▸ hsep).1
      have hrest := ih depth
      rw [heq] at hrest ⊢
      rw [List.intercalate_cons_cons, hrest]
      rfl
    · obtain ⟨first, others, heq⟩ := exists_pieces_eq_cons sep (g.depthAfter depth) rest
      have hrest := ih (g.depthAfter depth)
      rw [heq] at hrest ⊢
      rw [List.modifyHead_cons, List.map_cons, ← hrest]
      cases others with
      | nil => rfl
      | cons next more => rw [List.intercalate_cons_cons, List.intercalate_cons_cons]; rfl

/-- In front of the first separator stands the first of the pieces. -/
theorem exists_separator_of_pieces {sep : Char} {depth : Int} {gs : List Glyph} {first : Text}
    {others : List Text} (h : pieces sep depth gs = first :: others) (hne : others ≠ []) :
    ∃ before after, gs = before ++ code sep :: after ∧ first = before.map char ∧
      before.foldl depthAfter depth = 0 ∧ pieces sep 0 after = others := by
  induction gs generalizing depth first with
  | nil =>
    cases h
    exact absurd rfl hne
  | cons g rest ih =>
    rw [pieces] at h
    split at h
    · next hsep =>
      cases h
      obtain ⟨hsep, hdepth⟩ := Bool.and_eq_true _ _ ▸ hsep
      obtain rfl := eq_code_of_separates hsep
      obtain rfl := beq_iff_eq.1 hdepth
      exact ⟨[], rest, rfl, rfl, rfl, rfl⟩
    · obtain ⟨first', others', heq⟩ := exists_pieces_eq_cons sep (g.depthAfter depth) rest
      rw [heq, List.modifyHead_cons] at h
      cases h
      obtain ⟨before, after, rfl, rfl, hdepth, hafter⟩ := ih heq
      exact ⟨g :: before, after, rfl, rfl, hdepth, hafter⟩

theorem squareInsides?_eq_some_nil {gs : List Glyph} (h : squareInsides? gs = some []) : gs = [] := by
  rw [squareInsides?.eq_def] at h
  split at h
  · rfl
  split at h
  · split at h
    · obtain ⟨others, -, heq⟩ := Option.map_eq_some_iff.1 h
      cases heq
    · cases h
  · cases h

end Glyph

/-! ### Balanced texts -/

namespace Text

variable {t u : Text}

/-- The text closes the brackets that it opens and no others, all kinds counted alike. -/
def Balanced (t : Text) : Prop := ∃ same, Pairs [] [] same t

/-- The text closes the brackets that it opens, each with its own kind, and no others. -/
def Matched (t : Text) : Prop := Pairs [] [] True t

theorem Matched.balanced (h : t.Matched) : t.Balanced := ⟨True, h⟩

theorem matched_iff {same : Prop} (h : Pairs [] [] same t) : t.Matched ↔ same :=
  ⟨fun hmatched => (h.run.same_iff hmatched.run).2 trivial, fun hsame =>
    h.congr (iff_true_intro hsame)⟩

theorem Balanced.pairs (h : t.Balanced) : Pairs [] [] t.Matched t := by
  obtain ⟨same, h⟩ := h
  exact h.congr (matched_iff h).symm

/-- What stands behind a balanced text. -/
theorem Matched.of_append (ht : t.Balanced) (h : Matched (t ++ u)) : t.Matched ∧ u.Matched := by
  obtain ⟨same, hpairs⟩ := ht
  obtain ⟨front, hfront, -⟩ := hpairs.run
  obtain ⟨pairs, hrun, hsame⟩ := h.run
  rw [hpairs.ends, Glyph.pairs?_append, hfront] at hrun
  obtain ⟨⟨behind, left⟩, hbehind, heq⟩ := Option.map_eq_some_iff.1 hrun
  cases heq
  obtain ⟨hsameFront, hsameBehind⟩ := List.forall_mem_append.1 (hsame.2 trivial)
  refine ⟨⟨hpairs.ends, front, hfront, iff_true_intro hsameFront⟩,
    fun rest => ?_, behind, hbehind, iff_true_intro hsameBehind⟩
  have hends := h.ends rest
  rw [List.append_assoc, hpairs.ends, hpairs.ends, List.append_assoc] at hends
  exact List.append_cancel_left hends

/-! ### Groups -/

/-- The text ends with the bracket for the one that it starts with. -/
def ClosesInKind (t : Text) : Prop := t.getLast? = t.head?.map closerFor

theorem closesInKind_iff {inner : Text} {b c : Bracket} :
    ClosesInKind (b.opener :: (inner ++ [c.closer])) ↔ b = c := by
  rw [ClosesInKind, List.head?_cons, ← List.cons_append, List.getLast?_concat]
  cases b <;> cases c <;> decide

/-- A balanced text in brackets. -/
theorem Balanced.group {inner : Text} (h : inner.Balanced) (b c : Bracket) :
    Pairs [] [] (inner.Matched ∧ ClosesInKind (b.opener :: (inner ++ [c.closer])))
      (b.opener :: (inner ++ [c.closer])) := by
  have hcloser : Pairs [b] [] (b = c ∧ True) [c.closer] := .closer .nil
  refine .opener (((h.pairs.keep [b]).append hcloser).congr ?_)
  rw [closesInKind_iff, and_true]

/-- The group that starts with the first character of a text. -/
theorem exists_group_of_closerFrom? {b : Bracket} {rest : Text} {k : Nat}
    (h : closerFrom? (b.opener :: rest) 0 = some k) :
    ∃ inner c behind, rest = inner ++ Bracket.closer c :: behind ∧ inner.length + 1 = k ∧
      inner.Balanced := by
  obtain ⟨j, hj, rfl⟩ := Option.map_eq_some_iff.1 h
  have hopener : isOpener b.opener := by cases b <;> rfl
  rw [List.drop_zero, Pairs.ofText_opener, Glyph.closing, if_pos hopener] at hj
  obtain ⟨i, hi, rfl⟩ := Option.map_eq_some_iff.1 hj
  have hopen : Glyph.closing (([] : List Bracket).length + 1) (Glyph.ofText rest) = some i := hi
  obtain ⟨before, c, after, pairs, hglyphs, rfl, hpairs⟩ := Glyph.exists_pairs?_of_closing hopen
  obtain ⟨inner, behind, rfl, -, hinner, -⟩ := Glyph.exists_append_of_read hglyphs
  have hbefore : Glyph.ofText inner = before := by simpa [Glyph.ofText, Glyph.read] using hinner []
  have hlength : inner.length = before.length := by rw [← hbefore, Glyph.length_ofText]
  refine ⟨inner, c, behind, rfl, by omega, _, fun u => ?_, pairs, by rw [hbefore, hpairs], Iff.rfl⟩
  rw [hbefore]
  exact hinner u

theorem exists_opener_of_head? (h : t.head?.any isOpener) : ∃ b rest, t = Bracket.opener b :: rest := by
  cases t with
  | nil => cases h
  | cons c rest =>
    obtain ⟨b, hb⟩ := Option.isSome_iff_exists.1 h
    exact ⟨b, rest, by rw [Bracket.ofOpener?_eq_some_iff.1 hb]⟩

/-- A text in brackets that close each other. -/
theorem exists_closer_of_inside? {b : Bracket} {rest inner : Text}
    (h : inside? (b.opener :: rest) 0 = some inner) :
    ∃ c, rest = inner ++ [Bracket.closer c] ∧ inner.Balanced := by
  rw [inside?] at h
  split at h
  · next hend =>
    obtain ⟨inner', c, behind, rfl, hlength, hbalanced⟩ := exists_group_of_closerFrom? hend
    obtain rfl : behind = [] := by
      rw [← List.length_eq_zero_iff]
      simp only [List.length_cons, List.length_append] at hlength
      omega
    have hinner : (inner' ++ [c.closer]).dropLast = inner := Option.some.inj h
    rw [List.dropLast_concat] at hinner
    exact ⟨c, by rw [hinner], hinner ▸ hbalanced⟩
  · cases h

/-! ### Parts between separators -/

theorem isFlat_comma : isFlat [','] := rfl

/-- Texts between commas close their brackets if the whole does. -/
theorem Matched.of_mem_pieces {pieces : List Text} (h : t.Matched)
    (hp : Glyph.pieces ',' 0 (Glyph.ofText t) = pieces) : ∀ piece ∈ pieces, piece.Matched := by
  induction pieces generalizing t with
  | nil => nofun
  | cons first others ih =>
    rcases eq_or_ne others [] with rfl | hne
    · have hwhole := Glyph.intercalate_pieces ',' 0 (Glyph.ofText t)
      rw [hp, List.intercalate_singleton, Glyph.map_char_ofText] at hwhole
      rw [hwhole]
      exact List.forall_mem_singleton.2 h
    · obtain ⟨before, after, hglyphs, rfl, hdepth, hafter⟩ := Glyph.exists_separator_of_pieces hp hne
      obtain ⟨front, behind, rfl, -, hfront, rfl⟩ := Glyph.exists_append_of_read hglyphs
      have hbefore : Glyph.ofText front = before := by
        simpa [Glyph.ofText, Glyph.read] using hfront []
      rw [← hbefore, Glyph.map_char_ofText]
      obtain ⟨pairs, hrun, -⟩ := h.run
      rw [hglyphs, Glyph.pairs?_append] at hrun
      obtain ⟨⟨inner, left⟩, hinner, hrun⟩ := Option.bind_eq_some_iff.1 hrun
      -- the separator stands where no bracket is open
      obtain rfl : left = [] := by
        have hleft : before.foldl Glyph.depthAfter 0 = left.length :=
          Glyph.foldl_depthAfter_of_pairs? hinner
        rw [← List.length_eq_zero_iff]
        omega
      have hbalanced : front.Balanced := by
        refine ⟨_, fun u => ?_, inner, by rw [hbefore, hinner], Iff.rfl⟩
        rw [hbefore]
        exact hfront u
      obtain ⟨hfirst, hrest⟩ := h.of_append hbalanced
      have hcomma : Balanced [','] := ⟨True, .of_flat isFlat_comma⟩
      exact List.forall_mem_cons.2 ⟨hfirst, ih (Matched.of_append hcomma hrest).2 hafter⟩

/-- A part is trimmed, and the text goes on behind it with blanks. -/
theorem Matched.exists_of_mem_topLevelParts {part : Text} (h : t.Matched)
    (hpart : part ∈ t.topLevelParts ',') : ∃ behind, Matched (part ++ behind) := by
  rw [topLevelParts] at hpart
  split at hpart
  · cases hpart
  · obtain ⟨piece, hpiece, rfl⟩ := List.mem_map.1 hpart
    obtain ⟨before, behind, heq, hbefore, -⟩ := exists_blanks_around_trim piece
    have hmatched := h.of_mem_pieces rfl piece hpiece
    have hblank : before.Balanced := ⟨True, .of_flat (isFlat_of_blank hbefore)⟩
    rw [heq] at hmatched
    exact ⟨behind, (hmatched.of_append hblank).2⟩

theorem Pairs.intercalate {P : Text → Prop} {pieces : List Text}
    (h : ∀ piece ∈ pieces, Pairs [] [] (P piece) piece) :
    Pairs [] [] (∀ piece ∈ pieces, P piece) (List.intercalate [','] pieces) := by
  induction pieces with
  | nil => exact Pairs.nil.congr (iff_of_true trivial nofun)
  | cons first others ih =>
    obtain ⟨hfirst, hothers⟩ := List.forall_mem_cons.1 h
    rcases eq_or_ne others [] with rfl | hne
    · rw [List.intercalate_singleton, List.forall_mem_singleton]
      exact hfirst
    · obtain ⟨next, more, rfl⟩ := List.exists_cons_of_ne_nil hne
      rw [List.intercalate_cons_cons, List.forall_mem_cons]
      exact (hfirst.before_flat isFlat_comma).append (ih hothers)

/-- If each part of a text closes its brackets under some condition, then the whole does so if these
conditions hold. -/
theorem Pairs.of_topLevelParts {P : Text → Prop}
    (h : ∀ part ∈ t.topLevelParts ',', Pairs [] [] (P part) part) :
    Pairs [] [] (∀ part ∈ t.topLevelParts ',', P part) t := by
  rw [topLevelParts] at h ⊢
  split
  · next hblank =>
    have hnil : Pairs [] [] (∀ part ∈ [], P part) t.trim := by
      rw [hblank]
      exact Pairs.nil.congr (iff_of_true trivial (List.forall_mem_nil P))
    exact hnil.of_trim
  · next hblank =>
    rw [if_neg hblank, List.forall_mem_map] at h
    have hpieces := Pairs.intercalate fun piece hpiece => (h piece hpiece).of_trim
    rw [Glyph.intercalate_pieces, Glyph.map_char_ofText] at hpieces
    rw [List.forall_mem_map]
    exact hpieces

/-! ### Groups of a value -/

/-- The group that a text is, if it is one, and the groups that the parts of this group are. -/
def groups (t : Text) : List Text :=
  if t.head?.any isOpener then
    match _h : t.inside? 0 with
    | none => []
    | some inner => t :: (inner.topLevelParts ',').attach.flatMap fun ⟨part, _⟩ => groups part
  else []
termination_by t.length
decreasing_by
  exact Nat.lt_of_le_of_lt (length_le_of_mem_topLevelParts ‹_›) (length_inside?_lt _h)

theorem groups_of_inside? {b : Bracket} {rest inner : Text}
    (h : inside? (b.opener :: rest) 0 = some inner) :
    groups (b.opener :: rest) = (b.opener :: rest) :: (inner.topLevelParts ',').flatMap groups := by
  have hopener : (b.opener :: rest).head?.any isOpener := by cases b <;> rfl
  rw [groups, if_pos hopener]
  split
  · next hnone => cases hnone.symm.trans h
  · next inner' hsome =>
    cases hsome.symm.trans h
    simp

/-- Where each bracket is closed by its own kind, the groups end with the bracket for the one that
they start with. -/
theorem Matched.closesInKind_of_mem_groups (h : Matched (t ++ u)) :
    ∀ g ∈ t.groups, g.ClosesInKind := by
  fun_induction groups t generalizing u with
  | case1 t hopener hnone => nofun
  | case2 t hopener inner hinner ih =>
    obtain ⟨b, rest, rfl⟩ := exists_opener_of_head? hopener
    obtain ⟨c, rfl, hbalanced⟩ := exists_closer_of_inside? hinner
    have hgroup := hbalanced.group b c
    obtain ⟨hmatched, hkind⟩ := (matched_iff hgroup).1 (Matched.of_append ⟨_, hgroup⟩ h).1
    refine List.forall_mem_cons.2 ⟨hkind, fun g hg => ?_⟩
    obtain ⟨⟨part, hpart⟩, -, hg⟩ := List.mem_flatMap.1 hg
    obtain ⟨behind, hbehind⟩ := hmatched.exists_of_mem_topLevelParts hpart
    exact ih part hpart hbehind g hg
  | case3 => nofun

theorem Matched.pairs_groups (h : t.Matched) : Pairs [] [] (∀ g ∈ t.groups, g.ClosesInKind) t := by
  have hmatched : Matched (t ++ []) := by rwa [List.append_nil]
  exact h.congr (iff_of_true trivial hmatched.closesInKind_of_mem_groups)

theorem Matched.pairs_groups_trim (h : t.Matched) :
    Pairs [] [] (∀ g ∈ t.trim.groups, g.ClosesInKind) t := by
  obtain ⟨before, behind, heq, hbefore, -⟩ := exists_blanks_around_trim t
  have hblank : before.Balanced := ⟨True, .of_flat (isFlat_of_blank hbefore)⟩
  have hmatched := h
  rw [heq] at hmatched
  exact h.congr (iff_of_true trivial (hmatched.of_append hblank).2.closesInKind_of_mem_groups)

/-- A text in brackets whose parts close their brackets as far as the groups in them do. -/
theorem Pairs.of_inside? {b : Bracket} {rest inner : Text}
    (h : inside? (b.opener :: rest) 0 = some inner)
    (hparts : ∀ part ∈ inner.topLevelParts ',',
      Pairs [] [] (∀ g ∈ part.groups, g.ClosesInKind) part) :
    Pairs [] [] (∀ g ∈ groups (b.opener :: rest), g.ClosesInKind) (b.opener :: rest) := by
  have hinner := matched_iff (Pairs.of_topLevelParts hparts)
  rw [groups_of_inside? h, List.forall_mem_cons, List.forall_mem_flatMap, ← hinner, and_comm]
  obtain ⟨c, rfl, hbalanced⟩ := exists_closer_of_inside? h
  exact hbalanced.group b c

/-! ### Groups that follow each other -/

/-- The group that a text starts with. -/
def firstGroup? (t : Text) : Option Text := (t.closerFrom? 0).map fun k => t.take (k + 1)

/-- The groups that follow each other from the beginning of a text on. -/
def groupsInRow (t : Text) : List Text :=
  match _h : t.closerFrom? 0 with
  | none => []
  | some k => t.take (k + 1) :: groupsInRow (t.drop (k + 1))
termination_by t.length
decreasing_by
  have := closerFrom?_lt_length _h
  rw [List.length_drop]
  omega

theorem groupsInRow_eq_nil (h : t.closerFrom? 0 = none) : t.groupsInRow = [] := by
  rw [groupsInRow]
  split
  · rfl
  · next hsome => cases h.symm.trans hsome

theorem groupsInRow_eq_cons {k : Nat} (h : t.closerFrom? 0 = some k) :
    t.groupsInRow = t.take (k + 1) :: groupsInRow (t.drop (k + 1)) := by
  rw [groupsInRow]
  split
  · next hnone => cases h.symm.trans hnone
  · next hsome =>
    cases h.symm.trans hsome
    rfl

theorem firstGroup?_of_inside? {start inner : Text} (hne : start ≠ [])
    (h : start.inside? 0 = some inner) : start.firstGroup? = some start := by
  rw [inside?] at h
  split at h
  · next hclose =>
    have hlength := List.length_pos_iff.2 hne
    rw [firstGroup?, hclose, Option.map_some, List.take_of_length_le (by omega)]
  · cases h

theorem take_group {inner behind : Text} {b c : Bracket} :
    (b.opener :: (inner ++ c.closer :: behind)).take (inner.length + 1 + 1) =
      b.opener :: (inner ++ [c.closer]) := by
  simp [List.take_append, List.take_of_length_le]

theorem drop_group {inner behind : Text} {b c : Bracket} :
    (b.opener :: (inner ++ c.closer :: behind)).drop (inner.length + 1 + 1) = behind := by
  simp [List.drop_append]

/-- The first of the index brackets that make up a text. -/
theorem exists_group_of_squareInsides? {inside : Text} {others : List Text}
    (h : Glyph.squareInsides? (Glyph.ofText t) = some (inside :: others)) :
    ∃ c behind, t = Bracket.square.opener :: (inside ++ Bracket.closer c :: behind) ∧
      closerFrom? t 0 = some (inside.length + 1) ∧ inside.Balanced ∧
      Glyph.squareInsides? (Glyph.ofText behind) = some others := by
  have hchars := Glyph.map_char_ofText t
  rw [Glyph.squareInsides?.eq_def] at h
  split at h
  · cases h
  next g gs hglyphs =>
  split at h
  · next hg =>
    split at h
    · next k hk =>
      obtain ⟨others', hothers, heq⟩ := Option.map_eq_some_iff.1 h
      cases heq
      rw [hglyphs, List.map_cons, beq_iff_eq.1 hg] at hchars
      obtain ⟨rest, rfl⟩ : ∃ rest, t = Bracket.square.opener :: rest := ⟨_, hchars.symm⟩
      have hcloser : closerFrom? (Bracket.square.opener :: rest) 0 = some k := by
        rw [closerFrom?, List.drop_zero, hglyphs, hk, Option.map_some, Nat.zero_add]
      obtain ⟨inner, c, behind, rfl, rfl, hbalanced⟩ := exists_group_of_closerFrom? hcloser
      obtain ⟨same, hpairs⟩ := id hbalanced
      rw [Pairs.ofText_opener, hpairs.ends, Pairs.ofText_closer] at hglyphs
      obtain ⟨-, rfl⟩ := List.cons.inj hglyphs
      have hlength := Glyph.length_ofText inner
      rw [Nat.add_sub_cancel, ← hlength, List.take_left, Glyph.map_char_ofText]
      rw [← hlength, ← List.drop_drop, List.drop_left] at hothers
      exact ⟨c, behind, rfl, hcloser, hbalanced, hothers⟩
    · cases h
  · cases h

/-- Index brackets that make up a text, around indices each of which closes its brackets. -/
theorem Pairs.of_squareInsides? {insides : List Text}
    (h : Glyph.squareInsides? (Glyph.ofText t) = some insides)
    (hinsides : ∀ inside ∈ insides, inside.Matched) :
    Pairs [] [] (∀ g ∈ t.groupsInRow, g.ClosesInKind) t := by
  induction insides generalizing t with
  | nil =>
    obtain rfl : t = [] := by
      rw [← Glyph.map_char_ofText t, Glyph.squareInsides?_eq_some_nil h, List.map_nil]
    rw [groupsInRow_eq_nil rfl]
    exact Pairs.nil.congr (iff_of_true trivial nofun)
  | cons inside others ih =>
    obtain ⟨c, behind, rfl, hcloser, hbalanced, hbehind⟩ := exists_group_of_squareInsides? h
    obtain ⟨hinside, hothers⟩ := List.forall_mem_cons.1 hinsides
    rw [groupsInRow_eq_cons hcloser, take_group, drop_group, List.forall_mem_cons]
    have hgroups := (hbalanced.group .square c).append (ih hbehind hothers)
    rw [List.cons_append, List.append_assoc] at hgroups
    exact hgroups.congr (and_congr_left' (and_iff_right hinside))

end Text

end StellaGo
