import StellaGo.Proofs.ClosedTexts
import StellaGo.Proofs.TokenNames

/-! Parts of a text between separators. Defined here: the depth of brackets at a place of a text, which
may be negative, the cuts of a text at the separators of depth zero, and the segments between these.
Proved: the parts are the trimmed segments, one more than there are cuts, and parts that are joined by
the separator are found again, also where the text closes brackets that it did not open or leaves a
literal open. -/

namespace StellaGo

/-! ### Depths and cuts -/

namespace Glyph

def opens : Glyph → Bool
  | code c => isOpener c
  | quoted _ => false

def closes : Glyph → Bool
  | code c => isCloser c
  | quoted _ => false

/-- How many brackets more are opened than closed. -/
def balance (gs : List Glyph) : Int := gs.countP opens - gs.countP closes

/-- The indices of the separators at which as many brackets are open as are closed, if `depth` are open
before the glyphs. -/
def cuts (sep : Char) (depth : Int) (gs : List Glyph) : List Nat :=
  (List.range gs.length).filter fun i => gs[i]? = some (code sep) ∧ depth + balance (gs.take i) = 0

variable {sep : Char} {depth : Int} {g : Glyph} {gs : List Glyph}

theorem balance_nil : balance [] = 0 := rfl

theorem balance_append (xs ys : List Glyph) : balance (xs ++ ys) = balance xs + balance ys := by
  rw [balance, balance, balance, List.countP_append, List.countP_append]
  omega

theorem not_isCloser_of_isOpener {c : Char} (h : isOpener c) : isCloser c = false := by
  obtain ⟨b, hb⟩ := Option.isSome_iff_exists.1 h
  obtain rfl := Bracket.ofOpener?_eq_some_iff.1 hb
  cases b <;> rfl

theorem depthAfter_eq (depth : Int) (g : Glyph) : g.depthAfter depth = depth + balance [g] := by
  cases g with
  | quoted c => exact (Int.add_zero depth).symm
  | code c =>
    rw [depthAfter, balance, List.countP_singleton, List.countP_singleton, opens, closes]
    split
    · next hopen =>
      rw [not_isCloser_of_isOpener hopen]
      rfl
    · split <;> simp [Int.sub_eq_add_neg]

theorem foldl_depthAfter (depth : Int) (gs : List Glyph) :
    gs.foldl depthAfter depth = depth + balance gs := by
  induction gs generalizing depth with
  | nil => exact (Int.add_zero depth).symm
  | cons g rest ih =>
    rw [List.foldl_cons, ih, depthAfter_eq, Int.add_assoc, ← balance_append, List.singleton_append]

theorem cuts_nil (sep : Char) (depth : Int) : cuts sep depth [] = [] := rfl

theorem cuts_cons (sep : Char) (depth : Int) (g : Glyph) (gs : List Glyph) :
    cuts sep depth (g :: gs) = (if g = code sep ∧ depth = 0 then [0] else []) ++
      (cuts sep (g.depthAfter depth) gs).map (· + 1) := by
  have hshift (i : Nat) : depth + balance ((g :: gs).take (i + 1)) =
      g.depthAfter depth + balance (gs.take i) := by
    rw [List.take_succ_cons, ← List.singleton_append, balance_append, depthAfter_eq, Int.add_assoc]
  rw [cuts, List.length_cons, List.range_succ_eq_map, List.filter_cons, List.filter_map, cuts]
  have hrest : (List.range gs.length).filter
      ((fun i => decide ((g :: gs)[i]? = some (code sep) ∧ depth + balance ((g :: gs).take i) = 0)) ∘
        Nat.succ) = (List.range gs.length).filter fun i =>
          gs[i]? = some (code sep) ∧ g.depthAfter depth + balance (gs.take i) = 0 :=
    List.filter_congr fun i _ => by
      simp only [Function.comp_apply, Nat.succ_eq_add_one, hshift, List.getElem?_cons_succ]
  rw [hrest]
  split <;> simp_all [balance_nil]

theorem cuts_append (sep : Char) (depth : Int) (xs ys : List Glyph) :
    cuts sep depth (xs ++ ys) =
      cuts sep depth xs ++ (cuts sep (depth + balance xs) ys).map (· + xs.length) := by
  induction xs generalizing depth with
  | nil => simp [cuts_nil, balance_nil]
  | cons g rest ih =>
    have hbalance : depth + balance (g :: rest) = g.depthAfter depth + balance rest := by
      rw [← List.singleton_append, balance_append, depthAfter_eq, Int.add_assoc]
    rw [List.cons_append, cuts_cons, cuts_cons, ih, List.map_append, List.append_assoc, hbalance,
      List.map_map]
    rfl

/-- A separator that is no bracket separates where no bracket is open. -/
theorem separates_iff (hsep : isOpener sep = false ∧ isCloser sep = false) :
    (g.separates sep && depth == 0) ↔ g = code sep ∧ depth = 0 := by
  rw [Bool.and_eq_true, beq_iff_eq]
  refine and_congr_left fun _ => ⟨eq_code_of_separates, ?_⟩
  rintro rfl
  simp [separates, hsep]

end Glyph

namespace Text

/-- How many brackets more are opened than closed, outside literals, in front of a place. -/
def depthAt (t : Text) (i : Nat) : Int := Glyph.balance ((Glyph.ofText t).take i)

/-- The separators outside literals at depth zero. -/
def cuts (t : Text) (sep : Char) : List Nat :=
  (List.range t.length).filter fun i => (Glyph.ofText t)[i]? = some (.code sep) ∧ t.depthAt i = 0

/-- The text from a place on, in segments between cuts. The characters at the cuts are left out. -/
def segments (t : Text) : (start : Nat) → (cuts : List Nat) → List Text
  | start, [] => [t.drop start]
  | start, cut :: cuts => (t.take cut).drop start :: t.segments (cut + 1) cuts

theorem cuts_eq (t : Text) (sep : Char) : t.cuts sep = Glyph.cuts sep 0 (Glyph.ofText t) := by
  rw [cuts, Glyph.cuts, Glyph.length_ofText]
  exact List.filter_congr fun i _ => by rw [Int.zero_add, depthAt]

theorem length_segments (t : Text) (start : Nat) (cuts : List Nat) :
    (t.segments start cuts).length = cuts.length + 1 := by
  induction cuts generalizing start with
  | nil => rfl
  | cons cut rest ih => rw [segments, List.length_cons, ih, List.length_cons]

theorem segments_cons (c : Char) (t : Text) (start : Nat) (cuts : List Nat) :
    segments (c :: t) (start + 1) (cuts.map (· + 1)) = t.segments start cuts := by
  induction cuts generalizing start with
  | nil => rfl
  | cons cut rest ih =>
    rw [List.map_cons, segments, ih, segments]
    rfl

end Text

namespace Glyph

variable {sep : Char}

theorem pieces_eq_segments (hsep : isOpener sep = false ∧ isCloser sep = false) (depth : Int)
    (gs : List Glyph) : pieces sep depth gs = Text.segments (gs.map char) 0 (cuts sep depth gs) := by
  induction gs generalizing depth with
  | nil => rfl
  | cons g rest ih =>
    rw [pieces, cuts_cons, ih, ih, List.map_cons]
    split
    · next hcut =>
      obtain ⟨rfl, rfl⟩ := (separates_iff hsep).1 hcut
      have hdepth : (code sep).depthAfter 0 = 0 := by simp [depthAfter, hsep]
      rw [if_pos ⟨rfl, rfl⟩, hdepth, List.singleton_append, Text.segments, Text.segments_cons]
      rfl
    · next hcut =>
      rw [if_neg ((separates_iff hsep).not.1 hcut), List.nil_append]
      cases cuts sep (g.depthAfter depth) rest with
      | nil => rfl
      | cons cut more =>
        rw [Text.segments, List.modifyHead_cons, List.map_cons, Text.segments, Text.segments_cons]
        rfl

/-- What has no cut in it stands in front of the first piece of what follows. -/
theorem pieces_append {depth : Int} {xs : List Glyph} (h : cuts sep depth xs = [])
    (hsep : isOpener sep = false ∧ isCloser sep = false) (ys : List Glyph) :
    pieces sep depth (xs ++ ys) = (pieces sep (depth + balance xs) ys).modifyHead (xs.map char ++ ·) := by
  induction xs generalizing depth with
  | nil =>
    rw [balance_nil, Int.add_zero]
    exact (congrFun List.modifyHead_id _).symm
  | cons g rest ih =>
    obtain ⟨hhead, hrest⟩ := List.append_eq_nil_iff.1 (cuts_cons .. ▸ h)
    have hcut : ¬ (g.separates sep && depth == 0) := by
      rw [separates_iff hsep]
      rintro ⟨rfl, rfl⟩
      simp at hhead
    have hbalance : depth + balance (g :: rest) = g.depthAfter depth + balance rest := by
      rw [← List.singleton_append, balance_append, depthAfter_eq, Int.add_assoc]
    rw [List.cons_append, pieces, if_neg hcut, ih (List.map_eq_nil_iff.1 hrest), hbalance,
      List.modifyHead_modifyHead]
    rfl

end Glyph

/-! ### Parts -/

theorem Glyph.balance_of_flat {t : Text} (h : t.isFlat) : balance (ofText t) = 0 := by
  have hpairs : Text.Pairs [] [] True t := .of_flat h
  obtain ⟨pairs, hrun, -⟩ := hpairs.run
  have hdepth := foldl_depthAfter_of_pairs? hrun
  rw [foldl_depthAfter] at hdepth
  exact Int.add_left_cancel (hdepth.trans (Int.add_zero 0).symm)

namespace Text

variable {sep : Char} {t u : Text}

/-- The text has no cut in it, opens as many brackets as it closes, and ends outside literals. -/
structure IsSegment (sep : Char) (t : Text) : Prop where
  uncut : t.cuts sep = []
  balance : Glyph.balance (Glyph.ofText t) = 0
  closed : t.IsClosed

/-- The blanks around a text are read outside literals, those behind it if it ends outside them. -/
theorem ofText_trim (t : Text) :
    ∃ before behind, Glyph.ofText t = before ++ (Glyph.ofText t.trim ++ behind) ∧
      Glyph.balance before = 0 ∧ (t.IsClosed → t.trim.IsClosed ∧ Glyph.balance behind = 0) := by
  obtain ⟨before, behind, ht, hbefore, hbehind⟩ := exists_blanks_around_trim t
  have hquote {u : Text} (hu : ∀ c ∈ u, isBlank c) : ∀ c ∈ u, ¬ isQuote c := fun c hc =>
    (isFlat_singleton_iff.1 (isFlat_of_blank fun d hd => by
      rw [List.mem_singleton.1 hd]
      exact hu c hc)).1
  have hread : Glyph.ofText t = Glyph.ofText before ++ Glyph.ofText (t.trim ++ behind) := by
    conv_lhs => rw [ht]
    exact IsClosed.of_forall (hquote hbefore) _
  obtain ⟨after, hafter⟩ : Glyph.ofText t.trim <+: Glyph.ofText (t.trim ++ behind) :=
    Glyph.read_prefix none t.trim behind
  have hbalance := Glyph.balance_of_flat (isFlat_of_blank hbefore)
  refine ⟨Glyph.ofText before, after, by rw [hread, hafter], hbalance, fun h => ?_⟩
  rw [ht, IsClosed.append_iff (hquote hbefore)] at h
  have hclosed := h.of_append (hquote hbehind)
  have hblanks : after = Glyph.ofText behind := List.append_cancel_left (hafter.trans (hclosed behind))
  exact ⟨hclosed, hblanks ▸ Glyph.balance_of_flat (isFlat_of_blank hbehind)⟩

theorem cuts_trim (h : t.cuts sep = []) : t.trim.cuts sep = [] := by
  obtain ⟨before, behind, hread, hbalance, -⟩ := ofText_trim t
  rw [cuts_eq, hread, Glyph.cuts_append, hbalance] at h
  have hbehind := List.map_eq_nil_iff.1 (List.append_eq_nil_iff.1 h).2
  rw [Glyph.cuts_append] at hbehind
  rw [cuts_eq]
  exact (List.append_eq_nil_iff.1 hbehind).1

theorem IsSegment.trim (h : t.IsSegment sep) : t.trim.IsSegment sep := by
  obtain ⟨before, behind, hread, hbefore, hclosed⟩ := ofText_trim t
  obtain ⟨hclosed, hbehind⟩ := hclosed h.closed
  have hbalance := h.balance
  rw [hread, Glyph.balance_append, Glyph.balance_append, hbefore, hbehind] at hbalance
  exact ⟨cuts_trim h.uncut, by omega, hclosed⟩

/-- In front of a separator stands a part. -/
theorem exists_segment_of_pieces (hsep : isOpener sep = false ∧ isCloser sep = false) {first : Text}
    {others : List Text} (h : Glyph.pieces sep 0 (Glyph.ofText t) = first :: others)
    (hne : others ≠ []) :
    first.IsSegment sep ∧ ¬ isQuote sep ∧
      ∃ rest, Glyph.pieces sep 0 (Glyph.ofText rest) = others := by
  obtain ⟨before, after, hglyphs, rfl, hdepth, hafter⟩ := Glyph.exists_separator_of_pieces h hne
  obtain ⟨front, behind, rfl, hquote, hfront, rfl⟩ := Glyph.exists_append_of_read hglyphs
  obtain rfl : Glyph.ofText front = before := by
    simpa [Glyph.ofText, Glyph.read] using hfront []
  have hbalance : Glyph.balance (Glyph.ofText front) = 0 := by
    rwa [Glyph.foldl_depthAfter, Int.zero_add] at hdepth
  -- the separator is the first cut, as there are no more cuts than pieces
  have huncut : Glyph.cuts sep 0 (Glyph.ofText front) = [] := by
    have hcount := congrArg List.length h
    rw [← hafter, hglyphs, Glyph.pieces_eq_segments hsep, length_segments, Glyph.cuts_append,
      hbalance, List.length_cons, Glyph.pieces_eq_segments hsep, length_segments, List.length_append,
      List.length_map, Glyph.cuts_cons, if_pos ⟨rfl, by rfl⟩, Glyph.depthAfter_eq,
      List.length_append, List.length_map] at hcount
    have hnone : Glyph.balance [.code sep] = 0 := by simp [Glyph.balance, Glyph.opens, Glyph.closes, hsep]
    rw [hnone, List.length_singleton] at hcount
    simp only [Int.add_zero] at hcount
    exact List.length_eq_zero_iff.1 (by omega)
  rw [Glyph.map_char_ofText]
  exact ⟨⟨by rw [cuts_eq, huncut], hbalance, hfront⟩, hquote, behind, hafter⟩

/-- Trimmed pieces that are joined are the pieces of the whole. -/
theorem pieces_intercalate_trim (hsep : isOpener sep = false ∧ isCloser sep = false) {ps : List Text}
    (h : Glyph.pieces sep 0 (Glyph.ofText t) = ps) :
    Glyph.pieces sep 0 (Glyph.ofText (List.intercalate [sep] (ps.map trim))) = ps.map trim := by
  induction ps generalizing t with
  | nil =>
    obtain ⟨first, others, hcons⟩ := Glyph.exists_pieces_eq_cons sep 0 (Glyph.ofText t)
    cases hcons.symm.trans h
  | cons first others ih =>
    rcases eq_or_ne others [] with rfl | hne
    · have hwhole := Glyph.intercalate_pieces sep 0 (Glyph.ofText t)
      rw [h, List.intercalate_singleton, Glyph.map_char_ofText] at hwhole
      subst hwhole
      have huncut : first.cuts sep = [] := by
        rw [Glyph.pieces_eq_segments hsep, ← cuts_eq] at h
        have hcount := congrArg List.length h
        rw [length_segments] at hcount
        exact List.length_eq_zero_iff.1 (Nat.succ.inj hcount)
      rw [List.map_singleton, List.intercalate_singleton, Glyph.pieces_eq_segments hsep, ← cuts_eq,
        cuts_trim huncut, Glyph.map_char_ofText]
      rfl
    · obtain ⟨hsegment, hquote, rest, hrest⟩ := exists_segment_of_pieces hsep h hne
      obtain ⟨next, more, rfl⟩ := List.exists_cons_of_ne_nil hne
      have hcut : Glyph.pieces sep 0 (.code sep :: Glyph.ofText
          (List.intercalate [sep] ((next :: more).map trim))) = [] :: (next :: more).map trim := by
        rw [Glyph.pieces, if_pos ((Glyph.separates_iff hsep).2 ⟨rfl, rfl⟩), ih hrest]
      have huncut := hsegment.trim.uncut
      rw [cuts_eq] at huncut
      rw [List.map_cons, List.map_cons, List.intercalate_cons_cons, ← List.map_cons, List.append_assoc,
        hsegment.trim.closed, List.singleton_append, Pairs.ofText_cons hquote,
        Glyph.pieces_append huncut hsep, hsegment.trim.balance, Int.add_zero, hcut, List.modifyHead_cons,
        List.append_nil, Glyph.map_char_ofText]

theorem mem_trim {c : Char} (hc : ¬ isBlank c) (h : c ∈ t) : c ∈ t.trim := by
  obtain ⟨before, behind, ht, hbefore, hbehind⟩ := exists_blanks_around_trim t
  rw [ht, List.mem_append, List.mem_append] at h
  rcases h with h | h | h
  · exact absurd (hbefore c h) hc
  · exact h
  · exact absurd (hbehind c h) hc

/-- What is no blank is not lost where pieces are trimmed. -/
theorem mem_intercalate_trim {c : Char} (hc : ¬ isBlank c) {ps : List Text}
    (h : c ∈ List.intercalate [sep] ps) : c ∈ List.intercalate [sep] (ps.map trim) := by
  cases ps with
  | nil => cases h
  | cons first others =>
    rw [intercalate_cons_eq] at h
    rw [List.map_cons, intercalate_cons_eq, List.flatMap_map]
    rcases List.mem_append.1 h with h | h
    · exact List.mem_append_left _ (mem_trim hc h)
    · obtain ⟨piece, hpiece, hmem⟩ := List.mem_flatMap.1 h
      refine List.mem_append_right _ (List.mem_flatMap.2 ⟨piece, hpiece, ?_⟩)
      exact (List.mem_append.1 hmem).elim (List.mem_append_left _) fun h =>
        List.mem_append_right _ (mem_trim hc h)

/-- The parts of a text that is not blank are the trimmed segments between its cuts, and lose nothing
but blanks: joined again they have the same parts. -/
theorem topLevelParts_segments {t : Text} {sep : Char} (hvisible : ∃ c ∈ t, ¬ isBlank c)
    (hsep : isOpener sep = false ∧ isCloser sep = false) :
    (t.topLevelParts sep).length = (t.cuts sep).length + 1 ∧
      t.topLevelParts sep = (t.segments 0 (t.cuts sep)).map trim ∧
      List.intercalate [sep] (t.segments 0 (t.cuts sep)) = t ∧
      topLevelParts (List.intercalate [sep] (t.topLevelParts sep)) sep = t.topLevelParts sep := by
  have hne {u : Text} {c : Char} (hmem : c ∈ u) (hc : ¬ isBlank c) : u.trim ≠ [] := fun hnil =>
    hc (trim_eq_nil_iff.1 hnil c hmem)
  obtain ⟨c, hmem, hc⟩ := hvisible
  have hpieces : Glyph.pieces sep 0 (Glyph.ofText t) = t.segments 0 (t.cuts sep) := by
    rw [Glyph.pieces_eq_segments hsep, Glyph.map_char_ofText, cuts_eq]
  have hparts : t.topLevelParts sep = (t.segments 0 (t.cuts sep)).map trim := by
    rw [topLevelParts, if_neg (hne hmem hc), hpieces]
  have hjoined : List.intercalate [sep] (t.segments 0 (t.cuts sep)) = t := by
    rw [← hpieces, Glyph.intercalate_pieces, Glyph.map_char_ofText]
  refine ⟨by rw [hparts, List.length_map, length_segments], hparts, hjoined, ?_⟩
  have hlast := mem_intercalate_trim hc (hjoined.symm ▸ hmem)
  have htrim : Text.trim ∘ Text.trim = Text.trim := funext trim_trim
  rw [hparts, topLevelParts, if_neg (hne hlast hc), pieces_intercalate_trim hsep hpieces, List.map_map,
    htrim]

theorem topLevelParts_segments_open :
    cuts "x) · y( · \" · \" · 'z · ".toList '·' = [8, 16] ∧
      (topLevelParts "x) · y( · \" · \" · 'z · ".toList '·').length = 3 ∧
      topLevelParts "x) · y( · \" · \" · 'z · ".toList '·' =
        ["x) · y(".toList, "\" · \"".toList, "'z ·".toList] ∧
      List.intercalate ['·'] (segments "x) · y( · \" · \" · 'z · ".toList 0 [8, 16]) =
        "x) · y( · \" · \" · 'z · ".toList ∧
      topLevelParts "x) · y(·\" · \"·'z ·".toList '·' =
        ["x) · y(".toList, "\" · \"".toList, "'z ·".toList] := by
  have hcuts : cuts "x) · y( · \" · \" · 'z · ".toList '·' = [8, 16] := by decide +kernel
  have hsegments : (segments "x) · y( · \" · \" · 'z · ".toList 0 [8, 16]).map trim =
      ["x) · y(".toList, "\" · \"".toList, "'z ·".toList] := by decide +kernel
  obtain ⟨hlength, hparts, hjoined, hagain⟩ :=
    @topLevelParts_segments "x) · y( · \" · \" · 'z · ".toList '·' ⟨'x', by decide +kernel, by decide⟩
      (by decide)
  rw [hcuts] at hlength hparts hjoined
  rw [hsegments] at hparts
  rw [hparts] at hagain
  exact ⟨hcuts, hlength, hparts, hjoined, hagain⟩

end Text

end StellaGo
