import StellaGo.Block
import StellaGo.Proofs.Brackets

/-! Braces in program text. Defined here: texts that end outside literals, with the number of braces
that they close and leave open. Proved: where brackets close their own kind, the braces among them are
counted alone, blanks around a line do not count, and the search for the end of a block that goes on
inside an inner block comes to the end of the inner block first. -/

namespace StellaGo

/-! ### Depth -/

namespace Glyph

theorem braceDepth_append (depth : Nat) (before after : List Glyph) :
    braceDepth depth (before ++ after) = (braceDepth depth before).bind (braceDepth · after) := by
  fun_induction braceDepth depth before <;> grind [braceDepth]

theorem braceDepth_pos {depth deeper : Nat} {gs : List Glyph} (hd : 1 ≤ depth)
    (h : braceDepth depth gs = some deeper) : 1 ≤ deeper := by
  fun_induction braceDepth depth gs with
  | case1 => cases h; exact hd
  | case2 _ _ _ _ ih => exact ih (Nat.le_succ_of_le hd) h
  | case3 => cases h
  | case4 _ _ _ _ _ hlt ih => exact ih (by omega) h
  | case5 _ _ _ _ _ ih | case6 _ _ _ ih => exact ih hd h

/-- More braces that were open before stay open. -/
theorem braceDepth_add {depth deeper : Nat} {gs : List Glyph} (k : Nat)
    (h : braceDepth depth gs = some deeper) : braceDepth (depth + k) gs = some (deeper + k) := by
  fun_induction braceDepth depth gs with
  | case1 => cases h; rfl
  | case2 depth c rest hc ih =>
    rw [braceDepth, if_pos hc, Nat.add_right_comm]
    exact ih h
  | case3 => cases h
  | case4 depth c rest hc hb hlt ih =>
    rw [braceDepth, if_neg hc, if_pos hb, if_neg (by omega), Nat.sub_add_comm (by omega)]
    exact ih h
  | case5 depth c rest hc hb ih =>
    rw [braceDepth, if_neg hc, if_neg hb]
    exact ih h
  | case6 depth c rest ih => exact ih h

/-- The braces among brackets that close their own kind. -/
theorem braceDepth_of_pairs? {stack left : List Bracket} {pairs : List (Bracket × Bracket)}
    {gs : List Glyph} {k : Nat} (h : pairs? stack gs = some (pairs, left))
    (hsame : ∀ pair ∈ pairs, pair.1 = pair.2) (hk : 1 ≤ k) :
    braceDepth (k + stack.count .curly) gs = some (k + left.count .curly) := by
  fun_induction pairs? stack gs generalizing pairs with
  | case1 =>
    cases h
    rfl
  | case2 _ _ _ ih => exact ih h hsame
  | case3 stack c rest b hb ih =>
    obtain rfl := Bracket.ofOpener?_eq_some_iff.1 hb
    have hrest := ih h hsame
    cases b with
    | curly => rwa [List.count_cons_self] at hrest
    | round | square => rwa [List.count_cons_of_ne (by decide)] at hrest
  | case4 c rest b top below hb ho ih =>
    obtain ⟨⟨inner, last⟩, hinner, heq⟩ := Option.map_eq_some_iff.1 h
    cases heq
    obtain ⟨hpair, hrest⟩ := List.forall_mem_cons.1 hsame
    obtain rfl : top = b := hpair
    obtain rfl := Bracket.ofCloser?_eq_some_iff.1 hb
    have hrest := ih hinner hrest
    cases top with
    | curly =>
      rw [List.count_cons_self, Bracket.closer, braceDepth, if_neg (by decide),
        if_pos (by decide), if_neg (by omega)]
      exact hrest
    | round | square => rwa [List.count_cons_of_ne (by decide)]
  | case5 => cases h
  | case6 stack c rest hc ho ih =>
    have hopener : c ≠ '{' := by
      rintro rfl
      cases ho
    have hcloser : c ≠ '}' := by
      rintro rfl
      cases hc
    rw [braceDepth, if_neg (by simpa using hopener), if_neg (by simpa using hcloser)]
    exact ih h hsame

/-- Characters that are no braces leave the open braces as they are. -/
theorem braceDepth_of_no_braces (depth : Nat) {gs : List Glyph}
    (h : ∀ c ∈ gs.map char, c ≠ '{' ∧ c ≠ '}') : braceDepth depth gs = some depth := by
  induction gs with
  | nil => rfl
  | cons g rest ih =>
    have hrest := ih fun c hc => h c (List.mem_cons_of_mem _ hc)
    have hg := h g.char List.mem_cons_self
    cases g with
    | quoted c => exact hrest
    | code c =>
      have hopen : ¬ (c == '{') = true := by simpa [char] using hg.1
      have hclose : ¬ (c == '}') = true := by simpa [char] using hg.2
      rw [braceDepth, if_neg hopen, if_neg hclose]
      exact hrest

/-- What stands behind a text does not change how its characters are read. -/
theorem read_prefix (open? : Option Char) (t u : Text) : read open? t <+: read open? (t ++ u) := by
  fun_induction read open? t with
  | case1 => exact List.nil_prefix
  | case2 c rest hq ih =>
    rw [List.cons_append, read, if_pos hq]
    exact (List.prefix_cons_inj _).2 ih
  | case3 c rest hq ih =>
    rw [List.cons_append, read, if_neg hq]
    exact (List.prefix_cons_inj _).2 ih
  | case4 q c rest ih =>
    rw [List.cons_append, List.cons_append, read]
    exact (List.prefix_cons_inj _).2 ((List.prefix_cons_inj _).2 ih)
  | case5 q c rest hpair ih =>
    by_cases hc : c = '\\'
    · -- a backslash at the end of the text takes a character behind it with it
      have hrest : rest = [] := by
        cases rest with
        | nil => rfl
        | cons d rest => exact absurd rfl (hpair d rest hc)
      subst hc hrest
      cases u with
      | nil => exact List.prefix_rfl
      | cons d u => exact ⟨_, rfl⟩
    · rw [List.cons_append, Text.Pairs.read_some_cons hc]
      exact (List.prefix_cons_inj _).2 ih

end Glyph

/-! ### Texts that close and open braces -/

/-- The text ends outside literals. Behind it `closed` of the braces that were open before it are
closed, and `opened` others are open. -/
structure Text.Nests (closed opened : Nat) (t : Text) : Prop where
  ends : ∀ rest, Glyph.ofText (t ++ rest) = Glyph.ofText t ++ Glyph.ofText rest
  depth : ∀ k, 1 ≤ k → Glyph.braceDepth (k + closed) (Glyph.ofText t) = some (k + opened)

/-- No character of the text is a quote or a brace. -/
def Text.isPlain (t : Text) : Bool := t.all fun c => !isQuote c && c != '{' && c != '}'

namespace Text.Nests

variable {closed opened : Nat} {t : Text}

theorem nil : Nests 0 0 [] := ⟨fun _ => rfl, fun _ _ => rfl⟩

/-- Braces that were open before stay open. -/
theorem keep (h : Nests 0 0 t) (k : Nat) : Nests k k t :=
  ⟨h.ends, fun _ hm => Glyph.braceDepth_add k (h.depth _ hm)⟩

theorem append {next : Nat} {u : Text} (ht : Nests closed opened t) (hu : Nests opened next u) :
    Nests closed next (t ++ u) := by
  constructor
  · intro rest
    rw [List.append_assoc, ht.ends, hu.ends, ht.ends, List.append_assoc]
  · intro k hk
    rw [ht.ends, Glyph.braceDepth_append, ht.depth k hk, Option.bind_some]
    exact hu.depth k hk

theorem after_plain {u : Text} (hu : Nests closed opened u) (ht : Nests 0 0 t) :
    Nests closed opened (t ++ u) := (ht.keep closed).append hu

theorem cons {c : Char} (hq : isQuote c = false) (ho : c ≠ '{') (hc : c ≠ '}')
    (h : Nests closed opened t) : Nests closed opened (c :: t) := by
  have hread (u : Text) : Glyph.ofText (c :: u) = .code c :: Glyph.ofText u := by
    rw [Glyph.ofText, Glyph.read, hq]
    rfl
  constructor
  · intro rest
    rw [List.cons_append, hread, hread, h.ends]
    rfl
  · intro k hk
    rw [hread, Glyph.braceDepth, if_neg (by simpa using ho), if_neg (by simpa using hc)]
    exact h.depth k hk

theorem of_plain (h : t.isPlain) : Nests 0 0 t := by
  induction t with
  | nil => exact nil
  | cons c rest ih =>
    simp only [isPlain, List.all_cons, Bool.and_eq_true, Bool.not_eq_true', bne_iff_ne] at h
    obtain ⟨⟨⟨hq, ho⟩, hc⟩, hrest⟩ := h
    apply (ih _).cons hq ho hc
    simpa [isPlain] using hrest

theorem brace_open (h : Nests (closed + 1) opened t) : Nests closed opened ('{' :: t) := by
  have hread (u : Text) : Glyph.ofText ('{' :: u) = .code '{' :: Glyph.ofText u := rfl
  constructor
  · intro rest
    rw [List.cons_append, hread, hread, h.ends]
    rfl
  · intro k hk
    rw [hread, Glyph.braceDepth, if_pos (by decide)]
    exact h.depth k hk

theorem brace_close (h : Nests closed opened t) : Nests (closed + 1) opened ('}' :: t) := by
  have hread (u : Text) : Glyph.ofText ('}' :: u) = .code '}' :: Glyph.ofText u := rfl
  constructor
  · intro rest
    rw [List.cons_append, hread, hread, h.ends]
    rfl
  · intro k hk
    rw [hread, Glyph.braceDepth, if_neg (by decide), if_pos (by decide), if_neg (by omega)]
    exact h.depth k hk

/-- A text whose brackets close their own kind. -/
theorem of_pairs {closing opening : List Bracket} (h : Pairs closing opening True t) :
    Nests (closing.count .curly) (opening.count .curly) t := by
  obtain ⟨pairs, hrun, hsame⟩ := h.run
  exact ⟨h.ends, fun _ hk => Glyph.braceDepth_of_pairs? hrun (hsame.2 trivial) hk⟩

end Text.Nests

theorem ne_of_isBlank {c d : Char} (hc : isBlank c) (hd : isBlank d = false) : c ≠ d := by
  rintro rfl
  exact Bool.false_ne_true (hd ▸ hc)

theorem Text.isPlain_of_blank {t : Text} (h : ∀ c ∈ t, isBlank c) : t.isPlain := by
  refine List.all_eq_true.2 fun c hc => ?_
  have hne {d : Char} (hd : isBlank d = false) : c ≠ d := ne_of_isBlank (h c hc) hd
  have hquotes : c ≠ '"' ∧ c ≠ '\'' := ⟨hne rfl, hne rfl⟩
  have hbraces : c ≠ '{' ∧ c ≠ '}' := ⟨hne rfl, hne rfl⟩
  simp [isQuote, hquotes, hbraces]

/-- Blanks around a line neither open nor close braces. -/
theorem Text.braceDepth_trim {depth : Nat} (hd : 1 ≤ depth) (line : Text) :
    Glyph.braceDepth depth (Glyph.ofText line.trim) = Glyph.braceDepth depth (Glyph.ofText line) := by
  obtain ⟨before, behind, hline, hbefore, hbehind⟩ := exists_blanks_around_trim line
  have hnests := Nests.of_plain (isPlain_of_blank hbefore)
  have hfront : Glyph.braceDepth depth (Glyph.ofText before) = some depth := hnests.depth depth hd
  obtain ⟨gs, hgs⟩ := Glyph.read_prefix none line.trim behind
  have hchars := congrArg (List.map Glyph.char) hgs
  rw [List.map_append, Glyph.map_char_read, Glyph.map_char_read, List.append_cancel_left_eq] at hchars
  have hrest : (Glyph.braceDepth · gs) = some := funext fun deeper =>
    Glyph.braceDepth_of_no_braces deeper fun c hc =>
      have hc := hbehind c (hchars ▸ hc)
      ⟨ne_of_isBlank hc rfl, ne_of_isBlank hc rfl⟩
  conv_rhs => rw [hline, hnests.ends, Glyph.braceDepth_append, hfront, Option.bind_some, Glyph.ofText,
    ← hgs, Glyph.braceDepth_append, hrest, Option.bind_fun_some]
  rfl

/-! ### Blocks -/

namespace Block

open Glyph (braceDepth ofText)

/-- A search with more braces open comes to the line that ends a search with fewer of them. -/
theorem closingLine_add {depth i : Nat} {lines : List Text} (k : Nat) (hd : 1 ≤ depth)
    (h : closingLine depth lines = some i) :
    ∃ before close, 1 ≤ before ∧ lines[i]? = some close ∧ braceDepth before (ofText close) = none ∧
      closingLine (depth + k) lines = (closingLine (before + k) (lines.drop i)).map (i + ·) := by
  induction lines generalizing depth i with
  | nil => cases h
  | cons line rest ih =>
    unfold closingLine at h
    split at h
    · next hnone =>
      cases h
      exact ⟨depth, line, hd, rfl, hnone, by simp⟩
    · next deeper hsome =>
      obtain ⟨j, hj, rfl⟩ := Option.map_eq_some_iff.1 h
      obtain ⟨before, close, hbefore, hclose, hend, hsearch⟩ :=
        ih (Glyph.braceDepth_pos hd hsome) hj
      refine ⟨before, close, hbefore, by simpa using hclose, hend, ?_⟩
      rw [closingLine, Glyph.braceDepth_add k hsome]
      dsimp only
      rw [hsearch, List.drop_succ_cons, Option.map_map]
      congr 1
      funext m
      exact Nat.add_right_comm _ _ _

/-- The search for the end of the outer block goes on behind the line that ends the inner one, and
`opened` counts the braces that this line opens again. -/
theorem closingLine_behind {i outer k opened : Nat} {lines : List Text} {close : Text} (hk : 1 ≤ k)
    (hi : closingLine 1 lines = some i) (ho : closingLine (1 + k) lines = some outer)
    (hclose : lines[i]? = some close)
    (hdepth : ∀ m, 1 ≤ m → braceDepth (m + 1) (ofText close) = some (m + opened)) :
    ∃ more, outer = i + 1 + more ∧ closingLine (k + opened) (lines.drop (i + 1)) = some more := by
  obtain ⟨before, line, hbefore, hline, hend, hsearch⟩ := closingLine_add k (Nat.le_refl 1) hi
  obtain rfl : close = line := Option.some.inj (hclose.symm.trans hline)
  -- more than one open brace would not all be closed on this line
  obtain rfl : before = 1 := by
    by_contra hne
    have hsome := hdepth (before - 1) (by omega)
    rw [Nat.sub_add_cancel hbefore, hend] at hsome
    cases hsome
  obtain ⟨hlt, hget⟩ := List.getElem?_eq_some_iff.1 hclose
  rw [hsearch, List.drop_eq_getElem_cons hlt, hget, closingLine, Nat.add_comm 1 k,
    hdepth k hk] at ho
  dsimp only at ho
  rw [Option.map_map] at ho
  obtain ⟨more, hmore, rfl⟩ := Option.map_eq_some_iff.1 ho
  exact ⟨more, by simp only [Function.comp_apply]; omega, hmore⟩

end Block

end StellaGo
