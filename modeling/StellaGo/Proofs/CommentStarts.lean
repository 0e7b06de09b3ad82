import StellaGo.Proofs.MarkedLiterals
import StellaGo.Proofs.SourceEdits

/-! Where comments start. Defined here: two slashes in a row outside literals, and the search for them
that goes over a line once, keeping in mind whether a character is escaped and whether a slash stands
before it. Proved: a line is cut before the first such slashes, a source without comments keeps its
lines, and so all readers of literals agree on what stands outside them. -/

namespace StellaGo

/-! ### Comments -/

namespace Comment

/-- Two slashes among characters with their offsets, the first one at byte `b`, the other one right
behind it. -/
def SlashesAt (places : List (Nat × Char)) (b : Nat) : Prop := (b, '/') ∈ places ∧ (b + 1, '/') ∈ places

/-- The part of a line before the first two slashes in a row outside literals, or all of it. -/
def IsBefore (line part : Text) : Prop :=
  (∃ b, SlashesAt line.unquoted b ∧ (∀ b' < b, ¬ SlashesAt line.unquoted b') ∧
      line.slice? 0 b = some part) ∨
    (∀ b, ¬ SlashesAt line.unquoted b) ∧ part = line

variable {b start : Nat} {c : Char} {open? : Option Char} {t part : Text} {places : List (Nat × Char)}

/-- What is left of a line are its first characters. -/
theorem stripInside_prefix (open? : Option Char) (t : Text) : stripInside open? t <+: t := by
  fun_induction stripInside open? t with
  | case1 | case2 => exact List.nil_prefix
  | case3 c _ _ ih | case5 _ c _ _ ih => exact (List.prefix_append_right_inj [c]).2 ih
  | case4 _ c _ ih => exact (List.prefix_append_right_inj ['\\', c]).2 ih

/-- No other character starts at the offset of the first glyph. -/
theorem head?_of_mem_offsets {gs : List Glyph} (h : (start, c) ∈ Glyph.offsets start gs) :
    gs.head? = some (.code c) := by
  have hlater {d : Char} {rest : List Glyph} : (start, c) ∉ Glyph.offsets (start + d.utf8Size) rest := by
    intro hm
    have hle := Glyph.le_of_mem_offsets _ hm
    have hpos := d.utf8Size_pos
    dsimp only at hle
    omega
  match gs with
  | [] => cases h
  | .quoted d :: rest => exact absurd h hlater
  | .code d :: rest =>
    rcases List.mem_cons.1 h with heq | hm
    · cases heq
      rfl
    · exact absurd hm hlater

/-- A character that starts no comment is passed over. -/
theorem slashesAt_code_iff {gs : List Glyph} (h : c = '/' → gs.head? ≠ some (.code '/')) :
    SlashesAt (Glyph.offsets start (.code c :: gs)) b ↔
      SlashesAt (Glyph.offsets (start + c.utf8Size) gs) b := by
  have hpos := c.utf8Size_pos
  rw [Glyph.offsets]
  constructor
  · rintro ⟨hfirst, hsecond⟩
    rcases List.mem_cons.1 hfirst with heq | hm
    · -- the second slash would stand right behind this one
      cases heq
      have hsecond := (List.mem_cons.1 hsecond).resolve_left (by simp)
      exact absurd (head?_of_mem_offsets hsecond) (h rfl)
    · have hle := Glyph.le_of_mem_offsets _ hm
      dsimp only at hle
      exact ⟨hm, (List.mem_cons.1 hsecond).resolve_left (by simp only [Prod.mk.injEq]; omega)⟩
  · rintro ⟨hfirst, hsecond⟩
    exact ⟨List.mem_cons_of_mem _ hfirst, List.mem_cons_of_mem _ hsecond⟩

/-- The text `t`, whose characters outside literals have these offsets from `start` on, is cut at the
first two slashes in a row. -/
def Cuts (start : Nat) (places : List (Nat × Char)) (t part : Text) : Prop :=
  (∃ b, SlashesAt places b ∧ (∀ b' < b, ¬ SlashesAt places b') ∧ b = start + Text.byteSize part) ∨
    (∀ b, ¬ SlashesAt places b) ∧ part = t

theorem Cuts.cons {others : List (Nat × Char)} (h : Cuts (start + c.utf8Size) places t part)
    (hiff : ∀ b, SlashesAt others b ↔ SlashesAt places b) : Cuts start others (c :: t) (c :: part) := by
  simp only [Cuts, hiff, Text.byteSize_cons, ← Nat.add_assoc]
  exact h.imp id (And.imp id (congrArg (c :: ·)))

theorem cuts_stripInside (open? : Option Char) (t : Text) (start : Nat) :
    Cuts start (Glyph.offsets start (Glyph.read open? t)) t (stripInside open? t) := by
  fun_induction stripInside open? t generalizing start with
  | case1 => exact .inr ⟨fun b h => by simp [SlashesAt, Glyph.read, Glyph.offsets] at h, rfl⟩
  | case2 rest =>
    have hslashes : SlashesAt (Glyph.offsets start (Glyph.read none ('/' :: '/' :: rest))) start :=
      ⟨List.mem_cons_self, List.mem_cons_of_mem _ List.mem_cons_self⟩
    refine .inl ⟨start, hslashes, fun b' hb' hs => ?_, rfl⟩
    exact absurd (Glyph.le_of_mem_offsets _ hs.1) (Nat.not_le.2 hb')
  | case3 c rest hc ih =>
    refine (ih (start + c.utf8Size)).cons fun b => ?_
    by_cases hq : isQuote c
    · rw [Glyph.read, if_pos hq, if_pos hq]
      rfl
    · rw [Glyph.read, if_neg hq, if_neg hq]
      refine slashesAt_code_iff fun hslash hhead => ?_
      cases rest with
      | nil => cases hhead
      | cons d more =>
        rw [Glyph.read] at hhead
        split at hhead
        · cases hhead
        · cases hhead
          exact hc more hslash rfl
  | case4 q c rest ih =>
    exact ((ih (start + '\\'.utf8Size + c.utf8Size)).cons fun _ => .rfl).cons fun _ => .rfl
  | case5 q c rest hc ih =>
    refine (ih (start + c.utf8Size)).cons fun b => ?_
    rw [Glyph.read]
    · rfl
    · exact hc

/-- A line is cut where its comment starts. -/
theorem isBefore_stripLine (line : Text) : IsBefore line (stripLine line) := by
  refine (cuts_stripInside none line 0).imp ?_ id
  rintro ⟨b, hslashes, hfirst, hb⟩
  obtain ⟨comment, hline⟩ := stripInside_prefix none line
  exact ⟨b, hslashes, hfirst, Text.slice?_eq_some_iff.2 ⟨[], comment, hline.symm, rfl, hb⟩⟩

end Comment

namespace Offsets

/-- The offset of the slashes that start a comment, from byte `b` of a line on. Kept in mind are the
quote that opened a literal, whether the next character of the literal is escaped, and whether a slash
outside literals stands right before. -/
def commentAt? (open? : Option Char) (escaped slash : Bool) (b : Nat) : Text → Option Nat
  | [] => none
  | c :: rest =>
    match open? with
    | some q =>
      if escaped then commentAt? (some q) false slash (b + c.utf8Size) rest
      else if c == '\\' then commentAt? (some q) true slash (b + c.utf8Size) rest
      else if c == q then commentAt? none escaped slash (b + c.utf8Size) rest
      else commentAt? (some q) escaped slash (b + c.utf8Size) rest
    | none =>
      if isQuote c then commentAt? (some c) escaped false (b + c.utf8Size) rest
      else if c == '/' then
        if slash then some (b - 1) else commentAt? none escaped true (b + c.utf8Size) rest
      else commentAt? none escaped false (b + c.utf8Size) rest

/-- The line up to this offset. -/
def stripLine? (line : Text) : Option Text :=
  match commentAt? none false false 0 line with
  | none => some line
  | some b => line.slice? 0 b

/-- Behind a slash a comment starts with the next one, if it is one. -/
theorem commentAt?_slash (b : Nat) (t : Text) :
    commentAt? none false true b t =
      if t.head? = some '/' then some (b - 1) else commentAt? none false false b t := by
  cases t with
  | nil => rfl
  | cons c rest =>
    by_cases hc : c = '/'
    · subst hc
      rfl
    · simp [commentAt?, hc]

/-- The offset behind what is left of a text that starts at byte `b`, if it is not all of the text. -/
def cutAt? (b : Nat) (t part : Text) : Option Nat :=
  if part = t then none else some (b + Text.byteSize part)

theorem cutAt?_cons (b : Nat) (c : Char) (t part : Text) :
    cutAt? b (c :: t) (c :: part) = cutAt? (b + c.utf8Size) t part := by
  simp only [cutAt?, List.cons.injEq, true_and, Text.byteSize_cons, Nat.add_assoc]

theorem commentAt?_eq (open? : Option Char) (b : Nat) (t : Text) :
    commentAt? open? false false b t = cutAt? b t (Comment.stripInside open? t) := by
  fun_induction Comment.stripInside open? t generalizing b with
  | case1 => rfl
  | case2 rest => rfl
  | case3 c rest hc ih =>
    rw [cutAt?_cons, ← ih, commentAt?]
    by_cases hq : isQuote c
    · rw [if_pos hq, if_pos hq]
    rw [if_neg hq, if_neg hq]
    by_cases hslash : c = '/'
    · have hhead : rest.head? ≠ some '/' := fun hhead => by
        obtain ⟨more, hmore⟩ := List.head?_eq_some_iff.1 hhead
        exact hc more hslash hmore
      rw [if_pos (beq_iff_eq.2 hslash), if_neg Bool.false_ne_true, commentAt?_slash, if_neg hhead]
    · rw [if_neg (by simpa using hslash)]
  | case4 q c rest ih =>
    rw [cutAt?_cons, cutAt?_cons, ← ih]
    rfl
  | case5 q c rest hc ih =>
    rw [cutAt?_cons, ← ih, commentAt?]
    by_cases hescape : c = '\\'
    · -- nothing stands behind this backslash
      have hrest : rest = [] := List.eq_nil_iff_forall_not_mem.2 fun d hd => by
        obtain ⟨e, more, hmore⟩ := List.exists_cons_of_ne_nil (List.ne_nil_of_mem hd)
        exact hc e more hescape hmore
      subst hrest
      simp [commentAt?]
    · rw [if_neg Bool.false_ne_true, if_neg (by simpa using hescape)]
      split <;> rfl

/-- The offset is one at which the line can be cut. -/
theorem stripLine?_eq (line : Text) : stripLine? line = some (Comment.stripLine line) := by
  rw [stripLine?, commentAt?_eq, cutAt?]
  by_cases hall : Comment.stripInside none line = line
  · rw [if_pos hall]
    exact congrArg some hall.symm
  · obtain ⟨comment, hline⟩ := Comment.stripInside_prefix none line
    rw [if_neg hall]
    exact Text.slice?_eq_some_iff.2 ⟨[], comment, hline.symm, rfl, rfl⟩

end Offsets

/-! ### All three readers -/

/-- The readers of literals agree. A line is cut, at an offset at which it can be, before the first two
slashes in a row that are outside literals; the bytes hidden in a text that is scanned are those of the
literals that the scanner takes; and a source keeps its lines, each cut before its comment. -/
theorem literal_readers_agree :
    (∀ line, Offsets.stripLine? line = some (Comment.stripLine line) ∧
      Comment.IsBefore line (Comment.stripLine line)) ∧
    (∀ t tokens, Token.scan t = .ok tokens → ∃ spans, Token.Marked.scan t = .ok (tokens, spans) ∧
      ∀ b, t.Hides b ↔ ∃ span ∈ spans, span.Covers b) ∧
    ∀ source : Text, source ≠ [] →
      (Comment.strip source).splitOn '\n' =
        source.lines.map fun line => (Comment.stripLine line).trimEnd :=
  ⟨fun line => ⟨Offsets.stripLine?_eq line, Comment.isBefore_stripLine line⟩,
    fun _ _ => Token.hides_iff_of_scan, fun _ => Comment.splitOn_strip⟩

/-- Quotes of the other kind, escaped ones and a character of two bytes in the literals of a token and
of a group. -/
theorem literal_readers_agree_mixed :
    ∃ (t source : Text) (tokens : List Text), Token.scan t = .ok tokens ∧ source ≠ [] ∧
      Token.Marked.scan t = .ok (tokens, [⟨0, 9⟩, ⟨13, 17⟩, ⟨19, 23⟩]) ∧
      (∀ b, t.Hides b ↔ ∃ span ∈ [(⟨0, 9⟩ : Span), ⟨13, 17⟩, ⟨19, 23⟩], span.Covers b) ∧
      (Comment.strip source).splitOn '\n' =
        source.lines.map fun line => (Comment.stripLine line).trimEnd := by
  have hscan : Token.scan "\"'//\\\\\\\"\"==f('\\'', \"é\")".toList =
      .ok (["\"'//\\\\\\\"\"", "==", "f('\\'', \"é\")"].map String.toList) := by
    decide +kernel
  obtain ⟨spans, hmarked, hhides⟩ := literal_readers_agree.2.1 _ _ hscan
  have hspans : spans = [⟨0, 9⟩, ⟨13, 17⟩, ⟨19, 23⟩] := by
    have hfound : Token.Marked.scan "\"'//\\\\\\\"\"==f('\\'', \"é\")".toList =
        .ok (["\"'//\\\\\\\"\"", "==", "f('\\'', \"é\")"].map String.toList,
          [⟨0, 9⟩, ⟨13, 17⟩, ⟨19, 23⟩]) := by
      decide +kernel
    exact (Prod.mk.inj (Except.ok.inj (hmarked.symm.trans hfound))).2
  subst hspans
  exact ⟨_, "a // \n\n".toList, _, hscan, by decide, hmarked, hhides,
    literal_readers_agree.2.2 _ (by decide)⟩

end StellaGo
