import StellaGo.Proofs.Offsets.Text
import StellaGo.Proofs.Scanning

/-! The bytes of literals. Defined here: the bytes of a text that are hidden because their characters
are not among those outside literals, and the scanner of expressions, noting the bytes of each literal
that it takes, as a token or in a group of a word. Proved: the bytes hidden in a text that is scanned
are those of the literals that the scanner takes. -/

namespace StellaGo

/-! ### Bytes of literals -/

/-- The bytes of a literal: those from `start` on and before `stop`. -/
structure Span where
  start : Nat
  stop : Nat
  deriving DecidableEq, Repr

def Span.Covers (span : Span) (b : Nat) : Prop := span.start ≤ b ∧ b < span.stop

/-- The byte `b` belongs to a character that is not among those outside literals. -/
def Text.Hides (t : Text) (b : Nat) : Prop :=
  b < t.byteSize ∧ ∀ place ∈ t.unquoted, ¬ (place.1 ≤ b ∧ b < place.1 + place.2.utf8Size)

namespace Glyph

/-- The byte `b` belongs to a quoted glyph, if the first glyph starts at byte `i`. -/
def Hidden : (i : Nat) → List Glyph → (b : Nat) → Prop
  | _, [], _ => False
  | i, code c :: rest, b => Hidden (i + c.utf8Size) rest b
  | i, quoted c :: rest, b => i ≤ b ∧ b < i + c.utf8Size ∨ Hidden (i + c.utf8Size) rest b

theorem hidden_iff (i : Nat) (gs : List Glyph) (b : Nat) :
    Hidden i gs b ↔ i ≤ b ∧ b < i + Text.byteSize (gs.map char) ∧
      ∀ place ∈ offsets i gs, ¬ (place.1 ≤ b ∧ b < place.1 + place.2.utf8Size) := by
  induction gs generalizing i with
  | nil => exact iff_of_false id fun ⟨hle, hlt, _⟩ => absurd hlt (Nat.not_lt.2 hle)
  | cons g rest ih =>
    have hpos := g.char.utf8Size_pos
    rw [List.map_cons, Text.byteSize_cons]
    cases g with
    | code c =>
      rw [Hidden, ih, offsets, List.forall_mem_cons]
      simp only [char] at hpos ⊢
      constructor
      · rintro ⟨hle, hlt, hplaces⟩
        exact ⟨by omega, by omega, by omega, hplaces⟩
      · rintro ⟨hle, hlt, hfirst, hplaces⟩
        exact ⟨by omega, by omega, hplaces⟩
    | quoted c =>
      rw [Hidden, ih, offsets]
      simp only [char] at hpos ⊢
      constructor
      · rintro (⟨hle, hlt⟩ | ⟨hle, hlt, hplaces⟩)
        · refine ⟨hle, by omega, fun place hplace => ?_⟩
          have := le_of_mem_offsets place hplace
          omega
        · exact ⟨by omega, by omega, hplaces⟩
      · rintro ⟨hle, hlt, hplaces⟩
        by_cases hb : b < i + c.utf8Size
        · exact .inl ⟨hle, hb⟩
        · exact .inr ⟨by omega, by omega, hplaces⟩

theorem hidden_append (i : Nat) (xs ys : List Glyph) (b : Nat) :
    Hidden i (xs ++ ys) b ↔ Hidden i xs b ∨ Hidden (i + Text.byteSize (xs.map char)) ys b := by
  induction xs generalizing i with
  | nil => exact (false_or _).symm ▸ .rfl
  | cons g rest ih =>
    cases g with
    | code c =>
      rw [List.cons_append, Hidden, Hidden, ih, List.map_cons, Text.byteSize_cons, Nat.add_assoc]
      rfl
    | quoted c =>
      rw [List.cons_append, Hidden, Hidden, ih, List.map_cons, Text.byteSize_cons, Nat.add_assoc,
        or_assoc]
      rfl

theorem hidden_map_quoted (i : Nat) (t : Text) (b : Nat) :
    Hidden i (t.map quoted) b ↔ i ≤ b ∧ b < i + Text.byteSize t := by
  induction t generalizing i with
  | nil => exact iff_of_false id fun ⟨hle, hlt⟩ => absurd hlt (Nat.not_lt.2 hle)
  | cons c rest ih =>
    rw [List.map_cons, Hidden, ih, Text.byteSize_cons]
    omega

end Glyph

theorem Text.hides_iff (t : Text) (b : Nat) : t.Hides b ↔ Glyph.Hidden 0 (Glyph.ofText t) b := by
  rw [Glyph.hidden_iff, Glyph.map_char_ofText, Nat.zero_add]
  exact (and_iff_right (Nat.zero_le b)).symm

/-- The text ends outside literals, and these are its literals, if it starts at byte `i`. -/
structure Text.Marks (i : Nat) (t : Text) (spans : List Span) : Prop where
  closed : t.IsClosed
  hidden_iff : ∀ b, Glyph.Hidden i (Glyph.ofText t) b ↔ ∃ span ∈ spans, span.Covers b

namespace Text.Marks

variable {i : Nat} {c : Char} {t u : Text} {spans more : List Span}

theorem nil (i : Nat) : Marks i [] [] := ⟨.nil, fun b => by simp [Glyph.ofText, Glyph.read, Glyph.Hidden]⟩

theorem append (ht : Marks i t spans) (hu : Marks (i + byteSize t) u more) :
    Marks i (t ++ u) (spans ++ more) := by
  refine ⟨ht.closed.append hu.closed, fun b => ?_⟩
  rw [ht.closed, Glyph.hidden_append, Glyph.map_char_ofText, ht.hidden_iff, hu.hidden_iff]
  simp only [List.mem_append, or_and_right, exists_or]

theorem plain (hc : ¬ isQuote c) (i : Nat) : Marks i [c] [] := by
  refine ⟨(IsClosed.cons_iff hc).2 .nil, fun b => ?_⟩
  rw [Pairs.ofText_cons hc]
  simp [Glyph.ofText, Glyph.read, Glyph.Hidden]

theorem cons (hc : ¬ isQuote c) (h : Marks (i + c.utf8Size) t spans) : Marks i (c :: t) spans :=
  (plain hc i).append h

theorem of_forall (h : ∀ c ∈ t, ¬ isQuote c) (i : Nat) : Marks i t [] := by
  induction t generalizing i with
  | nil => exact .nil i
  | cons c rest ih =>
    obtain ⟨hc, hrest⟩ := List.forall_mem_cons.1 h
    exact .cons hc (ih hrest _)

/-- The span of the literal that starts with `quote` at byte `i`. -/
def literalSpan (i : Nat) (quote : Char) (body : Text) : Span := ⟨i, i + byteSize (quote :: body)⟩

theorem literal {body : Text} (hc : isQuote c) (hl : Token.literal? c body = some (body, []))
    (h : Marks (i + byteSize (c :: body)) t spans) :
    Marks i (c :: (body ++ t)) (literalSpan i c body :: spans) := by
  have hclosed := (IsClosed.literal_iff hc hl).2 IsClosed.nil
  have htext := IsClosed.ofText_literal hc hl []
  rw [List.append_nil] at hclosed htext
  have hspan : Marks i (c :: body) [literalSpan i c body] := by
    refine ⟨hclosed, fun b => ?_⟩
    rw [htext, Glyph.ofText, Glyph.read, List.append_nil, Glyph.hidden_map_quoted]
    simp [literalSpan, Span.Covers]
  exact hspan.append h

end Text.Marks

/-! ### Literals of the scanner -/

namespace Token

open Text.Marks (literalSpan)

namespace Marked

/-- Scans the rest of a group, which starts at byte `i`, and notes the literals that it takes. -/
def group (word : Text) (i : Nat) (stack : List Bracket) (t : Text) :
    Check (Text × List Span × Text) :=
  match t with
  | [] => .error (.neverClosed word)
  | c :: rest =>
    if isQuote c then
      match _h : literal? c rest with
      | none => .error (.openLiteral c)
      | some (body, more) =>
        (group word (i + Text.byteSize (c :: body)) stack more).map fun (tail, spans, after) =>
          (c :: (body ++ tail), literalSpan i c body :: spans, after)
    else
      match Bracket.ofOpener? c, Bracket.ofCloser? c, stack with
      | some b, _, _ =>
        (group word (i + c.utf8Size) (b :: stack) rest).map fun (tail, found) => (c :: tail, found)
      | none, some b, top :: below =>
        if top ≠ b then .error (.wrongCloser c)
        else if below = [] then .ok ([c], [], rest)
        else (group word (i + c.utf8Size) below rest).map fun (tail, found) => (c :: tail, found)
      | none, some _, [] => .error (.wrongCloser c)
      | none, none, _ =>
        (group word (i + c.utf8Size) stack rest).map fun (tail, found) => (c :: tail, found)
termination_by t.length
decreasing_by
  all_goals simp only [List.length_cons]
  · have := congrArg List.length (append_of_literal? _h)
    simp only [List.length_append] at this
    omega
  all_goals omega

theorem append_of_group {word t g after : Text} {i : Nat} {stack : List Bracket} {spans : List Span}
    (h : group word i stack t = .ok (g, spans, after)) : g ++ after = t := by
  fun_induction group word i stack t generalizing g spans <;>
    grind [Check.map_eq_ok_iff, append_of_literal?]

/-- Scans the rest of a word, which starts at byte `i`, and notes the literals in its groups. -/
def word (whole : Text) (i : Nat) (t : Text) : Check (Text × List Span × Text) :=
  match t with
  | [] => .ok ([], [], [])
  | c :: rest =>
    match Bracket.ofOpener? c with
    | some b =>
      match _h : group whole (i + c.utf8Size) [b] rest with
      | .error fault => .error fault
      | .ok (g, spans, more) =>
        (word whole (i + Text.byteSize (c :: g)) more).map fun (tail, others, after) =>
          (c :: (g ++ tail), spans ++ others, after)
    | none =>
      if endsWord c then .ok ([], [], c :: rest)
      else (word whole (i + c.utf8Size) rest).map fun (tail, found) => (c :: tail, found)
termination_by t.length
decreasing_by
  all_goals simp only [List.length_cons]
  · have := congrArg List.length (append_of_group _h)
    simp only [List.length_append] at this
    omega
  · omega

theorem append_of_word {whole t w after : Text} {i : Nat} {spans : List Span}
    (h : word whole i t = .ok (w, spans, after)) : w ++ after = t := by
  fun_induction word whole i t generalizing w spans <;>
    grind [Check.map_eq_ok_iff, append_of_group]

theorem ne_nil_of_word {whole rest w after : Text} {i : Nat} {c : Char} {spans : List Span}
    (hc : endsWord c = false) (h : word whole i (c :: rest) = .ok (w, spans, after)) : w ≠ [] := by
  rw [word] at h
  grind [Check.map_eq_ok_iff]

/-- Scans a text, which starts at byte `i`, and notes the literals that it takes, as tokens and in
the groups of words. -/
def scanInside (i : Nat) (stack : List Bracket) (t : Text) : Check (List Text × List Span) :=
  match t with
  | [] =>
    match stack with
    | [] => .ok ([], [])
    | b :: _ => .error (.neverClosed [b.opener])
  | c :: rest =>
    if _hc : endsWord c then
      if isQuote c then
        match _h : literal? c rest with
        | none => .error (.openLiteral c)
        | some (body, more) =>
          (scanInside (i + Text.byteSize (c :: body)) stack more).map fun (tokens, spans) =>
            ((c :: body) :: tokens, literalSpan i c body :: spans)
      else if isBlank c then scanInside (i + c.utf8Size) stack rest
      else if isOperatorChar c then
        match _h : Operator.read? (c :: rest) with
        | none => .error (.noOperator c)
        | some (op, more) =>
          (scanInside (i + Text.byteSize op.symbol.toList) stack more).map fun (tokens, spans) =>
            (op.symbol.toList :: tokens, spans)
      else
        match Bracket.ofCloser? c, stack with
        | some b, top :: below =>
          if top = b then
            (scanInside (i + c.utf8Size) below rest).map fun (tokens, spans) => ([c] :: tokens, spans)
          else .error (.strayCloser c)
        | _, _ => .error (.strayCloser c)
    else
      match Bracket.ofOpener? c with
      | some .round =>
        (scanInside (i + c.utf8Size) (.round :: stack) rest).map fun (tokens, spans) =>
          ([c] :: tokens, spans)
      | some .curly =>
        (scanInside (i + c.utf8Size) (.curly :: stack) rest).map fun (tokens, spans) =>
          ([c] :: tokens, spans)
      | _ =>
        match _h : word (c :: rest) i (c :: rest) with
        | .error fault => .error fault
        | .ok (w, spans, more) =>
          (scanInside (i + Text.byteSize w) stack more).map fun (tokens, others) =>
            (w :: tokens, spans ++ others)
termination_by t.length
decreasing_by
  all_goals try simp only [List.length_cons]
  · have := congrArg List.length (append_of_literal? _h)
    simp only [List.length_append] at this
    omega
  · omega
  · have := Operator.length_read?_lt _h
    simpa using this
  · omega
  · omega
  · omega
  · have hw := congrArg List.length (append_of_word _h)
    have hp := List.length_pos_iff.2 (ne_nil_of_word (by simpa using _hc) _h)
    simp only [List.length_append, List.length_cons] at hw
    omega

def scan (t : Text) : Check (List Text × List Span) := scanInside 0 [] t

/-- What the scanner takes as a group is taken here too, and its literals are noted. -/
theorem exists_marks_of_group {whole t g after : Text} {i : Nat} {stack : List Bracket}
    (h : Token.group whole stack t = .ok (g, after)) :
    ∃ spans, group whole i stack t = .ok (g, spans, after) ∧ Text.Marks i g spans := by
  fun_induction Token.group whole stack t generalizing g i with
  | case1 | case2 | case5 | case8 => cases h
  | case3 stack c rest hq body more hl ih =>
    obtain ⟨⟨tail, behind⟩, ht, heq⟩ := Check.map_eq_ok_iff.1 h
    cases heq
    obtain ⟨spans, hgroup, hmarks⟩ := ih (i := i + Text.byteSize (c :: body)) ht
    refine ⟨literalSpan i c body :: spans, ?_, hmarks.literal hq (literal?_body hl)⟩
    rw [group.eq_def]
    simp only [if_pos hq]
    split
    · next hnone => cases hl.symm.trans hnone
    · next hsome =>
      cases hl.symm.trans hsome
      rw [hgroup]
      rfl
  | case4 stack c rest hq b hb ih =>
    obtain ⟨⟨tail, behind⟩, ht, heq⟩ := Check.map_eq_ok_iff.1 h
    cases heq
    obtain ⟨spans, hgroup, hmarks⟩ := ih (i := i + c.utf8Size) ht
    refine ⟨spans, ?_, hmarks.cons hq⟩
    rw [group.eq_def]
    simp only [if_neg hq, hb, hgroup]
    rfl
  | case6 c rest hq b top hb ho hsame =>
    cases h
    refine ⟨[], ?_, .plain hq i⟩
    rw [group.eq_def]
    simp only [if_neg hq, hb, ho, if_neg hsame, if_true]
  | case7 c rest hq b top below hb ho hsame hbelow ih =>
    obtain ⟨⟨tail, behind⟩, ht, heq⟩ := Check.map_eq_ok_iff.1 h
    cases heq
    obtain ⟨spans, hgroup, hmarks⟩ := ih (i := i + c.utf8Size) ht
    refine ⟨spans, ?_, hmarks.cons hq⟩
    rw [group.eq_def]
    simp only [if_neg hq, hb, ho, if_neg hsame, if_neg hbelow, hgroup]
    rfl
  | case9 stack c rest hq hc ho ih =>
    obtain ⟨⟨tail, behind⟩, ht, heq⟩ := Check.map_eq_ok_iff.1 h
    cases heq
    obtain ⟨spans, hgroup, hmarks⟩ := ih (i := i + c.utf8Size) ht
    refine ⟨spans, ?_, hmarks.cons hq⟩
    rw [group.eq_def]
    simp only [if_neg hq, hc, ho, hgroup]
    rfl

/-- What the scanner takes as a word is taken here too, and its literals are noted. -/
theorem exists_marks_of_word {whole t w after : Text} {i : Nat}
    (h : Token.word whole t = .ok (w, after)) :
    ∃ spans, word whole i t = .ok (w, spans, after) ∧ Text.Marks i w spans := by
  fun_induction Token.word whole t generalizing w i with
  | case1 =>
    cases h
    exact ⟨[], by rw [word.eq_def], .nil i⟩
  | case2 => cases h
  | case3 c rest b hb g more hg ih =>
    obtain ⟨⟨tail, behind⟩, ht, heq⟩ := Check.map_eq_ok_iff.1 h
    cases heq
    have hq : ¬ isQuote c := by
      rw [Bracket.ofOpener?_eq_some_iff.1 hb]
      exact Text.Pairs.not_isQuote_opener b
    obtain ⟨spans, hgroup, hmarks⟩ := exists_marks_of_group (i := i + c.utf8Size) hg
    obtain ⟨others, hword, htail⟩ := ih (i := i + Text.byteSize (c :: g)) ht
    refine ⟨spans ++ others, ?_, (hmarks.cons hq).append htail⟩
    rw [word.eq_def]
    simp only [hb]
    split
    · next herror => cases hgroup.symm.trans herror
    · next hok =>
      cases hgroup.symm.trans hok
      rw [hword]
      rfl
  | case4 c rest ho hc =>
    cases h
    refine ⟨[], ?_, .nil i⟩
    rw [word.eq_def]
    simp only [ho, if_pos hc]
  | case5 c rest ho hc ih =>
    obtain ⟨⟨tail, behind⟩, ht, heq⟩ := Check.map_eq_ok_iff.1 h
    cases heq
    have hq := (not_endsWord_iff.1 hc).1
    obtain ⟨spans, hword, hmarks⟩ := ih (i := i + c.utf8Size) ht
    refine ⟨spans, ?_, hmarks.cons hq⟩
    rw [word.eq_def]
    simp only [ho, if_neg hc, hword]
    rfl

/-- The scanner's tokens are found here too, and its literals are noted. -/
theorem exists_marks_of_scanInside {t : Text} {tokens : List Text} {i : Nat} {stack : List Bracket}
    (h : Token.scanInside stack t = .ok tokens) :
    ∃ spans, scanInside i stack t = .ok (tokens, spans) ∧ Text.Marks i t spans := by
  fun_induction Token.scanInside stack t generalizing tokens i with
  | case1 =>
    cases h
    exact ⟨[], by rw [scanInside.eq_def], .nil i⟩
  | case2 | case3 | case6 | case9 | case10 | case13 => cases h
  | case4 stack c rest hc hq body more hl ih =>
    obtain ⟨ts, hts, rfl⟩ := Check.map_eq_ok_iff.1 h
    obtain ⟨spans, hscan, hmarks⟩ := ih (i := i + Text.byteSize (c :: body)) hts
    obtain rfl := append_of_literal? hl
    refine ⟨literalSpan i c body :: spans, ?_, hmarks.literal hq (literal?_body hl)⟩
    rw [scanInside.eq_def]
    simp only [dif_pos hc, if_pos hq]
    split
    · next hnone => cases hl.symm.trans hnone
    · next hsome =>
      cases hl.symm.trans hsome
      rw [hscan]
      rfl
  | case5 stack c rest hc hq hb ih =>
    obtain ⟨spans, hscan, hmarks⟩ := ih (i := i + c.utf8Size) h
    refine ⟨spans, ?_, hmarks.cons hq⟩
    rw [scanInside.eq_def]
    simp only [dif_pos hc, if_neg hq, if_pos hb, hscan]
  | case7 stack c rest hc hq hb ho op more hr ih =>
    obtain ⟨ts, hts, rfl⟩ := Check.map_eq_ok_iff.1 h
    obtain ⟨spans, hscan, hmarks⟩ := ih (i := i + Text.byteSize op.symbol.toList) hts
    have hsymbol : Text.Marks i op.symbol.toList [] := .of_forall (by cases op <;> decide) i
    refine ⟨spans, ?_, Operator.append_of_read? hr ▸ hsymbol.append hmarks⟩
    rw [scanInside.eq_def]
    simp only [dif_pos hc, if_neg hq, if_neg hb, if_pos ho]
    split
    · next hnone => cases hr.symm.trans hnone
    · next hsome =>
      cases hr.symm.trans hsome
      rw [hscan]
      rfl
  | case8 c rest hc hq hb ho b below hcl ih =>
    obtain ⟨ts, hts, rfl⟩ := Check.map_eq_ok_iff.1 h
    obtain ⟨spans, hscan, hmarks⟩ := ih (i := i + c.utf8Size) hts
    refine ⟨spans, ?_, hmarks.cons hq⟩
    rw [scanInside.eq_def]
    simp only [dif_pos hc, if_neg hq, if_neg hb, if_neg ho, hcl, if_true, hscan]
    rfl
  | case11 stack c rest hc hb ih | case12 stack c rest hc hb ih =>
    obtain ⟨ts, hts, rfl⟩ := Check.map_eq_ok_iff.1 h
    obtain ⟨spans, hscan, hmarks⟩ := ih (i := i + c.utf8Size) hts
    have hq : ¬ isQuote c := by
      rw [Bracket.ofOpener?_eq_some_iff.1 hb]
      exact Text.Pairs.not_isQuote_opener _
    refine ⟨spans, ?_, hmarks.cons hq⟩
    rw [scanInside.eq_def]
    simp only [dif_neg hc, hb, hscan]
    rfl
  | case14 stack c rest hc w more hw hround hcurly ih =>
    obtain ⟨ts, hts, rfl⟩ := Check.map_eq_ok_iff.1 h
    obtain ⟨spans, hword, hmarks⟩ := exists_marks_of_word (i := i) hw
    obtain ⟨others, hscan, htail⟩ := ih (i := i + Text.byteSize w) hts
    have happend := append_of_word hword
    refine ⟨spans ++ others, ?_, happend ▸ hmarks.append htail⟩
    rw [scanInside.eq_def]
    simp only [dif_neg hc]
    split
    · next herror => cases hword.symm.trans herror
    · next hok =>
      cases hword.symm.trans hok
      rw [hscan]
      rfl

end Marked

/-- The bytes hidden in a text that is scanned are those of the literals that the scanner takes. -/
theorem hides_iff_of_scan {t : Text} {tokens : List Text} (h : scan t = .ok tokens) :
    ∃ spans, Marked.scan t = .ok (tokens, spans) ∧ ∀ b, t.Hides b ↔ ∃ span ∈ spans, span.Covers b := by
  obtain ⟨spans, hscan, hmarks⟩ := Marked.exists_marks_of_scanInside (i := 0) h
  exact ⟨spans, hscan, fun b => (t.hides_iff b).trans (hmarks.hidden_iff b)⟩

end Token

end StellaGo
