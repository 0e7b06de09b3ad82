import StellaGo.Proofs.GoLexer
import StellaGo.Proofs.Layout

/-! Texts that close their brackets. Defined here: texts that close each bracket by its own kind and
leave no literal open. Proved: every reader of brackets goes through such a text to what stands behind
it, so what was put in brackets is found again between them, and parts put between commas are found
again between these. -/

namespace StellaGo

namespace Text

/-- The text closes the brackets `stack` and all that it opens, each by its own kind, and its literals.
Its commas stand in brackets, or anywhere if the text itself stands `inside` of some. -/
inductive Closes (inside : Bool) : (stack : List Bracket) → Text → Prop
  | nil : Closes inside [] []
  | literal {stack : List Bracket} {quote : Char} {body t : Text} (hq : isQuote quote)
      (hl : Token.literal? quote body = some (body, [])) (h : Closes inside stack t) :
      Closes inside stack (quote :: (body ++ t))
  | opener {stack : List Bracket} {t : Text} (b : Bracket) (h : Closes inside (b :: stack) t) :
      Closes inside stack (b.opener :: t)
  | closer {stack : List Bracket} {t : Text} (b : Bracket) (h : Closes inside stack t) :
      Closes inside (b :: stack) (b.closer :: t)
  | plain {stack : List Bracket} {c : Char} {t : Text} (hc : isFlat [c])
      (hcomma : c = ',' → inside ∨ stack ≠ []) (h : Closes inside stack t) :
      Closes inside stack (c :: t)

theorem isFlat_singleton_iff {c : Char} :
    isFlat [c] ↔ ¬ isQuote c ∧ Bracket.ofOpener? c = none ∧ Bracket.ofCloser? c = none := by
  simp [isFlat, isOpener, isCloser, and_assoc]

/-- A character with which a word goes on outside its groups. -/
theorem isFlat_of_not_endsWord {c : Char} (ho : Bracket.ofOpener? c = none)
    (hc : ¬ Token.endsWord c) : isFlat [c] := by
  obtain ⟨hq, hcloser, -, -⟩ := Token.not_endsWord_iff.1 hc
  exact isFlat_singleton_iff.2 ⟨hq, ho, Option.not_isSome_iff_eq_none.1 hcloser⟩

end Text

namespace Glyph

theorem closing_quoted (depth : Nat) (xs : Text) (gs : List Glyph) :
    closing depth (xs.map quoted ++ gs) = (closing depth gs).map (· + xs.length) := by
  induction xs with
  | nil => exact Option.map_id'.symm
  | cons c rest ih =>
    rw [List.map_cons, List.cons_append, closing, ih, Option.map_map]
    rfl

theorem closing_opener (depth : Nat) (b : Bracket) (gs : List Glyph) :
    closing depth (code b.opener :: gs) = (closing (depth + 1) gs).map (· + 1) := by
  cases b <;> rw [closing.eq_def] <;> rfl

theorem closing_closer (depth : Nat) (b : Bracket) (gs : List Glyph) :
    closing (depth + 2) (code b.closer :: gs) = (closing (depth + 1) gs).map (· + 1) := by
  cases b <;> rw [closing.eq_def] <;> rfl

theorem closing_last (b : Bracket) (gs : List Glyph) : closing 1 (code b.closer :: gs) = some 0 := by
  cases b <;> rw [closing.eq_def] <;> rfl

theorem closing_flat {c : Char} (hc : Text.isFlat [c]) (depth : Nat) (gs : List Glyph) :
    closing depth (code c :: gs) = (closing depth gs).map (· + 1) := by
  obtain ⟨-, ho, hcl⟩ := Text.isFlat_singleton_iff.1 hc
  rw [closing.eq_def]
  simp [isOpener, isCloser, ho, hcl]

theorem pieces_quoted (sep : Char) (depth : Int) (xs : Text) (gs : List Glyph) :
    pieces sep depth (xs.map quoted ++ gs) = (pieces sep depth gs).modifyHead (xs ++ ·) := by
  induction xs with
  | nil => exact (congrFun List.modifyHead_id _).symm
  | cons c rest ih =>
    rw [List.map_cons, List.cons_append, pieces]
    simp only [separates, Bool.false_and, Bool.false_eq_true, if_false, depthAfter]
    rw [ih, List.modifyHead_modifyHead]
    rfl

theorem pieces_opener (depth : Int) (b : Bracket) (gs : List Glyph) :
    pieces ',' depth (code b.opener :: gs) = (pieces ',' (depth + 1) gs).modifyHead (b.opener :: ·) := by
  cases b <;> rfl

theorem pieces_closer (depth : Int) (b : Bracket) (gs : List Glyph) :
    pieces ',' depth (code b.closer :: gs) = (pieces ',' (depth - 1) gs).modifyHead (b.closer :: ·) := by
  cases b <;> rfl

theorem pieces_flat {c : Char} {depth : Int} (hc : Text.isFlat [c]) (hcomma : c = ',' → depth ≠ 0)
    (gs : List Glyph) :
    pieces ',' depth (code c :: gs) = (pieces ',' depth gs).modifyHead (c :: ·) := by
  obtain ⟨-, ho, hcl⟩ := Text.isFlat_singleton_iff.1 hc
  have hseparates : ¬ (separates ',' (code c) && depth == 0) := by
    rw [separates, Bool.and_eq_true, Bool.and_eq_true, Bool.and_eq_true]
    rintro ⟨⟨⟨hsep, -⟩, -⟩, hdepth⟩
    exact hcomma (beq_iff_eq.1 hsep) (beq_iff_eq.1 hdepth)
  rw [pieces, if_neg hseparates, depthAfter, isOpener, isCloser, ho, hcl]
  rfl

end Glyph

/-! ### Groups -/

namespace Token

/-- The text `front`, and behind it what was scanned. -/
def behind (front : Text) (scanned : Check (Text × Text)) : Check (Text × Text) :=
  scanned.map fun (tail, after) => (front ++ tail, after)

theorem behind_nil (scanned : Check (Text × Text)) : behind [] scanned = scanned := by
  cases scanned <;> rfl

theorem behind_behind (front next : Text) (scanned : Check (Text × Text)) :
    behind front (behind next scanned) = behind (front ++ next) scanned := by
  cases scanned with
  | error fault => rfl
  | ok pair => exact congrArg (fun t => Except.ok (t, pair.2)) (List.append_assoc front next pair.1).symm

variable {word body u : Text} {stack : List Bracket} {c : Char}

theorem group_literal (hq : isQuote c) (hl : literal? c body = some (body, [])) :
    group word stack (c :: (body ++ u)) = behind (c :: body) (group word stack u) := by
  have hliteral := literal?_append hl u
  rw [group.eq_def]
  simp only [hq, if_true]
  split
  · next hnone => cases hnone.symm.trans hliteral
  · next hsome =>
    cases hsome.symm.trans hliteral
    rfl

theorem group_opener {b : Bracket} :
    group word stack (b.opener :: u) = behind [b.opener] (group word (b :: stack) u) := by
  rw [group.eq_def]
  cases b <;> rfl

theorem group_closer {b : Bracket} (hne : stack ≠ []) :
    group word (b :: stack) (b.closer :: u) = behind [b.closer] (group word stack u) := by
  rw [group.eq_def]
  cases b <;> simp [Bracket.closer, isQuote, Bracket.ofOpener?, Bracket.ofCloser?, hne] <;> rfl

theorem group_last {b : Bracket} : group word [b] (b.closer :: u) = .ok ([b.closer], u) := by
  rw [group.eq_def]
  cases b <;> rfl

theorem group_flat (hc : Text.isFlat [c]) :
    group word stack (c :: u) = behind [c] (group word stack u) := by
  obtain ⟨hq, ho, hcl⟩ := Text.isFlat_singleton_iff.1 hc
  rw [group.eq_def]
  simp only [hq, ho, hcl]
  rfl

end Token

namespace Text

namespace Closes

variable {inside : Bool} {stack : List Bracket} {t u : Text}

theorem append {inside' : Bool} {stack' : List Bracket} (ht : Closes inside stack t)
    (hu : Closes inside' stack' u) (h : inside → inside' ∨ stack' ≠ []) :
    Closes inside' (stack ++ stack') (t ++ u) := by
  induction ht with
  | nil => exact hu
  | literal hq hl _ ih =>
    rw [List.cons_append, List.append_assoc]
    exact .literal hq hl ih
  | opener b _ ih => exact .opener b ih
  | closer b _ ih => exact .closer b ih
  | plain hc hcomma _ ih =>
    refine .plain hc (fun heq => ?_) ih
    rcases hcomma heq with hin | hne
    · exact (h hin).imp id fun hne hnil => hne (List.append_eq_nil_iff.1 hnil).2
    · exact .inr fun hnil => hne (List.append_eq_nil_iff.1 hnil).1

theorem flat (h : t.isFlat) (hcomma : ',' ∉ t) : Closes inside [] t := by
  induction t with
  | nil => exact .nil
  | cons c rest ih =>
    obtain ⟨hc, hrest⟩ := isFlat_append.1 (show isFlat ([c] ++ rest) from h)
    rw [List.mem_cons, not_or] at hcomma
    exact .plain hc (fun heq => absurd heq.symm hcomma.1) (ih hrest hcomma.2)

/-- What stands in brackets. -/
theorem group (h : Closes true [] t) (b : Bracket) :
    Closes inside [] (b.opener :: (t ++ [b.closer])) :=
  .opener b (h.append (.closer b .nil) fun _ => .inr (List.cons_ne_nil _ _))

/-- What can stand between commas can stand in brackets. -/
theorem in_brackets (h : Closes false [] t) : Closes true [] t := by
  have happend : Closes true ([] ++ []) (t ++ []) := h.append .nil nofun
  rwa [List.append_nil, List.append_nil] at happend

/-- Parts between separators that can stand in brackets. -/
theorem intercalate {separator : Text} (hs : Closes true [] separator) {parts : List Text}
    (h : ∀ part ∈ parts, Closes false [] part) : Closes true [] (List.intercalate separator parts) := by
  induction parts with
  | nil => exact .nil
  | cons part rest ih =>
    obtain ⟨hfirst, hrest⟩ := List.forall_mem_cons.1 h
    have hothers := ih hrest
    cases rest with
    | nil =>
      rw [List.intercalate_singleton]
      exact hfirst.in_brackets
    | cons next more =>
      rw [List.intercalate_cons_cons, List.append_assoc]
      exact hfirst.append (hs.append hothers fun _ => .inl rfl) fun _ => .inl rfl

theorem comma {t : Text} (h : Closes true [] t) : Closes true [] (',' :: t) :=
  .plain (by decide) (fun _ => .inl rfl) h

theorem commas {parts : List Text} (h : ∀ part ∈ parts, Closes false [] part) :
    Closes true [] (Go.commas parts) :=
  .intercalate (.comma (.flat (by decide) (by decide))) h

/-! ### Readers of glyphs -/

theorem isClosed (h : Closes inside stack t) : t.IsClosed := by
  induction h with
  | nil => exact .nil
  | literal hq hl _ ih => exact (IsClosed.literal_iff hq hl).2 ih
  | opener b _ ih => exact (IsClosed.cons_iff (Pairs.not_isQuote_opener b)).2 ih
  | closer b _ ih => exact (IsClosed.cons_iff (Pairs.not_isQuote_closer b)).2 ih
  | plain hc _ _ ih => exact (IsClosed.cons_iff (isFlat_singleton_iff.1 hc).1).2 ih

/-- The search for the closing bracket goes on behind the text. -/
theorem closing (h : Closes inside stack t) (n : Nat) (gs : List Glyph) :
    Glyph.closing (stack.length + (n + 1)) (Glyph.ofText t ++ gs) =
      (Glyph.closing (n + 1) gs).map (· + t.length) := by
  induction h with
  | nil =>
    rw [List.length_nil, Nat.zero_add]
    exact Option.map_id'.symm
  | literal hq hl _ ih =>
    rw [IsClosed.ofText_literal hq hl, List.append_assoc, Glyph.closing_quoted, ih, Option.map_map]
    congr 1
    funext i
    simp only [Function.comp_apply, List.length_cons, List.length_append]
    omega
  | @opener stack t b _ ih =>
    rw [List.length_cons, Nat.add_right_comm] at ih
    rw [Pairs.ofText_opener, List.cons_append, Glyph.closing_opener, ih, Option.map_map]
    rfl
  | @closer stack t b _ ih =>
    have hdepth : (b :: stack).length + (n + 1) = stack.length + n + 2 := by
      rw [List.length_cons]
      omega
    rw [Pairs.ofText_closer, List.cons_append, hdepth, Glyph.closing_closer]
    rw [← Nat.add_assoc] at ih
    rw [ih, Option.map_map]
    rfl
  | plain hc _ _ ih =>
    rw [Pairs.ofText_cons (isFlat_singleton_iff.1 hc).1, List.cons_append, Glyph.closing_flat hc, ih,
      Option.map_map]
    rfl

/-- The first bracket is closed by the one behind the text. -/
theorem closing_group (h : Closes inside [] t) (b : Bracket) (u : Text) :
    Glyph.closing 0 (Glyph.ofText (b.opener :: (t ++ b.closer :: u))) = some (t.length + 1) := by
  have hclosing : Glyph.closing (0 + 1) (Glyph.ofText t ++ Glyph.ofText (b.closer :: u)) = _ :=
    h.closing 0 _
  rw [Pairs.ofText_opener, Glyph.closing_opener, h.isClosed, hclosing,
    Pairs.ofText_closer, Glyph.closing_last, Option.map_some, Option.map_some, Nat.zero_add]

/-- The text stands in one part. -/
theorem pieces (h : Closes false stack t) (gs : List Glyph) :
    Glyph.pieces ',' stack.length (Glyph.ofText t ++ gs) =
      (Glyph.pieces ',' 0 gs).modifyHead (t ++ ·) := by
  induction h with
  | nil => exact (congrFun List.modifyHead_id _).symm
  | literal hq hl _ ih =>
    rw [IsClosed.ofText_literal hq hl, List.append_assoc, Glyph.pieces_quoted, ih,
      List.modifyHead_modifyHead]
    congr 1
    funext piece
    simp
  | @opener stack t b _ ih =>
    rw [List.length_cons, Int.natCast_succ] at ih
    rw [Pairs.ofText_opener, List.cons_append, Glyph.pieces_opener, ih,
      List.modifyHead_modifyHead]
    rfl
  | @closer stack t b _ ih =>
    rw [Pairs.ofText_closer, List.cons_append, Glyph.pieces_closer,
      List.length_cons, Int.natCast_succ, Int.add_sub_cancel, ih, List.modifyHead_modifyHead]
    rfl
  | @plain stack c t hc hcomma _ ih =>
    have hdepth : c = ',' → (stack.length : Int) ≠ 0 := fun heq => by
      have hne := (hcomma heq).resolve_left Bool.false_ne_true
      simpa using hne
    rw [Pairs.ofText_cons (isFlat_singleton_iff.1 hc).1, List.cons_append, Glyph.pieces_flat hc hdepth,
      ih, List.modifyHead_modifyHead]
    rfl

/-- The rest of a group goes on behind the text. -/
theorem group_append (h : Closes inside stack t) (word : Text) (b : Bracket) (below : List Bracket)
    (u : Text) :
    Token.group word (stack ++ b :: below) (t ++ u) = Token.behind t (Token.group word (b :: below) u) := by
  induction h with
  | nil => exact (Token.behind_nil _).symm
  | literal hq hl _ ih =>
    rw [List.cons_append, List.append_assoc, Token.group_literal hq hl, ih, Token.behind_behind,
      List.cons_append]
  | opener c _ ih =>
    rw [List.cons_append] at ih
    rw [List.cons_append, Token.group_opener, ih, Token.behind_behind, List.singleton_append]
  | closer c _ ih =>
    rw [List.cons_append, List.cons_append, Token.group_closer (by simp), ih, Token.behind_behind,
      List.singleton_append]
  | plain hc _ _ ih =>
    rw [List.cons_append, Token.group_flat hc, ih, Token.behind_behind, List.singleton_append]

end Closes

/-! ### Groups and parts -/

variable {t u : Text}

/-- What was put in brackets is found between them. -/
theorem inside?_group {name : Text} (hname : ∀ c ∈ name, ¬ isQuote c) (h : Closes true [] t)
    (b : Bracket) : inside? (name ++ b.opener :: (t ++ [b.closer])) name.length = some t := by
  have hdrop : (Glyph.ofText (name ++ b.opener :: (t ++ [b.closer]))).drop name.length =
      Glyph.ofText (b.opener :: (t ++ [b.closer])) := by
    rw [IsClosed.of_forall hname, ← Glyph.length_ofText name, List.drop_left]
  have hlength : (name ++ b.opener :: (t ++ [b.closer])).length - 1 = name.length + (t.length + 1) := by
    simp only [List.length_append, List.length_cons, List.length_nil]
    omega
  have hcloser : closerFrom? (name ++ b.opener :: (t ++ [b.closer])) name.length =
      some (name.length + (t.length + 1)) := by
    rw [closerFrom?, hdrop, h.closing_group]
    rfl
  rw [inside?, hcloser, hlength, if_pos rfl, List.drop_append]
  simp

/-- Texts that were put in square brackets one behind the other are found in these. -/
theorem squareInsides?_groups {insides : List Text} (h : ∀ inside ∈ insides, Closes true [] inside) :
    Glyph.squareInsides? (Glyph.ofText (insides.flatMap fun inside => '[' :: (inside ++ [']']))) =
      some insides := by
  induction insides with
  | nil =>
    rw [List.flatMap_nil, Glyph.squareInsides?.eq_def]
    rfl
  | cons first others ih =>
    obtain ⟨hfirst, hothers⟩ := List.forall_mem_cons.1 h
    have hclosing := hfirst.closing_group .square (others.flatMap fun inside => '[' :: (inside ++ [']']))
    have htext : (first :: others).flatMap (fun inside => '[' :: (inside ++ [']'])) =
        Bracket.square.opener :: (first ++ Bracket.square.closer ::
          others.flatMap fun inside => '[' :: (inside ++ [']'])) := by
      rw [List.flatMap_cons, List.cons_append, List.append_assoc]
      rfl
    rw [Pairs.ofText_opener, hfirst.isClosed, Pairs.ofText_closer] at hclosing
    rw [htext, Pairs.ofText_opener, hfirst.isClosed, Pairs.ofText_closer, Glyph.squareInsides?,
      if_pos (by rfl)]
    split
    · next k hk =>
      obtain rfl : k = first.length + 1 := Option.some.inj (hk.symm.trans hclosing)
      rw [← Glyph.length_ofText first, Nat.add_sub_cancel, List.take_left, ← List.drop_drop,
        List.drop_left, List.drop_one, List.tail_cons, ih hothers, Glyph.map_char_ofText]
      rfl
    · next hnone => cases hnone.symm.trans hclosing

/-- Parts that were joined by commas are the pieces between these. -/
theorem pieces_intercalate {first : Text} {others : List Text} (hfirst : Closes false [] first)
    (hothers : ∀ part ∈ others, Closes false [] part) :
    Glyph.pieces ',' 0 (Glyph.ofText (List.intercalate [','] (first :: others))) = first :: others := by
  induction others generalizing first with
  | nil =>
    have hpieces := hfirst.pieces []
    rw [List.append_nil] at hpieces
    rw [List.intercalate_singleton]
    refine hpieces.trans ?_
    rw [Glyph.pieces, List.modifyHead_cons, List.append_nil]
  | cons next more ih =>
    obtain ⟨hnext, hmore⟩ := List.forall_mem_cons.1 hothers
    have hcomma (gs : List Glyph) : Glyph.pieces ',' 0 (.code ',' :: gs) = [] :: Glyph.pieces ',' 0 gs := by
      rw [Glyph.pieces, if_pos (by decide)]
    rw [List.intercalate_cons_cons, List.append_assoc, List.singleton_append, hfirst.isClosed,
      Pairs.ofText_cons (by decide)]
    refine (hfirst.pieces _).trans ?_
    rw [hcomma, ih hnext hmore, List.modifyHead_cons, List.append_nil]

theorem intercalate_cons_eq (separator first : Text) (others : List Text) :
    List.intercalate separator (first :: others) = first ++ others.flatMap (separator ++ ·) := by
  induction others generalizing first with
  | nil => rw [List.intercalate_singleton, List.flatMap_nil, List.append_nil]
  | cons next more ih => rw [List.intercalate_cons_cons, ih, List.flatMap_cons, List.append_assoc,
      List.append_assoc]

/-- The space behind a comma belongs to the next part. -/
theorem intercalate_comma_space (first : Text) (others : List Text) :
    List.intercalate ", ".toList (first :: others) =
      List.intercalate [','] (first :: others.map (' ' :: ·)) := by
  rw [intercalate_cons_eq, intercalate_cons_eq, List.flatMap_map]
  rfl

theorem pieces_commas {first : Text} {others : List Text} (hfirst : Closes false [] first)
    (hothers : ∀ part ∈ others, Closes false [] part) :
    Glyph.pieces ',' 0 (Glyph.ofText (Go.commas (first :: others))) = first :: others.map (' ' :: ·) := by
  rw [Go.commas, intercalate_comma_space]
  refine pieces_intercalate hfirst (List.forall_mem_map.2 fun part hpart => ?_)
  exact .plain (by decide) (fun h => absurd h (by decide)) (hothers part hpart)

/-- Parts that were put between commas are found between these. -/
theorem topLevelParts_commas {parts : List Text} (hclosed : ∀ part ∈ parts, Closes false [] part)
    (hne : ∀ part ∈ parts, part ≠ []) (htrim : ∀ part ∈ parts, part.trim = part) :
    topLevelParts (Go.commas parts) ',' = parts := by
  cases parts with
  | nil => rfl
  | cons first others =>
    obtain ⟨hfirst, hothers⟩ := List.forall_mem_cons.1 hclosed
    obtain ⟨htrimFirst, htrimOthers⟩ := List.forall_mem_cons.1 htrim
    have hvisible : Text.trim (Go.commas (first :: others)) ≠ [] := by
      rw [Ne, trim_eq_nil_iff]
      intro hblank
      apply hne first List.mem_cons_self
      rw [← htrimFirst, trim_eq_nil_iff]
      intro c hc
      apply hblank
      rw [Go.commas]
      cases others with
      | nil => rwa [List.intercalate_singleton]
      | cons next more =>
        rw [List.intercalate_cons_cons, List.append_assoc]
        exact List.mem_append_left _ hc
    have hspace : Text.trim ∘ (' ' :: ·) = Text.trim := rfl
    rw [topLevelParts, if_neg hvisible, pieces_commas hfirst hothers, List.map_cons, htrimFirst,
      List.map_map, hspace, List.map_congr_left htrimOthers, List.map_id']

end Text

end StellaGo
