import Mathlib.Logic.Relation
import StellaGo.Proofs.BlankLines
import StellaGo.Proofs.LineEnds

/-! Layout and comments of a source. Defined here: what a line holds besides its comment and the
blanks around it, and the edits of a source that change layout and comments only. Proved: what a
source compiles to depends on what its lines hold alone, and no number of such edits changes it. A
comment can be put behind a line because no line of an accepted source ends in a literal or with a
slash. -/

namespace StellaGo

/-! ### Blanks -/

namespace Text

variable {t u : Text}

theorem trim_append_blanks (h : ∀ c ∈ u, isBlank c) : Text.trim (t ++ u) = t.trim := by
  have hu : u.dropWhile isBlank = [] := List.dropWhile_eq_nil_iff.2 h
  have hreverse : ∀ c ∈ u.reverse, isBlank c := fun c hc => h c (List.mem_reverse.1 hc)
  rw [trim, trim, trimStart, trimStart, List.dropWhile_append]
  split
  · next hblank =>
    rw [hu, List.isEmpty_iff.1 hblank]
  · rw [trimEnd, trimEnd, List.reverse_append, List.dropWhile_append_of_pos hreverse]

theorem trim_blanks_append (h : ∀ c ∈ u, isBlank c) : Text.trim (u ++ t) = t.trim := by
  rw [trim, trim, trimStart, trimStart, List.dropWhile_append_of_pos h]

theorem trim_trimEnd (t : Text) : Text.trim t.trimEnd = t.trim := by
  have hcut := List.takeWhile_append_dropWhile (p := isBlank) (l := t.reverse)
  have ht : t = t.trimEnd ++ (t.reverse.takeWhile isBlank).reverse := by
    rw [trimEnd, ← List.reverse_append, hcut, List.reverse_reverse]
  conv_rhs => rw [ht]
  exact (trim_append_blanks fun c hc => List.mem_takeWhile_imp (List.mem_reverse.1 hc)).symm

theorem trim_dropReturn (t : Text) : Text.trim t.dropReturn = t.trim := by
  rw [dropReturn]
  cases h : t.before? '\r' with
  | none => rfl
  | some front =>
    rw [before?_eq_some_iff.1 h]
    exact (trim_append_blanks (by decide)).symm

end Text

/-! ### Comments -/

namespace Comment

variable {open? : Option Char} {line u : Text}

theorem stripInside_cons {c : Char} {rest : Text} (h : c = '/' → rest.head? ≠ some '/') :
    stripInside none (c :: rest) =
      c :: stripInside (if isQuote c then some c else none) rest := by
  rw [stripInside]
  rintro more rfl rfl
  exact h rfl rfl

theorem stripInside_quoted {q c : Char} {rest : Text} (h : c = '\\' → rest = []) :
    stripInside (some q) (c :: rest) = c :: stripInside (if c == q then none else some q) rest := by
  rw [stripInside]
  rintro d more rfl rfl
  cases h rfl

theorem stripInside_blanks (open? : Option Char) (h : ∀ c ∈ u, isBlank c) :
    stripInside open? u = u := by
  fun_induction stripInside open? u with
  | case1 => rfl
  | case2 => exact absurd (h '/' List.mem_cons_self) (by decide)
  | case3 _ _ _ ih | case5 _ _ _ _ ih =>
    rw [ih fun c hc => h c (List.mem_cons_of_mem _ hc)]
  | case4 => exact absurd (h '\\' List.mem_cons_self) (by decide)

/-- Blanks behind a line stay, or belong to its comment. -/
theorem stripInside_append_blanks (h : ∀ c ∈ u, isBlank c) :
    stripInside open? (line ++ u) = stripInside open? line ∨
      stripInside open? (line ++ u) = stripInside open? line ++ u := by
  fun_induction stripInside open? line with
  | case1 => exact .inr (stripInside_blanks _ h)
  | case2 => exact .inl rfl
  | case3 c rest hc ih =>
    have hcons : stripInside none (c :: rest ++ u) = _ := stripInside_cons fun hslash hhead => by
      cases rest with
      | nil =>
        obtain ⟨more, rfl⟩ := List.head?_eq_some_iff.1 hhead
        exact absurd (h '/' List.mem_cons_self) (by decide)
      | cons d rest =>
        cases hhead
        exact hc rest hslash rfl
    rw [hcons]
    exact ih.imp (congrArg _) (congrArg _)
  | case4 q c rest ih =>
    have hescape : stripInside (some q) ('\\' :: c :: rest ++ u) =
        '\\' :: c :: stripInside (some q) (rest ++ u) := rfl
    rw [hescape]
    exact ih.imp (congrArg ('\\' :: c :: ·)) (congrArg ('\\' :: c :: ·))
  | case5 q c rest hc ih =>
    by_cases hslash : c = '\\'
    · -- a backslash at the end of the line takes a blank with it
      obtain rfl : rest = [] := List.eq_nil_iff_forall_not_mem.2 fun d hd => by
        obtain ⟨e, more, rfl⟩ := List.exists_cons_of_ne_nil (List.ne_nil_of_mem hd)
        exact hc e more hslash rfl
      cases u with
      | nil => exact .inl (stripInside_quoted fun _ => rfl)
      | cons d more =>
        subst hslash
        have hmore : stripInside (some q) more = more :=
          stripInside_blanks (some q) fun e he => h e (List.mem_cons_of_mem _ he)
        have hescape : stripInside (some q) ('\\' :: d :: more) =
          '\\' :: d :: stripInside (some q) more := rfl
        exact .inr (by rw [List.singleton_append, hescape, hmore]; rfl)
    · rw [List.cons_append, stripInside_quoted fun heq => absurd heq hslash]
      exact ih.imp (congrArg (c :: ·)) (congrArg (c :: ·))

theorem stripLine_blanks_append (h : ∀ c ∈ u, isBlank c) (line : Text) :
    stripLine (u ++ line) = u ++ stripLine line := by
  induction u with
  | nil => rfl
  | cons c rest ih =>
    obtain ⟨hc, hrest⟩ := List.forall_mem_cons.1 h
    have hquote : ¬ isQuote c := fun hq => by
      rcases isQuote_iff.1 hq with rfl | rfl
      · cases hc
      · cases hc
    have hslash : c ≠ '/' := by
      rintro rfl
      cases hc
    rw [List.cons_append, stripLine, stripInside_cons fun heq => absurd heq hslash, if_neg hquote]
    exact congrArg (c :: ·) (ih hrest)

/-- What a line holds besides its comment and the blanks around it. -/
def code (line : Text) : Text := Text.trim (stripLine line)

theorem code_trim (line : Text) : code line.trim = code line := by
  obtain ⟨before, behind, hline, hbefore, hbehind⟩ := Text.exists_blanks_around_trim line
  conv_rhs => rw [hline, code, stripLine_blanks_append hbefore, Text.trim_blanks_append hbefore]
  rcases stripInside_append_blanks hbehind with h | h
  · rw [stripLine, h]
    rfl
  · rw [stripLine, h, Text.trim_append_blanks hbehind]
    rfl

/-- The blanks around a line do not matter. -/
theorem code_eq_of_trim_eq {line line' : Text} (h : line'.trim = line.trim) :
    code line' = code line := by
  rw [← code_trim, h, code_trim]

theorem code_dropReturn (line : Text) : code line.dropReturn = code line :=
  code_eq_of_trim_eq (Text.trim_dropReturn line)

/-- The line is blank or holds a comment only. -/
def IsIdle (line : Text) : Prop := line.trim = [] ∨ ∃ comment, line.trim = '/' :: '/' :: comment

theorem IsIdle.code_eq_nil (h : IsIdle line) : code line = [] := by
  rw [← code_trim]
  rcases h with h | ⟨comment, h⟩
  · rw [h]
    rfl
  · rw [h]
    rfl

/-- What stands behind the start of a comment belongs to it. -/
theorem stripInside_append_of_ne (h : stripInside open? line ≠ line) (u : Text) :
    stripInside open? (line ++ u) = stripInside open? line := by
  fun_induction stripInside open? line with
  | case1 => exact absurd rfl h
  | case2 => rfl
  | case3 c rest hc ih =>
    have hrest : stripInside (if isQuote c then some c else none) rest ≠ rest :=
      fun heq => h (congrArg (c :: ·) heq)
    have hcons : stripInside none (c :: (rest ++ u)) = _ := stripInside_cons fun hslash hhead => by
      cases rest with
      | nil => exact hrest rfl
      | cons d rest =>
        cases hhead
        exact hc rest hslash rfl
    rw [List.cons_append, hcons, ih hrest]
  | case4 q c rest ih =>
    have hrest : stripInside (some q) rest ≠ rest := fun heq => h (congrArg ('\\' :: c :: ·) heq)
    exact congrArg ('\\' :: c :: ·) (ih hrest)
  | case5 q c rest hc ih =>
    have hrest : stripInside (if c == q then none else some q) rest ≠ rest :=
      fun heq => h (congrArg (c :: ·) heq)
    rw [List.cons_append, stripInside_quoted, ih hrest]
    rintro rfl
    cases rest with
    | nil => exact absurd rfl hrest
    | cons d rest => exact (hc d rest rfl rfl).elim

/-- Two slashes start a comment behind a line that ends outside literals and with no slash. -/
theorem stripInside_append_comment {comment : Text}
    (hends : ∀ more, Glyph.read open? (line ++ more) = Glyph.read open? line ++ Glyph.ofText more)
    (hlast : line.getLast? ≠ some '/') (hline : stripInside open? line = line) :
    stripInside open? (line ++ '/' :: '/' :: comment) = line := by
  have hlast_tail {c : Char} {rest : Text} (h : (c :: rest).getLast? ≠ some '/') :
      rest.getLast? ≠ some '/' := by
    intro hrest
    rw [List.getLast?_cons, hrest] at h
    exact h rfl
  fun_induction stripInside open? line with
  | case1 open? =>
    cases open? with
    | none => rfl
    | some q =>
      -- a literal would go on
      have hmore := hends ['a']
      rw [List.nil_append, Text.Pairs.read_some_cons (by decide)] at hmore
      cases hmore
  | case2 => cases hline
  | case3 c rest hc ih =>
    have hcons : stripInside none (c :: (rest ++ '/' :: '/' :: comment)) = _ :=
      stripInside_cons fun hslash hhead => by
        cases rest with
        | nil => exact hlast (by rw [hslash]; rfl)
        | cons d rest =>
          cases hhead
          exact hc rest hslash rfl
    rw [List.cons_append, hcons, ih ?_ (hlast_tail hlast) (List.cons.inj hline).2]
    intro more
    have hmore := hends more
    rw [List.cons_append, Glyph.read, Glyph.read] at hmore
    split at hmore
    · next hq =>
      rw [if_pos hq]
      exact (List.cons.inj hmore).2
    · next hq =>
      rw [if_neg hq]
      exact (List.cons.inj hmore).2
  | case4 q c rest ih =>
    refine congrArg ('\\' :: c :: ·) (ih (fun more => ?_) (hlast_tail (hlast_tail hlast)) ?_)
    · exact (List.cons.inj (List.cons.inj (hends more)).2).2
    · exact (List.cons.inj (List.cons.inj hline).2).2
  | case5 q c rest hc ih =>
    have hslash : c ≠ '\\' := by
      rintro rfl
      obtain rfl : rest = [] := List.eq_nil_iff_forall_not_mem.2 fun d hd => by
        obtain ⟨e, more, rfl⟩ := List.exists_cons_of_ne_nil (List.ne_nil_of_mem hd)
        exact hc e more rfl rfl
      -- the backslash would take the next character into the literal
      have hmore := hends ['a']
      cases hmore
    rw [List.cons_append, stripInside_quoted fun heq => absurd heq hslash,
      ih (fun more => ?_) (hlast_tail hlast) (List.cons.inj hline).2]
    have hmore := hends more
    rw [List.cons_append, Text.Pairs.read_some_cons hslash, Text.Pairs.read_some_cons hslash] at hmore
    exact (List.cons.inj hmore).2

/-- A comment behind a line changes nothing of what the line holds. -/
theorem code_append_comment (h : line.trim ≠ [] → stripLine line = line → line.EndsOpen)
    (comment : Text) : code (line ++ '/' :: '/' :: comment) = code line := by
  by_cases hstrip : stripLine line = line
  · by_cases hblank : line.trim = []
    · rw [Text.trim_eq_nil_iff] at hblank
      rw [code, stripLine_blanks_append hblank, code, hstrip]
      congr 1
      exact List.append_nil line
    · obtain ⟨houtside, hclear⟩ := h hblank hstrip
      rw [code, code, stripLine, stripInside_append_comment houtside hclear.getLast?_ne hstrip,
        hstrip]
  · rw [code, code, stripLine, stripInside_append_of_ne hstrip]
    rfl

end Comment

/-! ### What a source holds -/

namespace Text

theorem lines_ne_nil {t : Text} (h : t ≠ []) : t.lines ≠ [] := by
  intro hlines
  rw [lines] at hlines
  obtain ⟨hfirst, hlast⟩ := List.append_eq_nil_iff.1 hlines
  obtain ⟨piece, hpiece⟩ : ∃ piece, t.splitOn '\n' = [piece] := by
    have hlength := congrArg List.length (List.map_eq_nil_iff.1 hfirst)
    rw [List.length_dropLast, List.length_nil] at hlength
    have hpos : 0 < (t.splitOn '\n').length := List.length_pos_iff.2 (List.splitOn_ne_nil '\n' t)
    exact List.length_eq_one_iff.1 (by omega)
  have hall : List.intercalate ['\n'] (t.splitOn '\n') = t := List.intercalate_splitOn '\n'
  rw [hpiece, List.intercalate_singleton] at hall
  simp [hpiece, hall, h] at hlast

theorem map_text_numberedLines (source : Text) :
    source.numberedLines.map Line.text = source.lines.map trim := by
  apply List.ext_getElem?
  intro i
  simp [numberedLines, Function.comp_def]

/-- Where line ends and empty lines do not count, the lines are the pieces between line feeds. -/
theorem filter_map_lines {f : Text → Text} (hreturn : ∀ t : Text, f t.dropReturn = f t)
    (hempty : f [] = []) (source : Text) :
    (source.lines.map f).filter (· ≠ []) = ((source.splitOn '\n').map f).filter (· ≠ []) := by
  obtain ⟨front, last, hpieces⟩ : ∃ front last, source.splitOn '\n' = front ++ [last] :=
    ⟨_, _, (List.dropLast_append_getLast (List.splitOn_ne_nil '\n' source)).symm⟩
  have hfront : (front.map dropReturn).map f = front.map f := by
    rw [List.map_map]
    exact List.map_congr_left fun t _ => hreturn t
  rw [lines, hpieces, List.dropLast_concat, List.getLast?_concat, List.map_append, List.map_append,
    hfront, List.filter_append, List.filter_append]
  congr 1
  by_cases hlast : last = []
  · simp [hlast, hempty]
  · simp [hlast]

end Text

namespace Comment

/-- What the lines of a source hold, as far as they hold something. -/
def codeLines (source : Text) : List Text := ((source.splitOn '\n').map code).filter (· ≠ [])

theorem stripInside_subset (open? : Option Char) (line : Text) : stripInside open? line ⊆ line := by
  fun_induction stripInside open? line with
  | case1 | case2 => exact List.nil_subset _
  | case3 _ _ _ ih | case5 _ _ _ _ ih => exact List.cons_subset_cons _ ih
  | case4 _ _ _ ih => exact List.cons_subset_cons _ (List.cons_subset_cons _ ih)

theorem isOneLine_trimEnd_stripLine {line : Text} (h : line.IsOneLine) :
    (stripLine line).trimEnd.IsOneLine := by
  refine .of_subset (List.Subset.trans ?_ (stripInside_subset none line)) h
  intro c hc
  exact List.mem_reverse.1 ((List.dropWhile_suffix isBlank).subset (List.mem_reverse.1 hc))

/-- A source that is not empty keeps its lines, each up to its comment and the blanks before that. -/
theorem splitOn_strip {source : Text} (h : source ≠ []) :
    (strip source).splitOn '\n' = source.lines.map fun line => (stripLine line).trimEnd := by
  have hone : ∀ line ∈ source.lines.map fun line => (stripLine line).trimEnd, '\n' ∉ line := by
    intro line hline
    obtain ⟨l, hl, rfl⟩ := List.mem_map.1 hline
    exact isOneLine_trimEnd_stripLine (Text.isOneLine_of_mem_lines hl)
  exact List.splitOn_intercalate '\n' hone (by simpa using Text.lines_ne_nil h)

/-- The stripped source keeps what the lines hold. -/
theorem filled_strip (source : Text) :
    Program.filled (strip source).numberedLines = codeLines source := by
  have hcode : (source.lines.map fun line => (stripLine line).trimEnd).map Text.trim =
      source.lines.map code := by
    rw [List.map_map]
    exact List.map_congr_left fun line _ => Text.trim_trimEnd (stripLine line)
  rw [Program.filled, Text.map_text_numberedLines, Text.filter_map_lines Text.trim_dropReturn rfl,
    codeLines, ← Text.filter_map_lines code_dropReturn rfl, ← hcode]
  by_cases hsource : source = []
  · rw [hsource]
    rfl
  · rw [splitOn_strip hsource]

end Comment

/-! ### Edits -/

/-- One change to the lines of a source that leaves what they hold. -/
inductive LayoutEdit : List Text → List Text → Prop
  | insert {line : Text} (before after : List Text) (hone : line.IsOneLine)
      (hidle : Comment.IsIdle line) : LayoutEdit (before ++ after) (before ++ line :: after)
  | respace {line line' : Text} (before after : List Text) (hone : line'.IsOneLine)
      (htrim : line'.trim = line.trim) :
      LayoutEdit (before ++ line :: after) (before ++ line' :: after)
  | comment {line comment : Text} (before after : List Text) (hone : comment.IsOneLine) :
      LayoutEdit (before ++ line :: after) (before ++ (line ++ '/' :: '/' :: comment) :: after)
  | lineEnd {line next : Text} (before after : List Text) :
      LayoutEdit (before ++ line :: next :: after) (before ++ (line ++ ['\r']) :: next :: after)

/-- One change to a source, seen as the texts between its line feeds. -/
def EditsTo (source source' : Text) : Prop :=
  ∃ lines', LayoutEdit (source.splitOn '\n') lines' ∧ source' = List.intercalate ['\n'] lines'

namespace LayoutEdit

variable {lines lines' : List Text}

theorem isOneLine (h : LayoutEdit lines lines') (hone : ∀ line ∈ lines, line.IsOneLine) :
    ∀ line ∈ lines', line.IsOneLine := by
  cases h with
  | insert before after hline =>
    simp only [List.forall_mem_append, List.forall_mem_cons] at hone ⊢
    exact ⟨hone.1, hline, hone.2⟩
  | respace before after hline =>
    simp only [List.forall_mem_append, List.forall_mem_cons] at hone ⊢
    exact ⟨hone.1, hline, hone.2.2⟩
  | comment before after hcomment =>
    simp only [List.forall_mem_append, List.forall_mem_cons] at hone ⊢
    exact ⟨hone.1, hone.2.1.append (.cons (by decide) (.cons (by decide) hcomment)), hone.2.2⟩
  | lineEnd before after =>
    simp only [List.forall_mem_append, List.forall_mem_cons] at hone ⊢
    exact ⟨hone.1, hone.2.1.append (by decide), hone.2.2⟩

theorem ne_nil (h : LayoutEdit lines lines') (hne : lines ≠ []) : lines' ≠ [] := by
  cases h with
  | _ => simp

theorem map_code_replace {line line' : Text} (before after : List Text)
    (h : Comment.code line' = Comment.code line) :
    (before ++ line' :: after).map Comment.code = (before ++ line :: after).map Comment.code := by
  rw [List.map_append, List.map_append, List.map_cons, List.map_cons, h]

/-- What the lines hold stays, if a comment can be put behind each of them. -/
theorem filter_code (h : LayoutEdit lines lines')
    (hends : ∀ line ∈ lines, Text.trim line ≠ [] → Comment.stripLine line = line → line.EndsOpen) :
    (lines'.map Comment.code).filter (· ≠ []) = (lines.map Comment.code).filter (· ≠ []) := by
  cases h with
  | insert before after hone hidle => simp [hidle.code_eq_nil]
  | respace before after hone htrim =>
    rw [map_code_replace before after (Comment.code_eq_of_trim_eq htrim)]
  | @comment line comment before after hone =>
    have hline := hends line (List.mem_append_right _ List.mem_cons_self)
    rw [map_code_replace before after (Comment.code_append_comment hline comment)]
  | @lineEnd line next before after =>
    have htrim : Text.trim (line ++ ['\r']) = line.trim := Text.trim_append_blanks (by decide)
    rw [map_code_replace before (next :: after) (Comment.code_eq_of_trim_eq htrim)]

end LayoutEdit

namespace EditsTo

variable {source source' out : Text} {tabSize : Nat} {p : Program}

/-- Behind every line of an accepted source that is not blank, and has no comment yet, a comment can
start. -/
theorem endsOpen_of_read (h : Program.read (Comment.strip source) = .ok p) :
    ∀ line : Text, line ∈ source.splitOn '\n' → line.trim ≠ [] →
      Comment.stripLine line = line → line.EndsOpen := by
  intro line hline htrim hstrip
  have hcode : line.trim ∈ Comment.codeLines source := by
    refine List.mem_filter.2 ⟨List.mem_map.2 ⟨line, hline, ?_⟩, by simpa using htrim⟩
    rw [Comment.code, hstrip]
  rw [← Comment.filled_strip] at hcode
  obtain ⟨l, hl, htext⟩ := List.mem_map.1 (List.mem_of_mem_filter hcode)
  have hends := Program.endsOpen_of_read h l hl
  rw [Line.EndsOpen, htext, Text.trim_trim] at hends
  exact (hends htrim).of_trim

theorem codeLines_eq (h : EditsTo source source')
    (hread : Program.read (Comment.strip source) = .ok p) :
    Comment.codeLines source' = Comment.codeLines source := by
  obtain ⟨lines', hedit, rfl⟩ := h
  have hone := hedit.isOneLine fun line hline => Text.notMem_of_mem_splitOn hline
  have hne := hedit.ne_nil (List.splitOn_ne_nil _ _)
  rw [Comment.codeLines, List.splitOn_intercalate '\n' hone hne]
  exact hedit.filter_code (endsOpen_of_read hread)

/-- One edit changes nothing of what an accepted source compiles to. -/
theorem compile_eq (h : EditsTo source source') (hc : compile source tabSize = .ok out) :
    compile source' tabSize = .ok out := by
  obtain ⟨⟨program, code⟩, htranspile, hc⟩ := Check.bind_eq_ok_iff.1 hc
  obtain ⟨p, hread, heq⟩ := Check.bind_eq_ok_iff.1 htranspile
  obtain ⟨rfl, rfl⟩ := Prod.mk.inj (Except.ok.inj heq)
  have hsame := (h.codeLines_eq hread).symm
  rw [← Comment.filled_strip, ← Comment.filled_strip] at hsame
  have hread' := Program.read_of_filled hsame hread
  exact Check.bind_eq_ok_iff.2 ⟨_, Check.bind_eq_ok_iff.2 ⟨p, hread', rfl⟩, hc⟩

end EditsTo

/-- No number of edits to layout and comments changes what an accepted source compiles to. -/
theorem compile_of_edits {source source' out : Text} {tabSize : Nat}
    (h : Relation.ReflTransGen EditsTo source source') (hc : compile source tabSize = .ok out) :
    compile source' tabSize = .ok out := by
  induction h with
  | refl => exact hc
  | tail _ hedit ih => exact hedit.compile_eq ih

theorem EditsTo.of_lines {lines lines' : List Text} (hone : ∀ line ∈ lines, line.IsOneLine)
    (hne : lines ≠ []) (h : LayoutEdit lines lines') :
    EditsTo (List.intercalate ['\n'] lines) (List.intercalate ['\n'] lines') :=
  ⟨lines', by rwa [List.splitOn_intercalate '\n' hone hne], rfl⟩

theorem compile_of_edits_comment :
    ∃ source source' out,
      source = Text.block "function main() -> IO =" ["println!(1)".toList] ∧
      source' = "// start\nfunction main() -> IO = ".toList ++ '{' ::
        "\r\n\tprintln!(1)// one\n".toList ++ ['}'] ∧
      compile source 2 = .ok out ∧ Relation.ReflTransGen EditsTo source source' ∧
      compile source' 2 = .ok out := by
  let header : Text := "function main() -> IO = ".toList ++ ['{']
  let start : Text := "// start".toList
  let print : Text := "println!(1)".toList
  let commented : Text := '\t' :: print ++ '/' :: '/' :: " one".toList
  have haccepted : (compile (List.intercalate ['\n'] [header, print, ['}']]) 2).isOk := by
    decide +kernel
  obtain ⟨out, hout⟩ := Check.isOk_iff.1 haccepted
  have hinsert : EditsTo (List.intercalate ['\n'] [header, print, ['}']])
      (List.intercalate ['\n'] [start, header, print, ['}']]) :=
    .of_lines (by decide) (by decide) (.insert [] _ (by decide) (.inr ⟨" start".toList, by decide⟩))
  have hrespace : EditsTo (List.intercalate ['\n'] [start, header, print, ['}']])
      (List.intercalate ['\n'] [start, header, '\t' :: print, ['}']]) :=
    .of_lines (by decide) (by decide) (.respace [start, header] _ (by decide) (by decide))
  have hcomment : EditsTo (List.intercalate ['\n'] [start, header, '\t' :: print, ['}']])
      (List.intercalate ['\n'] [start, header, commented, ['}']]) :=
    .of_lines (by decide) (by decide) (.comment [start, header] _ (by decide))
  have hlineEnd : EditsTo (List.intercalate ['\n'] [start, header, commented, ['}']])
      (List.intercalate ['\n'] [start, header ++ ['\r'], commented, ['}']]) :=
    .of_lines (by decide) (by decide) (.lineEnd [start] _)
  have hedits := Relation.ReflTransGen.head hinsert
    (.head hrespace (.head hcomment (.single hlineEnd)))
  exact ⟨_, _, out, by decide, by decide, hout, hedits, compile_of_edits hedits hout⟩

end StellaGo
