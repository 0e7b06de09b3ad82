import StellaGo.Diagnostic
import StellaGo.Proofs.ByteSlices
import StellaGo.Proofs.ErrorLines
import StellaGo.Proofs.Layout
import StellaGo.Proofs.SourceEdits

/-! The labels of diagnostics. An error is found on a line of the source without comments, and its
label is a range of bytes of the source itself. Defined here: the labels that cover what a line
holds. Proved: the two number their lines alike, so the label of every error covers what the source
holds on the line of that number, and no error is past the end of the source. -/

namespace StellaGo

/-! ### Lines of the source -/

theorem Text.length_lines_le (t : Text) : t.lines.length ≤ (t.splitOn '\n').length := by
  have hlast : ((t.splitOn '\n').getLast?.toList.filter (· != [])).length ≤ 1 := by
    refine Nat.le_trans (List.length_filter_le _ _) ?_
    cases (t.splitOn '\n').getLast? <;> simp
  have hpos : 0 < (t.splitOn '\n').length := List.length_pos_iff.2 (List.splitOn_ne_nil '\n' t)
  rw [lines]
  simp only [List.length_append, List.length_map, List.length_dropLast]
  omega

/-- Without comments a source has no more lines. -/
theorem Comment.length_lines_strip_le (source : Text) :
    (strip source).lines.length ≤ source.lines.length := by
  by_cases hsource : source = []
  · rw [hsource]
    exact Nat.le_refl 0
  refine Nat.le_trans (Text.length_lines_le _) ?_
  rw [splitOn_strip hsource, List.length_map]

/-- The error of a source is found on a line of the source. -/
theorem line_of_compile_error {source : Text} {tabSize : Nat} {e : CompileError}
    (h : compile source tabSize = .error e) :
    1 ≤ e.line ∧ e.line ≤ max 1 source.lines.length := by
  have hread : Program.read (Comment.strip source) = .error e := by
    unfold compile transpile at h
    cases hp : Program.read (Comment.strip source) with
    | error e' =>
      rw [hp] at h
      cases h
      rfl
    | ok p =>
      rw [hp] at h
      cases h
  obtain ⟨hfirst, hlast⟩ := Program.line_of_read_error hread
  have hlines := Comment.length_lines_strip_le source
  omega

/-! ### Spans -/

/-- A text is made up of its pieces between line feeds. -/
theorem Text.exists_behind_piece {t piece : Text} {i : Nat} (h : (t.splitOn '\n')[i]? = some piece) :
    ∃ behind, t = unlines ((t.splitOn '\n').take i) ++ (piece ++ behind) := by
  obtain ⟨hlt, hpiece⟩ := List.getElem?_eq_some_iff.1 h
  have hsplit : t.splitOn '\n' = (t.splitOn '\n').take i ++ piece :: (t.splitOn '\n').drop (i + 1) := by
    rw [← hpiece, ← List.drop_eq_getElem_cons hlt, List.take_append_drop]
  obtain ⟨behind, hbehind⟩ : ∃ behind,
      List.intercalate ['\n'] (piece :: (t.splitOn '\n').drop (i + 1)) = piece ++ behind := by
    cases (t.splitOn '\n').drop (i + 1) with
    | nil => exact ⟨[], by rw [List.intercalate_singleton, List.append_nil]⟩
    | cons next others => exact ⟨_, by rw [List.intercalate_cons_cons, List.append_assoc]⟩
  have hall : List.intercalate ['\n'] (t.splitOn '\n') = t := List.intercalate_splitOn '\n'
  rw [hsplit, Go.intercalate_append (List.cons_ne_nil _ _), hbehind] at hall
  exact ⟨behind, hall.symm⟩

namespace Diagnostic

/-- The span of a line starts behind the lines before it and its own indentation. -/
theorem lineSpan?_eq_some {offset i : Nat} {lines : List Text} {line : Text}
    (h : lines[i]? = some line) :
    lineSpan? offset lines (i + 1) =
      some (offset + Text.byteSize (Text.unlines (lines.take i) ++ line.takeWhile isBlank),
        Text.byteSize line.trim) := by
  induction lines generalizing offset i with
  | nil => cases h
  | cons first others ih =>
    cases i with
    | zero =>
      obtain rfl : first = line := Option.some.inj h
      rfl
    | succ i =>
      have hsize : Text.byteSize (Text.unlines ((first :: others).take (i + 1))) =
          Text.byteSize first + 1 + Text.byteSize (Text.unlines (others.take i)) := by
        rw [List.take_succ_cons, Text.unlines, List.flatMap_cons, Text.byteSize_append,
          Text.byteSize_append]
        rfl
      rw [lineSpan?, ih h, Text.byteSize_append, Text.byteSize_append, hsize]
      · congr 2
        omega
      · exact Nat.succ_ne_zero i

end Diagnostic

/-- The label covers, from the first byte to the last, what the line `text` holds besides the blanks
around it; it is the line of this number. -/
structure Label.Covers (source : Text) (number : Nat) (label : Label) (text : Text) : Prop where
  line : (source.splitOn '\n')[number - 1]? = some text
  offset : label.offset =
    Text.byteSize (Text.unlines ((source.splitOn '\n').take (number - 1)) ++ text.takeWhile isBlank)
  within : label.offset + label.size ≤ source.byteSize
  slice : source.slice? label.offset (label.offset + label.size) = some text.trim

/-- Behind the indentation of a line stands what it holds. -/
theorem Text.exists_behind_trim (t : Text) :
    ∃ behind, t = t.takeWhile isBlank ++ (t.trim ++ behind) := by
  refine ⟨(t.trimStart.reverse.takeWhile isBlank).reverse, ?_⟩
  rw [trim, trimEnd, ← List.reverse_append, List.takeWhile_append_dropWhile, List.reverse_reverse,
    trimStart, List.takeWhile_append_dropWhile]

/-- The label for a line of the source, whose span is found among the lines. -/
theorem Label.covers_of_line {source text : Text} {e : CompileError} {i : Nat}
    (hline : (source.splitOn '\n')[i]? = some text) (hnumber : e.line = i + 1) :
    Label.Covers source e.line (Diagnostic.ofError source e).label text ∧
      Diagnostic.lineSpan? 0 (source.splitOn '\n') e.line ≠ none := by
  have hspan : Diagnostic.lineSpan? 0 (source.splitOn '\n') (i + 1) =
      some (0 + _, Text.byteSize text.trim) := Diagnostic.lineSpan?_eq_some hline
  rw [Nat.zero_add, ← hnumber] at hspan
  have hlabel : Diagnostic.span source e.line =
      (Text.byteSize (Text.unlines ((source.splitOn '\n').take i) ++ text.takeWhile isBlank),
        Text.byteSize text.trim) := by
    rw [Diagnostic.span, hspan, Option.getD_some]
  have hprevious : e.line - 1 = i := by omega
  -- the source is cut where the label starts and ends
  obtain ⟨behind, hsource⟩ := Text.exists_behind_piece hline
  obtain ⟨blanks, htext⟩ := Text.exists_behind_trim text
  have hcut : source = (Text.unlines ((source.splitOn '\n').take i) ++ text.takeWhile isBlank) ++
      (text.trim ++ (blanks ++ behind)) := by
    conv_lhs => rw [hsource, htext]
    simp only [List.append_assoc]
  refine ⟨⟨by rwa [hprevious], ?_, ?_, ?_⟩, by rw [hspan]; exact nofun⟩
  · rw [Diagnostic.ofError, hlabel, hprevious]
  · rw [Diagnostic.ofError, hlabel]
    conv_rhs => rw [hcut]
    simp only [Text.byteSize_append]
    omega
  · rw [Diagnostic.ofError, hlabel]
    exact Text.slice?_eq_some_iff.2 ⟨_, _, hcut, rfl, rfl⟩

/-- The label of an error covers what the line of the error holds in the source, and is never put at
the end of the source for want of a line. -/
theorem label_of_compile_error {source : Text} {tabSize : Nat} {e : CompileError}
    (h : compile source tabSize = .error e) :
    1 ≤ e.line ∧ e.line ≤ max 1 source.lines.length ∧
      (∃ text, Label.Covers source e.line (Diagnostic.ofError source e).label text) ∧
      Diagnostic.lineSpan? 0 (source.splitOn '\n') e.line ≠ none := by
  obtain ⟨hfirst, hlast⟩ := line_of_compile_error h
  have hpieces : 0 < (source.splitOn '\n').length :=
    List.length_pos_iff.2 (List.splitOn_ne_nil '\n' source)
  have hlines := Text.length_lines_le source
  have hlt : e.line - 1 < (source.splitOn '\n').length := by omega
  obtain ⟨hcovers, hspan⟩ :=
    Label.covers_of_line (List.getElem?_eq_getElem hlt) (show e.line = e.line - 1 + 1 by omega)
  exact ⟨hfirst, hlast, ⟨_, hcovers⟩, hspan⟩

/-- An error behind a line that ends in a carriage return and a line feed, on a line that is indented
by a blank of three bytes and ends in a comment. -/
theorem label_of_compile_error_indented :
    ∃ (source : Text) (e : CompileError),
      source =
        "function main() -> IO = ".toList ++ '{' :: "\r\n\u3000break // é\n".toList ++ ['}'] ∧
      compile source 2 = .error e ∧ 1 ≤ e.line ∧ e.line ≤ max 1 source.lines.length ∧
      (∃ text, Label.Covers source e.line (Diagnostic.ofError source e).label text) ∧
      Diagnostic.lineSpan? 0 (source.splitOn '\n') e.line ≠ none := by
  have hfails : compile
      ("function main() -> IO = ".toList ++ '{' :: "\r\n\u3000break // é\n".toList ++ ['}']) 2 =
        .error ⟨2, .jumpOutside "break"⟩ := by
    decide +kernel
  exact ⟨_, _, rfl, hfails, label_of_compile_error hfails⟩

end StellaGo
