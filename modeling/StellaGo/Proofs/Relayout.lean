import Mathlib.Data.List.Chain
import StellaGo.Proofs.Layout
import StellaGo.Proofs.SourceEdits

/-! Layouts of any code, balanced or not. Proved: the layout depends on the trimmed lines alone, and it
keeps those that are not blank. So laying code out again forgets how it was laid out before. A layout
has no blank line in front, and nowhere two of them in a row. -/

namespace StellaGo.Go

variable {tabSize depth : Nat} {dropBlank : Bool} {lines : List Text}

theorem trim_indented (width : Nat) (line : Text) :
    Text.trim (List.replicate width ' ' ++ line.trim) = line.trim := by
  have hblank : ∀ c ∈ List.replicate width ' ', isBlank c := fun c hc => by
    rw [List.eq_of_mem_replicate hc]
    rfl
  rw [Text.trim_blanks_append hblank, Text.trim_trim]

/-- A line of a layout is empty, or a line of the code behind blanks. -/
theorem exists_of_mem_layoutFrom {out : Text} (h : out ∈ layoutFrom tabSize depth dropBlank lines) :
    out = [] ∨ ∃ width, ∃ line ∈ lines, line.trim ≠ [] ∧
      out = List.replicate width ' ' ++ line.trim := by
  fun_induction layoutFrom tabSize depth dropBlank lines with
  | case1 => cases h
  | case2 depth line rest hline ih =>
    refine (ih h).imp_right ?_
    rintro ⟨width, other, hm, hother⟩
    exact ⟨width, other, List.mem_cons_of_mem _ hm, hother⟩
  | case3 depth dropBlank line rest hline _ ih =>
    rcases List.mem_cons.1 h with rfl | h
    · exact .inl rfl
    refine (ih h).imp_right ?_
    rintro ⟨width, other, hm, hother⟩
    exact ⟨width, other, List.mem_cons_of_mem _ hm, hother⟩
  | case4 depth dropBlank line rest hline opened closed hbraces indent ih =>
    rcases List.mem_cons.1 h with rfl | h
    · exact .inr ⟨_, line, List.mem_cons_self, hline, rfl⟩
    refine (ih h).imp_right ?_
    rintro ⟨width, other, hm, hother⟩
    exact ⟨width, other, List.mem_cons_of_mem _ hm, hother⟩

/-! ### Layouts of laid out lines -/

/-- Both layouts go by the trimmed lines, and see the same braces in them. -/
theorem layoutFrom_layoutFrom (a b depth : Nat) (dropBlank : Bool) (lines : List Text) :
    layoutFrom b depth dropBlank (layoutFrom a depth dropBlank lines) =
      layoutFrom b depth dropBlank lines := by
  fun_induction layoutFrom a depth dropBlank lines with
  | case1 => rfl
  | case2 depth line rest hline ih => rw [ih, layoutFrom, if_pos hline, if_pos rfl]
  | case3 depth dropBlank line rest hline hkeep ih =>
    have hempty : Text.trim [] = [] := rfl
    rw [layoutFrom, layoutFrom, if_pos hempty, if_pos hline, if_neg hkeep, if_neg hkeep, ih]
  | case4 depth dropBlank line rest hline opened closed hbraces indent ih =>
    rw [layoutFrom, layoutFrom, trim_indented, if_neg hline, if_neg hline, hbraces]
    exact congrArg _ ih

theorem nonblank_layoutFrom (tabSize depth : Nat) (dropBlank : Bool) (lines : List Text) :
    (nonblank (layoutFrom tabSize depth dropBlank lines)).map Text.trim =
      (nonblank lines).map Text.trim := by
  unfold nonblank
  fun_induction layoutFrom tabSize depth dropBlank lines with
  | case1 => rfl
  | case2 depth line rest hline ih => rw [ih, List.filter_cons_of_neg (by simpa using hline)]
  | case3 depth dropBlank line rest hline hkeep ih =>
    rw [List.filter_cons_of_neg (by decide), List.filter_cons_of_neg (by simpa using hline), ih]
  | case4 depth dropBlank line rest hline opened closed hbraces indent ih =>
    have hout : Text.trim (List.replicate (indent * tabSize) ' ' ++ line.trim) ≠ [] := by
      rwa [trim_indented]
    rw [List.filter_cons_of_pos (by simpa using hout), List.filter_cons_of_pos (by simpa using hline),
      List.map_cons, List.map_cons, ih, trim_indented]

/-! ### Blank lines of a layout -/

/-- Where blank lines are to be dropped, none comes first. -/
theorem head?_layoutFrom {line : Text} (h : line ∈ (layoutFrom tabSize depth true lines).head?) :
    line.trim ≠ [] := by
  induction lines with
  | nil => cases h
  | cons next rest ih =>
    rw [layoutFrom] at h
    split at h
    · exact ih h
    · next hnext =>
      cases h
      rwa [trim_indented]

theorem isChain_layoutFrom (tabSize depth : Nat) (dropBlank : Bool) (lines : List Text) :
    (layoutFrom tabSize depth dropBlank lines).IsChain
      fun line next => line.trim = [] → next.trim ≠ [] := by
  fun_induction layoutFrom tabSize depth dropBlank lines with
  | case1 => exact .nil
  | case2 _ _ _ _ ih => exact ih
  | case3 depth dropBlank line rest hline hkeep ih =>
    exact List.isChain_cons.2 ⟨fun next hnext _ => head?_layoutFrom hnext, ih⟩
  | case4 depth dropBlank line rest hline opened closed hbraces indent ih =>
    refine List.isChain_cons.2 ⟨fun next _ hblank => absurd hblank ?_, ih⟩
    rwa [trim_indented]

/-! ### Layouts of code -/

theorem endsVisibly_trim {line : Text} (h : line.trim ≠ []) : line.trim.EndsVisibly := by
  refine ⟨line.trim.dropLast, line.trim.getLast h, (List.dropLast_append_getLast h).symm, ?_⟩
  have hrev : line.trimStart.reverse.dropWhile isBlank ≠ [] := fun hnil => h (by
    rw [Text.trim, Text.trimEnd, hnil, List.reverse_nil])
  have hlast : line.trim.getLast h = (line.trimStart.reverse.dropWhile isBlank).head hrev :=
    List.getLast_reverse _
  rw [hlast]
  exact List.head_dropWhile_not isBlank hrev

theorem lines_layout (tabSize : Nat) (code : Text) :
    (layout tabSize code).lines = layoutFrom tabSize 0 true code.lines := by
  refine Text.lines_unlines (fun out hout => ?_) fun out hout => ?_ <;>
    rcases exists_of_mem_layoutFrom hout with rfl | ⟨width, line, hmem, hline, rfl⟩
  · exact nofun
  · refine fun hfeed => Text.isOneLine_of_mem_lines hmem (Text.trim_subset line ?_)
    rcases List.mem_append.1 hfeed with hfeed | hfeed
    · exact absurd (List.eq_of_mem_replicate hfeed) (by decide)
    · exact hfeed
  · exact .inl rfl
  · exact .inr ((endsVisibly_trim hline).append _)

/-- Code that is laid out once more is laid out as if for the first time. Its lines that are not blank
stay, in their order, and blank lines stand neither in front nor next to each other. -/
theorem layout_layout (code : Text) (a b : Nat) :
    layout b (layout a code) = layout b code ∧
      (nonblank (layout a code).lines).map Text.trim = (nonblank code.lines).map Text.trim ∧
      (∀ line ∈ (layout a code).lines.head?, line.trim ≠ []) ∧
      (layout a code).lines.IsChain fun line next => line.trim = [] → next.trim ≠ [] := by
  have hlines := lines_layout a code
  refine ⟨?_, ?_, fun line hline => ?_, ?_⟩
  · rw [layout, hlines, layoutFrom_layoutFrom, ← layout]
  · rw [hlines, nonblank_layoutFrom]
  · exact head?_layoutFrom (hlines ▸ hline)
  · rw [hlines]
    exact isChain_layoutFrom a 0 true code.lines

example :
    layout 2 (layout 7 ("\n \na ".toList ++ '{' :: "\n\n\n b".toList ++ ['}', '\r', '\n'])) =
      "a ".toList ++ '{' :: "\n\n  b".toList ++ ['}', '\n'] := by
  decide +kernel

end StellaGo.Go
