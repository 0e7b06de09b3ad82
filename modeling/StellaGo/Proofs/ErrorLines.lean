import StellaGo.Proofs.Reading.Blocks

/-! The line that an error is put on. Defined here: when the error of a result, if it is one, is on
one of the given lines. Proved: what goes wrong while lines are read goes wrong on one of them, so
that the line of an error is a line of the source; where a source has no `main` it is the last line,
or line 1 where there are no lines. -/

namespace StellaGo.Program

/-- If the result is an error, it is on one of the lines. -/
def Blames {α : Type} (lines : List Line) (x : Compile α) : Prop :=
  ∀ e, x = .error e → ∃ line ∈ lines, line.number = e.line

namespace Blames

variable {α β : Type} {lines others : List Line} {line : Line}

theorem ok (a : α) : Blames lines (.ok a : Compile α) := nofun

theorem error (h : line ∈ lines) (fault : Fault) :
    Blames lines (.error ⟨line.number, fault⟩ : Compile α) := by
  intro e he
  cases he
  exact ⟨line, h, rfl⟩

theorem onLine (h : line ∈ lines) (x : Check α) : Blames lines (x.onLine line.number) := by
  cases x with
  | error fault => exact error h fault
  | ok a => exact ok a

theorem bind {x : Compile α} {f : α → Compile β} (hx : Blames lines x)
    (hf : ∀ a, x = .ok a → Blames lines (f a)) : Blames lines (x >>= f) := by
  cases x with
  | error e =>
    intro e' he'
    cases he'
    exact hx e rfl
  | ok a => exact hf a rfl

theorem of_subset {x : Compile α} (hx : Blames lines x) (h : lines ⊆ others) : Blames others x := by
  intro e he
  obtain ⟨line, hline, hnumber⟩ := hx e he
  exact ⟨line, h hline, hnumber⟩

end Blames

/-! ### Blocks -/

variable {n : Nat} {inner : InnerReader n}

/-- The reader of the lines of inner scopes puts its errors on them. -/
def BlamesInside (inner : InnerReader n) : Prop :=
  ∀ lines short count f, Blames lines (inner lines short count f)

variable (hinner : BlamesInside inner)
include hinner

theorem blames_readBlock (header : Line) (rest : List Line) (short : rest.length < n) (body : Frame) :
    Blames (header :: rest) (readBlock inner header rest short body) := by
  unfold readBlock
  split
  · exact .error List.mem_cons_self _
  next index hindex =>
  dsimp only
  split
  · exact .error (List.mem_cons_of_mem _ (List.getElem_mem _)) _
  · exact .bind ((hinner rest short index body).of_subset (List.subset_cons_self _ _)) fun _ _ => .ok _

omit hinner in
/-- The line that closes a block is one of those behind its header. -/
theorem close_mem_of_readBlock {header : Line} {rest : List Line} {short : rest.length < n}
    {body : Frame} {block : { block : Block // block.index < rest.length }}
    (h : readBlock inner header rest short body = .ok block) : block.1.close ∈ rest :=
  List.mem_of_getElem? (readBlock_eq_ok h).2.1

theorem blames_readClauses (f : Frame) (header : ClauseHeader) (line : Line) (rest : List Line)
    (short : rest.length < n) :
    Blames (line :: rest) (readClauses inner f header line rest short) := by
  unfold readClauses
  refine .bind (blames_readBlock hinner line rest short _) fun ⟨block, within⟩ hblock => ?_
  have hclose : block.close ∈ rest := close_mem_of_readBlock hblock
  dsimp only
  split
  · exact .ok _
  · refine .bind (.onLine (List.mem_cons_of_mem _ hclose) _) fun next _ => ?_
    refine .bind (Blames.of_subset (blames_readClauses _ next block.close _ _) ?_) fun _ _ => .ok _
    exact List.cons_subset.2 ⟨List.mem_cons_of_mem _ hclose,
      List.Subset.trans (List.drop_subset _ _) (List.subset_cons_self _ _)⟩
termination_by rest.length
decreasing_by rw [List.length_drop]; omega

/-! ### Items -/

theorem blames_readSelection (f : Frame) (line : Line) (rest : List Line) (short : rest.length < n) :
    Blames (line :: rest) (readSelection inner f line rest short) := by
  unfold readSelection
  split
  · exact .error List.mem_cons_self _
  · refine .bind (.onLine List.mem_cons_self _) fun condition _ => ?_
    exact .bind (blames_readClauses hinner f _ line rest short) fun _ _ => .ok _

theorem blames_readLoop (f : Frame) (line : Line) (rest : List Line) (short : rest.length < n) :
    Blames (line :: rest) (readLoop inner f line rest short) := by
  unfold readLoop
  split
  · exact .error List.mem_cons_self _
  refine .bind (.onLine List.mem_cons_self _) fun condition _ => ?_
  refine .bind (blames_readBlock hinner line rest short _) fun ⟨block, within⟩ hblock => ?_
  refine .bind (.onLine (List.mem_cons_of_mem _ (close_mem_of_readBlock hblock)) _) fun _ _ => ?_
  dsimp only
  split
  · exact .error List.mem_cons_self _
  · exact .ok _

theorem blames_readFunction (f : Frame) (line : Line) (rest : List Line) (short : rest.length < n) :
    Blames (line :: rest) (readFunction inner f line rest short) := by
  unfold readFunction
  refine .bind (.onLine List.mem_cons_self _) fun ⟨signature, r⟩ _ => ?_
  refine .bind (.onLine List.mem_cons_self _) fun body _ => ?_
  refine .bind (blames_readBlock hinner line rest short body) fun ⟨block, within⟩ hblock => ?_
  have hclose : block.close ∈ line :: rest := List.mem_cons_of_mem _ (close_mem_of_readBlock hblock)
  refine .bind (.onLine hclose _) fun _ _ => ?_
  dsimp only
  split
  · exact .error hclose _
  · exact .bind (.onLine List.mem_cons_self _) fun _ _ => .ok _

omit hinner in
theorem blames_checkNothingFollows (lines : List Line) : Blames lines (checkNothingFollows lines) := by
  unfold checkNothingFollows
  split
  · next line hline => exact .error (List.mem_of_find?_eq_some hline) _
  · exact .ok _

theorem blames_readItem (f : Frame) (line : Line) (rest : List Line) (short : rest.length < n)
    (count : Nat) : Blames (line :: rest) (readItem inner f line rest short count) := by
  unfold readItem
  refine .bind (.onLine List.mem_cons_self _) fun _ _ => ?_
  dsimp only
  split
  · exact .ok _
  · exact blames_readFunction hinner f line rest short
  · exact blames_readSelection hinner f line rest short
  · exact blames_readLoop hinner f line rest short
  · exact .bind (.onLine List.mem_cons_self _) fun _ _ => .ok _
  · exact .bind (.onLine List.mem_cons_self _) fun _ _ => .ok _
  · exact .bind (.onLine List.mem_cons_self _) fun _ _ => .ok _
  · exact .bind (.onLine List.mem_cons_self _) fun _ _ => .ok _
  · refine .bind (.onLine List.mem_cons_self _) fun _ _ => ?_
    refine .bind (Blames.of_subset (blames_checkNothingFollows _) ?_) fun _ _ => .ok _
    exact List.Subset.trans (List.take_subset _ _) (List.subset_cons_self _ _)
  · exact .error List.mem_cons_self _
  · exact .error List.mem_cons_self _

omit hinner

/-! ### Files -/

theorem blames_readLines (f : Frame) (lines : List Line) (count : Nat) :
    Blames lines (readLines f lines count) := by
  match lines, count with
  | [], _ =>
    unfold readLines
    exact .ok _
  | _ :: _, 0 =>
    unfold readLines
    exact .ok _
  | line :: rest, count + 1 =>
    have ih : BlamesInside (innerLines (rest.length + 1)) :=
      fun lines _ count f => blames_readLines f lines count
    unfold readLines
    refine .bind (blames_readItem ih f line rest (Nat.lt_succ_self _) count) fun item _ => ?_
    refine .bind (Blames.of_subset (blames_readLines item.frame (rest.drop item.used) _) ?_)
      fun _ _ => .ok _
    exact List.Subset.trans (List.drop_subset _ _) (List.subset_cons_self _ _)
termination_by lines.length
decreasing_by
  all_goals simp only [List.length_cons, List.length_drop] at *
  all_goals omega

/-- An error is on a line of the source, and on line 1 if there are none. -/
theorem line_of_read_error {source : Text} {e : CompileError} (h : read source = .error e) :
    1 ≤ e.line ∧ e.line ≤ max 1 source.lines.length := by
  have hnumber {line : Line} (hline : line ∈ source.numberedLines) :
      1 ≤ line.number ∧ line.number ≤ source.lines.length := by
    obtain ⟨i, hi, rfl⟩ := List.mem_iff_getElem.1 hline
    simp only [Text.numberedLines, List.length_mapIdx] at hi
    simp only [Text.numberedLines, List.getElem_mapIdx]
    omega
  have hlength : source.numberedLines.length = source.lines.length := List.length_mapIdx
  unfold read at h
  dsimp only at h
  cases hlines : readLines ⟨.global, .empty⟩ source.numberedLines source.numberedLines.length with
  | error e' =>
    rw [hlines] at h
    cases h
    obtain ⟨line, hline, hblamed⟩ := blames_readLines _ _ _ e hlines
    have := hnumber hline
    omega
  | ok result =>
    rw [hlines] at h
    simp only [bind, Except.bind] at h
    split at h
    · cases h
      rw [hlength]
      exact ⟨Nat.le_max_left _ _, Nat.le_refl _⟩
    · cases h

end StellaGo.Program
