import StellaGo.Proofs.Rendering

/-! Blank lines do not matter. Defined here: the texts of the lines that hold something, and when two
lists of lines, each with a number of first lines, hold the same. Proved: where two sources hold the
same, whatever the numbers of their lines, the reader accepts both and reads the same program. -/

namespace StellaGo

/-! ### Lines that hold something -/

namespace Program

/-- The texts of the lines that hold something. -/
def filled (lines : List Line) : List Text := (lines.map Line.text).filter (· ≠ [])

variable {lines lines' : List Line}

theorem filled_append (xs ys : List Line) : filled (xs ++ ys) = filled xs ++ filled ys := by
  rw [filled, List.map_append, List.filter_append]
  rfl

theorem filled_cons_of_empty {line : Line} (rest : List Line) (h : line.text = []) :
    filled (line :: rest) = filled rest := by
  rw [filled, List.map_cons, List.filter_cons_of_neg (by simpa using h)]
  rfl

theorem filled_cons {line : Line} (rest : List Line) (h : line.text ≠ []) :
    filled (line :: rest) = line.text :: filled rest := by
  rw [filled, List.map_cons, List.filter_cons_of_pos (by simpa using h)]
  rfl

theorem filled_eq_nil_iff : filled lines = [] ↔ ∀ line ∈ lines, line.text = [] := by
  simp [filled, List.filter_eq_nil_iff]

theorem filled_take (lines : List Line) (n : Nat) :
    filled (lines.take n) = (filled lines).take (filled (lines.take n)).length := by
  conv_rhs => rw [← List.take_append_drop n lines, filled_append]
  simp

theorem filled_drop (lines : List Line) (n : Nat) :
    filled (lines.drop n) = (filled lines).drop (filled (lines.take n)).length := by
  conv_rhs => rw [← List.take_append_drop n lines, filled_append]
  simp

/-- Of the first `count` lines, those behind the first `used`. -/
theorem filled_take_drop (lines : List Line) (used count : Nat) :
    filled ((lines.drop used).take (count - used)) =
      (filled (lines.take count)).drop (filled (lines.take used)).length := by
  rcases Nat.le_total used count with h | h
  · have hdrop := filled_drop (lines.take count) used
    rwa [List.drop_take, List.take_take, Nat.min_eq_left h] at hdrop
  · have hle : (filled (lines.take count)).length ≤ (filled (lines.take used)).length := by
      have htake := congrArg List.length (filled_take (lines.take used) count)
      rw [List.take_take, Nat.min_eq_left h, List.length_take] at htake
      omega
    rw [Nat.sub_eq_zero_of_le h, List.drop_eq_nil_of_le hle]
    rfl

/-- The two lists hold the same, and so do the first `count` and `count'` lines of them. -/
structure Alike (lines lines' : List Line) (count count' : Nat) : Prop where
  all : filled lines = filled lines'
  taken : filled (lines.take count) = filled (lines'.take count')

namespace Alike

variable {count count' used used' : Nat}

theorem symm (h : Alike lines lines' count count') : Alike lines' lines count' count :=
  ⟨h.all.symm, h.taken.symm⟩

/-- Behind as much on either side, the lines are alike again. -/
theorem drop (h : Alike lines lines' count count')
    (hused : filled (lines.take used) = filled (lines'.take used')) :
    Alike (lines.drop used) (lines'.drop used') (count - used) (count' - used') where
  all := by rw [filled_drop, filled_drop, h.all, hused]
  taken := by rw [filled_take_drop, filled_take_drop, h.taken, hused]

theorem cons_empty {line : Line} (h : Alike (line :: lines) lines' (count + 1) count')
    (hline : line.text = []) : Alike lines lines' count count' where
  all := by rw [← h.all, filled_cons_of_empty _ hline]
  taken := by rw [← h.taken, List.take_succ_cons, filled_cons_of_empty _ hline]

theorem cons {line line' : Line} (h : Alike (line :: lines) (line' :: lines') (count + 1) (count' + 1))
    (hline : line.text ≠ []) (hline' : line'.text ≠ []) :
    line.text = line'.text ∧ Alike lines lines' count count' := by
  have hall := h.all
  have htaken := h.taken
  rw [filled_cons _ hline, filled_cons _ hline', List.cons.injEq] at hall
  rw [List.take_succ_cons, List.take_succ_cons, filled_cons _ hline, filled_cons _ hline',
    List.cons.injEq] at htaken
  exact ⟨hall.1, hall.2, htaken.2⟩

end Alike

end Program

/-! ### Ends of blocks -/

namespace Block

theorem closingLine_filter (depth : Nat) (texts : List Text) :
    closingLine depth (texts.filter (· ≠ [])) =
      (closingLine depth texts).map fun i => ((texts.take i).filter (· ≠ [])).length := by
  induction texts generalizing depth with
  | nil => rfl
  | cons text rest ih =>
    by_cases htext : text = []
    · subst htext
      rw [List.filter_cons_of_neg (by simp), ih, closingLine]
      have hdepth : Glyph.braceDepth depth (Glyph.ofText []) = some depth := rfl
      simp [hdepth, Function.comp_def]
    · rw [List.filter_cons_of_pos (by simpa using htext), closingLine, closingLine]
      cases hdepth : Glyph.braceDepth depth (Glyph.ofText text) with
      | none => simp
      | some deeper =>
        dsimp only
        rw [ih, Option.map_map, Option.map_map]
        congr 1
        funext i
        simp [htext]

/-- The line that closes a block holds something. -/
theorem exists_of_closingLine {depth i : Nat} {texts : List Text}
    (h : closingLine depth texts = some i) : ∃ text, texts[i]? = some text ∧ text ≠ [] := by
  induction texts generalizing depth i with
  | nil => cases h
  | cons text rest ih =>
    rw [closingLine] at h
    split at h
    · next hnone =>
      cases h
      refine ⟨text, rfl, ?_⟩
      rintro rfl
      cases hnone
    · obtain ⟨j, hj, rfl⟩ := Option.map_eq_some_iff.1 h
      exact ih hj

end Block

/-! ### Reading alike lines -/

namespace Program

variable {n n' : Nat} {f : Frame} {lines lines' rest rest' : List Line} {line line' : Line}

/-- A line that holds something, in its place among those that do. -/
theorem filled_of_getElem? {i : Nat} (h : rest[i]? = some line) (hline : line.text ≠ []) :
    (filled rest)[(filled (rest.take i)).length]? = some line.text ∧
      filled (rest.take (i + 1)) = filled (rest.take i) ++ [line.text] := by
  obtain ⟨hlt, hget⟩ := List.getElem?_eq_some_iff.1 h
  have hdrop : rest.drop i = line :: rest.drop (i + 1) := by
    rw [List.drop_eq_getElem_cons hlt, hget]
  constructor
  · have hfirst := congrArg List.head? (filled_drop rest i)
    rw [hdrop, filled_cons _ hline, List.head?_drop] at hfirst
    exact hfirst.symm
  · rw [List.take_add_one, h, filled_append, Option.toList_some, filled_cons _ hline]
    rfl

/-- The block that is closed in lines that hold the same. -/
theorem exists_closingLine_of_filled {depth i : Nat} (hall : filled rest = filled rest')
    (h : StellaGo.Block.closingLine depth (rest.map Line.text) = some i)
    (hline : rest[i]? = some line) :
    ∃ i' line', StellaGo.Block.closingLine depth (rest'.map Line.text) = some i' ∧
      rest'[i']? = some line' ∧ line'.text = line.text ∧
      filled (rest.take i) = filled (rest'.take i') ∧
      filled (rest.take (i + 1)) = filled (rest'.take (i' + 1)) := by
  -- in what both hold, the block is closed at the same place
  have hclosing := StellaGo.Block.closingLine_filter depth (rest.map Line.text)
  have hclosing' := StellaGo.Block.closingLine_filter depth (rest'.map Line.text)
  rw [h, Option.map_some, ← List.map_take] at hclosing
  change StellaGo.Block.closingLine depth (filled rest) = some (filled (rest.take i)).length
    at hclosing
  change StellaGo.Block.closingLine depth (filled rest') = _ at hclosing'
  rw [← hall, hclosing] at hclosing'
  obtain ⟨i', hi', hlength⟩ := Option.map_eq_some_iff.1 hclosing'.symm
  rw [← List.map_take] at hlength
  change (filled (rest'.take i')).length = _ at hlength
  have htaken : filled (rest.take i) = filled (rest'.take i') := by
    rw [filled_take rest i, filled_take rest' i', hall, hlength]
  -- and the line there holds something on either side
  have hne {lines : List Line} {j : Nat} {l : Line}
      (hc : StellaGo.Block.closingLine depth (lines.map Line.text) = some j)
      (hl : lines[j]? = some l) : l.text ≠ [] := by
    obtain ⟨text, htext, hne⟩ := StellaGo.Block.exists_of_closingLine hc
    rw [List.getElem?_map, hl, Option.map_some, Option.some.injEq] at htext
    exact htext ▸ hne
  have hlt' : i' < rest'.length := by simpa using StellaGo.Block.closingLine_lt_length hi'
  have hline' := List.getElem?_eq_getElem hlt'
  obtain ⟨hplace, hbehind⟩ := filled_of_getElem? hline (hne h hline)
  obtain ⟨hplace', hbehind'⟩ := filled_of_getElem? hline' (hne hi' hline')
  rw [hlength, ← hall, hplace, Option.some.injEq] at hplace'
  exact ⟨i', _, hi', hline', hplace'.symm, htaken, by rw [hbehind, hbehind', htaken, hplace']⟩

/-! ### Blocks -/

/-- What is read in one list of lines is read in every other one that is alike, if one of the two is
shorter than here. -/
def ReadsAlike (n n' : Nat) : Prop :=
  ∀ {f : Frame} {lines lines' : List Line} {count count' : Nat} {result : List Statement × Frame},
    lines.length < n → lines'.length < n' → Alike lines lines' count count' →
      readLines f lines count = .ok result → readLines f lines' count' = .ok result

theorem readBlock_of {inner : InnerReader n} {header close : Line} {short : rest.length < n}
    {body frame : Frame} {index : Nat} {statements : List Statement}
    (hend : StellaGo.Block.closingLine 1 (rest.map Line.text) = some index)
    (hclose : rest[index]? = some close) (hstart : close.text.startsWith '}')
    (hinner : inner rest short index body = .ok (statements, frame)) :
    ∃ block, readBlock inner header rest short body = .ok block ∧
      block.1 = ⟨statements, frame, index, close⟩ := by
  obtain ⟨hlt, rfl⟩ := List.getElem?_eq_some_iff.1 hclose
  refine ⟨⟨⟨statements, frame, index, rest[index]⟩, hlt⟩, ?_, rfl⟩
  unfold readBlock
  split
  · next hnone =>
    rw [hend] at hnone
    cases hnone
  next index' hindex =>
  obtain rfl : index = index' := Option.some.inj (hend.symm.trans hindex)
  rw [hinner]
  simp [hstart, bind, Except.bind, pure, Except.pure]

/-- A block in alike lines: its statements, what is known at its end, and its closing line. -/
theorem readBlock_alike {header : Line} {short : rest.length < n} {body : Frame}
    {block : { block : Block // block.index < rest.length }} (header' : Line)
    (short' : rest'.length < n') (ih : ReadsAlike n n') (hall : filled rest = filled rest')
    (h : readBlock (innerLines n) header rest short body = .ok block) :
    ∃ block', readBlock (innerLines n') header' rest' short' body = .ok block' ∧
      block'.1.statements = block.1.statements ∧ block'.1.frame = block.1.frame ∧
      block'.1.close.text = block.1.close.text ∧
      filled (rest.take (block.1.index + 1)) = filled (rest'.take (block'.1.index + 1)) := by
  obtain ⟨hend, hclose, hstart, hinner⟩ := readBlock_eq_ok h
  obtain ⟨index', close', hend', hclose', htext, htaken, hbehind⟩ :=
    exists_closingLine_of_filled hall hend hclose
  have hinner' := ih short short' ⟨hall, htaken⟩ hinner
  obtain ⟨block', hblock', heq⟩ := @readBlock_of n' rest' (innerLines n') header' close' short' body
    block.1.frame index' block.1.statements hend' hclose' (htext ▸ hstart) hinner'
  exact ⟨block', hblock', by rw [heq], by rw [heq], by rw [heq, htext], by rw [heq, hbehind]⟩

theorem afterCloser_congr {close close' : Line} (h : close'.text = close.text) :
    afterCloser close' = afterCloser close := by
  rw [afterCloser, afterCloser, h]

/-- The lines that two rows of blocks take, one behind the other. -/
theorem filled_take_add {used used' more more' : Nat}
    (hused : filled (rest.take used) = filled (rest'.take used'))
    (hmore : filled ((rest.drop used).take more) = filled ((rest'.drop used').take more')) :
    filled (rest.take (used + more)) = filled (rest'.take (used' + more')) := by
  rw [List.take_add, List.take_add, filled_append, filled_append, hused, hmore]

theorem readClauses_alike {f : Frame} {header : ClauseHeader} {line : Line}
    {rest rest' : List Line} {short : rest.length < n} {clauses : List (Clause Statement)}
    {used : Nat} {r : Requirements} (line' : Line) (short' : rest'.length < n')
    (ih : ReadsAlike n n')
    (hall : filled rest = filled rest')
    (h : readClauses (innerLines n) f header line rest short = .ok (clauses, used, r)) :
    ∃ used', readClauses (innerLines n') f header line' rest' short' = .ok (clauses, used', r) ∧
      filled (rest.take used) = filled (rest'.take used') := by
  unfold readClauses at h
  obtain ⟨block, hblock, h⟩ := Check.bind_eq_ok_iff.1 h
  obtain ⟨block', hblock', hstatements, hframe, hclose, htaken⟩ :=
    readBlock_alike line' short' ih hall hblock
  have hfollowing := afterCloser_congr hclose
  dsimp only at h
  split at h
  · next hnothing =>
    cases h
    refine ⟨block'.1.index + 1, ?_, htaken⟩
    unfold readClauses
    rw [hblock']
    change (if afterCloser block'.1.close = [] then _ else _) = _
    rw [hfollowing, if_pos hnothing, hstatements, hframe]
    rfl
  · next hsomething =>
    obtain ⟨next, hnext, h⟩ := Check.bind_eq_ok_iff.1 h
    obtain ⟨⟨others, more, r'⟩, hothers, h⟩ := Check.bind_eq_ok_iff.1 h
    cases h
    rw [Check.onLine_eq_ok_iff] at hnext
    have hbehind : filled (rest.drop (block.1.index + 1)) =
        filled (rest'.drop (block'.1.index + 1)) := by
      rw [filled_drop, filled_drop, hall, htaken]
    obtain ⟨more', hothers', hmore⟩ := readClauses_alike block'.1.close
      (by rw [List.length_drop]; omega) ih hbehind hothers
    refine ⟨block'.1.index + 1 + more', ?_, filled_take_add htaken hmore⟩
    unfold readClauses
    rw [hblock']
    change (if afterCloser block'.1.close = [] then _ else _) = _
    rw [hfollowing, if_neg hsomething, hnext, hstatements, hframe]
    exact Check.bind_eq_ok_iff.2 ⟨next, rfl, Check.bind_eq_ok_iff.2 ⟨_, hothers', rfl⟩⟩
termination_by rest.length
decreasing_by rw [List.length_drop]; omega

/-! ### Items -/

/-- Items with the same statements behind which the same is known, and that take the same lines as
far as these hold something. -/
structure Item.Alike (rest rest' : List Line) (item item' : Item) : Prop where
  statements : item'.statements = item.statements
  frame : item'.frame = item.frame
  used : filled (rest.take item.used) = filled (rest'.take item'.used)

variable {text : Text} {number : Nat} {short : rest.length < n} {count count' : Nat} {item : Item}
  (number' : Nat) (short' : rest'.length < n')

theorem readSelection_alike (ih : ReadsAlike n n') (hall : filled rest = filled rest')
    (h : readSelection (innerLines n) f ⟨number, text⟩ rest short = .ok item) :
    ∃ item', readSelection (innerLines n') f ⟨number', text⟩ rest' short' = .ok item' ∧
      item.Alike rest rest' item' := by
  unfold readSelection at h ⊢
  dsimp only at h ⊢
  split at h
  · cases h
  next inner _ =>
  obtain ⟨condition, hcondition, h⟩ := Check.bind_eq_ok_iff.1 h
  obtain ⟨⟨clauses, used, r⟩, hclauses, h⟩ := Check.bind_eq_ok_iff.1 h
  cases h
  rw [Check.onLine_eq_ok_iff] at hcondition
  obtain ⟨used', hclauses', htaken⟩ :=
    readClauses_alike ⟨number', text⟩ short' ih hall hclauses
  refine ⟨⟨[.selection clauses], used', { f with requirements := r }⟩, ?_, rfl, rfl, htaken⟩
  rw [hcondition]
  exact Check.bind_eq_ok_iff.2 ⟨condition, rfl, Check.bind_eq_ok_iff.2 ⟨_, hclauses', rfl⟩⟩

theorem expectPlainClose_congr {close close' : Line} (h : close'.text = close.text) :
    expectPlainClose close' = expectPlainClose close := by
  rw [expectPlainClose, expectPlainClose, afterCloser_congr h]

theorem readLoop_alike (ih : ReadsAlike n n') (hall : filled rest = filled rest')
    (h : readLoop (innerLines n) f ⟨number, text⟩ rest short = .ok item) :
    ∃ item', readLoop (innerLines n') f ⟨number', text⟩ rest' short' = .ok item' ∧
      item.Alike rest rest' item' := by
  unfold readLoop at h ⊢
  dsimp only at h ⊢
  split at h
  · cases h
  next inner _ =>
  obtain ⟨condition, hcondition, h⟩ := Check.bind_eq_ok_iff.1 h
  obtain ⟨block, hblock, h⟩ := Check.bind_eq_ok_iff.1 h
  obtain ⟨⟨⟩, hplain, h⟩ := Check.bind_eq_ok_iff.1 h
  split at h
  · cases h
  next hbreaks =>
  cases h
  rw [Check.onLine_eq_ok_iff] at hcondition hplain
  obtain ⟨block', hblock', hstatements, hframe, hclose, htaken⟩ :=
    readBlock_alike ⟨number', text⟩ short' ih hall hblock
  refine ⟨⟨_, block'.1.index + 1, _⟩, ?_, rfl, rfl, htaken⟩
  rw [hcondition]
  refine Check.bind_eq_ok_iff.2 ⟨condition, rfl, Check.bind_eq_ok_iff.2 ⟨block', hblock', ?_⟩⟩
  rw [← expectPlainClose_congr hclose] at hplain
  refine Check.bind_eq_ok_iff.2 ⟨(), by rw [hplain]; rfl, ?_⟩
  rw [hstatements, hframe, if_neg hbreaks]
  rfl

theorem readFunction_alike (ih : ReadsAlike n n') (hall : filled rest = filled rest')
    (h : readFunction (innerLines n) f ⟨number, text⟩ rest short = .ok item) :
    ∃ item', readFunction (innerLines n') f ⟨number', text⟩ rest' short' = .ok item' ∧
      item.Alike rest rest' item' := by
  unfold readFunction at h ⊢
  obtain ⟨⟨signature, r⟩, hsignature, h⟩ := Check.bind_eq_ok_iff.1 h
  obtain ⟨entered, henter, h⟩ := Check.bind_eq_ok_iff.1 h
  obtain ⟨block, hblock, h⟩ := Check.bind_eq_ok_iff.1 h
  obtain ⟨⟨⟩, hplain, h⟩ := Check.bind_eq_ok_iff.1 h
  dsimp only at h
  split at h
  · cases h
  next hresult =>
  obtain ⟨after, hafter, h⟩ := Check.bind_eq_ok_iff.1 h
  cases h
  rw [Check.onLine_eq_ok_iff] at hsignature henter hplain hafter
  obtain ⟨block', hblock', hstatements, hframe, hclose, htaken⟩ :=
    readBlock_alike ⟨number', text⟩ short' ih hall hblock
  refine ⟨⟨_, block'.1.index + 1, _⟩, ?_, rfl, rfl, htaken⟩
  rw [hsignature]
  refine Check.bind_eq_ok_iff.2 ⟨(signature, r), rfl, Check.bind_eq_ok_iff.2 ⟨entered, ?_, ?_⟩⟩
  · rw [henter]
    rfl
  refine Check.bind_eq_ok_iff.2 ⟨block', hblock', ?_⟩
  rw [← expectPlainClose_congr hclose] at hplain
  refine Check.bind_eq_ok_iff.2 ⟨(), by rw [hplain]; rfl, ?_⟩
  rw [hstatements, hframe, if_neg hresult]
  exact Check.bind_eq_ok_iff.2 ⟨after, by rw [hafter]; rfl, rfl⟩

theorem checkNothingFollows_eq_ok_iff :
    checkNothingFollows lines = .ok () ↔ filled lines = [] := by
  rw [filled_eq_nil_iff, checkNothingFollows]
  split
  · next line hline =>
    have htext : line.text ≠ [] := by simpa using List.find?_some hline
    exact iff_of_false nofun fun h => htext (h line (List.mem_of_find?_eq_some hline))
  · next hnone => simpa using hnone

/-- A statement of one line. -/
theorem onLine_alike {α : Type} {x : Check α} {toItem : α → Compile Item}
    (hused : ∀ a item, toItem a = .ok item → item.used = 0)
    (h : (x.onLine number >>= toItem) = .ok item) :
    ∃ item', (x.onLine number' >>= toItem) = .ok item' ∧ item.Alike rest rest' item' := by
  obtain ⟨a, ha, h⟩ := Check.bind_eq_ok_iff.1 h
  rw [Check.onLine_eq_ok_iff] at ha
  refine ⟨item, Check.bind_eq_ok_iff.2 ⟨a, Check.onLine_eq_ok_iff.2 ha, h⟩, rfl, rfl, ?_⟩
  rw [hused a item h]
  rfl

theorem readItem_alike (ih : ReadsAlike n n') (hrest : Alike rest rest' count count')
    (h : readItem (innerLines n) f ⟨number, text⟩ rest short count = .ok item) :
    ∃ item', readItem (innerLines n') f ⟨number', text⟩ rest' short' count' = .ok item' ∧
      item.Alike rest rest' item' := by
  unfold readItem at h ⊢
  obtain ⟨⟨⟩, hplace, h⟩ := Check.bind_eq_ok_iff.1 h
  rw [Check.onLine_eq_ok_iff] at hplace
  simp only [Check.bind_eq_ok_iff (x := Check.onLine number' (checkPlace _ _ _)),
    Check.onLine_eq_ok_iff]
  suffices hitem : ∃ item', _ = Except.ok item' ∧ item.Alike rest rest' item' by
    obtain ⟨item', hitem', halike⟩ := hitem
    exact ⟨item', ⟨(), hplace, hitem'⟩, halike⟩
  dsimp only at h ⊢
  split at h
  · cases h
    exact ⟨_, rfl, rfl, rfl, rfl⟩
  · exact readFunction_alike number' short' ih hrest.all h
  · exact readSelection_alike number' short' ih hrest.all h
  · exact readLoop_alike number' short' ih hrest.all h
  · exact onLine_alike number' (fun _ _ h => by cases h; rfl) h
  · exact onLine_alike number' (fun _ _ h => by cases h; rfl) h
  · exact onLine_alike number' (fun _ _ h => by cases h; rfl) h
  · exact onLine_alike number' (fun _ _ h => by cases h; rfl) h
  · obtain ⟨s, hs, h⟩ := Check.bind_eq_ok_iff.1 h
    obtain ⟨⟨⟩, hnothing, h⟩ := Check.bind_eq_ok_iff.1 h
    cases h
    rw [Check.onLine_eq_ok_iff] at hs
    rw [checkNothingFollows_eq_ok_iff, hrest.taken, ← checkNothingFollows_eq_ok_iff] at hnothing
    refine ⟨⟨[s], count', f⟩, ?_, rfl, rfl, hrest.taken⟩
    exact Check.bind_eq_ok_iff.2 ⟨s, Check.onLine_eq_ok_iff.2 hs,
      Check.bind_eq_ok_iff.2 ⟨(), hnothing, rfl⟩⟩
  · cases h
  · cases h

/-! ### Files -/

theorem readItem_of_empty (hline : line.text = []) :
    readItem (innerLines n) f line rest short count = .ok ⟨[], 0, f⟩ := by
  have hkind : line.text.lineKind = .blank := by rw [hline]; rfl
  have hplace : checkPlace .blank f.scope.kind line.text = .ok () := by
    rw [checkPlace]
    split
    · rfl
    · rfl
  unfold readItem
  simp only [hkind, hplace]
  rfl

theorem readLines_cons_of_empty (hline : line.text = []) :
    readLines f (line :: rest) (count + 1) = readLines f rest count := by
  rw [readLines]
  have hitem : readItem (innerLines (rest.length + 1)) f line rest (Nat.lt_succ_self _) count = _ :=
    readItem_of_empty hline
  unfold innerLines at hitem
  rw [hitem]
  change (readLines f rest count >>= fun read => pure ([] ++ read.1, read.2)) = _
  cases readLines f rest count <;> rfl

/-- Lines that hold nothing change nothing. -/
theorem readLines_of_filled_eq_nil (h : filled (lines.take count) = []) :
    readLines f lines count = .ok ([], f) := by
  induction lines generalizing count with
  | nil => rw [readLines]
  | cons line rest ih =>
    cases count with
    | zero => rw [readLines]
    | succ count =>
      have hline := filled_eq_nil_iff.1 h line List.mem_cons_self
      rw [readLines_cons_of_empty hline]
      apply ih
      rwa [List.take_succ_cons, filled_cons_of_empty _ hline] at h

theorem exists_cons_of_filled_ne_nil (h : filled (lines.take count) ≠ []) :
    ∃ line rest more, lines = line :: rest ∧ count = more + 1 := by
  cases lines with
  | nil => exact absurd (by rw [List.take_nil]; rfl) h
  | cons line rest =>
    cases count with
    | zero => exact absurd rfl h
    | succ more => exact ⟨line, rest, more, rfl, rfl⟩

/-- Lines that hold the same are read as the same. Blank lines are skipped on either side; then both
sides go on with the same line, and go on behind what it starts. -/
theorem readLines_alike {f : Frame} {lines lines' : List Line} {count count' : Nat}
    {result : List Statement × Frame} (halike : Alike lines lines' count count')
    (h : readLines f lines count = .ok result) : readLines f lines' count' = .ok result := by
  induction hn : lines.length + lines'.length using Nat.strong_induction_on
    generalizing f lines lines' count count' result with
  | _ n ih =>
  subst hn
  by_cases hnothing : filled (lines.take count) = []
  · rw [readLines_of_filled_eq_nil hnothing] at h
    rw [readLines_of_filled_eq_nil (halike.taken ▸ hnothing), h]
  obtain ⟨line, rest, more, rfl, rfl⟩ := exists_cons_of_filled_ne_nil hnothing
  obtain ⟨line', rest', more', rfl, rfl⟩ := exists_cons_of_filled_ne_nil (halike.taken ▸ hnothing)
  simp only [List.length_cons] at ih
  by_cases hline : line.text = []
  · rw [readLines_cons_of_empty hline] at h
    exact ih _ (by rw [List.length_cons]; omega) (halike.cons_empty hline) h rfl
  by_cases hline' : line'.text = []
  · rw [readLines_cons_of_empty hline']
    exact ih _ (by rw [List.length_cons]; omega) (halike.symm.cons_empty hline').symm h rfl
  have hinside : ReadsAlike (rest.length + 1) (rest'.length + 1) :=
    fun hlt hlt' halike h => ih _ (by omega) halike h rfl
  obtain ⟨htext, hrest⟩ := halike.cons hline hline'
  obtain ⟨number, text⟩ := line
  obtain ⟨number', text'⟩ := line'
  obtain rfl : text = text' := htext
  rw [readLines] at h
  obtain ⟨item, hitem, h⟩ := Check.bind_eq_ok_iff.1 h
  obtain ⟨⟨others, after⟩, hothers, h⟩ := Check.bind_eq_ok_iff.1 h
  cases h
  obtain ⟨item', hitem', hstatements, hframe, hused⟩ :=
    readItem_alike number' (Nat.lt_succ_self _) hinside hrest hitem
  rw [← hframe] at hothers
  have hothers' := ih _ (by rw [List.length_drop, List.length_drop]; omega) (hrest.drop hused)
    hothers rfl
  rw [readLines]
  refine Check.bind_eq_ok_iff.2 ⟨item', hitem', Check.bind_eq_ok_iff.2 ⟨(others, after), hothers', ?_⟩⟩
  rw [← hstatements]
  rfl

/-- Two sources whose lines hold the same are the same program, if one of them is accepted. -/
theorem read_of_filled {source source' : Text} {p : Program}
    (hsame : filled source.numberedLines = filled source'.numberedLines)
    (h : read source = .ok p) : read source' = .ok p := by
  obtain ⟨⟨statements, after⟩, hlines, h⟩ := Check.bind_eq_ok_iff.1 h
  have halike : Alike source.numberedLines source'.numberedLines source.numberedLines.length
      source'.numberedLines.length := ⟨hsame, by rw [List.take_length, List.take_length, hsame]⟩
  refine Check.bind_eq_ok_iff.2 ⟨(statements, after), readLines_alike halike hlines, ?_⟩
  dsimp only at h ⊢
  split at h
  · cases h
  next hmain =>
  rw [if_neg hmain]
  exact h

end Program

end StellaGo
