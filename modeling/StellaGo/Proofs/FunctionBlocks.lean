import StellaGo.Proofs.BlankLines
import StellaGo.Proofs.SameNames

/-! Functions are read by themselves. Defined here: lines that hold the same at the same distance from
a header, and errors that differ by the place of the header alone. Proved: what is read off the block
of a function, or what is wrong with it, depends on the lines of the block and on the signatures of
the functions before it. The reader looks for the end of every inner block in the whole rest of the
file; it finds it inside the block of the function, since every line that was accepted before, and
the header itself, leaves as many braces open as it should. -/

namespace StellaGo

/-! ### Ends of blocks -/

namespace Block

/-- The end of a block depends on the lines up to it. -/
theorem closingLine_of_take {depth i : Nat} {lines lines' : List Text}
    (h : closingLine depth lines = some i) (htake : lines.take (i + 1) = lines'.take (i + 1)) :
    closingLine depth lines' = some i := by
  induction lines generalizing depth i lines' with
  | nil => cases h
  | cons line rest ih =>
    cases lines' with
    | nil => cases htake
    | cons line' rest' =>
      rw [List.take_succ_cons, List.take_succ_cons, List.cons.injEq] at htake
      obtain ⟨rfl, hrest⟩ := htake
      rw [closingLine] at h ⊢
      split at h
      · exact h
      · obtain ⟨j, hj, rfl⟩ := Option.map_eq_some_iff.1 h
        rw [ih hj hrest]
        rfl

/-- More open braces do not close where fewer do not. -/
theorem closingLine_add_eq_none {depth : Nat} {lines : List Text} (k : Nat)
    (h : closingLine depth lines = none) : closingLine (depth + k) lines = none := by
  induction lines generalizing depth with
  | nil => rfl
  | cons line rest ih =>
    rw [closingLine] at h
    split at h
    · cases h
    next deeper hdeeper =>
    rw [closingLine, Glyph.braceDepth_add k hdeeper]
    dsimp only
    rw [ih (Option.map_eq_none_iff.1 h)]
    rfl

/-- An inner block ends no later than the block around it. -/
theorem exists_closingLine_le {depth k count : Nat} {lines : List Text} (hd : 1 ≤ depth)
    (h : closingLine (depth + k) lines = some count) :
    ∃ i, closingLine depth lines = some i ∧ i ≤ count := by
  cases hi : closingLine depth lines with
  | none =>
    rw [closingLine_add_eq_none k hi] at h
    cases h
  | some i =>
    obtain ⟨before, close, -, -, -, hsearch⟩ := closingLine_add k hd hi
    rw [hsearch] at h
    obtain ⟨more, -, rfl⟩ := Option.map_eq_some_iff.1 h
    exact ⟨i, rfl, Nat.le_add_right _ _⟩

end Block

/-! ### Corresponding lines -/

/-- Two lines hold the same, one as far behind line `start` as the other behind line `start'`. -/
structure Line.Shifted (start start' : Nat) (line line' : Line) : Prop where
  text : line.text = line'.text
  number : line.number + start' = line'.number + start

/-- The same is wrong, in one source as far behind line `start` as in the other behind `start'`. -/
structure CompileError.Shifted (start start' : Nat) (e e' : CompileError) : Prop where
  fault : e.fault = e'.fault
  line : e.line + start' = e'.line + start

namespace Program

variable {start start' : Nat}

/-- The first `count` lines on either side correspond, and there are as many. -/
def Alongside (start start' : Nat) (lines lines' : List Line) (count : Nat) : Prop :=
  List.Forall₂ (Line.Shifted start start') (lines.take count) (lines'.take count)

namespace Alongside

variable {lines lines' : List Line} {count : Nat}

theorem texts_eq (h : Alongside start start' lines lines' count) :
    (lines.map Line.text).take count = (lines'.map Line.text).take count := by
  rw [← List.map_take, ← List.map_take]
  unfold Alongside at h
  generalize lines.take count = xs at h
  generalize lines'.take count = ys at h
  induction h with
  | nil => rfl
  | cons hline _ ih => rw [List.map_cons, List.map_cons, hline.text, ih]

theorem mono {fewer : Nat} (h : Alongside start start' lines lines' count) (hle : fewer ≤ count) :
    Alongside start start' lines lines' fewer := by
  have htake := List.forall₂_take fewer h
  rwa [List.take_take, List.take_take, Nat.min_eq_left hle] at htake

theorem drop {used more : Nat} (h : Alongside start start' lines lines' (used + more)) :
    Alongside start start' (lines.drop used) (lines'.drop used) more := by
  have hdrop := List.forall₂_drop used h
  rwa [List.drop_take, List.drop_take, Nat.add_sub_cancel_left] at hdrop

theorem cons {line : Line} (h : Alongside start start' (line :: lines) lines' (count + 1)) :
    ∃ line' rest', lines' = line' :: rest' ∧ line.Shifted start start' line' ∧
      Alongside start start' lines rest' count := by
  cases lines' with
  | nil => cases h
  | cons line' rest' =>
    obtain ⟨hline, hrest⟩ := List.forall₂_cons.1 h
    exact ⟨line', rest', rfl, hline, hrest⟩

theorem getElem? {i : Nat} {line : Line} (h : Alongside start start' lines lines' count)
    (hi : i < count) (hline : lines[i]? = some line) :
    ∃ line', lines'[i]? = some line' ∧ line.Shifted start start' line' := by
  obtain ⟨used, rfl⟩ := Nat.exists_eq_add_of_lt hi
  rw [Nat.add_assoc] at h
  obtain ⟨hlt, hget⟩ := List.getElem?_eq_some_iff.1 hline
  have hdrop := h.drop
  rw [List.drop_eq_getElem_cons hlt, hget] at hdrop
  obtain ⟨line', rest', hrest', hshifted, -⟩ := hdrop.cons
  refine ⟨line', ?_, hshifted⟩
  rw [← List.head?_drop, hrest', List.head?_cons]

end Alongside

theorem onLine_same {α β : Type} {R : α → β → Prop} {line line' : Line} {x : Check α} {y : Check β}
    (hline : line.Shifted start start' line') (h : Check.Rel Eq R x y) :
    Check.Rel (CompileError.Shifted start start') R (x.onLine line.number)
      (y.onLine line'.number) := by
  cases h with
  | error h => exact .error ⟨h, hline.number⟩
  | ok h => exact .ok h

theorem onLine_congr {α : Type} {line line' : Line} {x y : Check α}
    (hline : line.Shifted start start' line') (h : x = y) :
    Check.Rel (CompileError.Shifted start start') Eq (x.onLine line.number)
      (y.onLine line'.number) :=
  onLine_same hline (.of_eq (fun _ => rfl) h)

/-! ### Blocks -/

variable {n n' : Nat} {f f' : Frame} {rest rest' : List Line} {line line' : Line}

/-- The same statements, and frames that answer alike. -/
def SameLines (result result' : List Statement × Frame) : Prop :=
  result.1 = result'.1 ∧ result.2.Same result'.2

/-- Corresponding lines of inner scopes are read alike, if those of one source are fewer than `n`
and those of the other fewer than `n'`. -/
def ReadsSame (start start' n n' : Nat) : Prop :=
  ∀ {f f' : Frame} {lines lines' : List Line} {count : Nat}, lines.length < n → lines'.length < n' →
    f.scope.kind ≠ .global → f.Same f' → Covers f.scope.kind lines count →
    Alongside start start' lines lines' (count + 1) →
    Check.Rel (CompileError.Shifted start start') SameLines (readLines f lines count)
      (readLines f' lines' count)

/-- Blocks with the same statements, closed by corresponding lines. -/
structure Block.Same (start start' : Nat) (block block' : Block) : Prop where
  statements : block.statements = block'.statements
  frame : block.frame.Same block'.frame
  index : block.index = block'.index
  close : block.close.Shifted start start' block'.close

theorem readBlock_same {index bound : Nat} {short : rest.length < n} {short' : rest'.length < n'}
    {header header' : Line} {body body' : Frame} (ih : ReadsSame start start' n n')
    (hlines : Alongside start start' rest rest' (bound + 1))
    (hend : StellaGo.Block.closingLine 1 (rest.map Line.text) = some index) (hle : index ≤ bound)
    (hin : body.scope.kind ≠ .global) (hbody : body.Same body') :
    Check.Rel (CompileError.Shifted start start') (fun block block' => block.1.Same start start' block'.1)
      (readBlock (innerLines n) header rest short body)
      (readBlock (innerLines n') header' rest' short' body') := by
  have hlines := hlines.mono (Nat.succ_le_succ hle)
  have hend' := StellaGo.Block.closingLine_of_take hend hlines.texts_eq
  unfold readBlock
  split
  · next hnone =>
    rw [hend] at hnone
    cases hnone
  next index₁ hindex₁ =>
  obtain rfl : index = index₁ := Option.some.inj (hend.symm.trans hindex₁)
  split
  · next hnone =>
    rw [hend'] at hnone
    cases hnone
  next index₂ hindex₂ =>
  obtain rfl : index = index₂ := Option.some.inj (hend'.symm.trans hindex₂)
  dsimp only
  have hlt : index < rest.length := by simpa using StellaGo.Block.closingLine_lt_length hend
  have hlt' : index < rest'.length := by simpa using StellaGo.Block.closingLine_lt_length hend'
  obtain ⟨close', hclose', hclose⟩ :=
    hlines.getElem? (Nat.lt_succ_self _) (List.getElem?_eq_getElem hlt)
  obtain rfl : rest'[index] = close' :=
    Option.some.inj ((List.getElem?_eq_getElem hlt').symm.trans hclose')
  rw [← hclose.text]
  split
  · exact .error ⟨rfl, hclose.number⟩
  have hcover : Covers body.scope.kind rest index := by
    rw [Covers, if_neg hin]
    exact ⟨1, Nat.le_refl 1, hend⟩
  refine .bind (ih short short' hin hbody hcover hlines) fun result result' _ _ hresult => ?_
  obtain ⟨statements, frame⟩ := result
  obtain ⟨statements', frame'⟩ := result'
  exact .ok ⟨hresult.1, hresult.2, rfl, hclose⟩

/-- The block behind a header, inside of another block. -/
theorem readBlock_same_inside {depth count : Nat} {short : rest.length < n} {short' : rest'.length < n'}
    {header header' : Line} {body body' : Frame} (ih : ReadsSame start start' n n')
    (hlines : Alongside start start' rest rest' (count + 1))
    (hcount : StellaGo.Block.closingLine (1 + depth) (rest.map Line.text) = some count)
    (hin : body.scope.kind ≠ .global) (hbody : body.Same body') :
    Check.Rel (CompileError.Shifted start start') (fun block block' => block.1.Same start start' block'.1)
      (readBlock (innerLines n) header rest short body)
      (readBlock (innerLines n') header' rest' short' body') := by
  obtain ⟨index, hend, hle⟩ := StellaGo.Block.exists_closingLine_le (Nat.le_refl 1) hcount
  exact readBlock_same ih hlines hend hle hin hbody

/-! ### Selections and loops -/

theorem readNextHeader_congr (h : f.Same f') (isLast : Bool) (text : Text) :
    readNextHeader f.scope.symbols isLast text = readNextHeader f'.scope.symbols isLast text := by
  unfold readNextHeader
  simp only [Statement.readCondition_congr h]

/-- The same clauses, on as many lines. -/
def SameClauses (result result' : List (Clause Statement) × Nat × Requirements) : Prop :=
  result.1 = result'.1 ∧ result.2.1 = result'.2.1

/-- Each clause ends where the search for the end of the block around the selection goes on. -/
theorem readClauses_same {f f' : Frame} {header : ClauseHeader} {line line' : Line}
    {rest rest' : List Line} {short : rest.length < n} {short' : rest'.length < n'} {depth count : Nat}
    (ih : ReadsSame start start' n n') (hd : 1 ≤ depth) (hf : f.Same f')
    (hlines : Alongside start start' rest rest' (count + 1))
    (hcount : StellaGo.Block.closingLine (1 + depth) (rest.map Line.text) = some count) :
    Check.Rel (CompileError.Shifted start start') SameClauses
      (readClauses (innerLines n) f header line rest short)
      (readClauses (innerLines n') f' header line' rest' short') := by
  unfold readClauses
  have hin : (f.enter .selection).scope.kind ≠ .global := by
    intro hglobal
    cases hglobal
  refine .bind (readBlock_same_inside ih hlines hcount hin (hf.enter .selection))
    fun read read' hblock _ hsame => ?_
  obtain ⟨block, within⟩ := read
  obtain ⟨block', within'⟩ := read'
  obtain ⟨hend, hclose, hstart, -⟩ := readBlock_eq_ok hblock
  obtain ⟨hstatements, hframe, hindex, hshifted⟩ := hsame
  dsimp only at hend hclose hstart hstatements hframe hindex hshifted ⊢
  rw [afterCloser_congr hshifted.text.symm]
  split
  · refine .ok ⟨?_, congrArg (· + 1) hindex⟩
    rw [hframe.body_eq, hstatements]
  refine .bind (onLine_congr hshifted (readNextHeader_congr hf _ _)) fun next next' hnext _ heq => ?_
  subst heq
  rw [Check.onLine_eq_ok_iff] at hnext
  obtain ⟨more, rfl, hmore⟩ := closingLine_behind_clause hd hend hclose hcount hstart hnext
  have hothers : Alongside start start' (rest.drop (block.index + 1)) (rest'.drop (block'.index + 1))
      (more + 1) := by
    rw [Nat.add_assoc] at hlines
    rw [← hindex]
    exact hlines.drop
  refine .bind (readClauses_same ih hd hf.leave hothers hmore)
    fun more' more'' _ _ hclauses => ?_
  obtain ⟨clauses, used, r⟩ := more'
  obtain ⟨clauses', used', r'⟩ := more''
  obtain ⟨rfl, rfl⟩ : clauses = clauses' ∧ used = used' := hclauses
  refine .ok ⟨?_, congrArg (· + 1 + used) hindex⟩
  rw [hframe.body_eq, hstatements]
termination_by rest.length
decreasing_by rw [List.length_drop]; omega

/-! ### Items -/

/-- Items with the same statements on as many lines, behind which frames answer alike and are still
in the scope of the frame `f`. -/
structure Item.Same (f : Frame) (item item' : Item) : Prop where
  statements : item.statements = item'.statements
  used : item.used = item'.used
  frame : item.frame.Same item'.frame
  kind : item.frame.scope.kind = f.scope.kind

section Items

variable {short : rest.length < n} {short' : rest'.length < n'} {count : Nat}
  (ih : ReadsSame start start' n n') (hin : f.scope.kind ≠ .global) (hf : f.Same f')
  (hline : line.Shifted start start' line') (hlines : Alongside start start' rest rest' (count + 1))
  (hcover : Covers f.scope.kind (line :: rest) (count + 1))

include ih hin hf hline hlines hcover

theorem readSelection_same :
    Check.Rel (CompileError.Shifted start start') (Item.Same f)
      (readSelection (innerLines n) f line rest short)
      (readSelection (innerLines n') f' line' rest' short') := by
  unfold readSelection
  rw [← hline.text]
  split
  · exact .error ⟨rfl, hline.number⟩
  next text htext =>
  refine .bind (onLine_congr hline (Statement.readCondition_congr hf text))
    fun condition condition' hcondition _ heq => ?_
  subst heq
  rw [Check.onLine_eq_ok_iff] at hcondition
  obtain ⟨depth, hd, hcount⟩ := closingLine_of_header (by decide) hin hcover htext hcondition
  refine .bind (readClauses_same ih hd hf hlines hcount)
    fun ⟨clauses, used, r⟩ ⟨clauses', used', r'⟩ _ _ hclauses => ?_
  obtain ⟨rfl, rfl⟩ : clauses = clauses' ∧ used = used' := hclauses
  exact .ok ⟨rfl, rfl, hf.with_requirements _ _, rfl⟩

theorem readLoop_same :
    Check.Rel (CompileError.Shifted start start') (Item.Same f)
      (readLoop (innerLines n) f line rest short)
      (readLoop (innerLines n') f' line' rest' short') := by
  unfold readLoop
  rw [← hline.text]
  split
  · exact .error ⟨rfl, hline.number⟩
  next text htext =>
  refine .bind (onLine_congr hline (Statement.readCondition_congr hf text))
    fun condition condition' hcondition _ heq => ?_
  subst heq
  rw [Check.onLine_eq_ok_iff] at hcondition
  obtain ⟨depth, hd, hcount⟩ := closingLine_of_header (by decide) hin hcover htext hcondition
  refine .bind (readBlock_same_inside ih hlines hcount nofun (hf.enter .loop))
    fun ⟨block, within⟩ ⟨block', within'⟩ _ _ hsame => ?_
  obtain ⟨hstatements, hframe, hindex, hshifted⟩ := hsame
  dsimp only at hstatements hframe hindex hshifted ⊢
  refine .bind (onLine_congr hshifted (expectPlainClose_congr hshifted.text.symm).symm) fun _ _ _ _ _ => ?_
  rw [← hstatements, ← hindex, hframe.body_eq]
  split
  · exact .error ⟨rfl, hline.number⟩
  · exact .ok ⟨rfl, rfl, hf.leave, rfl⟩

end Items

theorem checkNothingFollows_same {lines lines' : List Line}
    (h : List.Forall₂ (Line.Shifted start start') lines lines') :
    Check.Rel (CompileError.Shifted start start') Eq (checkNothingFollows lines)
      (checkNothingFollows lines') := by
  unfold checkNothingFollows
  induction h with
  | nil => exact .ok rfl
  | @cons line line' _ _ hline _ ih =>
    rw [List.find?_cons, List.find?_cons, ← hline.text]
    cases line.text != [] with
    | true => exact .error ⟨rfl, hline.number⟩
    | false => exact ih

theorem readItem_same {short : rest.length < n} {short' : rest'.length < n'} {count : Nat}
    (ih : ReadsSame start start' n n') (hin : f.scope.kind ≠ .global) (hf : f.Same f')
    (hline : line.Shifted start start' line')
    (hlines : Alongside start start' rest rest' (count + 1))
    (hcover : Covers f.scope.kind (line :: rest) (count + 1)) :
    Check.Rel (CompileError.Shifted start start') (Item.Same f)
      (readItem (innerLines n) f line rest short count)
      (readItem (innerLines n') f' line' rest' short' count) := by
  unfold readItem
  rw [← hline.text, ← hf.kind_eq]
  refine .bind (onLine_congr hline rfl) fun _ _ hplace _ _ => ?_
  rw [Check.onLine_eq_ok_iff] at hplace
  dsimp only
  split
  · exact .ok ⟨rfl, rfl, hf, rfl⟩
  · next hk => exact absurd ((checkPlace_eq_ok hplace).2 hk) hin
  · exact readSelection_same ih hin hf hline hlines hcover
  · exact readLoop_same ih hin hf hline hlines hcover
  · refine .bind (onLine_congr hline (Statement.readJump_congr hf _ _)) fun s s' _ _ hs => ?_
    exact .ok ⟨congrArg ([·]) hs, rfl, hf, rfl⟩
  · next hk =>
    refine .bind (onLine_same hline (Statement.readDeclaration_same hf _))
      fun ⟨s, next⟩ ⟨s', next'⟩ hs _ hsame => ?_
    rw [Check.onLine_eq_ok_iff] at hs
    exact .ok ⟨congrArg ([·]) hsame.1, rfl, hsame.2,
      Scope.kind_eq_of_place_eq (ReadsLine.declaration hk hs).spells.place_eq⟩
  · refine .bind (onLine_congr hline (Statement.readAssignment_congr hf _)) fun s s' _ _ hs => ?_
    exact .ok ⟨congrArg ([·]) hs, rfl, hf, rfl⟩
  · next hk =>
    refine .bind (onLine_same hline (Statement.readBuiltin_same hf _))
      fun ⟨s, next⟩ ⟨s', next'⟩ hs _ hsame => ?_
    rw [Check.onLine_eq_ok_iff] at hs
    exact .ok ⟨congrArg ([·]) hsame.1, rfl, hsame.2,
      Scope.kind_eq_of_place_eq (ReadsLine.builtin hk hs).spells.place_eq⟩
  · refine .bind (onLine_congr hline (Statement.readResult_congr hf _)) fun s s' _ _ hs => ?_
    refine .bind (checkNothingFollows_same (hlines.mono (Nat.le_succ _))) fun _ _ _ _ _ => ?_
    exact .ok ⟨congrArg ([·]) hs, rfl, hf, rfl⟩
  · exact .error ⟨rfl, hline.number⟩
  · exact .error ⟨rfl, hline.number⟩

/-! ### Lines -/

/-- Corresponding lines of a scope are read alike. -/
theorem readLines_same {f f' : Frame} {lines lines' : List Line} {count : Nat}
    (hin : f.scope.kind ≠ .global) (hf : f.Same f') (hcover : Covers f.scope.kind lines count)
    (hlines : Alongside start start' lines lines' (count + 1)) :
    Check.Rel (CompileError.Shifted start start') SameLines (readLines f lines count)
      (readLines f' lines' count) := by
  match lines, count with
  | [], count =>
    rw [Covers, if_neg hin] at hcover
    obtain ⟨depth, -, hcover⟩ := hcover
    cases hcover
  | line :: rest, 0 =>
    obtain ⟨line', rest', rfl, -, -⟩ := hlines.cons
    rw [readLines, readLines]
    exact .ok ⟨rfl, hf⟩
  | line :: rest, count + 1 =>
    obtain ⟨line', rest', rfl, hline, hrest⟩ := hlines.cons
    have ih : ReadsSame start start' (rest.length + 1) (rest'.length + 1) :=
      fun hlt _ hin hf hcover hlines => readLines_same hin hf hcover hlines
    rw [readLines, readLines]
    refine .bind (readItem_same ih hin hf hline hrest hcover) fun item item' hitem _ hsame => ?_
    obtain ⟨hstatements, hused, hframe, hkind⟩ := hsame
    rw [← hused]
    obtain ⟨hle, hcovers⟩ := covers_of_readItem hcover hitem
    have hbehind : Alongside start start' (rest.drop item.used) (rest'.drop item.used)
        (count - item.used + 1) := by
      refine Alongside.drop (hrest.mono ?_)
      omega
    refine .bind (readLines_same (hkind ▸ hin) hframe hcovers hbehind)
      fun result result' _ _ hresult => ?_
    exact .ok ⟨congrArg₂ (· ++ ·) hstatements hresult.1, hresult.2⟩
termination_by lines.length
decreasing_by
  all_goals simp only [List.length_cons, List.length_drop] at *
  all_goals omega

end Program

end StellaGo
