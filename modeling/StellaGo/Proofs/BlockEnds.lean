import StellaGo.Proofs.FunctionBlocks
import StellaGo.Proofs.LineFaults

/-! Blocks of which no end is found. Defined here: when an error, if there is one, is not that a block
is never closed. Proved: inside of a function there is no such error, since each line that was accepted
and each header leaves as many braces open as it should. So it is a function of which no end is found. -/

namespace StellaGo.Program

open StellaGo.Block (closingLine)

variable {f : Frame}

/-! ### Accepted items -/

section Items

variable {n count : Nat} {line : Line} {rest : List Line} {short : rest.length < n} {item : Item}

/-- One clause of a selection is read, and then the others, if a header follows on its last line. -/
theorem readClauses_eq_ok {header : ClauseHeader} {clauses : List (Clause Statement)} {used : Nat}
    {r : Requirements}
    (h : readClauses (innerLines n) f header line rest short = .ok (clauses, used, r)) :
    ∃ block, readBlock (innerLines n) line rest short (f.enter .selection) = .ok block ∧
      ((afterCloser block.1.close = [] ∧ used = block.1.index + 1) ∨
        afterCloser block.1.close ≠ [] ∧ ∃ next others taken, ∃ short' : _ < n,
          readNextHeader f.scope.symbols (isOtherwise header) (afterCloser block.1.close) = .ok next ∧
          readClauses (innerLines n) (f.leave block.1.frame) next block.1.close
            (rest.drop (block.1.index + 1)) short' = .ok (others, taken, r) ∧
          used = block.1.index + 1 + taken) := by
  unfold readClauses at h
  obtain ⟨block, hblock, h⟩ := Check.bind_eq_ok_iff.1 h
  refine ⟨block, hblock, ?_⟩
  dsimp only at h
  split at h
  · next hlast =>
    cases h
    exact .inl ⟨hlast, rfl⟩
  · next hmore =>
    obtain ⟨next, hnext, h⟩ := Check.bind_eq_ok_iff.1 h
    rw [Check.onLine_eq_ok_iff] at hnext
    obtain ⟨⟨others, taken, r'⟩, hothers, h⟩ := Check.bind_eq_ok_iff.1 h
    cases h
    exact .inr ⟨hmore, next, others, taken, _, hnext, hothers, rfl⟩

theorem readSelection_eq_ok (h : readSelection (innerLines n) f line rest short = .ok item) :
    ∃ text condition clauses used r, line.text.betweenKeywordAndBrace? "if" = some text ∧
      Statement.readCondition f.scope.symbols text = .ok condition ∧
      readClauses (innerLines n) f (.ifTrue condition) line rest short = .ok (clauses, used, r) ∧
      item = ⟨[.selection clauses], used, { f with requirements := r }⟩ := by
  unfold readSelection at h
  split at h
  · cases h
  next text htext =>
  obtain ⟨condition, hcondition, h⟩ := Check.bind_eq_ok_iff.1 h
  rw [Check.onLine_eq_ok_iff] at hcondition
  obtain ⟨⟨clauses, used, r⟩, hclauses, h⟩ := Check.bind_eq_ok_iff.1 h
  cases h
  exact ⟨text, condition, clauses, used, r, htext, hcondition, hclauses, rfl⟩

theorem readLoop_eq_ok (h : readLoop (innerLines n) f line rest short = .ok item) :
    ∃ text condition block, line.text.betweenKeywordAndBrace? "loop" = some text ∧
      Statement.readCondition f.scope.symbols text = .ok condition ∧
      readBlock (innerLines n) line rest short (f.enter .loop) = .ok block ∧
      item.used = block.1.index + 1 ∧ item.frame = f.leave block.1.frame := by
  unfold readLoop at h
  split at h
  · cases h
  next text htext =>
  obtain ⟨condition, hcondition, h⟩ := Check.bind_eq_ok_iff.1 h
  rw [Check.onLine_eq_ok_iff] at hcondition
  obtain ⟨block, hblock, h⟩ := Check.bind_eq_ok_iff.1 h
  obtain ⟨_, -, h⟩ := Check.bind_eq_ok_iff.1 h
  dsimp only at h
  split at h
  · cases h
  cases h
  exact ⟨text, condition, block, htext, hcondition, hblock, rfl, rfl⟩

theorem kind_of_readFunction (h : readFunction (innerLines n) f line rest short = .ok item) :
    item.frame.scope.kind = f.scope.kind := by
  unfold readFunction at h
  obtain ⟨⟨signature, r⟩, -, h⟩ := Check.bind_eq_ok_iff.1 h
  obtain ⟨_, -, h⟩ := Check.bind_eq_ok_iff.1 h
  obtain ⟨⟨_, _⟩, -, h⟩ := Check.bind_eq_ok_iff.1 h
  obtain ⟨_, -, h⟩ := Check.bind_eq_ok_iff.1 h
  dsimp only at h
  split at h
  · cases h
  obtain ⟨after, hafter, h⟩ := Check.bind_eq_ok_iff.1 h
  cases h
  rw [Check.onLine_eq_ok_iff] at hafter
  have hplace := Frame.place_of_declare hafter
  exact Scope.kind_eq_of_place_eq hplace

/-- An item leaves the reader in the scope that it starts in. -/
theorem kind_of_readItem (h : readItem (innerLines n) f line rest short count = .ok item) :
    item.frame.scope.kind = f.scope.kind := by
  unfold readItem at h
  obtain ⟨_, -, h⟩ := Check.bind_eq_ok_iff.1 h
  split at h
  · cases h
    rfl
  · exact kind_of_readFunction h
  · obtain ⟨_, _, _, _, _, -, -, -, rfl⟩ := readSelection_eq_ok h
    rfl
  · obtain ⟨_, _, _, -, -, -, -, hframe⟩ := readLoop_eq_ok h
    rw [hframe]
    rfl
  · obtain ⟨_, -, h⟩ := Check.bind_eq_ok_iff.1 h
    cases h
    rfl
  · next hk =>
    obtain ⟨⟨s, after⟩, hs, h⟩ := Check.bind_eq_ok_iff.1 h
    cases h
    rw [Check.onLine_eq_ok_iff] at hs
    exact Scope.kind_eq_of_place_eq (ReadsLine.declaration hk hs).spells.place_eq
  · obtain ⟨_, -, h⟩ := Check.bind_eq_ok_iff.1 h
    cases h
    rfl
  · next hk =>
    obtain ⟨⟨s, after⟩, hs, h⟩ := Check.bind_eq_ok_iff.1 h
    cases h
    rw [Check.onLine_eq_ok_iff] at hs
    exact Scope.kind_eq_of_place_eq (ReadsLine.builtin hk hs).spells.place_eq
  · obtain ⟨_, -, h⟩ := Check.bind_eq_ok_iff.1 h
    obtain ⟨_, -, h⟩ := Check.bind_eq_ok_iff.1 h
    cases h
    rfl
  · cases h
  · cases h

end Items

/-! ### Blocks with an end -/

/-- If the result is an error, it is not that a block is never closed. -/
def FindsEnds {α : Type} (x : Compile α) : Prop := ∀ e, x = .error e → e.kind ≠ .unclosedScope

namespace FindsEnds

variable {α β : Type}

theorem ok (a : α) : FindsEnds (.ok a : Compile α) := nofun

theorem error {number : Nat} {fault : Fault} (h : fault.IsInLine) :
    FindsEnds (.error ⟨number, fault⟩ : Compile α) := by
  intro e he
  cases he
  exact h

theorem onLine {x : Check α} (h : Check.Raises Fault.IsInLine x) (number : Nat) :
    FindsEnds (x.onLine number) := by
  cases x with
  | error fault => exact error (h fault rfl)
  | ok a => exact ok a

theorem bind {x : Compile α} {f : α → Compile β} (hx : FindsEnds x)
    (hf : ∀ a, x = .ok a → FindsEnds (f a)) : FindsEnds (x >>= f) := by
  cases x with
  | error e =>
    intro e' he'
    cases he'
    exact hx e rfl
  | ok a => exact hf a rfl

end FindsEnds

section Walk

variable {n : Nat}

/-- In inner scopes the reader finds the ends of blocks. -/
def FindsEndsInside (n : Nat) : Prop :=
  ∀ {f : Frame} {lines : List Line} {count : Nat}, lines.length < n → f.scope.kind ≠ .global →
    Covers f.scope.kind lines count → FindsEnds (readLines f lines count)

variable (ih : FindsEndsInside n) {line : Line} {rest : List Line} {short : rest.length < n}
include ih

theorem findsEnds_readBlock {body : Frame} {i : Nat} (hin : body.scope.kind ≠ .global)
    (hend : closingLine 1 (rest.map Line.text) = some i) :
    FindsEnds (readBlock (innerLines n) line rest short body) := by
  unfold readBlock
  split
  · next hnone => cases hend.symm.trans hnone
  next index hindex =>
  dsimp only
  split
  · exact .error nofun
  refine .bind (ih short hin ?_) fun _ _ => .ok _
  rw [Covers, if_neg hin]
  exact ⟨1, Nat.le_refl 1, hindex⟩

theorem findsEnds_readClauses {f : Frame} {header : ClauseHeader} {line : Line} {rest : List Line}
    {short : rest.length < n} {depth count : Nat} (hd : 1 ≤ depth)
    (hcount : closingLine (1 + depth) (rest.map Line.text) = some count) :
    FindsEnds (readClauses (innerLines n) f header line rest short) := by
  unfold readClauses
  obtain ⟨i, hi, -⟩ := StellaGo.Block.exists_closingLine_le (Nat.le_refl 1) hcount
  refine .bind (findsEnds_readBlock ih nofun hi) fun ⟨block, within⟩ hblock => ?_
  obtain ⟨hend, hclose, hstart, -⟩ := readBlock_eq_ok hblock
  dsimp only at hend hclose hstart ⊢
  split
  · exact .ok _
  refine .bind (.onLine (raises_readNextHeader _ _ _) _) fun next hnext => ?_
  rw [Check.onLine_eq_ok_iff] at hnext
  obtain ⟨more, rfl, hmore⟩ := closingLine_behind_clause hd hend hclose hcount hstart hnext
  exact .bind (findsEnds_readClauses hd hmore) fun _ _ => .ok _
termination_by rest.length
decreasing_by rw [List.length_drop]; omega

theorem findsEnds_readSelection {count : Nat} (hin : f.scope.kind ≠ .global)
    (hcover : Covers f.scope.kind (line :: rest) (count + 1)) :
    FindsEnds (readSelection (innerLines n) f line rest short) := by
  unfold readSelection
  split
  · exact .error nofun
  next text htext =>
  refine .bind (.onLine (Statement.raises_readCondition _) _) fun condition hcondition => ?_
  rw [Check.onLine_eq_ok_iff] at hcondition
  obtain ⟨depth, hd, hcount⟩ := closingLine_of_header (by decide) hin hcover htext hcondition
  exact .bind (findsEnds_readClauses ih hd hcount) fun _ _ => .ok _

theorem findsEnds_readLoop {count : Nat} (hin : f.scope.kind ≠ .global)
    (hcover : Covers f.scope.kind (line :: rest) (count + 1)) :
    FindsEnds (readLoop (innerLines n) f line rest short) := by
  unfold readLoop
  split
  · exact .error nofun
  next text htext =>
  refine .bind (.onLine (Statement.raises_readCondition _) _) fun condition hcondition => ?_
  rw [Check.onLine_eq_ok_iff] at hcondition
  obtain ⟨depth, hd, hcount⟩ := closingLine_of_header (by decide) hin hcover htext hcondition
  obtain ⟨i, hi, -⟩ := StellaGo.Block.exists_closingLine_le (Nat.le_refl 1) hcount
  refine .bind (findsEnds_readBlock ih nofun hi) fun block _ => ?_
  refine .bind (.onLine (raises_expectPlainClose _) _) fun _ _ => ?_
  dsimp only
  split
  · exact .error nofun
  · exact .ok _

omit ih in
theorem findsEnds_checkNothingFollows (lines : List Line) : FindsEnds (checkNothingFollows lines) := by
  unfold checkNothingFollows
  split
  · exact .error nofun
  · exact .ok _

theorem findsEnds_readItem {count : Nat} (hin : f.scope.kind ≠ .global)
    (hcover : Covers f.scope.kind (line :: rest) (count + 1)) :
    FindsEnds (readItem (innerLines n) f line rest short count) := by
  unfold readItem
  refine .bind (.onLine (raises_checkPlace _ _ _) _) fun _ hplace => ?_
  rw [Check.onLine_eq_ok_iff] at hplace
  dsimp only
  split
  · exact .ok _
  · next hk => exact absurd ((checkPlace_eq_ok hplace).2 hk) hin
  · exact findsEnds_readSelection ih hin hcover
  · exact findsEnds_readLoop ih hin hcover
  · exact .bind (.onLine (Statement.raises_readJump _ _) _) fun _ _ => .ok _
  · exact .bind (.onLine (Statement.raises_readDeclaration _) _) fun _ _ => .ok _
  · exact .bind (.onLine (Statement.raises_readAssignment _) _) fun _ _ => .ok _
  · exact .bind (.onLine (Statement.raises_readBuiltin _) _) fun _ _ => .ok _
  · refine .bind (.onLine (Statement.raises_readResult _) _) fun _ _ => ?_
    exact .bind (findsEnds_checkNothingFollows _) fun _ _ => .ok _
  · exact .error nofun
  · exact .error nofun

end Walk

/-- Inside of a function the ends of all blocks are found. -/
theorem findsEnds_readLines {f : Frame} {lines : List Line} {count : Nat}
    (hin : f.scope.kind ≠ .global) (hcover : Covers f.scope.kind lines count) :
    FindsEnds (readLines f lines count) := by
  match lines, count with
  | [], _ =>
    unfold readLines
    exact .ok _
  | _ :: _, 0 =>
    unfold readLines
    exact .ok _
  | line :: rest, count + 1 =>
    have ih : FindsEndsInside (rest.length + 1) := fun _ hin hc => findsEnds_readLines hin hc
    unfold readLines
    refine .bind (findsEnds_readItem ih hin hcover) fun item hitem => ?_
    have hkind := kind_of_readItem hitem
    obtain ⟨-, hbehind⟩ := covers_of_readItem hcover hitem
    exact .bind (findsEnds_readLines (hkind ▸ hin) hbehind) fun _ _ => .ok _
termination_by lines.length
decreasing_by
  all_goals simp only [List.length_cons, List.length_drop] at *
  all_goals omega

/-! ### Functions -/

section Functions

variable {n : Nat} (ih : FindsEndsInside n) {line : Line} {rest : List Line} {short : rest.length < n}
include ih

theorem findsEnds_readFunction {i : Nat} (hend : closingLine 1 (rest.map Line.text) = some i) :
    FindsEnds (readFunction (innerLines n) f line rest short) := by
  unfold readFunction
  refine .bind (.onLine (raises_readSignature _ _) _) fun ⟨signature, r⟩ _ => ?_
  refine .bind (.onLine (raises_enterFunction _ _) _) fun body henter => ?_
  rw [Check.onLine_eq_ok_iff] at henter
  have hin : body.scope.kind ≠ .global := by
    rw [Scope.kind_eq_of_place_eq (place_of_enterFunction henter)]
    nofun
  refine .bind (findsEnds_readBlock ih hin hend) fun block _ => ?_
  refine .bind (.onLine (raises_expectPlainClose _) _) fun _ _ => ?_
  dsimp only
  split
  · exact .error nofun
  · exact .bind (.onLine (Statement.raises_declare _) _) fun _ _ => .ok _

/-- What goes wrong in a function is that it is never closed only if no end of its block is found. -/
theorem closingLine_of_readFunction {e : CompileError}
    (h : readFunction (innerLines n) f line rest short = .error e) (he : e.kind = .unclosedScope) :
    closingLine 1 (rest.map Line.text) = none ∧ e = ⟨line.number, .unclosedBlock⟩ ∧
      ∃ signature r, readSignature f line.text = .ok (signature, r) := by
  cases hend : closingLine 1 (rest.map Line.text) with
  | some i => exact absurd he (findsEnds_readFunction ih hend e h)
  | none =>
    unfold readFunction at h
    rcases Check.bind_eq_error_iff.1 h with h | ⟨⟨signature, r⟩, hsignature, h⟩
    · exact absurd he (FindsEnds.onLine (raises_readSignature _ _) _ e h)
    rw [Check.onLine_eq_ok_iff] at hsignature
    refine ⟨rfl, ?_, signature, r, hsignature⟩
    rcases Check.bind_eq_error_iff.1 h with h | ⟨body, -, h⟩
    · exact absurd he (FindsEnds.onLine (raises_enterFunction _ _) _ e h)
    rcases Check.bind_eq_error_iff.1 h with h | ⟨block, hblock, -⟩
    · unfold readBlock at h
      split at h
      · cases h
        rfl
      · next hsome => cases hend.symm.trans hsome
    · cases hend.symm.trans (readBlock_eq_ok hblock).1

end Functions

end StellaGo.Program
