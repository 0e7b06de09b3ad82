import StellaGo.Proofs.Offsets.Statements
import StellaGo.Proofs.Reading.Blocks

/-! Files by index. Defined here: the search for the end of a block with a count of the open braces
that must not fall below zero, and the readers of blocks and of whole files, which take lines by their
indices. Proved: they come to their end on every file, with what the readers on lists of lines give. -/

namespace StellaGo.Offsets

open Outcome (bind_eq_ended ended ended_bind ended_map ite_eq_ended liftM_eq_ended liftM_some minus? onLine
  onLine_ended)

/-! ### Ends of blocks -/

/-- The number of braces open behind some characters, or none where the last of the `depth` open ones
closes among them. -/
def scopeDepth : (depth : Nat) → List (Nat × Char) → Option (Option Nat)
  | depth, [] => some (some depth)
  | depth, (_, c) :: rest =>
    if c == '{' then scopeDepth (depth + 1) rest
    else if c == '}' then do
      let shallower ← minus? depth 1
      if shallower = 0 then return none else scopeDepth shallower rest
    else scopeDepth depth rest

/-- The index of the line on which the last of `depth` open braces closes, among lines of which the
first has the index `i`. -/
def scopeEndFrom : (depth i : Nat) → List Text → Option (Option Nat)
  | _, _, [] => some none
  | depth, i, line :: rest => do
    match ← scopeDepth depth line.unquoted with
    | none => return some i
    | some deeper => scopeEndFrom deeper (i + 1) rest

/-- The index of the line that closes the block whose header has the index `header`. -/
def scopeEnd (lines : List Text) (header : Nat) : Option (Option Nat) :=
  scopeEndFrom 1 (header + 1) (lines.drop (header + 1))

theorem scopeDepth_offsets {depth : Nat} (hd : 1 ≤ depth) (b : Nat) (gs : List Glyph) :
    scopeDepth depth (Glyph.offsets b gs) = some (Glyph.braceDepth depth gs) := by
  induction gs generalizing depth b with
  | nil => rfl
  | cons g rest ih =>
    cases g with
    | quoted c => exact ih hd _
    | code c =>
      rw [Glyph.offsets, scopeDepth, Glyph.braceDepth]
      by_cases hopen : c == '{'
      · rw [if_pos hopen, if_pos hopen]
        exact ih (Nat.le_succ_of_le hd) _
      rw [if_neg hopen, if_neg hopen]
      by_cases hclose : c == '}'
      · rw [if_pos hclose, if_pos hclose, Outcome.minus?_of_le hd, Option.bind_eq_bind, Option.bind_some]
        by_cases hone : depth ≤ 1
        · rw [if_pos (by omega), if_pos hone]
          rfl
        · rw [if_neg (by omega), if_neg hone]
          exact ih (by omega) _
      · rw [if_neg hclose, if_neg hclose]
        exact ih hd _

theorem scopeEndFrom_eq {depth : Nat} (hd : 1 ≤ depth) (i : Nat) (lines : List Text) :
    scopeEndFrom depth i lines =
      some ((StellaGo.Block.closingLine depth (lines.map Text.trim)).map (i + ·)) := by
  induction lines generalizing depth i with
  | nil => rfl
  | cons line rest ih =>
    rw [scopeEndFrom, Text.unquoted, scopeDepth_offsets hd, List.map_cons, StellaGo.Block.closingLine,
      Text.braceDepth_trim hd, Option.bind_eq_bind, Option.bind_some]
    cases hdepth : Glyph.braceDepth depth (Glyph.ofText line) with
    | none => rfl
    | some deeper =>
      dsimp only
      rw [ih (Glyph.braceDepth_pos hd hdepth), Option.map_map]
      congr 2
      funext k
      simp only [Function.comp_apply]
      omega

/-! ### Blocks -/

/-- Reads the lines from one index up to another in the scope of a frame. -/
abbrev Inner := (start stop : Nat) → Frame → Outcome CompileError (List Statement × Frame)

section

variable (lines : List Text) (inner : Inner)

/-- The trimmed line of an index. -/
def lineAt (i : Nat) : Option Text := lines[i]?.map Text.trim

/-- The statements of the block whose header has the index `header`, what is known at its end, and the
index of the line that closes it. -/
def readBlock (header : Nat) (body : Frame) :
    Outcome CompileError (List Statement × Frame × Nat) := do
  match ← scopeEnd lines header with
  | none => throw ⟨header + 1, .unclosedBlock⟩
  | some close =>
    let line ← (lines[close]? : Option Text)
    if !line.trimStart.startsWith '}' then throw ⟨close + 1, .closerInside⟩
    let (statements, frame) ← inner (header + 1) close body
    return (statements, frame, close)

/-- What follows the first byte of the line that closes a block. -/
def afterCloser (close : Nat) : Option Text := do
  let line ← lineAt lines close
  let rest ← line.sliceFrom? 1
  return rest.trim

def expectPlainClose (close : Nat) : Outcome Fault Unit := do
  let rest ← afterCloser lines close
  if rest = [] then return ()
  else if rest.startsWithWord "else" then throw .elseWithoutIf
  else throw (.afterBlock rest)

/-- The header of the next clause, cut behind the four bytes of its first word. -/
def nextHeader (symbols : Symbols) (isLast : Bool) (rest : Text) : Outcome Fault ClauseHeader := do
  if !rest.startsWithWord "else" then throw (.afterBlock rest)
  else if isLast then throw .elseAfterElse
  else
    let continuation ← rest.sliceFrom? 4
    let next := continuation.trim
    if next = ['{'] then return .otherwise
    else if next.startsWithWord "if" then
      match next.betweenKeywordAndBrace? "if" with
      | none => throw (.malformedElseIf rest)
      | some condition => .elseIf <$> readCondition symbols condition
    else throw (.elseCondition rest)

/-- The clauses of a selection from the one whose header has the index `opener`, with the index behind
them. -/
def readClauses : (fuel : Nat) → Frame → ClauseHeader → (opener : Nat) →
    Outcome CompileError (List (Clause Statement) × Nat × Requirements)
  | 0, _, _, _ => (none : Option (List (Clause Statement) × Nat × Requirements))
  | fuel + 1, f, header, opener => do
    let (statements, frame, close) ← readBlock lines inner opener (f.enter .selection)
    let known := f.leave frame
    let rest ← afterCloser lines close
    if rest = [] then
      return ([⟨header, frame.body (statements ++ [.closer])⟩], close + 1, known.requirements)
    else
      let next ← onLine (close + 1) (nextHeader f.scope.symbols (Program.isOtherwise header) rest)
      let (clauses, behind, requirements) ← readClauses fuel known next close
      return (⟨header, frame.body statements⟩ :: clauses, behind, requirements)

/-! ### Items -/

/-- What was read: statements, the index behind their lines, and what is known there. -/
structure Stretch where
  statements : List Statement
  next : Nat
  frame : Frame

def readSelection (f : Frame) (i : Nat) : Outcome CompileError Stretch := do
  let line ← lineAt lines i
  match line.betweenKeywordAndBrace? "if" with
  | none => throw ⟨i + 1, .malformedIf line⟩
  | some text =>
    let condition ← onLine (i + 1) (readCondition f.scope.symbols text)
    let (clauses, next, requirements) ← readClauses lines inner lines.length f (.ifTrue condition) i
    return ⟨[.selection clauses], next, { f with requirements }⟩

def readLoop (f : Frame) (i : Nat) : Outcome CompileError Stretch := do
  let line ← lineAt lines i
  match line.betweenKeywordAndBrace? "loop" with
  | none => throw ⟨i + 1, .malformedLoop line⟩
  | some text =>
    let condition ← onLine (i + 1) (readCondition f.scope.symbols text)
    let (statements, frame, close) ← readBlock lines inner i (f.enter .loop)
    onLine (close + 1) (expectPlainClose lines close)
    if !Statement.anyBreaks statements then throw ⟨i + 1, .endlessLoop⟩
    let body := frame.body (statements ++ [.closer])
    return ⟨[.loop condition body], close + 1, f.leave frame⟩

def readFunction (f : Frame) (i : Nat) : Outcome CompileError Stretch := do
  let line ← lineAt lines i
  let (signature, requirements) ← onLine (i + 1) (readSignature f line)
  let f := { f with requirements }
  let body ← (Program.enterFunction f signature).onLine (i + 1)
  let (statements, frame, close) ← readBlock lines inner i body
  onLine (close + 1) (expectPlainClose lines close)
  if !signature.returns.isIO && !statements.getLast?.any (·.isResult) then
    throw ⟨close + 1, .noReturn signature.name signature.returns⟩
  let after ← ((f.leave frame).declare (.function signature)).onLine (i + 1)
  let body := frame.body (statements ++ [.closer])
  return ⟨[.function signature body], close + 1, after⟩

/-- Of the `count` lines from the index `i` on, none holds anything. -/
def nothingFollows : (count i : Nat) → Outcome CompileError Unit
  | 0, _ => return ()
  | count + 1, i => do
    let line ← lineAt lines i
    if line ≠ [] then throw ⟨i + 1, .deadCode⟩
    nothingFollows count (i + 1)

/-- What starts on the line of index `i`, in a scope that ends before the index `stop`. -/
def readItem (f : Frame) (i stop : Nat) : Outcome CompileError Stretch := do
  let line ← lineAt lines i
  let kind ← lineKind line
  (Program.checkPlace kind f.scope.kind line).onLine (i + 1)
  match kind with
  | .blank => return ⟨[], i + 1, f⟩
  | .function => readFunction lines inner f i
  | .selection => readSelection lines inner f i
  | .loop => readLoop lines inner f i
  | .jump jump =>
    let statement ← (Statement.readJump f.scope jump line).onLine (i + 1)
    return ⟨[statement], i + 1, f⟩
  | .declaration =>
    let (statement, after) ← onLine (i + 1) (readDeclaration f line)
    return ⟨[statement], i + 1, after⟩
  | .assignment =>
    let statement ← onLine (i + 1) (readAssignment f.scope.symbols line)
    return ⟨[statement], i + 1, f⟩
  | .builtin =>
    let (statement, after) ← onLine (i + 1) (readBuiltin f line)
    return ⟨[statement], i + 1, after⟩
  | .result =>
    let statement ← onLine (i + 1) (readResult f.scope line)
    nothingFollows lines (stop - (i + 1)) (i + 1)
    return ⟨[statement], stop, f⟩
  | .otherwise => throw ⟨i + 1, .elseOnOwnLine⟩
  | .closer => throw ⟨i + 1, .strayBlockEnd⟩

end

/-- Reads the lines from the index `start` up to the index `stop` in the scope of a frame, taking at
most `fuel` lines one behind or inside the other. -/
def readLines (lines : List Text) : (fuel start stop : Nat) → Frame →
    Outcome CompileError (List Statement × Frame)
  | 0, _, _, _ => (none : Option (List Statement × Frame))
  | fuel + 1, start, stop, f => do
    if start < stop then
      let item ← readItem lines (readLines lines fuel) f start stop
      let (statements, after) ← readLines lines fuel item.next stop item.frame
      return (item.statements ++ statements, after)
    else return ([], f)

def read (source : Text) : Outcome CompileError Program := do
  let lines := source.lines
  let (statements, f) ← readLines lines (lines.length + 1) 0 lines.length ⟨.global, .empty⟩
  if f.scope.symbols.function? "main".toList = none then throw ⟨max 1 lines.length, .noMain⟩
  return ⟨f.body statements, f.requirements⟩

/-! ### What the readers come to -/

/-- The lines, trimmed and numbered. -/
def numbered (lines : List Text) : List Line := lines.mapIdx fun i line => ⟨i + 1, line.trim⟩

/-- The reader comes to its end where fewer than `n` lines are left. -/
def Agrees (lines : List Text) (inner : Inner) (n : Nat) : Prop :=
  ∀ start stop f, lines.length - start < n → stop ≤ lines.length →
    inner start stop f = ended (Program.readLines f ((numbered lines).drop start) (stop - start))

section

variable {lines : List Text} {inner : Inner} {n i : Nat} {line : Line} {rest : List Line}

theorem getElem?_numbered (lines : List Text) (i : Nat) :
    (numbered lines)[i]? = lines[i]?.map fun line => ⟨i + 1, line.trim⟩ := List.getElem?_mapIdx

theorem map_text_numbered (lines : List Text) : (numbered lines).map Line.text = lines.map Text.trim := by
  refine List.ext_getElem? fun i => ?_
  rw [List.getElem?_map, getElem?_numbered, List.getElem?_map, Option.map_map]
  rfl

theorem length_numbered (lines : List Text) : (numbered lines).length = lines.length :=
  List.length_mapIdx

theorem exists_of_numbered (h : (numbered lines)[i]? = some line) :
    ∃ text, lines[i]? = some text ∧ line = ⟨i + 1, text.trim⟩ := by
  rw [getElem?_numbered] at h
  obtain ⟨text, htext, rfl⟩ := Option.map_eq_some_iff.1 h
  exact ⟨text, htext, rfl⟩

theorem number_of_numbered (h : (numbered lines)[i]? = some line) : line.number = i + 1 := by
  obtain ⟨text, -, rfl⟩ := exists_of_numbered h
  rfl

theorem lineAt_eq (h : (numbered lines)[i]? = some line) : lineAt lines i = some line.text := by
  obtain ⟨text, htext, rfl⟩ := exists_of_numbered h
  rw [lineAt, htext]
  rfl

theorem scopeEnd_eq (lines : List Text) (header : Nat) :
    scopeEnd lines header =
      some ((StellaGo.Block.closingLine 1 (((numbered lines).drop (header + 1)).map Line.text)).map
        (header + 1 + ·)) := by
  rw [scopeEnd, scopeEndFrom_eq (Nat.le_refl 1), List.map_drop, List.map_drop, map_text_numbered]

/-- A line starts with a brace just if it does once blanks are removed at its end, too. -/
theorem startsWith_trimStart {c : Char} (hc : isBlank c = false) (t : Text) :
    t.trimStart.startsWith c = t.trim.startsWith c := by
  have hcut : t.trimStart = t.trim ++ (t.trimStart.reverse.takeWhile isBlank).reverse := by
    rw [Text.trim, Text.trimEnd, ← List.reverse_append, List.takeWhile_append_dropWhile,
      List.reverse_reverse]
  cases htrim : t.trim with
  | cons d rest =>
    rw [htrim] at hcut
    rw [hcut]
    rfl
  | nil =>
    rw [htrim, List.nil_append] at hcut
    have hne : t.trimStart.head? ≠ some c := by
      intro hhead
      have hmem := List.mem_of_head? hhead
      rw [hcut, List.mem_reverse] at hmem
      exact Bool.false_ne_true (hc ▸ List.mem_takeWhile_imp hmem)
    exact beq_eq_false_iff_ne.2 hne

theorem readBlock_eq (hinner : Agrees lines inner n) {header : Nat} (line : Line)
    (hnumber : line.number = header + 1) (hrest : rest = (numbered lines).drop (header + 1))
    (short : rest.length < n) (body : Frame) :
    readBlock lines inner header body =
      (fun block => (block.1.statements, block.1.frame, header + 1 + block.1.index)) <$>
        ended (Program.readBlock (Program.innerLines n) line rest short body) := by
  subst hrest
  have hend := scopeEnd_eq lines header
  unfold Program.readBlock
  split
  · next hnone =>
    rw [hnone] at hend
    rw [readBlock, hend, hnumber]
    rfl
  · next index hindex =>
    have within := StellaGo.Block.closingLine_lt_length hindex
    rw [List.length_map] at within
    have hclose : (numbered lines)[header + 1 + index]? =
        some ((numbered lines).drop (header + 1))[index] := by
      rw [← List.getElem?_drop, List.getElem?_eq_getElem within]
    obtain ⟨text, htext, hline⟩ := exists_of_numbered hclose
    rw [hindex] at hend
    rw [readBlock, hend, Option.map_some, liftM_some, pure_bind]
    dsimp only
    rw [htext, liftM_some, pure_bind, hline, startsWith_trimStart (by decide)]
    by_cases hstart : text.trim.startsWith '}'
    · rw [if_neg (by simp [hstart]), if_neg (by simp [hstart]),
        hinner (header + 1) (header + 1 + index) body (by simpa [numbered] using short)
          (by simp [numbered] at within; omega), Nat.add_sub_cancel_left, ended_bind, map_bind]
      rfl
    · rw [if_pos (by simp [hstart]), if_pos (by simp [hstart])]
      rfl

/-! ### Closing lines -/

theorem afterCloser_eq (h : (numbered lines)[i]? = some line) (hclose : line.text.startsWith '}') :
    afterCloser lines i = some (Program.afterCloser line) := by
  rw [afterCloser, lineAt_eq h, Program.afterCloser, Option.bind_eq_bind, Option.bind_some]
  cases htext : line.text with
  | nil => simp [htext, Text.startsWith] at hclose
  | cons c rest =>
    obtain rfl : c = '}' := by simpa [htext, Text.startsWith] using hclose
    have hcut : Text.sliceFrom? ('}' :: rest) 1 = some rest := Text.sliceFrom?_append ['}'] rest
    rw [hcut]
    rfl

theorem expectPlainClose_eq (h : (numbered lines)[i]? = some line) (hclose : line.text.startsWith '}') :
    expectPlainClose lines i = ended (Program.expectPlainClose line) := by
  rw [expectPlainClose, afterCloser_eq h hclose, liftM_some, pure_bind, Program.expectPlainClose]
  exact ite_eq_ended (fun _ => rfl) fun _ => ite_eq_ended (fun _ => rfl) fun _ => rfl

theorem nextHeader_eq (symbols : Symbols) (isLast : Bool) (rest : Text) :
    nextHeader symbols isLast rest = ended (Program.readNextHeader symbols isLast rest) := by
  unfold Program.readNextHeader
  split
  · next hnone =>
    rw [nextHeader, Text.startsWithWord, hnone]
    rfl
  · next continuation hword =>
    have hcut : rest.sliceFrom? 4 = some continuation := by
      rw [Text.after?_eq_some_iff.1 hword]
      exact Text.sliceFrom?_append "else".toList continuation
    apply ite_eq_ended (fun _ => rfl)
    intro _
    apply ite_eq_ended (fun _ => rfl)
    intro _
    rw [hcut, liftM_some, pure_bind]
    apply ite_eq_ended (fun _ => rfl)
    intro _
    refine ite_eq_ended (fun _ => ?_) fun _ => rfl
    cases continuation.trim.betweenKeywordAndBrace? "if" with
    | none => rfl
    | some condition =>
      dsimp only
      rw [readCondition_eq, ended_map]

/-! ### Items -/

/-- The line behind which a block was read that closes on it. -/
theorem close_of_readBlock {header : Nat} (hrest : rest = (numbered lines).drop (header + 1))
    {short : rest.length < n} {body : Frame}
    {block : { block : Program.Block // block.index < rest.length }}
    (h : Program.readBlock (Program.innerLines n) line rest short body = .ok block) :
    (numbered lines)[header + 1 + block.1.index]? = some block.1.close ∧
      block.1.close.number = header + 1 + block.1.index + 1 ∧ block.1.close.text.startsWith '}' := by
  obtain ⟨-, hclose, hstart, -⟩ := Program.readBlock_eq_ok h
  have hclose : (numbered lines)[header + 1 + block.1.index]? = some block.1.close := by
    rw [← hclose, ← List.getElem?_drop]
    simp only [hrest]
  exact ⟨hclose, number_of_numbered hclose, hstart⟩

theorem readClauses_eq (hinner : Agrees lines inner n) {fuel opener : Nat} {line : Line}
    (hnumber : line.number = opener + 1) (hrest : rest = (numbered lines).drop (opener + 1))
    (short : rest.length < n) (hfuel : rest.length < fuel) (f : Frame) (header : ClauseHeader) :
    readClauses lines inner fuel f header opener =
      (fun r => (r.1, opener + 1 + r.2.1, r.2.2)) <$>
        ended (Program.readClauses (Program.innerLines n) f header line rest short) := by
  induction fuel generalizing f header opener line rest with
  | zero => exact absurd hfuel (Nat.not_lt_zero _)
  | succ fuel ih =>
    rw [readClauses, Program.readClauses, ended_bind, map_bind,
      readBlock_eq hinner line hnumber hrest short, bind_map_left]
    refine Outcome.bind_congr_ended fun ⟨block, within⟩ hblock => ?_
    obtain ⟨hclose, hnext, hstart⟩ := close_of_readBlock hrest hblock
    dsimp only at hclose hnext hstart ⊢
    rw [afterCloser_eq hclose hstart, liftM_some, pure_bind]
    by_cases hplain : Program.afterCloser block.close = []
    · rw [if_pos hplain, if_pos hplain]
      rfl
    · rw [if_neg hplain, if_neg hplain, nextHeader_eq, onLine_ended, ended_bind, map_bind, hnext]
      refine bind_congr fun next => ?_
      have hdrop : rest.drop (block.index + 1) =
          (numbered lines).drop (opener + 1 + block.index + 1) := by
        rw [hrest, List.drop_drop]
        rfl
      have hlength := List.length_drop (i := block.index + 1) (l := rest)
      rw [ih hnext hdrop (by omega) (by omega), bind_map_left, ended_bind, map_bind]
      refine bind_congr fun r => ?_
      have hbehind : opener + 1 + block.index + 1 + r.2.1 = opener + 1 + (block.index + 1 + r.2.1) := by
        omega
      dsimp only
      rw [hbehind]
      rfl

/-- What was read from the line of index `i` on. -/
def Stretch.of (i : Nat) (item : Program.Item) : Stretch :=
  ⟨item.statements, i + 1 + item.used, item.frame⟩

theorem nothingFollows_eq (lines : List Text) {count i : Nat} (h : i + count ≤ lines.length) :
    nothingFollows lines count i =
      ended (Program.checkNothingFollows (((numbered lines).drop i).take count)) := by
  induction count generalizing i with
  | zero => rfl
  | succ count ih =>
    have hlt : i < (numbered lines).length := by
      rw [length_numbered]
      omega
    rw [nothingFollows, lineAt_eq (List.getElem?_eq_getElem hlt), liftM_some, pure_bind,
      List.drop_eq_getElem_cons hlt, List.take_succ_cons, Program.checkNothingFollows, List.find?_cons]
    by_cases hempty : (numbered lines)[i].text = []
    · rw [if_neg (not_not_intro hempty), ih (by omega), hempty]
      rfl
    · have hfound : ((numbered lines)[i].text != []) = true := bne_iff_ne.2 hempty
      rw [if_pos hempty, hfound]
      dsimp only
      rw [number_of_numbered (List.getElem?_eq_getElem hlt)]
      rfl

section

variable (hinner : Agrees lines inner n) (hline : (numbered lines)[i]? = some line)
  (hrest : rest = (numbered lines).drop (i + 1)) (short : rest.length < n) (f : Frame)
include hinner hline hrest

theorem readSelection_eq :
    readSelection lines inner f i =
      Stretch.of i <$> ended (Program.readSelection (Program.innerLines n) f line rest short) := by
  have hnumber := number_of_numbered hline
  rw [readSelection, Program.readSelection, lineAt_eq hline, liftM_some, pure_bind, hnumber]
  cases line.text.betweenKeywordAndBrace? "if" with
  | none => rfl
  | some text =>
    dsimp only
    rw [readCondition_eq, onLine_ended, ended_bind, map_bind]
    refine bind_congr fun condition => ?_
    have hlt := (List.getElem?_eq_some_iff.1 hline).1
    rw [length_numbered] at hlt
    have hfuel : rest.length < lines.length := by
      rw [hrest, List.length_drop, length_numbered]
      omega
    rw [readClauses_eq hinner hnumber hrest short hfuel, bind_map_left, ended_bind, map_bind]
    rfl

theorem readLoop_eq :
    readLoop lines inner f i =
      Stretch.of i <$> ended (Program.readLoop (Program.innerLines n) f line rest short) := by
  have hnumber := number_of_numbered hline
  rw [readLoop, Program.readLoop, lineAt_eq hline, liftM_some, pure_bind, hnumber]
  cases line.text.betweenKeywordAndBrace? "loop" with
  | none => rfl
  | some text =>
    dsimp only
    rw [readCondition_eq, onLine_ended, ended_bind, map_bind]
    refine bind_congr fun condition => ?_
    rw [readBlock_eq hinner line hnumber hrest short, bind_map_left, ended_bind, map_bind]
    refine Outcome.bind_congr_ended fun ⟨block, within⟩ hblock => ?_
    obtain ⟨hclose, hnext, hstart⟩ := close_of_readBlock hrest hblock
    dsimp only at hclose hnext hstart ⊢
    rw [expectPlainClose_eq hclose hstart, onLine_ended, hnext, ended_bind, map_bind]
    refine bind_congr fun _ => ?_
    by_cases hbreaks : Statement.anyBreaks block.statements
    · rw [if_neg (by simp [hbreaks]), if_neg (by simp [hbreaks])]
      rfl
    · rw [if_pos (by simp [hbreaks]), if_pos (by simp [hbreaks])]
      rfl

theorem readFunction_eq :
    readFunction lines inner f i =
      Stretch.of i <$> ended (Program.readFunction (Program.innerLines n) f line rest short) := by
  have hnumber := number_of_numbered hline
  rw [readFunction, Program.readFunction, lineAt_eq hline, liftM_some, pure_bind, hnumber,
    readSignature_eq, onLine_ended, ended_bind, map_bind]
  refine bind_congr fun ⟨signature, requirements⟩ => ?_
  dsimp only
  rw [liftM_eq_ended, ended_bind, map_bind]
  refine bind_congr fun body => ?_
  rw [readBlock_eq hinner line hnumber hrest short, bind_map_left, ended_bind, map_bind]
  refine Outcome.bind_congr_ended fun ⟨block, within⟩ hblock => ?_
  obtain ⟨hclose, hnext, hstart⟩ := close_of_readBlock hrest hblock
  dsimp only at hclose hnext hstart ⊢
  rw [expectPlainClose_eq hclose hstart, onLine_ended, hnext, ended_bind, map_bind]
  refine bind_congr fun _ => ?_
  by_cases hresult : !signature.returns.isIO && !block.statements.getLast?.any (·.isResult)
  · rw [if_pos hresult, if_pos hresult]
    rfl
  · rw [if_neg hresult, if_neg hresult, liftM_eq_ended, ended_bind, map_bind]
    rfl

theorem readItem_eq {stop : Nat} (hstop : stop ≤ lines.length) (hlt : i < stop) :
    readItem lines inner f i stop =
      Stretch.of i <$>
        ended (Program.readItem (Program.innerLines n) f line rest short (stop - (i + 1))) := by
  have hnumber := number_of_numbered hline
  rw [readItem, Program.readItem, lineAt_eq hline, liftM_some, pure_bind, lineKind_eq, liftM_some,
    pure_bind]
  dsimp only
  rw [liftM_eq_ended, ended_bind, map_bind, hnumber]
  refine bind_congr fun _ => ?_
  cases line.text.lineKind with
  | blank => rfl
  | function => exact readFunction_eq hinner hline hrest short f
  | selection => exact readSelection_eq hinner hline hrest short f
  | loop => exact readLoop_eq hinner hline hrest short f
  | jump jump =>
    dsimp only
    rw [liftM_eq_ended, ended_bind, map_bind]
    rfl
  | declaration =>
    dsimp only
    rw [readDeclaration_eq, onLine_ended, ended_bind, map_bind]
    rfl
  | assignment =>
    dsimp only
    rw [readAssignment_eq, onLine_ended, ended_bind, map_bind]
    rfl
  | builtin =>
    dsimp only
    rw [readBuiltin_eq, onLine_ended, ended_bind, map_bind]
    rfl
  | result =>
    dsimp only
    rw [readResult_eq, onLine_ended, ended_bind, map_bind]
    refine bind_congr fun statement => ?_
    rw [nothingFollows_eq lines (by omega), hrest, ended_bind, map_bind]
    refine bind_congr fun _ => ?_
    have hbehind : i + 1 + (stop - (i + 1)) = stop := by omega
    exact congrArg (fun next => pure (⟨[statement], next, f⟩ : Stretch)) hbehind.symm
  | otherwise => rfl
  | closer => rfl

end

end

theorem agrees_readLines (lines : List Text) (fuel : Nat) : Agrees lines (readLines lines fuel) fuel := by
  induction fuel with
  | zero => exact fun _ _ _ h => absurd h (Nat.not_lt_zero _)
  | succ fuel ih =>
    intro start stop f hfuel hstop
    rw [readLines]
    by_cases hlt : start < stop
    · have hline : start < (numbered lines).length := by
        rw [length_numbered]
        omega
      obtain ⟨count, hcount⟩ : ∃ count, stop - start = count + 1 := ⟨stop - start - 1, by omega⟩
      have hlength : ((numbered lines).drop (start + 1)).length + 1 ≤ fuel := by
        rw [List.length_drop, length_numbered]
        omega
      have hinner : Agrees lines (readLines lines fuel) _ := fun start stop f h =>
        ih start stop f (Nat.lt_of_lt_of_le h hlength)
      have hitem := readItem_eq hinner (List.getElem?_eq_getElem hline) rfl (Nat.lt_succ_self _) f hstop
        hlt
      rw [if_pos hlt, List.drop_eq_getElem_cons hline, hcount, Program.readLines, hitem, bind_map_left,
        ended_bind]
      have hleft : stop - (start + 1) = count := by omega
      rw [hleft]
      refine bind_congr fun item => ?_
      have hbehind : stop - (start + 1 + item.used) = count - item.used := by omega
      rw [Stretch.of]
      dsimp only
      rw [ih _ _ _ (by omega) hstop, ended_bind, List.drop_drop, hbehind]
      rfl
    · have hnone : stop - start = 0 := by omega
      rw [if_neg hlt, hnone]
      cases (numbered lines).drop start <;> (rw [Program.readLines]; rfl)

/-- Every file is read to the end: each part of a text, each entry of a list and each difference of
sizes that is asked for is there. -/
theorem read_eq (source : Text) : read source = ended (Program.read source) := by
  have hlines := agrees_readLines source.lines (source.lines.length + 1) 0 source.lines.length
    ⟨.global, .empty⟩ (by omega) (Nat.le_refl _)
  have hlength : source.numberedLines.length = source.lines.length := length_numbered source.lines
  rw [read, Program.read]
  dsimp only
  rw [hlength]
  apply bind_eq_ended hlines
  rintro ⟨statements, f⟩ _
  exact ite_eq_ended (fun _ => rfl) fun _ => rfl

end StellaGo.Offsets
