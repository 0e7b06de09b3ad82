import StellaGo.Proofs.Braces
import StellaGo.Proofs.Reading.Statements

/-! How the lines of an accepted file came to be read. Defined here: when lines spell the statements
of a scope, each line for one statement or one part of it. Proved: the lines that the reader accepts
spell the statements that it gives. The reader looks for the end of a block among all lines behind
its header, and the end of an inner block lies before the end of the block around it. -/

namespace StellaGo.Program

/-! ### Lines that spell statements -/

/-- A statement of one line, and what is known behind it. -/
inductive ReadsLine (f : Frame) (text : Text) : Statement → Frame → Prop
  | declaration {s : Statement} {next : Frame} (hk : text.lineKind = .declaration)
      (h : Statement.readDeclaration f text = .ok (s, next)) : ReadsLine f text s next
  | assignment {s : Statement} (hk : text.lineKind = .assignment)
      (h : Statement.readAssignment f.scope.symbols text = .ok s) : ReadsLine f text s f
  | jump {jump : Jump} {s : Statement} (hk : text.lineKind = .jump jump)
      (h : Statement.readJump f.scope jump text = .ok s) : ReadsLine f text s f
  | builtin {s : Statement} {next : Frame} (hk : text.lineKind = .builtin)
      (h : Statement.readBuiltin f text = .ok (s, next)) : ReadsLine f text s next

/-- What held when a statement of one line was read in a frame, and what is known behind it. -/
inductive Spells (f : Frame) : Statement → Frame → Prop
  | declaration {next : Frame} {name : Name} {isMutable : Bool} {type : ValueType} {text : Text}
      {v : Value} {r : Requirements} (hname : Name.problem? name = none) (hio : type.isIO = false)
      (hv : Expression.ReadsValue f.scope.symbols type text v)
      (hdeclare : Frame.declare ⟨f.scope, r⟩ (.ofType name isMutable type) = .ok next) :
      Spells f (.declaration name type v) next
  | element {i : Indexing} {e : Expression} {target text : Text}
      (hi : indexing f.scope.symbols target = .ok i)
      (hmutable : (f.scope.symbols.array? i.name).any (·.isMutable))
      (he : expression f.scope.symbols text = .ok e) (htype : e.type = i.type) :
      Spells f (.assignment (.element i) (.scalar e)) f
  | whole {b : Binding ValueType} {v : Value} {target text : Text}
      (hb : f.scope.symbols.lookup? target = some (.ofType b.name b.isMutable b.type))
      (hmutable : b.isMutable) (hv : Expression.ReadsValue f.scope.symbols b.type text v) :
      Spells f (.assignment (.whole b.name) v) f
  | jump {jump : Jump} (hloop : f.scope.insideLoop) : Spells f (.jump jump) f
  | builtin {next : Frame} {callee : Builtin} {argument : Expression} {text : Text}
      (hargument : expression f.scope.symbols text = .ok argument)
      (hpanic : callee = .panic → argument.type = .string) (hscope : next.scope = f.scope) :
      Spells f (.builtin callee argument) next

theorem ReadsLine.spells {f next : Frame} {text : Text} {s : Statement}
    (h : ReadsLine f text s next) : Spells f s next := by
  cases h with
  | declaration _ h =>
    obtain ⟨header, type, v, r, -, hname, -, hio, hv, rfl, hdeclare⟩ :=
      Statement.readDeclaration_eq_ok h
    exact .declaration hname hio hv hdeclare
  | assignment _ h =>
    cases Statement.readAssignment_eq_ok h with
    | element _ hi hmutable he htype => exact .element hi hmutable he htype
    | whole _ _ hb hmutable hv => exact .whole hb hmutable hv
  | jump _ h =>
    obtain ⟨-, hloop, rfl⟩ := Statement.readJump_eq_ok h
    exact .jump hloop
  | builtin _ h =>
    obtain ⟨name, rest, callee, inside, argument, -, -, -, hargument, hpanic, rfl, hscope⟩ :=
      Statement.readBuiltin_eq_ok h
    exact .builtin hargument hpanic hscope

/-- What is read off lines in a frame, and what is known behind them: the statements of a scope, or
the clauses of a selection from the one whose header stands before the lines. -/
inductive Reading where
  | lines (f : Frame) (lines : List Line) (statements : List Statement) (after : Frame)
  | clauses (f : Frame) (header : ClauseHeader) (lines : List Line)
      (clauses : List (Clause Statement)) (after : Frame)

/-- The line closes a block, and nothing follows. -/
def ClosesBlock (line : Line) : Prop := line.text.startsWith '}' ∧ afterCloser line = []

/-- How lines are read. -/
inductive Reads : Reading → Prop
  | nil {f : Frame} : Reads (.lines f [] [] f)
  | blank {f after : Frame} {line : Line} {rest : List Line} {statements : List Statement}
      (hk : line.text.lineKind = .blank) (hrest : Reads (.lines f rest statements after)) :
      Reads (.lines f (line :: rest) statements after)
  | line {f next after : Frame} {line : Line} {rest : List Line} {s : Statement}
      {statements : List Statement} (hin : f.scope.kind ≠ .global)
      (hline : ReadsLine f line.text s next) (hrest : Reads (.lines next rest statements after)) :
      Reads (.lines f (line :: rest) (s :: statements) after)
  | result {f : Frame} {line : Line} {rest : List Line} {s : Statement}
      (hin : f.scope.kind ≠ .global) (hk : line.text.lineKind = .result)
      (hresult : Statement.readResult f.scope line.text = .ok s)
      (hrest : ∀ other ∈ rest, other.text = []) : Reads (.lines f (line :: rest) [s] f)
  | selection {f next after : Frame} {line : Line} {taken rest : List Line} {text : Text}
      {condition : Expression} {clauses : List (Clause Statement)} {statements : List Statement}
      (hin : f.scope.kind ≠ .global) (hk : line.text.lineKind = .selection)
      (hheader : line.text.betweenKeywordAndBrace? "if" = some text)
      (hcondition : Statement.readCondition f.scope.symbols text = .ok condition)
      (hclauses : Reads (.clauses f (.ifTrue condition) taken clauses next))
      (hrest : Reads (.lines next rest statements after)) :
      Reads (.lines f (line :: (taken ++ rest)) (.selection clauses :: statements) after)
  | loop {f inner after : Frame} {line close : Line} {inside rest : List Line} {text : Text}
      {condition : Expression} {body statements : List Statement}
      (hin : f.scope.kind ≠ .global) (hk : line.text.lineKind = .loop)
      (hheader : line.text.betweenKeywordAndBrace? "loop" = some text)
      (hcondition : Statement.readCondition f.scope.symbols text = .ok condition)
      (hinside : Reads (.lines (f.enter .loop) inside body inner))
      (hbreak : Statement.anyBreaks body) (hclose : ClosesBlock close)
      (hrest : Reads (.lines (f.leave inner) rest statements after)) :
      Reads (.lines f (line :: (inside ++ close :: rest))
        (.loop condition (inner.body (body ++ [.closer])) :: statements) after)
  | function {f entered inner next after : Frame} {line close : Line} {inside rest : List Line}
      {signature : Signature} {r : Requirements} {body statements : List Statement}
      (hin : f.scope.kind = .global) (hk : line.text.lineKind = .function)
      (hsignature : readSignature f line.text = .ok (signature, r))
      (henter : enterFunction ⟨f.scope, r⟩ signature = .ok entered)
      (hinside : Reads (.lines entered inside body inner))
      (hresult : signature.returns.isIO ∨ body.getLast?.any (·.isResult))
      (hclose : ClosesBlock close)
      (hdeclare : Frame.declare ⟨f.scope, inner.requirements⟩ (.function signature) = .ok next)
      (hrest : Reads (.lines next rest statements after)) :
      Reads (.lines f (line :: (inside ++ close :: rest))
        (.function signature (inner.body (body ++ [.closer])) :: statements) after)
  | lastClause {f inner : Frame} {header : ClauseHeader} {close : Line} {inside : List Line}
      {body : List Statement} (hinside : Reads (.lines (f.enter .selection) inside body inner))
      (hclose : ClosesBlock close) :
      Reads (.clauses f header (inside ++ [close])
        [⟨header, inner.body (body ++ [.closer])⟩] (f.leave inner))
  | nextClause {f inner after : Frame} {header next : ClauseHeader} {close : Line}
      {inside taken : List Line} {body : List Statement} {clauses : List (Clause Statement)}
      (hinside : Reads (.lines (f.enter .selection) inside body inner))
      (hclose : close.text.startsWith '}')
      (hnext : readNextHeader f.scope.symbols (isOtherwise header) (afterCloser close) = .ok next)
      (hclauses : Reads (.clauses (f.leave inner) next taken clauses after)) :
      Reads (.clauses f header (inside ++ close :: taken)
        (⟨header, inner.body body⟩ :: clauses) after)

/-! ### The lines of a scope -/

/-- The first `count` of the lines are those of one scope: all of them in a file, and the lines up
to the one that closes the block elsewhere. -/
def Covers (kind : ScopeKind) (lines : List Line) (count : Nat) : Prop :=
  if kind = .global then count = lines.length
  else ∃ depth, 1 ≤ depth ∧ StellaGo.Block.closingLine depth (lines.map Line.text) = some count

theorem closingLine_cons {depth count : Nat} {line : Text} {lines : List Text}
    (h : StellaGo.Block.closingLine depth (line :: lines) = some (count + 1)) :
    ∃ deeper, Glyph.braceDepth depth (Glyph.ofText line) = some deeper ∧
      StellaGo.Block.closingLine deeper lines = some count := by
  unfold StellaGo.Block.closingLine at h
  split at h
  · cases h
  · next deeper hdeeper =>
    obtain ⟨i, hi, heq⟩ := Option.map_eq_some_iff.1 h
    cases heq
    exact ⟨deeper, hdeeper, hi⟩

theorem Covers.tail {kind : ScopeKind} {line : Line} {rest : List Line} {count : Nat}
    (h : Covers kind (line :: rest) (count + 1)) : Covers kind rest count := by
  unfold Covers at h ⊢
  split at h
  · next hg =>
    rw [if_pos hg]
    exact Nat.succ.inj h
  · next hg =>
    rw [if_neg hg]
    obtain ⟨depth, hd, h⟩ := h
    obtain ⟨deeper, hdeeper, hrest⟩ := closingLine_cons h
    exact ⟨deeper, Glyph.braceDepth_pos hd hdeeper, hrest⟩

theorem Covers.drop {kind : ScopeKind} {lines : List Line} {used more : Nat}
    (h : Covers kind lines (used + more)) : Covers kind (lines.drop used) more := by
  induction used generalizing lines with
  | zero => rwa [Nat.zero_add] at h
  | succ used ih =>
    rw [Nat.add_right_comm] at h
    cases lines with
    | nil =>
      unfold Covers at h
      split at h
      · cases h
      · obtain ⟨depth, -, h⟩ := h
        cases h
    | cons line rest => exact ih h.tail

/-! ### Headers and closing lines -/

theorem pairs_of_readCondition {symbols : Symbols} {text : Text} {condition : Expression}
    (h : Statement.readCondition symbols text = .ok condition) : Text.Pairs [] [] True text := by
  obtain ⟨he, -⟩ := Statement.readCondition_eq_ok h
  obtain ⟨tokens, hscan, -⟩ := Expression.expression_eq_ok_iff.1 he
  exact .of_scan hscan

theorem exists_tail_of_closer {line : Line} (h : line.text.startsWith '}') :
    ∃ tail, line.text = '}' :: tail ∧ afterCloser line = Text.trim tail := by
  obtain ⟨number, text⟩ := line
  cases text with
  | nil => cases h
  | cons c tail =>
    have hc : c = '}' := by simpa [Text.startsWith] using h
    exact ⟨tail, by rw [hc], rfl⟩

theorem ClosesBlock.pairs {line : Line} (h : ClosesBlock line) :
    Text.Pairs [.curly] [] True line.text := by
  obtain ⟨hs, hrest⟩ := h
  obtain ⟨tail, ht, hafter⟩ := exists_tail_of_closer hs
  rw [ht]
  have htail : Text.Pairs [] [] True (Text.trim tail) := by
    rw [← hafter, hrest]
    exact .nil
  exact .closer_same (b := .curly) htail.of_trim

/-- What stands on a closing line in front of the next clause. -/
theorem readNextHeader_eq_ok {symbols : Symbols} {last : Bool} {rest : Text} {next : ClauseHeader}
    (h : readNextHeader symbols last rest = .ok next) :
    ∃ continuation, rest = "else".toList ++ continuation ∧
      ((next = .otherwise ∧ continuation.trim = ['{']) ∨
        ∃ text condition, next = .elseIf condition ∧
          continuation.trim.betweenKeywordAndBrace? "if" = some text ∧
          Statement.readCondition symbols text = .ok condition) := by
  unfold readNextHeader at h
  split at h
  · cases h
  next continuation hrest =>
  refine ⟨continuation, Text.after?_eq_some_iff.1 hrest, ?_⟩
  dsimp only at h
  split at h
  · cases h
  split at h
  · cases h
  split at h
  · next hbrace =>
    cases h
    exact .inl ⟨rfl, hbrace⟩
  split at h
  · split at h
    · cases h
    · next text htext =>
      obtain ⟨condition, hc, rfl⟩ := Check.map_eq_ok_iff.1 h
      exact .inr ⟨text, condition, rfl, htext, hc⟩
  · cases h

theorem pairs_of_readNextHeader {symbols : Symbols} {last : Bool} {line : Line}
    {next : ClauseHeader} (hs : line.text.startsWith '}')
    (h : readNextHeader symbols last (afterCloser line) = .ok next) :
    Text.Pairs [.curly] [.curly] True line.text := by
  obtain ⟨tail, ht, hafter⟩ := exists_tail_of_closer hs
  obtain ⟨continuation, hrest, hnext⟩ := readNextHeader_eq_ok h
  have hcontinuation : Text.Pairs [] [.curly] True continuation.trim := by
    rcases hnext with ⟨-, hbrace⟩ | ⟨text, condition, -, htext, hcondition⟩
    · rw [hbrace]
      exact .opener (b := .curly) .nil
    · exact .of_header (by decide) htext (pairs_of_readCondition hcondition)
  have htail : Text.Pairs [] [.curly] True (Text.trim tail) := by
    rw [← hafter, hrest]
    exact hcontinuation.of_trim.after_flat (by decide)
  rw [ht]
  exact .closer_same (b := .curly) htail.of_trim

theorem closesBlock_of_expectPlainClose {line : Line} (hs : line.text.startsWith '}')
    (h : expectPlainClose line = .ok ()) : ClosesBlock line := by
  rw [expectPlainClose] at h
  split at h
  · next hrest => exact ⟨hs, hrest⟩
  · split at h <;> cases h

/-! ### Blocks -/

variable {n : Nat} {inner : InnerReader n}

theorem readBlock_eq_ok {header : Line} {rest : List Line} {short : rest.length < n} {body : Frame}
    {block : { block : Block // block.index < rest.length }}
    (h : readBlock inner header rest short body = .ok block) :
    StellaGo.Block.closingLine 1 (rest.map Line.text) = some block.1.index ∧
      rest[block.1.index]? = some block.1.close ∧ block.1.close.text.startsWith '}' ∧
      inner rest short block.1.index body = .ok (block.1.statements, block.1.frame) := by
  unfold readBlock at h
  split at h
  · cases h
  next index hindex =>
  dsimp only at h
  split at h
  · cases h
  next hclose =>
  obtain ⟨⟨statements, frame⟩, hinner, h⟩ := Check.bind_eq_ok_iff.1 h
  cases h
  exact ⟨hindex, by simp, by simpa using hclose, hinner⟩

/-- The reader of the lines of a scope, for fewer lines than `n`. -/
def innerLines (n : Nat) : InnerReader n := fun lines _ count f => readLines f lines count

/-- What is known of the lines of inner scopes while those around them are read. -/
def ReadsInside (n : Nat) : Prop :=
  ∀ {f after : Frame} {lines : List Line} {count : Nat} {statements : List Statement},
    lines.length < n → Covers f.scope.kind lines count →
      readLines f lines count = .ok (statements, after) →
      Reads (.lines f (lines.take count) statements after)

/-- The lines up to the one that closes a block, which is not a file. -/
theorem reads_of_readBlock {header : Line} {rest : List Line} {short : rest.length < n}
    {body : Frame} {block : { block : Block // block.index < rest.length }} (ih : ReadsInside n)
    (hkind : body.scope.kind ≠ .global)
    (h : readBlock (innerLines n) header rest short body = .ok block) :
    Reads (.lines body (rest.take block.1.index) block.1.statements block.1.frame) := by
  obtain ⟨hend, -, -, hinner⟩ := readBlock_eq_ok h
  refine ih short ?_ hinner
  rw [Covers, if_neg hkind]
  exact ⟨1, Nat.le_refl 1, hend⟩

/-- The rest of the lines, cut at the line that closes a block. -/
theorem eq_take_append_closer {rest : List Line} {index : Nat} {close : Line}
    (h : rest[index]? = some close) (more : Nat) :
    rest.take (index + 1 + more) =
      rest.take index ++ close :: (rest.drop (index + 1)).take more := by
  obtain ⟨hlt, hget⟩ := List.getElem?_eq_some_iff.1 h
  rw [List.take_add, List.take_add_one, h]
  simp

section Behind

variable {rest : List Line} {close : Line} {index depth count : Nat} (hd : 1 ≤ depth)
  (hend : StellaGo.Block.closingLine 1 (rest.map Line.text) = some index)
  (hclose : rest[index]? = some close)
  (hcount : StellaGo.Block.closingLine (1 + depth) (rest.map Line.text) = some count)
include hd hend hclose hcount

/-- Behind a block, the search for the end of the block around it goes on, with the braces that the
last line opens again. -/
theorem closingLine_behind_nests {opened : Nat} (hnests : Text.Nests 1 opened close.text) :
    ∃ more, count = index + 1 + more ∧
      StellaGo.Block.closingLine (depth + opened) ((rest.drop (index + 1)).map Line.text) =
        some more := by
  have hline : (rest.map Line.text)[index]? = some close.text := by
    rw [List.getElem?_map, hclose]
    rfl
  rw [List.map_drop]
  exact StellaGo.Block.closingLine_behind hd hend hcount hline fun m hm => hnests.depth m hm

theorem closingLine_behind_block (hcloses : ClosesBlock close) :
    ∃ more, count = index + 1 + more ∧
      StellaGo.Block.closingLine depth ((rest.drop (index + 1)).map Line.text) = some more :=
  closingLine_behind_nests hd hend hclose hcount (.of_pairs hcloses.pairs)

theorem closingLine_behind_clause {symbols : Symbols} {last : Bool} {next : ClauseHeader}
    (hstart : close.text.startsWith '}')
    (hnext : readNextHeader symbols last (afterCloser close) = .ok next) :
    ∃ more, count = index + 1 + more ∧
      StellaGo.Block.closingLine (1 + depth) ((rest.drop (index + 1)).map Line.text) =
        some more := by
  rw [Nat.add_comm 1 depth]
  exact closingLine_behind_nests hd hend hclose hcount
    (.of_pairs (pairs_of_readNextHeader hstart hnext))

end Behind

/-- The clauses of a selection end before the block around it. -/
theorem reads_of_readClauses {f : Frame} {header : ClauseHeader} {line : Line} {rest : List Line}
    {short : rest.length < n} {clauses : List (Clause Statement)} {used : Nat} {r : Requirements}
    {depth count : Nat} (ih : ReadsInside n) (hd : 1 ≤ depth)
    (hcount : StellaGo.Block.closingLine (1 + depth) (rest.map Line.text) = some count)
    (h : readClauses (innerLines n) f header line rest short = .ok (clauses, used, r)) :
    ∃ more, count = used + more ∧
      StellaGo.Block.closingLine depth ((rest.drop used).map Line.text) = some more ∧
      Reads (.clauses f header (rest.take used) clauses ⟨f.scope, r⟩) := by
  unfold readClauses at h
  obtain ⟨⟨block, within⟩, hblock, h⟩ := Check.bind_eq_ok_iff.1 h
  obtain ⟨hend, hclose, hstart, -⟩ := readBlock_eq_ok hblock
  have hinside := reads_of_readBlock ih (show (f.enter .selection).scope.kind ≠ .global from nofun) hblock
  dsimp only at hend hclose hstart hinside h
  split at h
  · next hrest =>
    cases h
    have hplain : ClosesBlock block.close := ⟨hstart, hrest⟩
    obtain ⟨more, rfl, hmore⟩ := closingLine_behind_block hd hend hclose hcount hplain
    refine ⟨more, rfl, hmore, ?_⟩
    have hcut := eq_take_append_closer hclose 0
    rw [List.take_zero] at hcut
    rw [← Nat.add_zero (block.index + 1), hcut]
    exact .lastClause hinside hplain
  · obtain ⟨next, hnext, h⟩ := Check.bind_eq_ok_iff.1 h
    obtain ⟨⟨others, taken, r'⟩, hothers, h⟩ := Check.bind_eq_ok_iff.1 h
    cases h
    rw [Check.onLine_eq_ok_iff] at hnext
    obtain ⟨more, rfl, hmore⟩ := closingLine_behind_clause hd hend hclose hcount hstart hnext
    obtain ⟨left, rfl, hleft, hclauses⟩ := reads_of_readClauses ih hd hmore hothers
    refine ⟨left, (Nat.add_assoc _ _ _).symm, by rwa [← List.drop_drop], ?_⟩
    rw [eq_take_append_closer hclose]
    exact .nextClause hinside hstart hnext hclauses
termination_by rest.length
decreasing_by rw [List.length_drop]; omega

/-! ### Items -/

theorem checkPlace_eq_ok {kind : LineKind} {scope : ScopeKind} {text : Text}
    (h : checkPlace kind scope text = .ok ()) :
    (scope = .global → kind ∈ [.blank, .function, .closer]) ∧
      (kind = .function → scope = .global) := by
  unfold checkPlace at h
  split at h
  · next hg =>
    split at h
    · next hk => exact ⟨fun _ => hk, fun _ => hg⟩
    · cases h
  · next hg =>
    split at h
    · cases h
    · next hk => exact ⟨fun hs => absurd hs hg, fun hf => absurd hf hk⟩

theorem Spells.place_eq {f next : Frame} {s : Statement} (h : Spells f s next) :
    next.scope.place = f.scope.place := by
  cases h with
  | declaration _ _ _ hdeclare =>
    have hplace := Frame.place_of_declare hdeclare
    exact hplace
  | builtin _ _ hscope => rw [hscope]
  | element | whole | jump => rfl

/-- An item that starts on a line takes some of the `count` lines behind it, and the rest of them
can be read in the frame that it leaves. -/
def ReadsItem (f : Frame) (line : Line) (rest : List Line) (count : Nat) (item : Item) : Prop :=
  ∃ more, count = item.used + more ∧ Covers item.frame.scope.kind (rest.drop item.used) more ∧
    ∀ {statements : List Statement} {after : Frame},
      Reads (.lines item.frame ((rest.drop item.used).take more) statements after) →
      Reads (.lines f ((line :: rest).take (count + 1)) (item.statements ++ statements) after)

variable {f : Frame} {line : Line} {rest : List Line} {short : rest.length < n} {count : Nat}
  {item : Item}

theorem readsItem_of_line {s : Statement} {next : Frame} (hin : f.scope.kind ≠ .global)
    (hcover : Covers f.scope.kind rest count) (h : ReadsLine f line.text s next) :
    ReadsItem f line rest count ⟨[s], 0, next⟩ := by
  refine ⟨count, (Nat.zero_add count).symm, ?_, fun hrest => .line hin h hrest⟩
  rw [Scope.kind_eq_of_place_eq h.spells.place_eq]
  exact hcover

theorem readsItem_of_result {s : Statement} (hin : f.scope.kind ≠ .global)
    (hcover : Covers f.scope.kind rest count) (hk : line.text.lineKind = .result)
    (h : Statement.readResult f.scope line.text = .ok s)
    (hnothing : checkNothingFollows (rest.take count) = .ok ()) :
    ReadsItem f line rest count ⟨[s], count, f⟩ := by
  refine ⟨0, rfl, Covers.drop hcover, fun hrest => ?_⟩
  rw [List.take_zero] at hrest
  cases hrest
  refine .result hin hk h fun other hother => ?_
  unfold checkNothingFollows at hnothing
  split at hnothing
  · cases hnothing
  next hnone =>
  have hblank := List.find?_eq_none.1 hnone other hother
  simpa using hblank

/-- A header around a condition opens the block behind it, inside of the block around it. -/
theorem closingLine_of_header {symbols : Symbols} {keyword : String} {text : Text}
    {condition : Expression} (hk : Text.isFlat keyword.toList) (hin : f.scope.kind ≠ .global)
    (hcover : Covers f.scope.kind (line :: rest) (count + 1))
    (hheader : line.text.betweenKeywordAndBrace? keyword = some text)
    (hcondition : Statement.readCondition symbols text = .ok condition) :
    ∃ depth, 1 ≤ depth ∧
      StellaGo.Block.closingLine (1 + depth) (rest.map Line.text) = some count := by
  rw [Covers, if_neg hin] at hcover
  obtain ⟨depth, hd, hcover⟩ := hcover
  obtain ⟨deeper, hdeeper, hcount⟩ := closingLine_cons hcover
  have hnests : Text.Nests 0 1 line.text :=
    .of_pairs (.of_header hk hheader (pairs_of_readCondition hcondition))
  obtain rfl : depth + 1 = deeper := Option.some.inj ((hnests.depth depth hd).symm.trans hdeeper)
  exact ⟨depth, hd, by rwa [Nat.add_comm]⟩

theorem readsItem_of_readSelection (ih : ReadsInside n) (hin : f.scope.kind ≠ .global)
    (hk : line.text.lineKind = .selection)
    (hcover : Covers f.scope.kind (line :: rest) (count + 1))
    (h : readSelection (innerLines n) f line rest short = .ok item) :
    ReadsItem f line rest count item := by
  unfold readSelection at h
  split at h
  · cases h
  next text htext =>
  obtain ⟨condition, hcondition, h⟩ := Check.bind_eq_ok_iff.1 h
  obtain ⟨⟨clauses, used, r⟩, hclauses, h⟩ := Check.bind_eq_ok_iff.1 h
  cases h
  rw [Check.onLine_eq_ok_iff] at hcondition
  obtain ⟨depth, hd, hcount⟩ :=
    closingLine_of_header (by decide) hin hcover htext hcondition
  obtain ⟨more, rfl, hmore, hreads⟩ := reads_of_readClauses ih hd hcount hclauses
  refine ⟨more, rfl, ?_, fun hrest => ?_⟩
  · rw [Covers, if_neg hin]
    exact ⟨depth, hd, hmore⟩
  · rw [List.take_succ_cons, List.take_add]
    exact .selection hin hk htext hcondition hreads hrest

theorem readsItem_of_readLoop (ih : ReadsInside n) (hin : f.scope.kind ≠ .global)
    (hk : line.text.lineKind = .loop) (hcover : Covers f.scope.kind (line :: rest) (count + 1))
    (h : readLoop (innerLines n) f line rest short = .ok item) :
    ReadsItem f line rest count item := by
  unfold readLoop at h
  split at h
  · cases h
  next text htext =>
  obtain ⟨condition, hcondition, h⟩ := Check.bind_eq_ok_iff.1 h
  obtain ⟨⟨block, within⟩, hblock, h⟩ := Check.bind_eq_ok_iff.1 h
  obtain ⟨⟨⟩, hplain, h⟩ := Check.bind_eq_ok_iff.1 h
  obtain ⟨hend, hclose, hstart, -⟩ := readBlock_eq_ok hblock
  have hinside := reads_of_readBlock ih (show (f.enter .loop).scope.kind ≠ .global from nofun) hblock
  dsimp only at hend hclose hstart hinside h
  split at h
  · cases h
  next hbreak =>
  cases h
  rw [Check.onLine_eq_ok_iff] at hcondition hplain
  have hcloses := closesBlock_of_expectPlainClose hstart hplain
  obtain ⟨depth, hd, hcount⟩ :=
    closingLine_of_header (by decide) hin hcover htext hcondition
  obtain ⟨more, rfl, hmore⟩ := closingLine_behind_block hd hend hclose hcount hcloses
  refine ⟨more, rfl, ?_, fun hrest => ?_⟩
  · have hkind : (f.leave block.frame).scope.kind = f.scope.kind := rfl
    rw [Covers, hkind, if_neg hin]
    exact ⟨depth, hd, hmore⟩
  · rw [List.take_succ_cons, eq_take_append_closer hclose]
    exact .loop hin hk htext hcondition hinside (by simpa using hbreak) hcloses hrest

theorem place_of_declareParameters {parameters : List Parameter} {f next : Frame}
    (h : declareParameters f parameters = .ok next) : next.scope.place = f.scope.place := by
  induction parameters generalizing f with
  | nil => cases h; rfl
  | cons p rest ih =>
    obtain ⟨middle, hp, h⟩ := Check.bind_eq_ok_iff.1 h
    exact (ih h).trans (Frame.place_of_declare hp)

/-- The body of a function stands in the scope around the function, and has its type of result. -/
theorem place_of_enterFunction {f entered : Frame} {s : Signature}
    (h : enterFunction f s = .ok entered) :
    entered.scope.place =
      Scope.place { f.scope.enter .function with returns? := some s.returns } := by
  obtain ⟨known, hknown, hparameters⟩ := Check.bind_eq_ok_iff.1 h
  exact (place_of_declareParameters hparameters).trans (Frame.place_of_declare hknown)

theorem readsItem_of_readFunction (ih : ReadsInside n) (hin : f.scope.kind = .global)
    (hk : line.text.lineKind = .function) (hcover : Covers f.scope.kind rest count)
    (h : readFunction (innerLines n) f line rest short = .ok item) :
    ReadsItem f line rest count item := by
  unfold readFunction at h
  obtain ⟨⟨signature, r⟩, hsignature, h⟩ := Check.bind_eq_ok_iff.1 h
  obtain ⟨entered, henter, h⟩ := Check.bind_eq_ok_iff.1 h
  obtain ⟨⟨block, within⟩, hblock, h⟩ := Check.bind_eq_ok_iff.1 h
  obtain ⟨⟨⟩, hplain, h⟩ := Check.bind_eq_ok_iff.1 h
  obtain ⟨-, hclose, hstart, -⟩ := readBlock_eq_ok hblock
  dsimp only at hclose hstart h
  split at h
  · cases h
  next hresult =>
  obtain ⟨next, hnext, h⟩ := Check.bind_eq_ok_iff.1 h
  cases h
  rw [Check.onLine_eq_ok_iff] at hsignature henter hplain hnext
  have hentered : entered.scope.kind ≠ .global := by
    rw [Scope.kind_eq_of_place_eq (place_of_enterFunction henter)]
    nofun
  have hkind : next.scope.kind = .global :=
    (Scope.kind_eq_of_place_eq (Frame.place_of_declare hnext)).trans hin
  rw [Covers, if_pos hin] at hcover
  refine ⟨count - (block.index + 1), by dsimp only; omega, ?_, fun hrest => ?_⟩
  · dsimp only
    rw [Covers, if_pos hkind, List.length_drop, hcover]
  · have hcount : count = block.index + 1 + (count - (block.index + 1)) := by omega
    rw [List.take_succ_cons, hcount, eq_take_append_closer hclose]
    refine .function hin hk hsignature henter (reads_of_readBlock ih hentered hblock) ?_
      (closesBlock_of_expectPlainClose hstart hplain) hnext (hcount ▸ hrest)
    rw [Bool.and_eq_true, not_and_or] at hresult
    simpa using hresult

theorem readsItem_of_readItem (ih : ReadsInside n)
    (hcover : Covers f.scope.kind (line :: rest) (count + 1))
    (h : readItem (innerLines n) f line rest short count = .ok item) :
    line.text.lineKind = .blank ∧ item = ⟨[], 0, f⟩ ∨ ReadsItem f line rest count item := by
  unfold readItem at h
  obtain ⟨⟨⟩, hplace, h⟩ := Check.bind_eq_ok_iff.1 h
  rw [Check.onLine_eq_ok_iff] at hplace
  obtain ⟨hglobal, hfunction⟩ := checkPlace_eq_ok hplace
  have hin (hk : line.text.lineKind ∉ [.blank, .function, .closer]) : f.scope.kind ≠ .global :=
    fun hg => hk (hglobal hg)
  split at h
  · next hk =>
    cases h
    exact .inl ⟨hk, rfl⟩
  · next hk => exact .inr (readsItem_of_readFunction ih (hfunction hk) hk hcover.tail h)
  · next hk => exact .inr (readsItem_of_readSelection ih (hin (by simp [hk])) hk hcover h)
  · next hk => exact .inr (readsItem_of_readLoop ih (hin (by simp [hk])) hk hcover h)
  · next jump hk =>
    obtain ⟨s, hs, h⟩ := Check.bind_eq_ok_iff.1 h
    cases h
    rw [Check.onLine_eq_ok_iff] at hs
    exact .inr (readsItem_of_line (hin (by simp [hk])) hcover.tail (.jump hk hs))
  · next hk =>
    obtain ⟨⟨s, next⟩, hs, h⟩ := Check.bind_eq_ok_iff.1 h
    cases h
    rw [Check.onLine_eq_ok_iff] at hs
    exact .inr (readsItem_of_line (hin (by simp [hk])) hcover.tail (.declaration hk hs))
  · next hk =>
    obtain ⟨s, hs, h⟩ := Check.bind_eq_ok_iff.1 h
    cases h
    rw [Check.onLine_eq_ok_iff] at hs
    exact .inr (readsItem_of_line (hin (by simp [hk])) hcover.tail (.assignment hk hs))
  · next hk =>
    obtain ⟨⟨s, next⟩, hs, h⟩ := Check.bind_eq_ok_iff.1 h
    cases h
    rw [Check.onLine_eq_ok_iff] at hs
    exact .inr (readsItem_of_line (hin (by simp [hk])) hcover.tail (.builtin hk hs))
  · next hk =>
    obtain ⟨s, hs, h⟩ := Check.bind_eq_ok_iff.1 h
    obtain ⟨⟨⟩, hnothing, h⟩ := Check.bind_eq_ok_iff.1 h
    cases h
    rw [Check.onLine_eq_ok_iff] at hs
    exact .inr (readsItem_of_result (hin (by simp [hk])) hcover.tail hk hs hnothing)
  · cases h
  · cases h

/-! ### Files -/

/-- The lines that are accepted spell the statements that they are read as. -/
theorem reads_of_readLines {f after : Frame} {lines : List Line} {count : Nat}
    {statements : List Statement} (hcover : Covers f.scope.kind lines count)
    (h : readLines f lines count = .ok (statements, after)) :
    Reads (.lines f (lines.take count) statements after) := by
  match lines, count with
  | [], count =>
    unfold readLines at h
    cases h
    rw [List.take_nil]
    exact .nil
  | line :: rest, 0 =>
    unfold readLines at h
    cases h
    exact .nil
  | line :: rest, count + 1 =>
    have ih : ReadsInside (rest.length + 1) := fun hlt hc hr => reads_of_readLines hc hr
    unfold readLines at h
    obtain ⟨item, hitem, h⟩ := Check.bind_eq_ok_iff.1 h
    obtain ⟨⟨others, final⟩, hothers, h⟩ := Check.bind_eq_ok_iff.1 h
    cases h
    rcases readsItem_of_readItem ih hcover hitem with ⟨hk, rfl⟩ | ⟨more, rfl, hmore, hreads⟩
    · exact .blank hk (reads_of_readLines hcover.tail hothers)
    · rw [Nat.add_sub_cancel_left] at hothers
      exact hreads (reads_of_readLines hmore hothers)
termination_by lines.length
decreasing_by
  all_goals simp only [List.length_cons, List.length_drop] at *
  all_goals omega

theorem readsInside (n : Nat) : ReadsInside n := fun _ hcover h => reads_of_readLines hcover h

/-- Behind an item, the scope goes on with the lines that are left of it. -/
theorem covers_of_readItem {n count : Nat} {f : Frame} {line : Line} {rest : List Line}
    {short : rest.length < n} {item : Item} (hcover : Covers f.scope.kind (line :: rest) (count + 1))
    (h : readItem (innerLines n) f line rest short count = .ok item) :
    item.used ≤ count ∧ Covers item.frame.scope.kind (rest.drop item.used) (count - item.used) := by
  rcases readsItem_of_readItem (readsInside n) hcover h with ⟨-, rfl⟩ | ⟨more, rfl, hmore, -⟩
  · exact ⟨Nat.zero_le _, hcover.tail⟩
  · rw [Nat.add_sub_cancel_left]
    exact ⟨Nat.le_add_right _ _, hmore⟩

/-- The lines of an accepted file spell its program, and behind them a function `main` is known. -/
theorem reads_of_read {source : Text} {p : Program} (h : Program.read source = .ok p) :
    ∃ after, Reads (.lines ⟨.global, .empty⟩ source.numberedLines p.body.statements after) ∧
      p = ⟨after.body p.body.statements, after.requirements⟩ ∧
      after.scope.symbols.function? "main".toList ≠ none := by
  obtain ⟨⟨statements, after⟩, hlines, h⟩ := Check.bind_eq_ok_iff.1 h
  dsimp only at h
  split at h
  · cases h
  next hmain =>
  cases h
  have hcover : Covers .global source.numberedLines source.numberedLines.length := by
    rw [Covers, if_pos rfl]
  have hreads := reads_of_readLines hcover hlines
  rw [List.take_length] at hreads
  exact ⟨after, hreads, rfl, hmain⟩

end StellaGo.Program
