import StellaGo.Proofs.BlockEnds
import StellaGo.Proofs.SourceEdits

/-! How blocks nest. Defined here: the lines of a block that the reader has accepted, and the headers
that it has come to, where the line of a `}` is the header of the clause behind it. Proved: a block
inside of another one ends with it at the latest, and before it if nothing is wrong, also in a source
that is not accepted. So the one block of which no end is found is that of a function of the file. -/

namespace StellaGo.Program

open StellaGo.Block (closingLine end?)

/-! ### Runs of the reader -/

/-- What starts on line `index` is accepted, and the reader of the lines up to `stop` goes on from line
`next` in the frame `g`. -/
inductive GoesOn (all : List Line) (stop : Nat) (f : Frame) (index : Nat) :
    (g : Frame) → (next : Nat) → Prop
  | item {line : Line} {rest : List Line} {item : Item} (hlt : index < stop)
      (hline : all.drop index = line :: rest)
      (hitem : readItem (innerLines (rest.length + 1)) f line rest (Nat.lt_succ_self _)
        (stop - (index + 1)) = .ok item) :
      GoesOn all stop f index item.frame (index + 1 + item.used)

/-- The lines from `start` to `index` are accepted, and the reader of the lines up to `stop` goes on
from there in the frame `g`. -/
inductive Accepts (all : List Line) (stop : Nat) (f : Frame) (start : Nat) :
    (g : Frame) → (index : Nat) → Prop
  | start : Accepts all stop f start f start
  | next {g g' : Frame} {index next : Nat} (h : Accepts all stop f start g index)
      (hnext : GoesOn all stop g index g' next) : Accepts all stop f start g' next

/-- What a block inside of a function starts with. -/
inductive Opening where
  | clause (header : ClauseHeader)
  | loop

/-- Reading the item on line `index`, the reader has accepted the header on line `header`, which stands
in the scope of the frame `g`. The line that closes a clause is the header of the next one. -/
inductive Opens (all : List Line) (f : Frame) (index : Nat) :
    Opening → (g : Frame) → (header : Nat) → Prop
  | selection {line : Line} {rest : List Line} {text : Text} {condition : Expression}
      (hline : all.drop index = line :: rest) (hk : line.text.lineKind = .selection)
      (hheader : line.text.betweenKeywordAndBrace? "if" = some text)
      (hcondition : Statement.readCondition f.scope.symbols text = .ok condition) :
      Opens all f index (.clause (.ifTrue condition)) f index
  | loop {line : Line} {rest : List Line} {text : Text} {condition : Expression}
      (hline : all.drop index = line :: rest) (hk : line.text.lineKind = .loop)
      (hheader : line.text.betweenKeywordAndBrace? "loop" = some text)
      (hcondition : Statement.readCondition f.scope.symbols text = .ok condition) :
      Opens all f index .loop f index
  | next {g : Frame} {header : Nat} {clause next : ClauseHeader} {line : Line} {rest : List Line}
      {block : { block : Block // block.index < rest.length }}
      (h : Opens all f index (.clause clause) g header) (hline : all.drop header = line :: rest)
      (hblock : readBlock (innerLines (rest.length + 1)) line rest (Nat.lt_succ_self _)
        (g.enter .selection) = .ok block)
      (hmore : afterCloser block.1.close ≠ [])
      (hnext : readNextHeader g.scope.symbols (isOtherwise clause) (afterCloser block.1.close) =
        .ok next) :
      Opens all f index (.clause next) (g.leave block.1.frame) (header + 1 + block.1.index)

variable {all : List Line} {start stop index next header : Nat} {f g g' : Frame}

/-! ### Runs and their errors -/

theorem eq_drop_succ {line : Line} {rest : List Line} (hline : all.drop index = line :: rest) :
    rest = all.drop (index + 1) := by
  rw [← List.tail_drop, hline, List.tail_cons]

theorem readLines_eq {line : Line} {rest : List Line} (hlt : index < stop)
    (hline : all.drop index = line :: rest) :
    readLines f (all.drop index) (stop - index) =
      readItem (innerLines (rest.length + 1)) f line rest (Nat.lt_succ_self _) (stop - (index + 1)) >>=
        fun item => (readLines item.frame (all.drop (index + 1 + item.used))
          (stop - (index + 1 + item.used))).map fun (statements, after) =>
            (item.statements ++ statements, after) := by
  obtain ⟨count, hcount⟩ : ∃ count, stop - index = count + 1 := ⟨stop - (index + 1), by omega⟩
  have hrest := eq_drop_succ hline
  have hstop : stop - (index + 1) = count := by omega
  rw [hline, hcount, readLines, hstop]
  congr 1
  funext item
  rw [← List.drop_drop, ← hrest, ← Nat.sub_sub, hstop]
  cases readLines item.frame (rest.drop item.used) (count - item.used) <;> rfl

/-- What goes wrong behind accepted lines goes wrong where the reader started. -/
theorem Accepts.readLines_eq_error (h : Accepts all stop f start g index) {e : CompileError}
    (he : readLines g (all.drop index) (stop - index) = .error e) :
    readLines f (all.drop start) (stop - start) = .error e := by
  induction h with
  | start => exact he
  | next _ hnext ih =>
    cases hnext with
    | item hlt hline hitem =>
      apply ih
      rw [readLines_eq hlt hline, hitem]
      exact Check.map_eq_error_iff.2 he

/-! ### Lines of a block -/

/-- The lines from `index` to `stop` are those of a block that the line `stop` ends. -/
structure IsInside (all : List Line) (stop : Nat) (f : Frame) (index : Nat) : Prop where
  kind_ne : f.scope.kind ≠ .global
  le : index ≤ stop
  covers : Covers f.scope.kind (all.drop index) (stop - index)

theorem IsInside.of_goesOn (h : IsInside all stop f index) (hnext : GoesOn all stop f index g next) :
    IsInside all stop g next ∧ index < next := by
  cases hnext with
  | @item line rest item hlt hline hitem =>
    have hkind := kind_of_readItem hitem
    have hrest := eq_drop_succ hline
    have hcover := h.covers
    obtain ⟨count, hcount⟩ : ∃ count, stop - index = count + 1 := ⟨stop - (index + 1), by omega⟩
    have hstop : stop - (index + 1) = count := by omega
    rw [hline, hcount] at hcover
    rw [hstop] at hitem
    obtain ⟨hused, hbehind⟩ := covers_of_readItem hcover hitem
    refine ⟨⟨hkind ▸ h.kind_ne, by omega, ?_⟩, by omega⟩
    rw [← List.drop_drop, ← hrest, ← Nat.sub_sub, hstop]
    exact hbehind

theorem IsInside.of_accepts (h : IsInside all stop f start) (hrun : Accepts all stop f start g index) :
    IsInside all stop g index ∧ start ≤ index := by
  induction hrun with
  | start => exact ⟨h, Nat.le_refl _⟩
  | next _ hnext ih =>
    obtain ⟨hinside, hlt⟩ := ih.1.of_goesOn hnext
    exact ⟨hinside, Nat.le_of_lt (Nat.lt_of_le_of_lt ih.2 hlt)⟩

/-! ### Headers inside of a block -/

theorem Opens.exists_line {opening : Opening} (h : Opens all f index opening g header) :
    ∃ line rest, all.drop index = line :: rest := by
  induction h with
  | selection hline => exact ⟨_, _, hline⟩
  | loop hline => exact ⟨_, _, hline⟩
  | next _ _ _ _ _ ih => exact ih

/-- The line `header` opens one more block inside of the one that the line `stop` ends. -/
structure IsHeader (all : List Line) (stop header : Nat) : Prop where
  lt : header < stop
  closing : ∃ depth, 1 ≤ depth ∧
    closingLine (1 + depth) ((all.drop (header + 1)).map Line.text) = some (stop - (header + 1))

theorem IsHeader.of_condition {line : Line} {rest : List Line} {keyword : String} {text : Text}
    {condition : Expression} (h : IsInside all stop f index) (hlt : index < stop)
    (hline : all.drop index = line :: rest) (hk : Text.isFlat keyword.toList)
    (hheader : line.text.betweenKeywordAndBrace? keyword = some text)
    (hcondition : Statement.readCondition f.scope.symbols text = .ok condition) :
    IsHeader all stop index := by
  have hcover := h.covers
  obtain ⟨count, hcount⟩ : ∃ count, stop - index = count + 1 := ⟨stop - (index + 1), by omega⟩
  have hstop : stop - (index + 1) = count := by omega
  have hrest := eq_drop_succ hline
  rw [hline, hcount] at hcover
  obtain ⟨depth, hd, hclosing⟩ := closingLine_of_header hk h.kind_ne hcover hheader hcondition
  exact ⟨hlt, depth, hd, by rw [← hrest, hstop, hclosing]⟩

/-- The line that closes a clause opens the next one, and is not the end of the block around them. -/
theorem IsHeader.of_next {line : Line} {rest : List Line} {clause next : ClauseHeader}
    {block : { block : Block // block.index < rest.length }} {body : Frame}
    (h : IsHeader all stop header) (hline : all.drop header = line :: rest)
    (hblock : readBlock (innerLines (rest.length + 1)) line rest (Nat.lt_succ_self _) body = .ok block)
    (hnext : readNextHeader g.scope.symbols (isOtherwise clause) (afterCloser block.1.close) =
      .ok next) : IsHeader all stop (header + 1 + block.1.index) := by
  have hrest := eq_drop_succ hline
  obtain ⟨hend, hclose, hstart, -⟩ := readBlock_eq_ok hblock
  obtain ⟨hlt, depth, hd, hclosing⟩ := h
  rw [← hrest] at hclosing
  obtain ⟨more, hstop, hmore⟩ := closingLine_behind_clause hd hend hclose hclosing hstart hnext
  refine ⟨by omega, depth, hd, ?_⟩
  have hleft : stop - (header + 1 + block.1.index + 1) = more := by omega
  rw [hleft, Nat.add_assoc (header + 1), ← List.drop_drop, ← hrest]
  exact hmore

theorem IsHeader.of_opens {opening : Opening} (h : IsInside all stop f index) (hlt : index < stop)
    (hopens : Opens all f index opening g header) : IsHeader all stop header ∧ index ≤ header := by
  induction hopens with
  | selection hline _ hheader hcondition =>
    exact ⟨.of_condition h hlt hline (by decide) hheader hcondition, Nat.le_refl _⟩
  | loop hline _ hheader hcondition =>
    exact ⟨.of_condition h hlt hline (by decide) hheader hcondition, Nat.le_refl _⟩
  | next _ hline hblock _ hnext ih =>
    exact ⟨.of_next ih.1 hline hblock hnext, by omega⟩

theorem end?_of_closingLine {i : Nat}
    (h : closingLine 1 ((all.drop (header + 1)).map Line.text) = some i) :
    StellaGo.Block.end? (all.map Line.text) header = some (header + 1 + i) := by
  rw [end?, ← List.map_drop, h]
  rfl

/-- The block of a header ends with the one around it at the latest. -/
theorem IsHeader.exists_end (h : IsHeader all stop header) :
    ∃ close, end? (all.map Line.text) header = some close ∧ header < close ∧ close ≤ stop := by
  obtain ⟨hlt, depth, -, hclosing⟩ := h
  obtain ⟨i, hi, hle⟩ := StellaGo.Block.exists_closingLine_le (Nat.le_refl 1) hclosing
  exact ⟨_, end?_of_closingLine hi, by omega, by omega⟩

/-! ### Accepted items -/

/-- The reader accepts what a header opens, and goes on from line `next`. -/
def Opening.EndsAt (all : List Line) (n : Nat) (g : Frame) (header next : Nat) : Opening → Prop
  | .clause first => ∃ line rest, ∃ short : rest.length < n, ∃ clauses used r,
      all.drop header = line :: rest ∧
        readClauses (innerLines n) g first line rest short = .ok (clauses, used, r) ∧
        next = header + 1 + used
  | .loop => ∃ line rest, ∃ short : rest.length < n, ∃ block, all.drop header = line :: rest ∧
      readBlock (innerLines n) line rest short (g.enter .loop) = .ok block ∧
      next = header + 1 + (block.1.index + 1)

theorem Opens.endsAt {opening : Opening} {n count : Nat} {line : Line} {rest : List Line}
    {short : rest.length < n} {item : Item} (hopens : Opens all f index opening g header)
    (hline : all.drop index = line :: rest)
    (hitem : readItem (innerLines n) f line rest short count = .ok item) :
    opening.EndsAt all n g header (index + 1 + item.used) := by
  induction hopens with
  | selection hline' hk hheader hcondition =>
    cases hline.symm.trans hline'
    unfold readItem at hitem
    obtain ⟨_, -, hitem⟩ := Check.bind_eq_ok_iff.1 hitem
    simp only [hk] at hitem
    obtain ⟨_, _, clauses, used, r, htext, hcondition', hclauses, rfl⟩ := readSelection_eq_ok hitem
    cases hheader.symm.trans htext
    cases hcondition.symm.trans hcondition'
    exact ⟨_, _, short, clauses, used, r, hline, hclauses, rfl⟩
  | loop hline' hk hheader hcondition =>
    cases hline.symm.trans hline'
    unfold readItem at hitem
    obtain ⟨_, -, hitem⟩ := Check.bind_eq_ok_iff.1 hitem
    simp only [hk] at hitem
    obtain ⟨_, _, block, -, -, hblock, hused, -⟩ := readLoop_eq_ok hitem
    exact ⟨_, _, short, block, hline, hblock, by rw [hused]⟩
  | @next g header clause next line' rest' block _ hline' hblock hmore hnext ih =>
    obtain ⟨_, _, short', clauses, used, r, hsame, hclauses, hused⟩ := ih
    cases hline'.symm.trans hsame
    obtain ⟨block', hblock', hothers⟩ := readClauses_eq_ok hclauses
    obtain rfl : block = block' := Except.ok.inj (hblock.symm.trans hblock')
    obtain ⟨hlast, -⟩ | ⟨-, next', others, taken, short', hnext', hothers, htaken⟩ := hothers
    · exact absurd hlast hmore
    cases hnext.symm.trans hnext'
    obtain ⟨hlt, hget⟩ := List.getElem?_eq_some_iff.1 (readBlock_eq_ok hblock).2.1
    refine ⟨block.1.close, rest'.drop (block.1.index + 1), _, others, taken, r, ?_, hothers, ?_⟩
    · have hrest := eq_drop_succ hline'
      rw [← List.drop_drop, ← hrest, List.drop_eq_getElem_cons hlt, hget]
    · omega

theorem end?_of_readBlock {n : Nat} {line : Line} {rest : List Line} {short : rest.length < n}
    {body : Frame} {block : { block : Block // block.index < rest.length }}
    (hline : all.drop header = line :: rest)
    (hblock : readBlock (innerLines n) line rest short body = .ok block) :
    StellaGo.Block.end? (all.map Line.text) header = some (header + 1 + block.1.index) := by
  apply end?_of_closingLine
  rw [← eq_drop_succ hline]
  exact (readBlock_eq_ok hblock).1

/-- Behind an accepted item every block in it has ended. -/
theorem Opening.EndsAt.exists_end {opening : Opening} {n : Nat}
    (h : opening.EndsAt all n g header next) :
    ∃ close, end? (all.map Line.text) header = some close ∧ close < next := by
  cases opening with
  | loop =>
    obtain ⟨line, rest, short, block, hline, hblock, rfl⟩ := h
    exact ⟨_, end?_of_readBlock hline hblock, by omega⟩
  | clause clause =>
    obtain ⟨line, rest, short, clauses, used, r, hline, hclauses, rfl⟩ := h
    obtain ⟨block, hblock, hothers⟩ := readClauses_eq_ok hclauses
    refine ⟨_, end?_of_readBlock hline hblock, ?_⟩
    obtain ⟨-, hused⟩ | ⟨-, _, _, _, _, -, -, hused⟩ := hothers <;> omega

/-! ### Functions without an end -/

/-- An accepted item in front of accepted ones. -/
theorem Accepts.of_goesOn {middle : Nat} (h : GoesOn all stop f start g middle)
    (hrun : Accepts all stop g middle g' index) : Accepts all stop f start g' index := by
  induction hrun with
  | start => exact .next .start h
  | next _ hnext ih => exact .next ih hnext

/-- An item of a file of which a block has no end is a function, and its own block has none. -/
theorem function_of_unclosed {n count : Nat} {line : Line} {rest : List Line}
    {short : rest.length < n} {e : CompileError} (ih : FindsEndsInside n)
    (hfile : f.scope.kind = .global)
    (h : readItem (innerLines n) f line rest short count = .error e) (he : e.kind = .unclosedScope) :
    line.text.lineKind = .function ∧ closingLine 1 (rest.map Line.text) = none ∧
      e = ⟨line.number, .unclosedBlock⟩ ∧
      ∃ signature r, readSignature f line.text = .ok (signature, r) := by
  unfold readItem at h
  rcases Check.bind_eq_error_iff.1 h with hplace | ⟨_, hplace, h⟩
  · exact absurd he (FindsEnds.onLine (raises_checkPlace _ _ _) _ e hplace)
  rw [Check.onLine_eq_ok_iff] at hplace
  have hkind := (checkPlace_eq_ok hplace).1 hfile
  simp only [List.mem_cons, List.not_mem_nil, or_false] at hkind
  rcases hkind with hk | hk | hk
  · simp only [hk] at h
    cases h
  · simp only [hk] at h
    exact ⟨hk, closingLine_of_readFunction ih h he⟩
  · simp only [hk] at h
    cases h
    cases he

/-- Where the reader of a file finds no end of a block, it has come to a function of the file. -/
theorem exists_header_of_unclosed {e : CompileError} (f : Frame) (start : Nat)
    (hfile : f.scope.kind = .global)
    (h : readLines f (all.drop start) (all.length - start) = .error e) (he : e.kind = .unclosedScope) :
    ∃ g header line rest signature r, Accepts all all.length f start g header ∧
      g.scope.kind = .global ∧ all.drop header = line :: rest ∧ line.text.lineKind = .function ∧
      readSignature g line.text = .ok (signature, r) ∧ closingLine 1 (rest.map Line.text) = none ∧
      e = ⟨line.number, .unclosedBlock⟩ := by
  cases hline : all.drop start with
  | nil =>
    rw [hline, readLines] at h
    cases h
  | cons line rest =>
    have hlt : start < all.length := by
      by_contra hle
      rw [List.drop_eq_nil_of_le (Nat.le_of_not_lt hle)] at hline
      cases hline
    rw [readLines_eq hlt hline] at h
    rcases Check.bind_eq_error_iff.1 h with hitem | ⟨item, hitem, h⟩
    · have ih : FindsEndsInside (rest.length + 1) := fun _ hin hc => findsEnds_readLines hin hc
      obtain ⟨hk, hend, herror, signature, r, hsignature⟩ := function_of_unclosed ih hfile hitem he
      exact ⟨f, start, line, rest, signature, r, .start, hfile, hline, hk, hsignature, hend, herror⟩
    · have hnext : GoesOn all all.length f start item.frame (start + 1 + item.used) :=
        .item hlt hline hitem
      obtain ⟨g, header, line', rest', signature, r, hrun, hfound⟩ :=
        exists_header_of_unclosed _ _ ((kind_of_readItem hitem).trans hfile)
          (Check.map_eq_error_iff.1 h) he
      exact ⟨g, header, line', rest', signature, r, .of_goesOn hnext hrun, hfound⟩
termination_by all.length - start

/-! ### Sources -/

section Sources

variable {source : Text}

theorem closingLine_trim {depth : Nat} (hd : 1 ≤ depth) (lines : List Text) :
    closingLine depth (lines.map Text.trim) = closingLine depth lines := by
  induction lines generalizing depth with
  | nil => rfl
  | cons line rest ih =>
    rw [List.map_cons, closingLine, closingLine, Text.braceDepth_trim hd]
    split
    · rfl
    · next deeper hdeeper => rw [ih (Glyph.braceDepth_pos hd hdeeper)]

theorem closingLine_numberedLines (source : Text) (header : Nat) :
    closingLine 1 ((source.numberedLines.drop (header + 1)).map Line.text) =
      closingLine 1 (source.lines.drop (header + 1)) := by
  rw [List.map_drop, Text.map_text_numberedLines, ← List.map_drop, closingLine_trim (Nat.le_refl 1)]

theorem end?_numberedLines (source : Text) (header : Nat) :
    StellaGo.Block.end? (source.numberedLines.map Line.text) header = end? source.lines header := by
  rw [end?, end?, ← List.map_drop, closingLine_numberedLines]

theorem IsInside.of_end (hin : f.scope.kind ≠ .global) (hend : end? source.lines header = some stop) :
    IsInside source.numberedLines stop f (header + 1) := by
  obtain ⟨count, hcount, hstop⟩ := Option.map_eq_some_iff.1 hend
  refine ⟨hin, by omega, ?_⟩
  rw [Covers, if_neg hin]
  exact ⟨1, Nat.le_refl 1, by rw [closingLine_numberedLines, hcount, ← hstop, Nat.add_sub_cancel_left]⟩

/-- A block inside of another one ends with it at the latest. If it ends with it, then something is
wrong with the lines of the outer one. -/
theorem exists_end_of_opens {outer : Nat} {opening : Opening} {body : Frame}
    (hin : body.scope.kind ≠ .global) (hend : end? source.lines outer = some stop)
    (hrun : Accepts source.numberedLines stop body (outer + 1) f index) (hlt : index < stop)
    (hopens : Opens source.numberedLines f index opening g header) :
    ∃ close, end? source.lines header = some close ∧
      outer < header ∧ header < close ∧ close ≤ stop ∧
      (∀ f' next, GoesOn source.numberedLines stop f index f' next → close < next ∧ next ≤ stop) ∧
      (close = stop → ∃ e,
        readLines body (source.numberedLines.drop (outer + 1)) (stop - (outer + 1)) = .error e) := by
  obtain ⟨hinside, hle⟩ := (IsInside.of_end hin hend).of_accepts hrun
  obtain ⟨hheader, hindex⟩ := IsHeader.of_opens hinside hlt hopens
  obtain ⟨close, hclose, hafter, hwithin⟩ := hheader.exists_end
  have hgoesOn : ∀ f' next, GoesOn source.numberedLines stop f index f' next →
      close < next ∧ next ≤ stop := by
    intro f' next hnext
    refine ⟨?_, (hinside.of_goesOn hnext).1.le⟩
    cases hnext with
    | item _ hline hitem =>
      obtain ⟨close', hclose', hbefore⟩ := (hopens.endsAt hline hitem).exists_end
      obtain rfl : close = close' := Option.some.inj (hclose.symm.trans hclose')
      exact hbefore
  refine ⟨close, end?_numberedLines source header ▸ hclose, by omega, hafter, hwithin, hgoesOn, ?_⟩
  rintro rfl
  obtain ⟨line, rest, hline⟩ := hopens.exists_line
  -- behind an accepted item the block would have ended before the outer one does.
  cases hitem : readItem (innerLines (rest.length + 1)) f line rest (Nat.lt_succ_self _)
    (close - (index + 1)) with
  | ok item =>
    have hnext := hgoesOn _ _ (.item hlt hline hitem)
    omega
  | error e =>
    refine ⟨e, hrun.readLines_eq_error ?_⟩
    rw [readLines_eq hlt hline, hitem]
    rfl

theorem number_of_drop {line : Line} {rest : List Line}
    (h : source.numberedLines.drop header = line :: rest) : line.number = header + 1 := by
  have hget : source.numberedLines[header]? = some line := by rw [← List.head?_drop, h, List.head?_cons]
  obtain ⟨text, -, rfl⟩ := Option.map_eq_some_iff.1 (List.getElem?_mapIdx.symm.trans hget)
  rfl

/-- The block of which no end is found is that of a function of the file. -/
theorem exists_function_of_unclosed {e : CompileError} (h : read source = .error e)
    (he : e.kind = .unclosedScope) :
    ∃ g header line rest signature r,
      Accepts source.numberedLines source.lines.length ⟨.global, .empty⟩ 0 g header ∧
        g.scope.kind = .global ∧ source.numberedLines.drop header = line :: rest ∧
        line.text.lineKind = .function ∧ readSignature g line.text = .ok (signature, r) ∧
        e = ⟨header + 1, .unclosedBlock⟩ ∧ end? source.lines header = none := by
  have hlength : source.numberedLines.length = source.lines.length := List.length_mapIdx
  unfold read at h
  rcases Check.bind_eq_error_iff.1 h with hlines | ⟨⟨statements, f⟩, -, h⟩
  · have hfile : readLines ⟨.global, .empty⟩ (source.numberedLines.drop 0)
        (source.numberedLines.length - 0) = .error e := hlines
    obtain ⟨g, header, line, rest, signature, r, hrun, hglobal, hline, hk, hsignature, hend, rfl⟩ :=
      exists_header_of_unclosed _ _ rfl hfile he
    refine ⟨g, header, line, rest, signature, r, hlength ▸ hrun, hglobal, hline, hk, hsignature, ?_, ?_⟩
    · rw [number_of_drop hline]
    · rw [eq_drop_succ hline, closingLine_numberedLines] at hend
      rw [end?, hend]
      rfl
  · dsimp only at h
    split at h
    · cases h
      cases he
    · cases h

end Sources

/-- Blocks nest, in a source that is accepted and in one that is not. Let the reader work on the lines
of the block with the header `outer`, of which `stop` is the end that was found, and let it come to a
header there, with all lines in front of it and the condition on it accepted. Then the end of the block
of that header is found, at `stop` at the latest; the reader goes on behind that end, and not behind
`stop`; and if the two blocks have the same end, then something is wrong with the lines of the outer
one. So a block is never closed only if it is that of a function of the file. -/
theorem blocks_nest (source : Text) :
    (∀ (outer stop : Nat) (body f g : Frame) (index : Nat) (opening : Opening) (header : Nat),
      body.scope.kind ≠ .global → end? source.lines outer = some stop →
      Accepts source.numberedLines stop body (outer + 1) f index → index < stop →
      Opens source.numberedLines f index opening g header →
      ∃ close, end? source.lines header = some close ∧
        outer < header ∧ header < close ∧ close ≤ stop ∧
        (∀ f' next, GoesOn source.numberedLines stop f index f' next → close < next ∧ next ≤ stop) ∧
        (close = stop → ∃ e,
          readLines body (source.numberedLines.drop (outer + 1)) (stop - (outer + 1)) = .error e)) ∧
    ∀ e, read source = .error e → e.kind = .unclosedScope →
      ∃ g header line rest signature r,
        Accepts source.numberedLines source.lines.length ⟨.global, .empty⟩ 0 g header ∧
          g.scope.kind = .global ∧ source.numberedLines.drop header = line :: rest ∧
          line.text.lineKind = .function ∧ readSignature g line.text = .ok (signature, r) ∧
          e = ⟨header + 1, .unclosedBlock⟩ ∧ end? source.lines header = none :=
  ⟨fun _ _ _ _ _ _ _ _ hin hend hrun hlt hopens => exists_end_of_opens hin hend hrun hlt hopens,
    fun _ h he => exists_function_of_unclosed h he⟩

/-- The block of an `else` ends inside of the function around it. Of a function that has no end, the
error is on the header. -/
theorem blocks_nest_else :
    (∃ (source : Text) (body f g : Frame) (opening : Opening),
      source = Text.block "function main() -> IO ="
        [Text.block "if true" ['}' :: " else ".toList ++ ['{']]] ∧
      body.scope.kind = .function ∧ Accepts source.numberedLines 4 body 1 f 1 ∧
      Opens source.numberedLines f 1 opening g 2 ∧
      ∃ close, end? source.lines 2 = some close ∧ 2 < close ∧ close ≤ 4) ∧
    ∃ (source : Text) (e : CompileError) (header : Nat),
      source = "function main() -> IO = ".toList ++ '{' :: '\n' :: Text.block "if true" [] ∧
      read source = .error e ∧
      e = ⟨header + 1, .unclosedBlock⟩ ∧ end? source.lines header = none := by
  let source : Text :=
    Text.block "function main() -> IO =" [Text.block "if true" ['}' :: " else ".toList ++ ['{']]]
  let source' : Text := "function main() -> IO = ".toList ++ '{' :: '\n' :: Text.block "if true" []
  let clause : Text := "if true ".toList ++ ['{']
  let otherwise : Text := '}' :: " else ".toList ++ ['{']
  let body : Frame := ⟨⟨.function, [.global], .empty, some (.primitive .io)⟩, .empty⟩
  let rest : List Line := [⟨3, otherwise⟩, ⟨4, ['}']⟩, ⟨5, ['}']⟩]
  constructor
  · have hlines : source.numberedLines =
        ⟨1, "function main() -> IO = ".toList ++ ['{']⟩ :: ⟨2, clause⟩ :: rest := by
      decide +kernel
    have hcondition : (Statement.readCondition body.scope.symbols "true".toList).isOk := by decide +kernel
    obtain ⟨condition, hcondition⟩ := Check.isOk_iff.1 hcondition
    have hif : Opens source.numberedLines body 1 (.clause (.ifTrue condition)) body 1 :=
      .selection (congrArg (List.drop 1) hlines) (by decide +kernel) (by decide +kernel) hcondition
    have hblock : (readBlock (innerLines (rest.length + 1)) ⟨2, clause⟩ rest
        (Nat.lt_succ_self _) (body.enter .selection)).map
          (fun block => (block.1.index, block.1.close)) = .ok (0, ⟨3, otherwise⟩) := by
      decide +kernel
    obtain ⟨block, hblock, hat⟩ := Check.map_eq_ok_iff.1 hblock
    obtain ⟨hindex, hclose⟩ := Prod.mk.inj hat
    have hmore : afterCloser block.1.close ≠ [] := by rw [hclose]; decide +kernel
    have hnext : readNextHeader body.scope.symbols (isOtherwise (.ifTrue condition))
        (afterCloser block.1.close) = .ok .otherwise := by rw [hclose]; rfl
    have hopens : Opens source.numberedLines body 1 (.clause .otherwise) (body.leave block.1.frame)
        (1 + 1 + block.1.index) := .next hif (congrArg (List.drop 1) hlines) hblock hmore hnext
    rw [hindex] at hopens
    obtain ⟨close, hend, -, hlt, hle, -⟩ := (blocks_nest source).1 0 4 body body _ 1 _ 2 (by decide)
      (by decide +kernel) .start (by decide) hopens
    exact ⟨source, body, body, _, _, rfl, rfl, .start, hopens, close, hend, hlt, hle⟩
  · have hread : (read source').map (fun _ => ()) = .error ⟨1, .unclosedBlock⟩ := by decide +kernel
    cases he : read source' with
    | ok p =>
      rw [he] at hread
      cases hread
    | error e =>
      rw [he] at hread
      cases hread
      obtain ⟨_, header, _, _, _, _, -, -, -, -, -, hat, hend⟩ := (blocks_nest source').2 _ he rfl
      exact ⟨source', _, header, rfl, he, hat, hend⟩

end StellaGo.Program
