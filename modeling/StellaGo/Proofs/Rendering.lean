import StellaGo.Compile
import StellaGo.Proofs.LineFeeds

/-! The lines of generated code. Defined here: the line of Go that a line of source becomes, by the
kind of the line. Proved: behind the package, the imports and the tuple carriers, the generated file
has one line for each line of source that is not blank, in the order of the source. -/

namespace StellaGo

open Program (readSignature)

/-! ### Kinds of lines -/

namespace Text

theorem trim_eq_nil_iff {t : Text} : t.trim = [] ↔ ∀ c ∈ t, isBlank c := by
  constructor
  · intro h
    obtain ⟨before, behind, ht, hbefore, hbehind⟩ := exists_blanks_around_trim t
    rw [h, List.nil_append] at ht
    intro c hc
    rw [ht] at hc
    rcases List.mem_append.1 hc with hc | hc
    · exact hbefore c hc
    · exact hbehind c hc
  · intro h
    rw [trim, trimStart, List.dropWhile_eq_nil_iff.2 h]
    rfl

theorem lineKind_ne_blank {line : Text} {kind : LineKind} (h : line.lineKind = kind)
    (hk : kind ≠ .blank) : line.trim ≠ [] := by
  intro htrim
  rw [lineKind, if_pos htrim] at h
  exact hk h.symm

theorem trim_eq_nil_of_lineKind {line : Text} (h : line.lineKind = .blank) : line.trim = [] := by
  have hne {p : Prop} [Decidable p] {a b : LineKind} (ha : a ≠ .blank) (hb : b ≠ .blank) :
      (if p then a else b) ≠ .blank := by
    split <;> assumption
  by_contra htrim
  rw [lineKind, if_neg htrim] at h
  -- each of the other kinds is another one
  apply absurd h
  repeat' apply hne
  all_goals nofun

theorem exists_trim_eq_cons {c : Char} {tail : Text} (hc : isBlank c = false) :
    ∃ rest, Text.trim (c :: tail) = c :: rest := by
  obtain ⟨before, behind, ht, hbefore, -⟩ := exists_blanks_around_trim (c :: tail)
  have hne : Text.trim (c :: tail) ≠ [] := by
    intro hnil
    rw [trim_eq_nil_iff.1 hnil c List.mem_cons_self] at hc
    cases hc
  cases before with
  | nil =>
    obtain ⟨d, rest, hd⟩ := List.exists_cons_of_ne_nil hne
    rw [List.nil_append, hd, List.cons_append, List.cons.injEq] at ht
    exact ⟨rest, by rw [hd, ht.1]⟩
  | cons d others =>
    rw [List.cons_append, List.cons.injEq] at ht
    rw [ht.1, hbefore d List.mem_cons_self] at hc
    cases hc

theorem lineKind_of_closer {tail : Text} : lineKind ('}' :: tail) = .closer := by
  obtain ⟨rest, hrest⟩ := @exists_trim_eq_cons '}' tail (by decide)
  rw [lineKind, hrest]
  simp [startsWithWord, after?, startsWith, List.isPrefixOf?]

end Text

/-- What a call with `!` starts with in Go, by the word before the `!`. -/
def callStarts : List (String × String) :=
  [("print", "fmt.Print("), ("println", "fmt.Println("), ("panic", "panic(")]

namespace Go

theorem target_element (e : Indexing) :
    target (.element e) =
      e.name ++ e.indices.flatMap fun index => '[' :: expression index ++ [']'] := by
  have hbrackets (es : List Expression) :
      brackets es = es.flatMap fun index => '[' :: expression index ++ [']'] := by
    induction es with
    | nil => rfl
    | cons e rest ih => simp [brackets, ih]
  obtain ⟨name, indices, type⟩ := e
  rw [target, indexing, hbrackets]

theorem exists_start_of_ofName? {name : Name} {callee : Builtin}
    (h : Builtin.ofName? name = some callee) :
    ∃ word start : String, name = word.toList ∧ (word, start) ∈ callStarts ∧
      (builtin callee).toList ++ ['('] = start.toList := by
  unfold Builtin.ofName? at h
  split_ifs at h with hprint hprintln hpanic
  · cases h
    exact ⟨_, _, hprint, .head _, by decide⟩
  · cases h
    exact ⟨_, _, hprintln, .tail _ (.head _), by decide⟩
  · cases h
    exact ⟨_, _, hpanic, .tail _ (.tail _ (.head _)), by decide⟩

end Go

/-- The lines that are not blank. -/
def nonblank (lines : List Text) : List Text := lines.filter (·.trim != [])

/-! ### One line -/

/-- The line of Go that a line of source becomes, with the names that are known there. -/
inductive Renders (line : Text) : Text → Prop
  | function {f : Frame} {s : Signature} {r : Requirements} (hf : f.scope.symbols.Identifies)
      (hk : line.lineKind = .function) (h : readSignature f line = .ok (s, r)) :
      Renders line ("func ".toList ++ s.name ++ '(' :: Go.commas (s.parameters.map Go.parameter) ++
        ')' :: (if s.returns.isIO then [] else ' ' :: s.returns.goName) ++ [' ', '{'])
  | declaration {f next : Frame} {name : Name} {type : ValueType} {v : Value}
      (hf : f.scope.symbols.Identifies) (hk : line.lineKind = .declaration)
      (h : Statement.readDeclaration f line = .ok (.declaration name type v, next)) :
      Renders line ("var ".toList ++ name ++ ' ' :: type.goName ++ " = ".toList ++ Go.value v)
  | assignment {f : Frame} {name : Name} {v : Value} (hf : f.scope.symbols.Identifies)
      (hk : line.lineKind = .assignment)
      (h : Statement.readAssignment f.scope.symbols line = .ok (.assignment (.whole name) v)) :
      Renders line (name ++ " = ".toList ++ Go.value v)
  | elementAssignment {f : Frame} {element : Indexing} {v : Value}
      (hf : f.scope.symbols.Identifies) (hk : line.lineKind = .assignment)
      (h : Statement.readAssignment f.scope.symbols line = .ok (.assignment (.element element) v)) :
      Renders line (element.name ++
        element.indices.flatMap (fun index => '[' :: Go.expression index ++ [']']) ++
          " = ".toList ++ Go.value v)
  | selection {f : Frame} {text : Text} {condition : Expression}
      (hf : f.scope.symbols.Identifies) (hk : line.lineKind = .selection)
      (ht : line.betweenKeywordAndBrace? "if" = some text)
      (h : Statement.readCondition f.scope.symbols text = .ok condition) :
      Renders line ("if ".toList ++ Go.expression condition ++ [' ', '{'])
  | loop {f : Frame} {text : Text} {condition : Expression} (hf : f.scope.symbols.Identifies)
      (hk : line.lineKind = .loop) (ht : line.betweenKeywordAndBrace? "loop" = some text)
      (h : Statement.readCondition f.scope.symbols text = .ok condition) :
      Renders line ("for ".toList ++ Go.expression condition ++ [' ', '{'])
  | jump {jump : Jump} {word : String} (hk : line.lineKind = .jump jump)
      (hword : (jump, word) ∈ [(.break, "break"), (.continue, "continue")])
      (h : line = word.toList) : Renders line word.toList
  | builtin {f next : Frame} {callee : Builtin} {argument : Expression} {rest : Text}
      {word start : String} (hf : f.scope.symbols.Identifies) (hk : line.lineKind = .builtin)
      (h : Statement.readBuiltin f line = .ok (.builtin callee argument, next))
      (hline : line = word.toList ++ '!' :: rest)
      (hstart : (word, start) ∈ callStarts) :
      Renders line (start.toList ++ Go.expression argument ++ [')'])
  | result {f : Frame} {v : Value} (hf : f.scope.symbols.Identifies) (hk : line.lineKind = .result)
      (h : Statement.readResult f.scope line = .ok (.result v)) :
      Renders line ("return ".toList ++ Go.value v)
  | closer {tail : Text} (hk : line.lineKind = .closer) (ht : line = '}' :: tail)
      (h : Text.trim tail = []) : Renders line ['}']
  | otherwise {tail continuation : Text} (hk : line.lineKind = .closer) (ht : line = '}' :: tail)
      (h : Text.trim tail = "else".toList ++ continuation) (hb : continuation.trim = ['{']) :
      Renders line ('}' :: " else ".toList ++ ['{'])
  | elseIf {f : Frame} {tail continuation text : Text} {condition : Expression}
      (hf : f.scope.symbols.Identifies) (hk : line.lineKind = .closer) (ht : line = '}' :: tail)
      (h : Text.trim tail = "else".toList ++ continuation)
      (hb : continuation.trim.betweenKeywordAndBrace? "if" = some text)
      (hc : Statement.readCondition f.scope.symbols text = .ok condition) :
      Renders line ('}' :: " else if ".toList ++ Go.expression condition ++ [' ', '{'])

namespace Renders

variable {line go : Text}

theorem isOneLine_condition {symbols : Symbols} {text : Text} {condition : Expression}
    (hs : symbols.Identifies) (ht : text.IsOneLine)
    (h : Statement.readCondition symbols text = .ok condition) :
    (Go.expression condition).IsOneLine :=
  Piece.isOneLine_go hs (.expression condition) ht (Statement.readCondition_eq_ok h).1

theorem isOneLine_value {symbols : Symbols} {type : ValueType} {text : Text} {v : Value}
    (hs : symbols.Identifies) (ht : text.IsOneLine)
    (h : Expression.ReadsValue symbols type text v) : (Go.value v).IsOneLine :=
  Piece.isOneLine_go hs (.value v) ht ⟨type, h⟩

theorem isOneLine_parameters {parameters : List Parameter}
    (h : ∀ p ∈ parameters, Name.problem? p.name = none) :
    (Go.commas (parameters.map Go.parameter)).IsOneLine := by
  refine .commas_map fun p hp => ?_
  exact .append (.of_problem? (h p hp)) (.cons (by decide) p.type.isOneLine_goName)

theorem isOneLine_assignment {symbols : Symbols} {target : Target} {v : Value}
    (hs : symbols.Identifies) (hl : line.IsOneLine)
    (h : Statement.readAssignment symbols line = .ok (.assignment target v)) :
    (Go.target target).IsOneLine ∧ (Go.value v).IsOneLine := by
  have htrim (part : Text) (hpart : part ⊆ line) : (Text.trim part).IsOneLine :=
    .of_subset (List.Subset.trans (Text.trim_subset part) hpart) hl
  have hread := Statement.readAssignment_eq_ok h
  cases hread with
  | @element equals i e ha hi hm he ht =>
    constructor
    · exact Piece.isOneLine_go hs (.indexing i) (htrim _ (List.take_subset _ _)) hi
    · rw [Go.value]
      exact Piece.isOneLine_go hs (.expression e) (htrim _ (List.drop_subset _ _)) he
  | whole ha hn hb hm hv =>
    constructor
    · have hname := Piece.isOneLine_name hs hb
      rwa [Descriptor.name_ofType] at hname
    · exact isOneLine_value hs (htrim _ (List.drop_subset _ _)) hv

/-- A line becomes one line. -/
theorem isOneLine (h : Renders line go) (hl : line.IsOneLine) : go.IsOneLine := by
  cases h with
  | @function f s r hf hk h =>
    obtain ⟨hname, -, hparameters, -⟩ := Program.readSignature_eq_ok h
    have hreturns : Text.IsOneLine (if s.returns.isIO then [] else ' ' :: s.returns.goName) := by
      split
      · exact List.not_mem_nil
      · exact .cons (by decide) s.returns.isOneLine_goName
    have hhead := Text.IsOneLine.append (show Text.IsOneLine "func ".toList by decide)
      (.of_problem? hname)
    have hlist := isOneLine_parameters fun p hp => (hparameters p hp).1
    exact .append (.append (.append hhead (.cons (by decide) hlist)) (.cons (by decide) hreturns))
      (by decide)
  | @declaration f next name type v hf hk h =>
    obtain ⟨header, type', v', r, hheader, hname, -, -, hv, heq, -⟩ :=
      Statement.readDeclaration_eq_ok h
    cases heq
    have hvalue := isOneLine_value hf (.of_subset (LetHeader.value_subset hheader) hl) hv
    exact .append (.append (.append (.append (by decide) (.of_problem? hname))
      (.cons (by decide) type.isOneLine_goName)) (by decide)) hvalue
  | assignment hf hk h =>
    obtain ⟨hname, hvalue⟩ := isOneLine_assignment hf hl h
    exact .append (.append hname (by decide)) hvalue
  | elementAssignment hf hk h =>
    obtain ⟨htarget, hvalue⟩ := isOneLine_assignment hf hl h
    rw [Go.target_element] at htarget
    exact .append (.append htarget (by decide)) hvalue
  | selection hf hk ht h =>
    have hc := isOneLine_condition hf (.of_subset (Text.subset_of_betweenKeywordAndBrace? ht) hl) h
    exact .append (.append (by decide) hc) (by decide)
  | loop hf hk ht h =>
    have hc := isOneLine_condition hf (.of_subset (Text.subset_of_betweenKeywordAndBrace? ht) hl) h
    exact .append (.append (by decide) hc) (by decide)
  | jump hk hword h => exact h ▸ hl
  | @builtin f next callee argument _ word start hf hk h _ hstart =>
    obtain ⟨name, rest, callee', inside, argument', hread, -, hinside, hargument, -, heq, -⟩ :=
      Statement.readBuiltin_eq_ok h
    cases heq
    have hsub : inside.trim ⊆ line := by
      refine List.Subset.trans (Text.trim_subset _) (List.Subset.trans ?_
        (Name.subset_of_read? hread))
      exact List.subset_cons_of_subset _ (Text.inside?_subset hinside)
    have hargument' := Piece.isOneLine_go hf (.expression argument) (.of_subset hsub hl) hargument
    have hstart' : Text.IsOneLine start.toList := by
      have hall : ∀ call ∈ callStarts, Text.IsOneLine call.2.toList := by decide
      exact hall _ hstart
    exact .append (.append hstart' hargument') (by decide)
  | result hf hk h =>
    obtain ⟨type, v, -, heq, hv⟩ := Statement.readResult_eq_ok h
    cases heq
    exact .append (by decide) (isOneLine_value hf hl hv)
  | closer | otherwise => decide
  | @elseIf f tail continuation text condition hf hk ht h hb hc =>
    have hsub : text ⊆ line := by
      have hcontinuation : continuation ⊆ Text.trim tail := by
        rw [h]
        exact List.subset_append_right _ _
      rw [ht]
      refine List.subset_cons_of_subset _ (List.Subset.trans ?_ (Text.trim_subset tail))
      refine List.Subset.trans ?_ hcontinuation
      exact List.Subset.trans (Text.subset_of_betweenKeywordAndBrace? hb) (Text.trim_subset _)
    exact .append (.append (by decide) (isOneLine_condition hf (.of_subset hsub hl) hc)) (by decide)

/-- Neither line is blank. -/
theorem trim_ne_nil (h : Renders line go) : line.trim ≠ [] ∧ go.trim ≠ [] := by
  have hchar : ∃ c ∈ go, isBlank c = false := by
    cases h with
    | function | loop =>
      refine ⟨'f', ?_, by decide⟩
      repeat apply List.mem_append_left
      decide
    | declaration =>
      refine ⟨'v', ?_, by decide⟩
      repeat apply List.mem_append_left
      decide
    | assignment | elementAssignment =>
      refine ⟨'=', ?_, by decide⟩
      apply List.mem_append_left
      apply List.mem_append_right
      decide
    | selection =>
      refine ⟨'i', ?_, by decide⟩
      repeat apply List.mem_append_left
      decide
    | @jump jump word _ hword =>
      have hall : ∀ jump ∈ [(Jump.break, "break"), (.continue, "continue")],
        'e' ∈ jump.2.toList := by decide
      exact ⟨'e', hall _ hword, by decide⟩
    | @builtin _ _ _ _ _ word start _ _ _ _ hstart =>
      have hall : ∀ call ∈ callStarts, '(' ∈ call.2.toList := by decide
      refine ⟨'(', ?_, by decide⟩
      repeat apply List.mem_append_left
      exact hall _ hstart
    | result =>
      refine ⟨'r', ?_, by decide⟩
      apply List.mem_append_left
      decide
    | closer | otherwise => exact ⟨'}', by decide, by decide⟩
    | elseIf =>
      refine ⟨'}', ?_, by decide⟩
      repeat apply List.mem_append_left
      decide
  constructor
  · cases h with
    | function _ hk | declaration _ hk | assignment _ hk | elementAssignment _ hk | selection _ hk
    | loop _ hk | jump hk | builtin _ hk | result _ hk | closer hk | otherwise hk | elseIf _ hk =>
      exact Text.lineKind_ne_blank hk nofun
  · intro hnil
    obtain ⟨c, hc, hblank⟩ := hchar
    rw [Text.trim_eq_nil_iff.1 hnil c hc] at hblank
    cases hblank

end Renders

namespace Go

theorem statements_eq_flatMap (ss : List Statement) : statements ss = ss.flatMap statement := by
  induction ss with
  | nil => rw [statements, List.flatMap_nil]
  | cons s rest ih => rw [statements, List.flatMap_cons, ih]

theorem statements_append (xs ys : List Statement) :
    statements (xs ++ ys) = statements xs ++ statements ys := by
  simp only [statements_eq_flatMap, List.flatMap_append]

end Go

/-! ### The lines of a scope -/

namespace Program

/-- The texts of the lines that are not blank. -/
def written (lines : List Line) : List Text := nonblank (lines.map Line.text)

theorem written_append (xs ys : List Line) : written (xs ++ ys) = written xs ++ written ys := by
  rw [written, nonblank, List.map_append, List.filter_append]
  rfl

theorem written_cons {line : Line} (rest : List Line) (h : line.text.trim ≠ []) :
    written (line :: rest) = line.text :: written rest := by
  rw [written, nonblank, List.map_cons, List.filter_cons_of_pos (by simpa using h)]
  rfl

theorem written_cons_of_blank {line : Line} (rest : List Line) (h : line.text.lineKind = .blank) :
    written (line :: rest) = written rest := by
  have htrim := Text.trim_eq_nil_of_lineKind h
  simp [written, nonblank, htrim]

theorem written_eq_nil {lines : List Line} (h : ∀ line ∈ lines, line.text = []) :
    written lines = [] := by
  unfold written nonblank
  rw [List.filter_eq_nil_iff]
  intro text htext
  obtain ⟨line, hline, rfl⟩ := List.mem_map.1 htext
  rw [h line hline]
  decide

/-- The lines become the lines of what is read off them. The header of the first clause of a
selection stands before the lines. -/
def Reading.IsRendered : Reading → Prop
  | lines _ taken statements _ => List.Forall₂ Renders (written taken) (Go.statements statements)
  | clauses _ header taken cs _ =>
    ∃ rest, Go.clauses cs = Go.clauseHeader header :: rest ∧
      List.Forall₂ Renders (written taken) rest

theorem ReadsLine.isRendered {f next : Frame} {text : Text} {s : Statement}
    (h : ReadsLine f text s next) (hf : f.scope.symbols.Identifies) :
    ∃ go, Go.statement s = [go] ∧ Renders text go := by
  cases h with
  | declaration hk h =>
    obtain ⟨header, type, v, r, -, -, -, -, -, rfl, -⟩ := Statement.readDeclaration_eq_ok h
    exact ⟨_, by rw [Go.statement], .declaration hf hk h⟩
  | assignment hk h =>
    have hread := Statement.readAssignment_eq_ok h
    cases hread with
    | whole => exact ⟨_, by rw [Go.statement, Go.target], .assignment hf hk h⟩
    | element => exact ⟨_, by rw [Go.statement, Go.target_element], .elementAssignment hf hk h⟩
  | @jump jump _ hk h =>
    obtain ⟨hline, -, rfl⟩ := Statement.readJump_eq_ok h
    refine ⟨_, by rw [Go.statement], ?_⟩
    cases jump with
    | «break» => exact .jump hk (.head _) hline
    | «continue» => exact .jump hk (.tail _ (.head _)) hline
  | builtin hk h =>
    obtain ⟨name, rest, callee, inside, argument, hname, hcallee, -, -, -, rfl, -⟩ :=
      Statement.readBuiltin_eq_ok h
    obtain ⟨word, start, rfl, hstart, hgo⟩ := Go.exists_start_of_ofName? hcallee
    have hline := (Name.read?_eq_some hname).1
    exact ⟨_, by rw [Go.statement, List.append_cons _ '(', hgo], .builtin hf hk h hline hstart⟩

/-- The line that closes a block becomes the line that closes it. -/
theorem isRendered_block {inside : List Line} {close : Line} {body : List Statement}
    (h : List.Forall₂ Renders (written inside) (Go.statements body)) (hclose : ClosesBlock close) :
    List.Forall₂ Renders (written (inside ++ [close])) (Go.statements (body ++ [.closer])) := by
  obtain ⟨tail, htail, hafter⟩ := exists_tail_of_closer hclose.1
  have hkind : close.text.lineKind = .closer := by rw [htail, Text.lineKind_of_closer]
  rw [written_append, written_cons [] (Text.lineKind_ne_blank hkind nofun), Go.statements_append,
    Go.statements, Go.statement, Go.statements]
  exact List.rel_append h (.cons (.closer hkind htail (hafter ▸ hclose.2)) .nil)

/-- The line that closes a clause becomes the header of the next one. -/
theorem renders_of_readNextHeader {f : Frame} {last : Bool} {close : Line} {next : ClauseHeader}
    (hf : f.scope.symbols.Identifies) (hclose : close.text.startsWith '}')
    (h : readNextHeader f.scope.symbols last (afterCloser close) = .ok next) :
    Renders close.text (Go.clauseHeader next) := by
  obtain ⟨tail, htail, hafter⟩ := exists_tail_of_closer hclose
  have hkind : close.text.lineKind = .closer := by rw [htail, Text.lineKind_of_closer]
  obtain ⟨continuation, hrest, ⟨rfl, hbrace⟩ | ⟨text, condition, rfl, htext, hcondition⟩⟩ :=
    readNextHeader_eq_ok h
  · exact .otherwise hkind htail (hafter.symm.trans hrest) hbrace
  · exact .elseIf hf hkind htail (hafter.symm.trans hrest) htext hcondition

theorem Reads.isRendered {reading : Reading} (h : Reads reading)
    (hf : reading.before.scope.symbols.Identifies) : reading.IsRendered := by
  induction h with
  | nil =>
    show List.Forall₂ Renders [] (Go.statements [])
    rw [Go.statements]
    exact .nil
  | @blank f after line rest statements hk _ ih =>
    show List.Forall₂ Renders (written (line :: rest)) (Go.statements statements)
    rw [written_cons_of_blank rest hk]
    exact ih hf
  | @line f next after line rest s statements hin hline _ ih =>
    obtain ⟨go, hgo, hrenders⟩ := hline.isRendered hf
    show List.Forall₂ Renders (written (line :: rest)) (Go.statements (s :: statements))
    rw [written_cons rest hrenders.trim_ne_nil.1, Go.statements, hgo]
    exact .cons hrenders (ih (hline.spells.identifies hf))
  | @result f line rest s hin hk hresult hrest =>
    obtain ⟨type, v, -, rfl, -⟩ := Statement.readResult_eq_ok hresult
    show List.Forall₂ Renders (written (line :: rest)) (Go.statements [.result v])
    rw [written_cons rest (Text.lineKind_ne_blank hk nofun), written_eq_nil hrest, Go.statements,
      Go.statement, Go.statements]
    exact .cons (.result hf hk hresult) .nil
  | @selection f next after line taken rest text condition clauses statements hin hk hheader
      hcondition hclauses _ ihclauses ihrest =>
    obtain ⟨others, hothers, hrenders⟩ := ihclauses hf
    show List.Forall₂ Renders (written (line :: (taken ++ rest)))
      (Go.statements (.selection clauses :: statements))
    rw [written_cons _ (Text.lineKind_ne_blank hk nofun), written_append, Go.statements,
      Go.statement, hothers]
    exact .cons (.selection hf hk hheader hcondition)
      (List.rel_append hrenders (ihrest (hclauses.identifies hf)))
  | @loop f inner after line close inside rest text condition body statements hin hk hheader
      hcondition _ _ hclose _ ihinside ihrest =>
    show List.Forall₂ Renders (written (line :: (inside ++ close :: rest)))
      (Go.statements (.loop condition (inner.body (body ++ [.closer])) :: statements))
    rw [written_cons _ (Text.lineKind_ne_blank hk nofun), List.append_cons, written_append,
      Go.statements, Frame.body, Go.statement]
    exact .cons (.loop hf hk hheader hcondition)
      (List.rel_append (isRendered_block (ihinside hf) hclose) (ihrest hf))
  | @function f entered inner next after line close inside rest signature r body statements hin hk
      hsignature henter _ _ hclose hdeclare _ ihinside ihrest =>
    have hentered := identifies_of_enterFunction hf hsignature henter
    have hnext := identifies_of_declare hdeclare hf (readSignature_eq_ok hsignature).1
    show List.Forall₂ Renders (written (line :: (inside ++ close :: rest)))
      (Go.statements (.function signature (inner.body (body ++ [.closer])) :: statements))
    rw [written_cons _ (Text.lineKind_ne_blank hk nofun), List.append_cons, written_append,
      Go.statements, Frame.body, Go.statement]
    exact .cons (.function hf hk hsignature)
      (List.rel_append (isRendered_block (ihinside hentered) hclose) (ihrest hnext))
  | @lastClause f inner header close inside body _ hclose ih =>
    refine ⟨Go.statements (body ++ [.closer]), ?_, isRendered_block (ih hf) hclose⟩
    rw [Go.clauses, Frame.body, Go.clauses, List.append_nil]
  | @nextClause f inner after header next close inside taken body clauses _ hclose hnext _ ihinside
      ihclauses =>
    obtain ⟨others, hothers, hrenders⟩ := ihclauses hf
    have hline := renders_of_readNextHeader hf hclose hnext
    refine ⟨Go.statements body ++ Go.clauseHeader next :: others, ?_, ?_⟩
    · rw [Go.clauses, Frame.body, hothers]
      rfl
    · rw [written_append, written_cons _ hline.trim_ne_nil.1]
      exact List.rel_append (ihinside hf) (.cons hline hrenders)

end Program

/-! ### The file -/

namespace Text

theorem notMem_of_mem_splitOn {c : Char} {t piece : Text} (h : piece ∈ t.splitOn c) :
    c ∉ piece := by
  induction t generalizing piece with
  | nil =>
    rw [List.splitOn_nil, List.mem_singleton] at h
    rw [h]
    exact List.not_mem_nil
  | cons d rest ih =>
    rw [List.splitOn_cons_eq_if_modifyHead] at h
    split at h
    · rcases List.mem_cons.1 h with rfl | h
      · exact List.not_mem_nil
      · exact ih h
    · next hne =>
      obtain ⟨first, others, hsplit⟩ := List.exists_cons_of_ne_nil (List.splitOn_ne_nil c rest)
      rw [hsplit, List.modifyHead_cons] at h
      rcases List.mem_cons.1 h with rfl | h
      · intro hc
        rcases List.mem_cons.1 hc with rfl | hc
        · exact hne (beq_self_eq_true c)
        · exact ih (hsplit ▸ List.mem_cons_self) hc
      · exact ih (hsplit ▸ List.mem_cons_of_mem _ h)

theorem dropReturn_subset (t : Text) : t.dropReturn ⊆ t := by
  rw [dropReturn]
  cases h : t.before? '\r' with
  | none => exact List.Subset.refl _
  | some front =>
    rw [before?_eq_some_iff.1 h]
    exact List.subset_append_left _ _

theorem isOneLine_of_mem_lines {t line : Text} (h : line ∈ t.lines) : line.IsOneLine := by
  unfold lines at h
  rcases List.mem_append.1 h with h | h
  · obtain ⟨piece, hpiece, rfl⟩ := List.mem_map.1 h
    have hone := notMem_of_mem_splitOn (List.dropLast_subset _ hpiece)
    exact .of_subset (dropReturn_subset piece) hone
  · have hlast := List.mem_of_mem_filter h
    rw [Option.mem_toList] at hlast
    exact notMem_of_mem_splitOn (List.mem_of_getLast? hlast)

theorem splitOn_unlines {lines : List Text} (h : ∀ line ∈ lines, line.IsOneLine) :
    (unlines lines).splitOn '\n' = lines ++ [[]] := by
  induction lines with
  | nil => rfl
  | cons line rest ih =>
    have hline := h line List.mem_cons_self
    have hrest := ih fun other ho => h other (List.mem_cons_of_mem _ ho)
    have hcons : unlines (line :: rest) = line ++ '\n' :: unlines rest := by
      rw [unlines, List.flatMap_cons, List.append_assoc]
      rfl
    rw [hcons, List.splitOn_append_cons_self_of_not_mem hline, hrest]
    rfl

end Text

theorem written_numberedLines (source : Text) :
    Program.written source.numberedLines = (nonblank source.lines).map Text.trim := by
  have htexts : source.numberedLines.map Line.text = source.lines.map Text.trim := by
    apply List.ext_getElem?
    intro i
    simp [Text.numberedLines, Function.comp_def]
  have hblank : (fun line : Text => line.trim != []) ∘ Text.trim = fun line => line.trim != [] := by
    funext line
    rw [Function.comp_apply, Text.trim_trim]
  rw [Program.written, nonblank, htexts, List.filter_map, hblank]
  rfl

namespace Go

/-- The lines in front of the functions. -/
def preamble (r : Requirements) : List Text :=
  ["package main".toList, []] ++ importLines r ++
    r.arities.flatMap fun arity => carrier arity ++ [[]]

theorem isOneLine_carrier (arity : Nat) : ∀ line ∈ carrier arity, line.IsOneLine := by
  have hposition : ∀ i ∈ (List.range arity).map Text.ofNat, i.IsOneLine := by
    intro i hi
    obtain ⟨n, -, rfl⟩ := List.mem_map.1 hi
    exact .ofNat n
  have hparameters : Text.IsOneLine
      (commas (((List.range arity).map Text.ofNat).map fun i => 'T' :: i ++ " any".toList)) :=
    .commas_map fun i hi => .append (.cons (by decide) (hposition i hi)) (by decide)
  intro line hline
  rcases List.mem_append.1 hline with hline | hline
  · rcases List.mem_cons.1 hline with rfl | hline
    · exact .append (.append (.append (by decide) (isOneLine_carrierName arity))
        (.cons (by decide) hparameters)) (by decide)
    · obtain ⟨i, hi, rfl⟩ := List.mem_map.1 hline
      exact .append (.append (.cons (by decide) (hposition i hi)) (by decide)) (hposition i hi)
  · rw [List.mem_singleton.1 hline]
    decide

theorem isOneLine_importLines (r : Requirements) : ∀ line ∈ importLines r, line.IsOneLine := by
  obtain ⟨usesFmt, arities⟩ := r
  cases usesFmt with
  | false => nofun
  | true =>
    show ∀ line ∈ ["import \"fmt\"".toList, []], Text.IsOneLine line
    decide

theorem isOneLine_preamble (r : Requirements) : ∀ line ∈ preamble r, line.IsOneLine := by
  have hpackage : ∀ line ∈ ["package main".toList, []], Text.IsOneLine line := by decide
  intro line hline
  rcases List.mem_append.1 hline with hline | hline
  · rcases List.mem_append.1 hline with hline | hline
    · exact hpackage line hline
    · exact isOneLine_importLines r line hline
  · obtain ⟨arity, -, hline⟩ := List.mem_flatMap.1 hline
    rcases List.mem_append.1 hline with hline | hline
    · exact isOneLine_carrier arity line hline
    · rw [List.mem_singleton.1 hline]
      decide

/-- Between groups of lines stand blank lines. -/
theorem mem_intercalate {groups : List (List Text)} {line : Text}
    (h : line ∈ List.intercalate [[]] groups) : line = [] ∨ ∃ group ∈ groups, line ∈ group := by
  induction groups with
  | nil => cases h
  | cons group rest ih =>
    cases rest with
    | nil =>
      rw [List.intercalate_singleton] at h
      exact .inr ⟨group, List.mem_cons_self, h⟩
    | cons next more =>
      rw [List.intercalate_cons_cons] at h
      rcases List.mem_append.1 h with h | h
      · rcases List.mem_append.1 h with h | h
        · exact .inr ⟨group, List.mem_cons_self, h⟩
        · exact .inl (List.mem_singleton.1 h)
      · exact (ih h).imp_right fun ⟨other, ho, hline⟩ => ⟨other, List.mem_cons_of_mem _ ho, hline⟩

theorem mem_functions {statements : List Statement} {line : Text}
    (h : line ∈ List.intercalate [[]] (statements.map statement)) :
    line = [] ∨ line ∈ Go.statements statements := by
  refine (mem_intercalate h).imp_right ?_
  rintro ⟨group, hgroup, hline⟩
  obtain ⟨s, hs, rfl⟩ := List.mem_map.1 hgroup
  rw [statements_eq_flatMap]
  exact List.mem_flatMap.2 ⟨s, hs, hline⟩

/-- The functions of a file, with the blank lines between them. -/
theorem nonblank_functions {statements : List Statement}
    (h : ∀ line ∈ Go.statements statements, line.trim ≠ []) :
    nonblank (List.intercalate [[]] (statements.map statement)) = Go.statements statements := by
  have hself {lines : List Text} (hl : ∀ line ∈ lines, line.trim ≠ []) : nonblank lines = lines :=
    List.filter_eq_self.2 fun line hline => by simpa using hl line hline
  induction statements with
  | nil =>
    rw [Go.statements]
    rfl
  | cons s rest ih =>
    unfold Go.statements at h
    have hs := hself fun line hline => h line (List.mem_append_left _ hline)
    have hrest := ih fun line hline => h line (List.mem_append_right _ hline)
    rw [Go.statements, List.map_cons]
    cases rest with
    | nil =>
      rw [List.map_nil, List.intercalate_singleton, hs, Go.statements, List.append_nil]
    | cons next more =>
      rw [List.map_cons] at hrest ⊢
      have hgap : nonblank [[]] = [] := rfl
      rw [List.intercalate_cons_cons, nonblank, List.filter_append, List.filter_append]
      change nonblank (statement s) ++ nonblank [[]] ++ nonblank _ = _
      rw [hs, hgap, List.append_nil, hrest]

end Go

namespace Program

variable {source : Text} {p : Program}

/-- Each line of the source that is not blank becomes one line of the functions. -/
theorem renders_of_read (h : Program.read source = .ok p) :
    List.Forall₂ (fun line go => Renders line.trim go) (nonblank source.lines)
      (Go.statements p.body.statements) := by
  obtain ⟨after, hreads, -⟩ := reads_of_read h
  have hrenders : List.Forall₂ Renders (written source.numberedLines)
    (Go.statements p.body.statements) := hreads.isRendered Symbols.identifies_empty
  rwa [written_numberedLines, List.forall₂_map_left_iff] at hrenders

theorem isOneLine_of_read (h : Program.read source = .ok p) :
    ∀ line ∈ Go.fileLines p, line.IsOneLine := by
  intro line hline
  rcases List.mem_append.1 hline with hline | hline
  · exact Go.isOneLine_preamble p.requirements line hline
  rcases Go.mem_functions hline with rfl | hline
  · exact List.not_mem_nil
  · obtain ⟨line, hmem, hr⟩ := exists_of_mem_forall₂ (renders_of_read h) hline
    have hone := Text.isOneLine_of_mem_lines (List.mem_of_mem_filter hmem)
    exact hr.isOneLine (.of_subset (Text.trim_subset line) hone)

end Program

/-- Behind the lines in front of the functions, the file has one line for each line of the source
that is not blank, in their order. -/
theorem transpile_lines {source code : Text} {p : Program}
    (h : transpile source = .ok (p, code)) :
    ∃ body, nonblank (code.splitOn '\n') = nonblank (Go.preamble p.requirements) ++ body ∧
      List.Forall₂ (fun line go => Renders line.trim go) (nonblank source.lines) body := by
  obtain ⟨p', hp, h⟩ := Check.bind_eq_ok_iff.1 h
  cases h
  have hrenders := Program.renders_of_read hp
  refine ⟨_, ?_, hrenders⟩
  have hlines : ∀ go ∈ Go.statements p.body.statements, go.trim ≠ [] := by
    intro go hgo
    obtain ⟨line, -, hr⟩ := exists_of_mem_forall₂ hrenders hgo
    exact hr.trim_ne_nil.2
  have hfile : Go.fileLines p = Go.preamble p.requirements ++
      List.intercalate [[]] (p.body.statements.map Go.statement) := rfl
  rw [Go.file, Text.splitOn_unlines (Program.isOneLine_of_read hp), hfile, nonblank,
    List.filter_append, List.filter_append]
  change nonblank _ ++ nonblank _ ++ nonblank [[]] = _
  rw [Go.nonblank_functions hlines]
  exact List.append_nil _

theorem transpile_lines_main :
    ∃ (source code : Text) (p : Program),
      source = Text.block "function main() -> IO ="
        [Text.block "if true" [[], '}' :: " else ".toList ++ ['{']]] ∧
      transpile source = .ok (p, code) ∧
      ∃ body, nonblank (code.splitOn '\n') = nonblank (Go.preamble p.requirements) ++ body ∧
        List.Forall₂ (fun line go => Renders line.trim go) (nonblank source.lines) body := by
  have haccepted : (transpile (Text.block "function main() -> IO ="
      [Text.block "if true" [[], '}' :: " else ".toList ++ ['{']]])).isOk := by
    decide +kernel
  obtain ⟨⟨p, code⟩, h⟩ := Check.isOk_iff.1 haccepted
  exact ⟨_, code, p, rfl, h, transpile_lines h⟩

end StellaGo
