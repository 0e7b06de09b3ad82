import StellaGo.Compile
import StellaGo.Proofs.Offsets.Program

/-! Generated code by index. Defined here: the text of terms, each with the blank before it, which is
due by the terms of the two indices before its own, the files that are put together from such texts,
and the whole way from source to file. Proved: every program has its file, and every source comes to
its program and file or to its error. -/

namespace StellaGo.Offsets

open Outcome (bind_eq_ended ended minus?)

namespace Go

open StellaGo.Go (commas)

/-! ### Blanks -/

/-- A blank stands before the term of index `i`, which is not the first. -/
def needsSpace (terms : List Term) (i : Nat) : Option Bool := do
  let last ← minus? i 1
  let previous ← terms[last]?
  let isPrefix ← if previous.isOperator then isUnaryAt terms last else some false
  let term ← terms[i]?
  return !(isPrefix || previous.isOpening || term.isClosing)

/-- What stands before the term of index `i`. -/
def gap (terms : List Term) (i : Nat) : Option Text :=
  if 0 < i then (needsSpace terms i).map fun needed => if needed then [' '] else [] else some []

/-- No blank is due behind the terms `before`, of which the nearest is the first. -/
def glues : (before : List Term) → Bool
  | [] => true
  | previous :: before =>
    previous.isOpening || previous.isOperator && Term.precedesUnary before.head?

theorem needsSpace_eq (previous : Term) (before : List Term) (term : Term) (rest : List Term) :
    needsSpace ((previous :: before).reverse ++ term :: rest) (previous :: before).length =
      some !(glues (previous :: before) || term.isClosing) := by
  have hunary := isUnaryAt_eq before (previous :: term :: rest)
  have hall : (previous :: before).reverse ++ term :: rest =
      before.reverse ++ previous :: term :: rest := by simp
  have hprevious : (before.reverse ++ previous :: term :: rest)[before.length]? = some previous := by
    simp
  have hterm : (before.reverse ++ previous :: term :: rest)[before.length + 1]? = some term := by
    simp
  rw [needsSpace, hall, List.length_cons, Outcome.minus?_add]
  simp only [Option.bind_eq_bind, Option.bind_some, hprevious, hunary, hterm, glues]
  cases previous.isOperator <;> simp [Bool.or_comm]

theorem gap_eq (before : List Term) (term : Term) (rest : List Term) :
    gap (before.reverse ++ term :: rest) before.length =
      some (if glues before || term.isClosing then [] else [' ']) := by
  cases before with
  | nil => rfl
  | cons previous before =>
    have hpos : 0 < (previous :: before).length := Nat.succ_pos _
    rw [gap, if_pos hpos, needsSpace_eq]
    cases glues (previous :: before) || term.isClosing <;> rfl

/-! ### Terms and values -/

mutual

def term : Term → Option Text
  | .literal text _ => some text
  | .scalar name _ => some name
  | .call c => call c
  | .element i => indexing i
  | .field f => some (f.name ++ ".v".toList ++ Text.ofNat f.position)
  | .operator op => some op.symbol.toList
  | .opening _ => some ['(']
  | .closing _ => some [')']

/-- The terms `rest`, of which the first has the index `i` among `all`. -/
def termsFrom (all : List Term) (i : Nat) : (rest : List Term) → Option Text
  | [] => some []
  | t :: rest => do
    let space ← gap all i
    let text ← term t
    let behind ← termsFrom all (i + 1) rest
    return space ++ text ++ behind

def expression : Expression → Option Text
  | ⟨ts, _⟩ => termsFrom ts 0 ts

def call : Call → Option Text
  | ⟨name, arguments, _⟩ => do
    let texts ← values arguments
    return name ++ '(' :: commas texts ++ [')']

def indexing : Indexing → Option Text
  | ⟨name, indices, _⟩ => (brackets indices).map (name ++ ·)

def brackets : List Expression → Option Text
  | [] => some []
  | e :: rest => do
    let text ← expression e
    let others ← brackets rest
    return '[' :: text ++ ']' :: others

def value : Value → Option Text
  | .scalar e => expression e
  | .arrayLiteral type items => do
    let texts ← rows items
    return type.goName ++ '{' :: commas texts ++ ['}']
  | .tupleLiteral type fields => do
    let texts ← namedFields 0 fields
    return type.goName ++ '{' :: commas texts ++ ['}']
  | .whole name _ => some name
  | .call c => call c

def values : List Value → Option (List Text)
  | [] => some []
  | v :: rest => do
    let text ← value v
    let texts ← values rest
    return text :: texts

def namedFields (position : Nat) : List Expression → Option (List Text)
  | [] => some []
  | e :: rest => do
    let text ← expression e
    let texts ← namedFields (position + 1) rest
    return ('v' :: Text.ofNat position ++ ": ".toList ++ text) :: texts

def item : Item → Option Text
  | .scalar e => expression e
  | .row items => do
    let texts ← rows items
    return '{' :: commas texts ++ ['}']

def rows : List Item → Option (List Text)
  | [] => some []
  | i :: rest => do
    let text ← item i
    let texts ← rows rest
    return text :: texts

end

mutual

theorem term_eq : ∀ t, term t = some (StellaGo.Go.term t)
  | .call c => by rw [term, StellaGo.Go.term, call_eq c]
  | .element i => by rw [term, StellaGo.Go.term, indexing_eq i]
  | .literal _ _ | .scalar _ _ | .field _ | .operator _ | .opening _ | .closing _ => by
    rw [term, StellaGo.Go.term]

theorem termsFrom_eq (before : List Term) : ∀ rest,
    termsFrom (before.reverse ++ rest) before.length rest =
      some (StellaGo.Go.terms (Term.precedesUnary before.head?) (glues before) rest)
  | [] => by rw [termsFrom, StellaGo.Go.terms]
  | t :: rest => by
    have hrest := termsFrom_eq (t :: before) rest
    rw [List.reverse_cons, List.append_assoc, List.singleton_append, List.length_cons] at hrest
    have hunary : Term.precedesUnary (some t) = (t.isOperator || t.isOpening) := by
      cases t <;> rfl
    rw [termsFrom, StellaGo.Go.terms, gap_eq, term_eq t, hrest, ← hunary]
    rfl

theorem expression_eq : ∀ e, expression e = some (StellaGo.Go.expression e)
  | ⟨ts, _⟩ => termsFrom_eq [] ts

theorem call_eq : ∀ c, call c = some (StellaGo.Go.call c)
  | ⟨name, arguments, _⟩ => by
    rw [call, values_eq arguments, StellaGo.Go.call]
    rfl

theorem indexing_eq : ∀ i, indexing i = some (StellaGo.Go.indexing i)
  | ⟨name, indices, _⟩ => by
    rw [indexing, brackets_eq indices, StellaGo.Go.indexing]
    rfl

theorem brackets_eq : ∀ es, brackets es = some (StellaGo.Go.brackets es)
  | [] => by rw [brackets, StellaGo.Go.brackets]
  | e :: rest => by
    rw [brackets, expression_eq e, brackets_eq rest, StellaGo.Go.brackets]
    rfl

theorem value_eq : ∀ v, value v = some (StellaGo.Go.value v)
  | .scalar e => by rw [value, expression_eq e, StellaGo.Go.value]
  | .arrayLiteral type items => by
    rw [value, rows_eq items, StellaGo.Go.value]
    rfl
  | .tupleLiteral type fields => by
    rw [value, namedFields_eq 0 fields, StellaGo.Go.value]
    rfl
  | .whole name _ => by rw [value, StellaGo.Go.value]
  | .call c => by rw [value, call_eq c, StellaGo.Go.value]

theorem values_eq : ∀ vs, values vs = some (StellaGo.Go.values vs)
  | [] => by rw [values, StellaGo.Go.values]
  | v :: rest => by
    rw [values, value_eq v, values_eq rest, StellaGo.Go.values]
    rfl

theorem namedFields_eq (position : Nat) : ∀ es,
    namedFields position es = some (StellaGo.Go.namedFields position es)
  | [] => by rw [namedFields, StellaGo.Go.namedFields]
  | e :: rest => by
    rw [namedFields, expression_eq e, namedFields_eq (position + 1) rest, StellaGo.Go.namedFields]
    rfl

theorem item_eq : ∀ i, item i = some (StellaGo.Go.item i)
  | .scalar e => by rw [item, expression_eq e, StellaGo.Go.item]
  | .row items => by
    rw [item, rows_eq items, StellaGo.Go.item]
    rfl

theorem rows_eq : ∀ items, rows items = some (StellaGo.Go.rows items)
  | [] => by rw [rows, StellaGo.Go.rows]
  | i :: rest => by
    rw [rows, item_eq i, rows_eq rest, StellaGo.Go.rows]
    rfl

end

/-! ### Statements and files -/

def target : Target → Option Text
  | .whole name => some name
  | .element e => indexing e

def clauseHeader : ClauseHeader → Option Text
  | .ifTrue condition => do
    let text ← expression condition
    return "if ".toList ++ text ++ [' ', '{']
  | .elseIf condition => do
    let text ← expression condition
    return '}' :: " else if ".toList ++ text ++ [' ', '{']
  | .otherwise => some ('}' :: " else ".toList ++ ['{'])

mutual

/-- The lines of a statement. -/
def statement : Statement → Option (List Text)
  | .declaration name type v => do
    let text ← value v
    return ["var ".toList ++ name ++ ' ' :: type.goName ++ " = ".toList ++ text]
  | .assignment t v => do
    let place ← target t
    let text ← value v
    return [place ++ " = ".toList ++ text]
  | .selection cs => clauses cs
  | .loop condition ⟨_, _, _, body⟩ => do
    let text ← expression condition
    let lines ← statements body
    return ("for ".toList ++ text ++ [' ', '{']) :: lines
  | .jump jump => some [jump.keyword.toList]
  | .function s ⟨_, _, _, body⟩ => (statements body).map (StellaGo.Go.functionHeader s :: ·)
  | .builtin callee argument => do
    let text ← expression argument
    return [(StellaGo.Go.builtin callee).toList ++ '(' :: text ++ [')']]
  | .result v => do
    let text ← value v
    return ["return ".toList ++ text]
  | .closer => some [['}']]

def clauses : List (Clause Statement) → Option (List Text)
  | [] => some []
  | ⟨header, ⟨_, _, _, body⟩⟩ :: rest => do
    let line ← clauseHeader header
    let lines ← statements body
    let others ← clauses rest
    return line :: lines ++ others

def statements : List Statement → Option (List Text)
  | [] => some []
  | s :: rest => do
    let lines ← statement s
    let others ← statements rest
    return lines ++ others

end

/-- The text of the file. -/
def file (p : Program) : Option Text := do
  let functions ← p.body.statements.mapM statement
  return Text.unlines (["package main".toList, []] ++ StellaGo.Go.importLines p.requirements ++
    p.requirements.arities.flatMap (fun arity => StellaGo.Go.carrier arity ++ [[]]) ++
    List.intercalate [[]] functions)

theorem target_eq (t : Target) : target t = some (StellaGo.Go.target t) := by
  cases t with
  | whole name => rfl
  | element e => exact indexing_eq e

theorem clauseHeader_eq (header : ClauseHeader) :
    clauseHeader header = some (StellaGo.Go.clauseHeader header) := by
  cases header with
  | otherwise => rfl
  | ifTrue condition | elseIf condition =>
    unfold clauseHeader
    dsimp only
    rw [expression_eq]
    rfl

mutual

theorem statement_eq : ∀ s, statement s = some (StellaGo.Go.statement s)
  | .declaration name type v => by
    rw [statement, value_eq, StellaGo.Go.statement]
    rfl
  | .assignment t v => by
    rw [statement, target_eq, value_eq, StellaGo.Go.statement]
    rfl
  | .selection cs => by rw [statement, clauses_eq cs, StellaGo.Go.statement]
  | .loop condition ⟨_, _, _, body⟩ => by
    rw [statement, expression_eq, statements_eq body, StellaGo.Go.statement]
    rfl
  | .jump jump => by rw [statement, StellaGo.Go.statement]
  | .function s ⟨_, _, _, body⟩ => by
    rw [statement, statements_eq body, StellaGo.Go.statement]
    rfl
  | .builtin callee argument => by
    rw [statement, expression_eq, StellaGo.Go.statement]
    rfl
  | .result v => by
    rw [statement, value_eq, StellaGo.Go.statement]
    rfl
  | .closer => by rw [statement, StellaGo.Go.statement]

theorem clauses_eq : ∀ cs, clauses cs = some (StellaGo.Go.clauses cs)
  | [] => by rw [clauses, StellaGo.Go.clauses]
  | ⟨header, ⟨_, _, _, body⟩⟩ :: rest => by
    rw [clauses, clauseHeader_eq, statements_eq body, clauses_eq rest, StellaGo.Go.clauses]
    rfl

theorem statements_eq : ∀ ss, statements ss = some (StellaGo.Go.statements ss)
  | [] => by rw [statements, StellaGo.Go.statements]
  | s :: rest => by
    rw [statements, statement_eq s, statements_eq rest, StellaGo.Go.statements]
    rfl

end

theorem file_eq (p : Program) : file p = some (StellaGo.Go.file p) := by
  have hfunctions : p.body.statements.mapM statement =
      some (p.body.statements.map StellaGo.Go.statement) := by
    rw [funext statement_eq]
    exact List.mapM_pure
  rw [file, hfunctions]
  rfl

end Go

/-! ### From source to file -/

/-- The program in a source without comments, and its Go file before it is laid out. -/
def transpile (source : Text) : Outcome CompileError (Program × Text) := do
  let program ← read source
  let code ← Go.file program
  return (program, code)

/-- Every source comes to its program and file, or to its error. No slice of a text starts or stops
between two characters or behind the end, no index is past the end of a list, and no difference of
sizes is negative, for each of these would have left the computation without a result. -/
theorem transpile_eq_ended (source : Text) : transpile source = ended (StellaGo.transpile source) := by
  apply bind_eq_ended (read_eq source)
  intro program _
  rw [Go.file_eq]
  rfl

end StellaGo.Offsets
