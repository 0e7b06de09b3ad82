import StellaGo.Proofs.PieceReferences
import StellaGo.Proofs.Rendering

/-! What the lines of generated functions refer to. Defined here: the lines of a statement beside
those of the statements inside it. Proved: each line of the functions of a file is such a line of a
statement that a walk over the file meets; and for an accepted file, outside literals, it refers to
noted carriers and to fields of them, as the names are declared that the statement knows. -/

namespace StellaGo

open Environment (Visits)

/-! ### The lines of a statement -/

/-- The lines of the statement beside those of the statements inside it. -/
def Statement.goLines : Statement → List Text
  | selection clauses => clauses.map fun clause => Go.clauseHeader clause.header
  | loop condition _ => ["for ".toList ++ Go.expression condition ++ [' ', '{']]
  | function signature _ => [Go.functionHeader signature]
  | s => Go.statement s

namespace Go

mutual

theorem exists_visits_of_mem_statement {line : Text} (env : Environment) (rest : List Statement) :
    ∀ s, line ∈ statement s → ∃ env' s', Visits env (s :: rest) env' s' ∧ line ∈ s'.goLines
  | .selection cs => fun h => by
    rw [statement] at h
    rcases exists_visits_of_mem_clauses env cs h with
      ⟨clause, hc, rfl⟩ | ⟨clause, hc, env', s', hs, hl⟩
    · exact ⟨env, _, .here, List.mem_map_of_mem hc⟩
    · exact ⟨env', s', .clause hc hs, hl⟩
  | .loop condition ⟨_, _, _, body⟩ => fun h => by
    rw [statement] at h
    rcases List.mem_cons.1 h with rfl | h
    · exact ⟨env, _, .here, List.mem_singleton_self _⟩
    · obtain ⟨env', s', hs, hl⟩ := exists_visits_of_mem_statements env body h
      exact ⟨env', s', .loop hs, hl⟩
  | .function s ⟨_, _, _, body⟩ => fun h => by
    rw [statement] at h
    rcases List.mem_cons.1 h with rfl | h
    · exact ⟨env, _, .here, List.mem_singleton_self _⟩
    · obtain ⟨env', s', hs, hl⟩ := exists_visits_of_mem_statements (env.enterFunction s) body h
      exact ⟨env', s', .function hs, hl⟩
  | .declaration _ _ _ | .assignment _ _ | .jump _ | .builtin _ _ | .result _ | .closer =>
    fun h => ⟨env, _, .here, h⟩

theorem exists_visits_of_mem_clauses {line : Text} (env : Environment) :
    ∀ cs, line ∈ clauses cs → (∃ clause ∈ cs, clauseHeader clause.header = line) ∨
      ∃ clause ∈ cs, ∃ env' s', Visits env clause.body.statements env' s' ∧ line ∈ s'.goLines
  | [] => fun h => by
    rw [clauses] at h
    cases h
  | ⟨header, ⟨_, _, _, body⟩⟩ :: rest => fun h => by
    rw [clauses] at h
    rcases List.mem_append.1 h with h | h
    · rcases List.mem_cons.1 h with rfl | h
      · exact .inl ⟨_, List.mem_cons_self, rfl⟩
      · obtain ⟨env', s', hs, hl⟩ := exists_visits_of_mem_statements env body h
        exact .inr ⟨_, List.mem_cons_self, env', s', hs, hl⟩
    · exact (exists_visits_of_mem_clauses env rest h).imp
        (fun ⟨clause, hc, hl⟩ => ⟨clause, List.mem_cons_of_mem _ hc, hl⟩)
        fun ⟨clause, hc, hs⟩ => ⟨clause, List.mem_cons_of_mem _ hc, hs⟩

theorem exists_visits_of_mem_statements {line : Text} (env : Environment) :
    ∀ ss, line ∈ statements ss → ∃ env' s, Visits env ss env' s ∧ line ∈ s.goLines
  | [] => fun h => by
    rw [statements] at h
    cases h
  | s :: rest => fun h => by
    rw [statements] at h
    rcases List.mem_append.1 h with h | h
    · exact exists_visits_of_mem_statement env rest s h
    · obtain ⟨env', s', hs, hl⟩ := exists_visits_of_mem_statements (env.extend s) rest h
      exact ⟨env', s', .later hs, hl⟩

end

theorem clauses_eq_flatMap (cs : List (Clause Statement)) :
    clauses cs =
      cs.flatMap fun clause => clauseHeader clause.header :: statements clause.body.statements := by
  induction cs with
  | nil => rw [clauses, List.flatMap_nil]
  | cons clause rest ih => rw [clauses, List.flatMap_cons, ih]

theorem goLines_subset_statement (s : Statement) : s.goLines ⊆ statement s := by
  intro line h
  cases s with
  | selection cs =>
    obtain ⟨clause, hc, rfl⟩ := List.mem_map.1 h
    rw [statement, clauses_eq_flatMap]
    exact List.mem_flatMap.2 ⟨clause, hc, List.mem_cons_self⟩
  | loop | function =>
    obtain rfl := List.mem_singleton.1 h
    rw [statement]
    exact List.mem_cons_self
  | _ => exact h

/-- The lines of generated functions are those of the statements that a walk over them meets. -/
theorem mem_statements_iff {line : Text} {env : Environment} {ss : List Statement} :
    line ∈ statements ss ↔ ∃ env' s, Visits env ss env' s ∧ line ∈ s.goLines := by
  constructor
  · exact exists_visits_of_mem_statements env ss
  · rintro ⟨env', s, hs, hline⟩
    induction hs with
    | here =>
      rw [statements]
      exact List.mem_append_left _ (goLines_subset_statement _ hline)
    | later _ ih =>
      rw [statements]
      exact List.mem_append_right _ (ih hline)
    | clause hc _ ih =>
      rw [statements, statement, clauses_eq_flatMap]
      exact List.mem_append_left _
        (List.mem_flatMap.2 ⟨_, hc, List.mem_cons_of_mem _ (ih hline)⟩)
    | loop _ ih | function _ ih =>
      rw [statements, statement]
      exact List.mem_append_left _ (List.mem_cons_of_mem _ (ih hline))

/-! ### Texts that refer to what is there -/

/-- The text ends outside literals, and what it refers to outside literals is there. -/
structure Resolves (env : Environment) (r : Requirements) (t : Text) : Prop where
  closed : t.IsClosed
  refers : Refers env r (NamesField r) (lex t)

/-- The words that lines of generated functions are written with. -/
def lineWords : List String :=
  ["var", "func", "if", "else", "for", "return", "break", "continue", "panic"]

variable {env : Environment} {r : Requirements} {t u : Text}

namespace Resolves

theorem append (ht : Resolves env r t) (hu : Resolves env r u) (h : Apart t u) :
    Resolves env r (t ++ u) := by
  refine ⟨ht.closed.append hu.closed, ?_⟩
  rw [lex_append ht.closed h]
  exact ht.refers.append hu.refers

theorem of_isPlain (hclosed : ∀ c ∈ t, ¬ isQuote c) (h : ∀ token ∈ lex t, isPlain token) :
    Resolves env r t :=
  ⟨.of_forall hclosed, .of_isPlain h⟩

theorem name {name : Name} (h : Name.problem? name = none) : Resolves env r name :=
  ⟨respects_isClosed.of_problem? h, (Complete.name h).refers⟩

theorem type {type : ValueType} (h : r.Covers type) : Resolves env r type.goName :=
  ⟨respects_isClosed.type type, (Complete.type h).refers⟩

theorem nil : Resolves env r [] := of_isPlain nofun (by rw [lex_nil]; nofun)

/-- Two texts with a blank between them. -/
theorem spaced (ht : Resolves env r t) (hu : Resolves env r u) : Resolves env r (t ++ ' ' :: u) := by
  refine ht.append ⟨(Text.IsClosed.cons_iff (by decide)).2 hu.closed, ?_⟩ (.before (by decide) t u)
  rw [lex_cons_blank (by decide)]
  exact hu.refers

theorem symbol {s : Text} (hs : s ∈ symbols) (hplain : isPlain s) : Resolves env r s := by
  refine .of_isPlain (not_isQuote_of_mem_symbols hs) ?_
  rw [lex_symbol hs]
  exact List.forall_mem_singleton.2 hplain

theorem lineWord (word : String) (hword : word ∈ lineWords) : Resolves env r word.toList := by
  have hall : ∀ word ∈ lineWords, word.toList ≠ [] ∧
      (∀ c ∈ word.toList, c.isAlphanum || c == '_') ∧ isPlain word.toList := by
    decide
  obtain ⟨hne, hchars, hplain⟩ := hall word hword
  refine .of_isPlain (fun c hc => not_isQuote_of_word (hchars c hc)) ?_
  rw [lex_of_forall hne hchars]
  exact List.forall_mem_singleton.2 hplain

/-- Two texts with a bracket or a comma between them. -/
theorem between {c : Char} (hc : c ∈ ['(', ')', ',']) (ht : Resolves env r t) (hu : Resolves env r u) :
    Resolves env r (t ++ c :: u) := by
  have hall : ∀ c ∈ ['(', ')', ','], [c] ∈ symbols ∧ isLone c ∧ isPlain [c] := by decide
  obtain ⟨hsymbol, hlone, hplain⟩ := hall c hc
  exact ht.append ((symbol hsymbol hplain).append hu (.behind hlone [] u)) (.before hlone t u)

theorem commas_map {α : Type} {g : α → Text} {as : List α} (h : ∀ a ∈ as, Resolves env r (g a)) :
    Resolves env r (commas (as.map g)) := by
  induction as with
  | nil => exact nil
  | cons a rest ih =>
    obtain ⟨ha, hrest⟩ := List.forall_mem_cons.1 h
    cases rest with
    | nil =>
      rw [List.map_singleton, commas, List.intercalate_singleton]
      exact ha
    | cons b more =>
      have hmore : Resolves env r (' ' :: commas ((b :: more).map g)) := nil.spaced (ih hrest)
      exact ha.between (by decide) hmore

end Resolves

/-! ### The lines of an accepted file -/

section Lines

variable {f : Frame} {s : Statement}

theorem keepsNames_of_reflects (hf : Reflects f env) : f.scope.symbols.KeepsNames := by
  intro name d hd
  have hlookup := hf.lookup name
  rw [hd, Option.map_some] at hlookup
  rw [← d.name_declared]
  exact Environment.name_of_lookup? hlookup.symm

/-- What was read is written with references to what is there. -/
theorem resolves_of_splits (hc : env.IsCovered r) {ts : List Text} {p : Prop} (hs : Splits t ts p)
    (h : Complete env r ts) : Resolves env r t := by
  exact ⟨hs.closed, h.refers.merges (hc.lookup?_eq_none (by decide)) hs.merges⟩

theorem resolves_expression (hf : Reflects f env) (hc : env.IsCovered r) {e : Expression}
    (h : StellaGo.expression f.scope.symbols t = .ok e) : Resolves env r (expression e) :=
  resolves_of_splits hc (splits_go (keepsNames_of_reflects hf) (.expression e) trivial h)
    (complete_tokens hf hc (.expression e) h nofun)

theorem resolves_value (hf : Reflects f env) (hc : env.IsCovered r) {type : ValueType} {v : Value}
    (h : Expression.ReadsValue f.scope.symbols type t v) (hcovers : r.Covers type) :
    Resolves env r (value v) := by
  have hread : Piece.IsRead f.scope.symbols t (.value v) := ⟨type, h⟩
  refine resolves_of_splits hc (splits_go (keepsNames_of_reflects hf) (.value v) trivial hread)
    (complete_tokens hf hc (.value v) hread ?_)
  rintro w hw
  obtain rfl := Piece.value.inj hw
  exact ⟨type, hf.conforms h, hcovers⟩

theorem resolves_indexing (hf : Reflects f env) (hc : env.IsCovered r) {i : Indexing}
    (h : StellaGo.indexing f.scope.symbols t = .ok i) : Resolves env r (indexing i) := by
  have hread : Piece.IsRead f.scope.symbols t (.indexing i) := h
  obtain ⟨type, hlookup, -⟩ := hf.agrees hread
  refine resolves_of_splits hc
    (splits_indexing (respects_isClosed.of_problem? (hc.problem?_eq_none hlookup)) fun y hy => ?_)
    (complete_tokens hf hc (.indexing i) hread nofun)
  obtain ⟨part, hpart, hread⟩ := exists_isToken_of_part hy hread
  exact splits_go (keepsNames_of_reflects hf) y hpart hread

theorem resolves_declaration {name : Name} {type : ValueType} {v : Value}
    (hname : Name.problem? name = none) (htype : r.Covers type) (hv : Resolves env r (value v)) :
    Resolves env r ("var ".toList ++ name ++ ' ' :: type.goName ++ " = ".toList ++ value v) := by
  have hvar : Resolves env r "var".toList := .lineWord "var" (by decide)
  have hequals : Resolves env r ['='] := .symbol (by decide) (by decide)
  have hline := hvar.spaced ((Resolves.name hname).spaced ((Resolves.type htype).spaced
    (hequals.spaced hv)))
  have htext : "var ".toList ++ name ++ ' ' :: type.goName ++ " = ".toList ++ value v =
      "var".toList ++ ' ' :: (name ++ ' ' :: (type.goName ++ ' ' :: (['='] ++ ' ' :: value v))) := by
    simp
  rw [htext]
  exact hline

theorem resolves_assignment {v : Value} (ht : Resolves env r t) (hv : Resolves env r (value v)) :
    Resolves env r (t ++ " = ".toList ++ value v) := by
  have hequals : Resolves env r ['='] := .symbol (by decide) (by decide)
  have htext : t ++ " = ".toList ++ value v = t ++ ' ' :: (['='] ++ ' ' :: value v) := by simp
  rw [htext]
  exact ht.spaced (hequals.spaced hv)

/-- What a header opens is outside the header. -/
theorem resolves_open : Resolves env r ['{'] := .symbol (by decide) (by decide)

/-- A keyword or two, an expression, and an opening brace. -/
theorem resolves_header (words : Text) {e : Expression} (hw : Resolves env r words)
    (he : Resolves env r (expression e)) :
    Resolves env r (words ++ ' ' :: (expression e ++ [' ', '{'])) :=
  hw.spaced (he.spaced resolves_open)

theorem resolves_clauseHeader (hf : Reflects f env) (hc : env.IsCovered r) {header : ClauseHeader}
    (h : header.IsRead f.scope.symbols) : Resolves env r (clauseHeader header) := by
  have hcondition {e : Expression} (he : e ∈ header.condition?) : Resolves env r (expression e) := by
    obtain ⟨text, hread⟩ := h e he
    exact resolves_expression hf hc (Statement.readCondition_eq_ok hread).1
  have hbrace : Resolves env r ['}'] := .symbol (by decide) (by decide)
  have helse : Resolves env r ('}' :: " else".toList) :=
    hbrace.spaced (.lineWord "else" (by decide))
  cases header with
  | ifTrue condition =>
    exact resolves_header "if".toList (.lineWord "if" (by decide)) (hcondition rfl)
  | elseIf condition =>
    have hwords := helse.spaced (.lineWord "if" (by decide))
    exact resolves_header ('}' :: " else if".toList) hwords (hcondition rfl)
  | otherwise => exact helse.spaced resolves_open

theorem resolves_functionHeader {s : Signature} (hname : Name.problem? s.name = none)
    (hparameters : ∀ p ∈ s.parameters, Name.problem? p.name = none ∧ r.Covers p.type)
    (hreturns : r.Covers s.returns) : Resolves env r (functionHeader s) := by
  have hfunc : Resolves env r "func".toList := .lineWord "func" (by decide)
  have hlist : Resolves env r (commas (s.parameters.map parameter)) := by
    refine .commas_map fun p hp => ?_
    obtain ⟨hproblem, hcovers⟩ := hparameters p hp
    exact (Resolves.name hproblem).spaced (.type hcovers)
  have hline {returns : Text} (h : Resolves env r (returns ++ [' ', '{'])) :
      Resolves env r ("func ".toList ++ s.name ++ '(' :: commas (s.parameters.map parameter) ++
        ')' :: returns ++ [' ', '{']) := by
    have hall := hfunc.spaced (((Resolves.name hname).between (c := '(') (by decide) hlist).between
      (c := ')') (by decide) h)
    have htext : "func ".toList ++ s.name ++ '(' :: commas (s.parameters.map parameter) ++
        ')' :: returns ++ [' ', '{'] = "func".toList ++ ' ' :: (s.name ++
          '(' :: commas (s.parameters.map parameter) ++ ')' :: (returns ++ [' ', '{'])) := by
      simp
    rw [htext]
    exact hall
  refine hline ?_
  split
  · exact Resolves.nil.spaced resolves_open
  · exact Resolves.nil.spaced ((Resolves.type hreturns).spaced resolves_open)

theorem lex_print (function : String) (hf : function ∈ ["Print", "Println"]) :
    lex ("fmt.".toList ++ function.toList) = ["fmt".toList, ['.'], function.toList] := by
  have hall : ∀ function ∈ ["Print", "Println"],
      lex ("fmt.".toList ++ function.toList) = ["fmt".toList, ['.'], function.toList] := by
    decide +kernel
  exact hall function hf

/-- What prints comes from a package that is noted. -/
theorem resolves_print (hc : env.IsCovered r) (function : String)
    (hf : function ∈ ["Print", "Println"]) (hr : r.usesFmt = true) :
    Resolves env r ("fmt.".toList ++ function.toList) := by
  have hclosed : ∀ function ∈ ["Print", "Println"], ∀ c ∈ "fmt.".toList ++ function.toList,
      ¬ isQuote c := by
    decide
  have hplain : ∀ function ∈ ["Print", "Println"], ∀ t ∈ ["fmt".toList] ++ [function.toList],
      isPlain t := by
    decide
  have hselects : Selects env r ([] ++ ["fmt".toList]) (function.toList :: []) :=
    .package (hc.lookup?_eq_none (by decide)) hf hr
  refine ⟨.of_forall (hclosed function hf), ?_⟩
  rw [lex_print function hf]
  exact .of_mark (by decide) (hplain function hf) (fun _ => hselects) nofun

theorem resolves_builtin (hc : env.IsCovered r) {callee : Builtin}
    (h : callee ≠ .panic → r.usesFmt = true) : Resolves env r (builtin callee).toList := by
  cases callee with
  | print => exact resolves_print hc "Print" (by decide) (h nofun)
  | println => exact resolves_print hc "Println" (by decide) (h nofun)
  | panic => exact .lineWord "panic" (by decide)

/-- Outside literals, a line of a statement that was read refers to what is there. -/
theorem resolves_of_mem_goLines {line : Text} (hf : Reflects f env) (hread : s.IsRead f)
    (hc : env.IsCovered r) (htypes : ∀ type ∈ s.writtenTypes, r.Covers type)
    (hprints : s.prints → r.usesFmt = true) (hline : line ∈ s.goLines) : Resolves env r line := by
  cases hread with
  | line h =>
    cases h with
    | declaration hname _ hv _ =>
      obtain rfl := List.mem_singleton.1 hline
      have htype := htypes _ (List.mem_singleton_self _)
      exact resolves_declaration hname htype (resolves_value hf hc hv htype)
    | element hi _ he _ =>
      obtain rfl := List.mem_singleton.1 hline
      have hvalue := resolves_expression hf hc he
      exact resolves_assignment (v := .scalar _) (resolves_indexing hf hc hi) hvalue
    | @whole b v _ _ hb _ hv =>
      obtain rfl := List.mem_singleton.1 hline
      have hlookup := hf.lookup?_eq hb
      rw [Descriptor.name_ofType, Descriptor.declared_ofType] at hlookup
      exact resolves_assignment (.name (hc.problem?_eq_none hlookup))
        (resolves_value hf hc hv (hc.covers hlookup List.mem_cons_self))
    | @jump jump _ =>
      obtain rfl := List.mem_singleton.1 hline
      exact .lineWord jump.keyword (by cases jump <;> decide)
    | @builtin _ callee argument _ hargument _ _ =>
      obtain rfl := List.mem_singleton.1 hline
      have hcallee : Resolves env r (builtin callee).toList :=
        resolves_builtin hc fun hne => hprints (bne_iff_ne.2 hne)
      exact (hcallee.between (c := '(') (by decide) (resolves_expression hf hc hargument)).between
        (c := ')') (by decide) .nil
  | result h =>
    obtain ⟨type, v, hreturns, rfl, hv⟩ := Statement.readResult_eq_ok h
    obtain rfl := List.mem_singleton.1 hline
    have hword : Resolves env r "return".toList := .lineWord "return" (by decide)
    exact hword.spaced (resolves_value hf hc hv (hc.returns type (hf.returns type hreturns)))
  | selection h =>
    obtain ⟨clause, hclause, rfl⟩ := List.mem_map.1 hline
    exact resolves_clauseHeader hf hc (h clause hclause)
  | loop h =>
    obtain rfl := List.mem_singleton.1 hline
    have he := resolves_expression hf hc (Statement.readCondition_eq_ok h).1
    exact resolves_header "for".toList (.lineWord "for" (by decide)) he
  | @function _ _ signature _ _ hs _ =>
    obtain rfl := List.mem_singleton.1 hline
    obtain ⟨hname, -, hparameters, -⟩ := Program.readSignature_eq_ok hs
    refine resolves_functionHeader hname (fun p hp => ⟨(hparameters p hp).1, ?_⟩) ?_
    · exact htypes _ (List.mem_append_left _ (List.mem_map_of_mem hp))
    · exact htypes _ (List.mem_append_right _ (List.mem_singleton_self _))
  | closer =>
    obtain rfl := List.mem_singleton.1 hline
    exact .symbol (by decide) (by decide)

end Lines

end Go

end StellaGo
