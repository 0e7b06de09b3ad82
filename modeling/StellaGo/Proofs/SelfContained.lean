import Mathlib.Data.List.Nodup
import StellaGo.Proofs.LineReferences

/-! Generated files have what they need and nothing else. Defined here: the names that the lines of
a file define or import, the fields that it declares, and when a file is self-contained. Proved: an
accepted file is. The carriers are those of the tuple types that the source writes, each defined
once; whatever names a carrier or a field outside literals names a defined one; and what prints is
imported just if it is used. -/

namespace StellaGo

open Environment (Visits)

namespace Go

/-! ### Definitions -/

/-- The name behind the word that a line starts with, if it is this word. -/
def defined? (word : String) (line : Text) : Option Text :=
  match lex line with
  | first :: name :: _ => if first = word.toList then some name else none
  | _ => none

theorem defined?_eq_none {word : String} {line : Text} (h : word.toList ∉ lex line) :
    defined? word line = none := by
  unfold defined?
  split
  · next first name rest heq =>
    rw [if_neg fun hfirst => h (by rw [heq, hfirst]; exact List.mem_cons_self)]
  · rfl

theorem defined?_eq_none_of_isPlain {word : String} {line : Text} (hword : word.toList ∈ definers)
    (h : ∀ t ∈ lex line, isPlain t) : defined? word line = none := by
  have hall : ∀ t ∈ definers, isPlain t = false := by decide
  refine defined?_eq_none fun hmem => ?_
  have hplain := h _ hmem
  rw [hall _ hword] at hplain
  cases hplain

theorem defined?_of_lex {word : String} {line first name : Text} {rest : List Text}
    (h : lex line = first :: name :: rest) :
    defined? word line = if first = word.toList then some name else none := by
  rw [defined?, h]

/-- The definition of the carrier stands in the file, and has a line for the field. -/
def DeclaresField (p : Program) (arity position : Nat) : Prop :=
  carrier arity <:+: fileLines p ∧
    ∃ line ∈ carrier arity, lex line = [fieldName position, 'T' :: Text.ofNat position]

/-! ### The lines in front of the functions -/

/-- The line of a carrier for one of its fields. -/
def fieldLine (position : Nat) : Text :=
  fieldName position ++ " T".toList ++ Text.ofNat position

theorem lex_fieldLine (position : Nat) :
    lex (fieldLine position) = [fieldName position, 'T' :: Text.ofNat position] := by
  have hname : Splits (fieldName position) [fieldName position] True := .numbered (by decide) _
  have htype : Splits ('T' :: Text.ofNat position) ['T' :: Text.ofNat position] True :=
    .numbered (by decide) _
  have htext : fieldLine position = fieldName position ++ ' ' :: 'T' :: Text.ofNat position := by
    simp [fieldLine]
  rw [htext]
  exact (hname.append htype.blank (.before (by decide) _ _)).eq_iff.2 ⟨trivial, trivial⟩

/-- A carrier is a line that defines its name, a line for each field, and a closing brace. -/
theorem exists_carrier_eq_cons (arity : Nat) : ∃ header rest,
    carrier arity = header :: ((List.range arity).map fieldLine ++ [['}']]) ∧
      lex header = "type".toList :: carrierName arity :: rest ∧ ∀ t ∈ rest, isPlain t := by
  have hlex : lex "type ".toList = ["type".toList] ∧ lex " any".toList = ["any".toList] ∧
      lex ("] struct ".toList ++ ['{']) = [[']'], "struct".toList, ['{']] := by
    decide +kernel
  have htype : Splits "type ".toList ["type".toList] True := .of_lex (.of_forall (by decide)) hlex.1
  have hname : Splits (carrierName arity) [carrierName arity] True :=
    .of_lex (respects_isClosed.carrierName _) (lex_carrierName _)
  have hany : Splits " any".toList ["any".toList] True := .of_lex (.of_forall (by decide)) hlex.2.1
  have hstruct : Splits ("] struct ".toList ++ ['{']) [[']'], "struct".toList, ['{']] True :=
    .of_lex (.of_forall (by decide)) hlex.2.2
  have hlist : Splits (commas ((List.range arity).map fun n => 'T' :: Text.ofNat n ++ " any".toList))
      (commaTokens ((List.range arity).map fun n => ['T' :: Text.ofNat n] ++ ["any".toList]))
      (∀ n ∈ List.range arity, True ∧ True) :=
    .commas_map fun n _ => (Splits.numbered (by decide) n).append hany (.before (by decide) _ _)
  have hwhole := ((htype.append hname (.behind (c := ' ') (by decide) "type".toList _)).between
    (c := '[') (by decide) (by decide) hlist).append hstruct (.before (by decide) _ _)
  have hparameters : ∀ n ∈ List.range arity,
      ∀ t ∈ ['T' :: Text.ofNat n] ++ ["any".toList], isPlain t :=
    fun n _ => List.forall_mem_append.2
      ⟨List.forall_mem_singleton.2 (isPlain_of_isInert (isInert_of_head (by decide))), by decide⟩
  refine ⟨_, _, ?_, hwhole.eq_iff.2 (by simp), ?_⟩
  · simp only [carrier, List.map_map, Function.comp_def]
    rfl
  · refine List.forall_mem_append.2 ⟨List.forall_mem_cons.2 ⟨by decide, ?_⟩, by decide⟩
    exact forall_mem_commaTokens (by decide) (List.forall_mem_map.2 hparameters)

theorem isPlain_of_mem_fieldLines {arity : Nat} {line : Text}
    (h : line ∈ (List.range arity).map fieldLine ++ [['}']]) : ∀ t ∈ lex line, isPlain t := by
  rcases List.mem_append.1 h with h | h
  · obtain ⟨position, -, rfl⟩ := List.mem_map.1 h
    rw [lex_fieldLine]
    refine List.forall_mem_cons.2 ⟨isPlain_of_isInert (isInert_fieldName position), ?_⟩
    exact List.forall_mem_singleton.2 (isPlain_of_isInert (isInert_of_head (by decide)))
  · have hbrace : lex ['}'] = [['}']] := lex_symbol (by decide)
    rw [List.mem_singleton.1 h, hbrace]
    decide

theorem lex_firstLines : lex "package main".toList = ["package".toList, "main".toList] ∧
    lex "import \"fmt\"".toList = ["import".toList, "\"fmt\"".toList] := by
  decide +kernel

theorem isPlain_of_mem_packageLines :
    ∀ line ∈ ["package main".toList, []], ∀ t ∈ lex line, isPlain t := by
  rw [List.forall_mem_cons, List.forall_mem_singleton, lex_firstLines.1, lex_nil]
  decide

theorem mem_importLines {r : Requirements} {line : Text} (h : line ∈ importLines r) :
    line = "import \"fmt\"".toList ∨ line = [] := by
  obtain ⟨usesFmt, arities⟩ := r
  cases usesFmt with
  | false => cases h
  | true =>
    have hmem : line ∈ ["import \"fmt\"".toList, []] := h
    rwa [List.mem_cons, List.mem_singleton] at hmem

/-- What the lines in front of the functions are made of. -/
theorem mem_lex_preamble {r : Requirements} {line t : Text} (hline : line ∈ preamble r)
    (ht : t ∈ lex line) : t ∈ definers ∨ isPlain t ∨ ∃ arity ∈ r.arities, t = carrierName arity := by
  rcases List.mem_append.1 hline with hline | hline
  · rcases List.mem_append.1 hline with hline | hline
    · exact .inr (.inl (isPlain_of_mem_packageLines line hline t ht))
    · rcases mem_importLines hline with rfl | rfl
      · have hall : ∀ t ∈ ["import".toList, "\"fmt\"".toList], t ∈ definers ∨ isPlain t := by decide
        exact (hall t (lex_firstLines.2 ▸ ht)).imp_right .inl
      · rw [lex_nil] at ht
        cases ht
  · obtain ⟨arity, harity, hline⟩ := List.mem_flatMap.1 hline
    obtain ⟨header, rest, hcarrier, hheader, hrest⟩ := exists_carrier_eq_cons arity
    rw [hcarrier] at hline
    rcases List.mem_append.1 hline with hline | hline
    · rcases List.mem_cons.1 hline with rfl | hline
      · rw [hheader] at ht
        rcases List.mem_cons.1 ht with rfl | ht
        · exact .inl (by decide)
        rcases List.mem_cons.1 ht with rfl | ht
        · exact .inr (.inr ⟨arity, harity, rfl⟩)
        · exact .inr (.inl (hrest t ht))
      · exact .inr (.inl (isPlain_of_mem_fieldLines hline t ht))
    · exact .inr (.inl (isPlain_of_mem_packageLines line (List.mem_cons_of_mem _ hline) t ht))

theorem filterMap_eq_nil_of_isPlain {word : String} {lines : List Text}
    (hword : word.toList ∈ definers) (h : ∀ line ∈ lines, ∀ t ∈ lex line, isPlain t) :
    lines.filterMap (defined? word) = [] :=
  List.filterMap_eq_nil_iff.2 fun line hline => defined?_eq_none_of_isPlain hword (h line hline)

/-- A carrier defines its name. -/
theorem filterMap_carrier {word : String} (hdefiner : word ∈ ["import", "type"]) (arity : Nat) :
    (carrier arity ++ [[]]).filterMap (defined? word) =
      if word = "type" then [carrierName arity] else [] := by
  obtain ⟨header, rest, hcarrier, hheader, -⟩ := exists_carrier_eq_cons arity
  have hplain : ∀ line ∈ (List.range arity).map fieldLine ++ [['}']] ++ [[]],
      ∀ t ∈ lex line, isPlain t := by
    intro line hline
    rcases List.mem_append.1 hline with hline | hline
    · exact isPlain_of_mem_fieldLines hline
    · exact isPlain_of_mem_packageLines line (List.mem_cons_of_mem _ hline)
  have hrest := filterMap_eq_nil_of_isPlain (List.mem_map_of_mem hdefiner) hplain
  have hword : defined? word header = _ := defined?_of_lex hheader
  rw [hcarrier, List.cons_append, List.filterMap_cons, hrest]
  by_cases htype : word = "type"
  · rw [hword, htype, if_pos rfl, if_pos rfl]
  · rw [hword, if_neg htype, if_neg fun heq => htype (String.toList_inj.1 heq).symm]

theorem filterMap_type_preamble (r : Requirements) :
    (preamble r).filterMap (defined? "type") = r.arities.map carrierName := by
  have himports : (importLines r).filterMap (defined? "type") = [] := by
    refine List.filterMap_eq_nil_iff.2 fun line hline => defined?_eq_none ?_
    rcases mem_importLines hline with rfl | rfl
    · rw [lex_firstLines.2]
      decide
    · rw [lex_nil]
      exact List.not_mem_nil
  have hcarrier (arity : Nat) :
      (carrier arity ++ [[]]).filterMap (defined? "type") = [carrierName arity] :=
    filterMap_carrier (by decide) arity
  have hpackage : ["package main".toList, []].filterMap (defined? "type") = [] :=
    filterMap_eq_nil_of_isPlain (by decide) isPlain_of_mem_packageLines
  rw [preamble, List.filterMap_append, List.filterMap_append, hpackage, himports,
    List.nil_append, List.nil_append, List.filterMap_flatMap]
  simp only [hcarrier, List.map_eq_flatMap]

theorem filterMap_import_preamble (r : Requirements) :
    (preamble r).filterMap (defined? "import") =
      r.imports.map fun name => '"' :: name.toList ++ ['"'] := by
  have himports : (importLines r).filterMap (defined? "import") =
      r.imports.map fun name => '"' :: name.toList ++ ['"'] := by
    obtain ⟨usesFmt, arities⟩ := r
    cases usesFmt with
    | false => rfl
    | true =>
      have hlines : importLines ⟨true, arities⟩ = ["import \"fmt\"".toList, []] := rfl
      have hblank : defined? "import" [] = none := defined?_eq_none (by rw [lex_nil]; exact List.not_mem_nil)
      rw [hlines, List.filterMap_cons, defined?_of_lex lex_firstLines.2, if_pos rfl,
        List.filterMap_cons, hblank]
      rfl
  have hcarrier (arity : Nat) : (carrier arity ++ [[]]).filterMap (defined? "import") = [] :=
    filterMap_carrier (by decide) arity
  have hpackage : ["package main".toList, []].filterMap (defined? "import") = [] :=
    filterMap_eq_nil_of_isPlain (by decide) isPlain_of_mem_packageLines
  rw [preamble, List.filterMap_append, List.filterMap_append, hpackage, himports,
    List.nil_append, List.filterMap_flatMap]
  simp [hcarrier]

/-- What prints starts with the package that it comes from. -/
theorem lex_builtin {callee : Builtin} (h : (callee != .panic) = true) (argument : Expression) :
    ∃ rest, lex ((builtin callee).toList ++ '(' :: expression argument ++ [')']) =
      "fmt".toList :: ['.'] :: rest := by
  have hclosed : Text.IsClosed (builtin callee).toList := .of_forall (by cases callee <;> decide)
  have hlex : ∃ function, lex (builtin callee).toList = ["fmt".toList, ['.'], function] := by
    cases callee with
    | print => exact ⟨_, lex_print "Print" (by decide)⟩
    | println => exact ⟨_, lex_print "Println" (by decide)⟩
    | panic => cases h
  obtain ⟨function, hlex⟩ := hlex
  refine ⟨function :: lex ('(' :: (expression argument ++ [')'])), ?_⟩
  rw [List.append_assoc, List.cons_append, lex_append hclosed (.before (by decide) _ _), hlex]
  rfl

end Go

/-! ### Accepted files -/

/-- A file is generated with what its statements need, and its lines refer to nothing else outside
literals. -/
structure Program.SelfContained (p : Program) : Prop where
  /-- The arities that are noted are those of the tuple types that the statements are written with. -/
  arities : ∀ arity, arity ∈ p.requirements.arities ↔ ∃ env s type,
    Visits .empty p.body.statements env s ∧ .tuple type ∈ s.writtenTypes ∧ type.arity = arity
  printing : (∃ env s, Visits .empty p.body.statements env s ∧ s.prints) →
    p.requirements.imports = ["fmt"]
  silent : (¬ ∃ env s, Visits .empty p.body.statements env s ∧ s.prints) →
    p.requirements.imports = []
  ascending : p.requirements.arities.Pairwise (· < ·)
  /-- The types that the file defines, from its first line to its last. -/
  defines : (Go.fileLines p).filterMap (Go.defined? "type") =
    p.requirements.arities.map carrierName
  /-- The packages that the file imports. -/
  imported : (Go.fileLines p).filterMap (Go.defined? "import") =
    p.requirements.imports.map fun name => '"' :: name.toList ++ ['"']
  fields : ∀ arity ∈ p.requirements.arities, ∀ position < arity, Go.DeclaresField p arity position
  /-- Each carrier that is named somewhere is defined once. -/
  carriers : ∀ line ∈ Go.fileLines p, ∀ arity, carrierName arity ∈ Go.lex line →
    ((Go.fileLines p).filterMap (Go.defined? "type")).count (carrierName arity) = 1
  /-- Each `.` stands in a line of a statement. -/
  selecting : ∀ line ∈ Go.fileLines p, ['.'] ∈ Go.lex line →
    ∃ env s, Visits .empty p.body.statements env s ∧ line ∈ s.goLines
  /-- In front of it stands a tuple that the statement knows, and behind it a field of its carrier. -/
  selects : ∀ env s, Visits .empty p.body.statements env s → ∀ line ∈ s.goLines,
    ∀ front rest, Go.lex line = front ++ ['.'] :: rest → Go.Selects env p.requirements front rest
  /-- In front of each `:` stands a field of the carrier whose literal it is in. -/
  keys : ∀ line ∈ Go.fileLines p, ∀ front rest, Go.lex line = front ++ [':'] :: rest →
    Go.NamesField p.requirements front
  /-- Each package that is imported is selected from. -/
  used : ∀ name ∈ p.requirements.imports, ∃ line ∈ Go.fileLines p, ∃ front rest,
    Go.lex line = front ++ name.toList :: ['.'] :: rest

namespace Program

variable {source : Text} {p : Program} {env : Environment} {s : Statement} {line : Text}

theorem mem_arities_iff_of_read {arity : Nat} (h : read source = .ok p) :
    arity ∈ p.requirements.arities ↔ ∃ env s type,
      Visits .empty p.body.statements env s ∧ .tuple type ∈ s.writtenTypes ∧ type.arity = arity := by
  have hhas : p.requirements.Has (.carrier arity) ↔ _ := has_iff_of_read h
  refine hhas.trans ?_
  simp only [Environment.Needs, Statement.carrier_mem_needs_iff, exists_and_left]

theorem usesFmt_iff_of_read (h : read source = .ok p) :
    p.requirements.usesFmt = true ↔
      ∃ env s, Visits .empty p.body.statements env s ∧ s.prints := by
  have hhas : p.requirements.Has .printing ↔ _ := has_iff_of_read h
  refine hhas.trans ?_
  simp only [Environment.Needs, Statement.printing_mem_needs_iff]

theorem resolves_of_visits (h : read source = .ok p) (hs : Visits .empty p.body.statements env s)
    (hline : line ∈ s.goLines) : Go.Resolves env p.requirements line := by
  obtain ⟨f, hf, hread⟩ := exists_frame_of_visits h hs
  refine Go.resolves_of_mem_goLines hf hread (isCovered_of_visits h hs)
    (fun type htype => covers_of_mem_writtenTypes h hs htype) (fun hprints => ?_) hline
  exact (usesFmt_iff_of_read h).2 ⟨env, s, hs, hprints⟩

/-- A line of the file stands in front of the functions, is blank, or is one of a statement. -/
theorem mem_fileLines (hline : line ∈ Go.fileLines p) :
    line ∈ Go.preamble p.requirements ∨ line = [] ∨
      ∃ env s, Visits .empty p.body.statements env s ∧ line ∈ s.goLines := by
  rcases List.mem_append.1 hline with hline | hline
  · exact .inl hline
  · exact .inr ((Go.mem_functions hline).imp_right Go.mem_statements_iff.1)

theorem mem_fileLines_of_visits (h : read source = .ok p)
    (hs : Visits .empty p.body.statements env s) (hline : line ∈ s.goLines) :
    line ∈ Go.fileLines p := by
  have hmem : line ∈ Go.statements p.body.statements := Go.mem_statements_iff.2 ⟨env, s, hs, hline⟩
  have hblank : ∀ go ∈ Go.statements p.body.statements, go.trim ≠ [] := by
    intro go hgo
    obtain ⟨text, -, hr⟩ := exists_of_mem_forall₂ (renders_of_read h) hgo
    exact hr.trim_ne_nil.2
  rw [← Go.nonblank_functions hblank] at hmem
  exact List.mem_append_right _ (List.mem_of_mem_filter hmem)

/-- What the file defines stands in front of its functions. -/
theorem filterMap_fileLines (h : read source = .ok p) {word : String}
    (hword : word.toList ∈ Go.definers) :
    (Go.fileLines p).filterMap (Go.defined? word) =
      (Go.preamble p.requirements).filterMap (Go.defined? word) := by
  have hnone : (List.intercalate [[]] (p.body.statements.map Go.statement)).filterMap
      (Go.defined? word) = [] := by
    refine List.filterMap_eq_nil_iff.2 fun line hline => Go.defined?_eq_none ?_
    rcases Go.mem_functions hline with rfl | hline
    · rw [Go.lex_nil]
      exact List.not_mem_nil
    · obtain ⟨env, s, hs, hline⟩ := Go.mem_statements_iff.1 hline
      exact (resolves_of_visits h hs hline).refers.definer _ hword
  have hfile : Go.fileLines p = Go.preamble p.requirements ++
      List.intercalate [[]] (p.body.statements.map Go.statement) := rfl
  rw [hfile, List.filterMap_append, hnone, List.append_nil]

theorem declaresField {arity position : Nat} (harity : arity ∈ p.requirements.arities)
    (hp : position < arity) : Go.DeclaresField p arity position := by
  constructor
  · obtain ⟨front, rest, hsplit⟩ := List.append_of_mem harity
    have hcarriers : Go.carrier arity <:+:
        p.requirements.arities.flatMap fun n => Go.carrier n ++ [[]] := by
      rw [hsplit, List.flatMap_append, List.flatMap_cons, List.append_assoc]
      exact List.infix_append' _ _ _
    exact hcarriers.trans ((List.suffix_append _ _).isInfix.trans (List.prefix_append _ _).isInfix)
  · obtain ⟨header, rest, hcarrier, -⟩ := Go.exists_carrier_eq_cons arity
    refine ⟨Go.fieldLine position, ?_, Go.lex_fieldLine position⟩
    rw [hcarrier]
    refine List.mem_cons_of_mem _ (List.mem_append_left _ ?_)
    exact List.mem_map_of_mem (List.mem_range.2 hp)

/-- A carrier that is named in the file is noted. -/
theorem mem_arities_of_read (h : read source = .ok p) (hline : line ∈ Go.fileLines p) {arity : Nat}
    (hmem : carrierName arity ∈ Go.lex line) : arity ∈ p.requirements.arities := by
  have hplain : Go.isPlain (carrierName arity) = false := by
    rw [Go.isPlain, Name.isCarrier_carrierName, Bool.not_true, Bool.and_false]
  rcases mem_fileLines hline with hline | rfl | ⟨env, s, hs, hline⟩
  · rcases Go.mem_lex_preamble hline hmem with hdefiner | htrue | ⟨other, hother, heq⟩
    · have hall : ∀ word ∈ Go.definers, Name.isCarrier word = false := by decide
      exact absurd rfl (Go.carrierName_ne (hall _ hdefiner))
    · rw [hplain] at htrue
      cases htrue
    · rwa [Go.carrierName_inj heq]
  · rw [Go.lex_nil] at hmem
    cases hmem
  · exact (resolves_of_visits h hs hline).refers.carrier arity hmem

/-- A mark of a field stands in a line of a statement. -/
theorem exists_visits_of_mark {mark : Text} (hmark : mark ∈ [['.'], [':']])
    (hline : line ∈ Go.fileLines p) (hmem : mark ∈ Go.lex line) :
    ∃ env s, Visits .empty p.body.statements env s ∧ line ∈ s.goLines := by
  have hall : ∀ mark ∈ [['.'], [':']], mark ∉ Go.definers ∧ Go.isPlain mark = false ∧
      Name.isCarrier mark = false := by decide
  obtain ⟨hdefiner, hplain, hcarrier⟩ := hall mark hmark
  rcases mem_fileLines hline with hline | rfl | hvisited
  · rcases Go.mem_lex_preamble hline hmem with h | h | ⟨arity, -, h⟩
    · exact absurd h hdefiner
    · rw [hplain] at h
      cases h
    · exact absurd h.symm (Go.carrierName_ne hcarrier)
  · rw [Go.lex_nil] at hmem
    cases hmem
  · exact hvisited

/-- An accepted file has what it needs and nothing else. -/
theorem selfContained_of_read (h : read source = .ok p) : p.SelfContained := by
  have hcarriers : (Go.fileLines p).filterMap (Go.defined? "type") =
      p.requirements.arities.map carrierName :=
    (filterMap_fileLines h (by decide)).trans (Go.filterMap_type_preamble _)
  have hnodup : (p.requirements.arities.map carrierName).Nodup :=
    List.Nodup.map (fun _ _ => Go.carrierName_inj) ((pairwise_arities_of_read h).imp Nat.ne_of_lt)
  constructor
  case arities => exact fun arity => mem_arities_iff_of_read h
  case printing => exact fun hprints => if_pos ((usesFmt_iff_of_read h).2 hprints)
  case silent => exact fun hsilent => if_neg fun hfmt => hsilent ((usesFmt_iff_of_read h).1 hfmt)
  case ascending => exact pairwise_arities_of_read h
  case defines => exact hcarriers
  case imported => exact (filterMap_fileLines h (by decide)).trans (Go.filterMap_import_preamble _)
  case fields => exact fun arity harity position hp => declaresField harity hp
  case carriers =>
    intro line hline arity hmem
    rw [hcarriers]
    exact List.count_eq_one_of_mem hnodup
      (List.mem_map_of_mem (mem_arities_of_read h hline hmem))
  case selecting => exact fun line hline hmem => exists_visits_of_mark (by decide) hline hmem
  case selects => exact fun env s hs line hline => (resolves_of_visits h hs hline).refers.selects
  case keys =>
    intro line hline front rest heq
    have hmem : [':'] ∈ Go.lex line := heq ▸ List.mem_append_right _ List.mem_cons_self
    obtain ⟨env, s, hs, hline⟩ := exists_visits_of_mark (by decide) hline hmem
    exact (resolves_of_visits h hs hline).refers.keys front rest heq
  case used =>
    intro name hname
    have hfmt : p.requirements.usesFmt = true := by
      by_contra hsilent
      rw [Requirements.imports, if_neg hsilent] at hname
      cases hname
    rw [Requirements.imports, if_pos hfmt, List.mem_singleton] at hname
    obtain ⟨env, s, hs, hprints⟩ := (usesFmt_iff_of_read h).1 hfmt
    cases s with
    | builtin callee argument =>
      obtain ⟨rest, hlex⟩ := Go.lex_builtin hprints argument
      refine ⟨_, mem_fileLines_of_visits h hs (List.mem_singleton_self _), [], rest, ?_⟩
      rw [hlex, hname]
      rfl
    | _ => cases hprints

theorem selfContained_of_read_tuple :
    ∃ p, read
      (Text.block "function f(p: (int, bool)) -> (int, bool) =" ["(p.0, p.1)".toList] ++
        '\n' :: Text.block "function main() -> IO =" ["println!(\"v9: tuple7[\")".toList]) =
        .ok p ∧ p.SelfContained := by
  have haccepted : (read
      (Text.block "function f(p: (int, bool)) -> (int, bool) =" ["(p.0, p.1)".toList] ++
        '\n' :: Text.block "function main() -> IO =" ["println!(\"v9: tuple7[\")".toList])
      ).isOk := by decide +kernel
  obtain ⟨p, h⟩ := Check.isOk_iff.1 haccepted
  exact ⟨p, h, selfContained_of_read h⟩

end Program

end StellaGo
