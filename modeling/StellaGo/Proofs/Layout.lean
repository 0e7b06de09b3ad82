import StellaGo.Proofs.ControlFlow
import StellaGo.Proofs.GoBraces
import StellaGo.Proofs.Rendering

/-! Layout of generated code. Defined here: the lines of a file with the number of bodies around each,
and the depth that the layout goes by, where it never falls below zero. Proved: the layout of a
generated file never takes more braces away than are open, comes back to depth zero behind every
carrier and every function, and indents each line by the number of bodies around it. -/

namespace StellaGo

namespace Go

/-! ### Lines with their levels -/

/-- A line, and in how many bodies it stands. -/
structure Entry where
  level : Nat
  line : Text
  deriving DecidableEq, Repr

def Entry.indented (tabSize : Nat) (e : Entry) : Text :=
  List.replicate (e.level * tabSize) ' ' ++ e.line

mutual

/-- The lines of a statement with `level` bodies around it. The `}` that ends a body stands outside
of it. -/
def outline (level : Nat) : Statement → List Entry
  | .selection cs => clausesOutline level cs
  | .loop condition ⟨_, _, _, body⟩ =>
    ⟨level, "for ".toList ++ expression condition ++ [' ', '{']⟩ ::
      statementsOutline (level + 1) body
  | .function s ⟨_, _, _, body⟩ => ⟨level, functionHeader s⟩ :: statementsOutline (level + 1) body
  | .closer => [⟨level - 1, ['}']⟩]
  | s => (statement s).map (⟨level, ·⟩)

def clausesOutline (level : Nat) : List (Clause Statement) → List Entry
  | [] => []
  | ⟨header, ⟨_, _, _, body⟩⟩ :: rest =>
    ⟨level, clauseHeader header⟩ :: statementsOutline (level + 1) body ++ clausesOutline level rest

def statementsOutline (level : Nat) : List Statement → List Entry
  | [] => []
  | s :: rest => outline level s ++ statementsOutline level rest

end

mutual

/-- The lines of the outline are those of the statement. -/
theorem map_line_outline (level : Nat) : ∀ s, (outline level s).map Entry.line = statement s
  | .selection cs => by rw [outline, statement, map_line_clausesOutline level cs]
  | .loop condition ⟨_, _, _, body⟩ => by
    rw [outline, statement, List.map_cons, map_line_statementsOutline (level + 1) body]
  | .function s ⟨_, _, _, body⟩ => by
    rw [outline, statement, List.map_cons, map_line_statementsOutline (level + 1) body]
  | .declaration _ _ _ | .assignment _ _ | .jump _ | .builtin _ _ | .result _ | .closer => by
    simp [outline, statement]

theorem map_line_clausesOutline (level : Nat) :
    ∀ cs, (clausesOutline level cs).map Entry.line = clauses cs
  | [] => by rw [clausesOutline, clauses, List.map_nil]
  | ⟨header, ⟨_, _, _, body⟩⟩ :: rest => by
    rw [clausesOutline, clauses, List.map_append, List.map_cons,
      map_line_statementsOutline (level + 1) body, map_line_clausesOutline level rest]

theorem map_line_statementsOutline (level : Nat) :
    ∀ ss, (statementsOutline level ss).map Entry.line = statements ss
  | [] => by rw [statementsOutline, statements, List.map_nil]
  | s :: rest => by
    rw [statementsOutline, statements, List.map_append, map_line_outline level s,
      map_line_statementsOutline level rest]

end

theorem statementsOutline_append (level : Nat) (xs ys : List Statement) :
    statementsOutline level (xs ++ ys) = statementsOutline level xs ++ statementsOutline level ys := by
  induction xs with
  | nil => rw [statementsOutline, List.nil_append, List.nil_append]
  | cons s rest ih =>
    rw [List.cons_append, statementsOutline, statementsOutline, ih, List.append_assoc]

/-- The lines of a carrier: its fields stand in its body. -/
def carrierOutline (arity : Nat) : List Entry :=
  ⟨0, (carrier arity).headD []⟩ :: ((carrier arity).tail.dropLast.map (⟨1, ·⟩) ++ [⟨0, ['}']⟩])

/-- What stands on its own at the top of the file: the package, the imports, each carrier and each
function. -/
def units (p : Program) : List (List Entry) :=
  [[⟨0, "package main".toList⟩]] ++
    (if p.requirements.imports = [] then []
      else [(importLines p.requirements).dropLast.map (⟨0, ·⟩)]) ++
    p.requirements.arities.map carrierOutline ++ p.body.statements.map (outline 0)

/-! ### Depth -/

/-- The depth behind a line, if neither the line nor its indentation takes away more braces than are
open. -/
def depthBehind? (depth : Nat) (line : Text) : Option Nat :=
  let (opened, closed) := line.trim.braces
  if (line.trim.startsWith '}' → 1 ≤ depth) ∧ closed ≤ depth + opened then
    some (depth + opened - closed)
  else none

/-- The depth behind the lines, under the same condition for each of them. -/
def depthBehindAll? (depth : Nat) (lines : List Text) : Option Nat := lines.foldlM depthBehind? depth

/-- Where there is a depth behind a line, the layout goes on with it. -/
theorem layoutFrom_of_depthBehind? {tabSize depth next : Nat} {dropBlank : Bool} {line : Text}
    {rest : List Text} (hvisible : line.trim ≠ []) (h : depthBehind? depth line = some next) :
    layoutFrom tabSize depth dropBlank (line :: rest) =
      (List.replicate ((if line.trim.startsWith '}' then depth - 1 else depth) * tabSize) ' ' ++
        line.trim) :: layoutFrom tabSize next false rest := by
  rw [depthBehind?] at h
  dsimp only at h
  split at h
  · cases h
    rw [layoutFrom, if_neg hvisible]
  · cases h

theorem depthBehindAll?_append (depth : Nat) (xs ys : List Text) :
    depthBehindAll? depth (xs ++ ys) = (depthBehindAll? depth xs).bind (depthBehindAll? · ys) :=
  List.foldlM_append

/-- Lines that lead from depth zero to depth zero do so too with blank lines between them. -/
theorem depthBehindAll?_intercalate {groups : List (List Text)}
    (h : ∀ group ∈ groups, depthBehindAll? 0 group = some 0) :
    depthBehindAll? 0 (List.intercalate [[]] groups) = some 0 := by
  induction groups with
  | nil => rfl
  | cons group rest ih =>
    obtain ⟨hgroup, hrest⟩ := List.forall_mem_cons.1 h
    cases rest with
    | nil => rwa [List.intercalate_singleton]
    | cons next more =>
      have hblank : depthBehindAll? 0 [[]] = some 0 := rfl
      rw [List.intercalate_cons_cons, depthBehindAll?_append, depthBehindAll?_append, hgroup,
        Option.bind_some, hblank, Option.bind_some]
      exact ih hrest

end Go

/-- A walk over a line that keeps count of the braces moves by their difference. -/
theorem Glyph.add_count_of_braceDepth {depth deeper : Nat} {gs : List Glyph}
    (h : braceDepth depth gs = some deeper) :
    depth + gs.count (.code '{') = deeper + gs.count (.code '}') := by
  fun_induction braceDepth depth gs with
  | case1 =>
    cases h
    rfl
  | case2 depth c rest hc ih =>
    obtain rfl := beq_iff_eq.1 hc
    have hrest := ih h
    simp only [List.count_cons, beq_self_eq_true, if_pos, beq_iff_eq, code.injEq]
    rw [if_neg (by decide)]
    omega
  | case3 => cases h
  | case4 depth c rest _ hc hlt ih =>
    obtain rfl := beq_iff_eq.1 hc
    have hrest := ih h
    simp only [List.count_cons, beq_self_eq_true, if_pos, beq_iff_eq, code.injEq]
    rw [if_neg (by decide)]
    omega
  | case5 depth c rest ho hc ih =>
    have hrest := ih h
    rw [List.count_cons_of_ne (by simpa using ho), List.count_cons_of_ne (by simpa using hc)]
    exact hrest
  | case6 depth c rest ih =>
    have hrest := ih h
    rw [List.count_cons_of_ne (by simp), List.count_cons_of_ne (by simp)]
    exact hrest

/-- A text without blanks at its ends. -/
theorem Text.trim_eq_self {c : Char} {t : Text} (hc : isBlank c = false)
    (h : Text.EndsVisibly (c :: t)) : Text.trim (c :: t) = c :: t := by
  obtain ⟨front, d, heq, hd⟩ := h
  rw [trim, trimStart, List.dropWhile_cons_of_neg (by simp [hc]), heq, trimEnd, List.reverse_append,
    List.reverse_singleton, List.singleton_append, List.dropWhile_cons_of_neg (by simp [hd]),
    List.reverse_cons, List.reverse_reverse]

namespace Go

namespace Fits

variable {closed opened : Nat} {line : Text}

theorem trim_eq (h : Fits closed opened line) : line.trim = line := by
  obtain ⟨c, rest, rfl, hc, -⟩ := h.starts
  exact Text.trim_eq_self hc h.ends

theorem ne_nil (h : Fits closed opened line) : line ≠ [] := by
  obtain ⟨c, rest, rfl, -⟩ := h.starts
  nofun

theorem closed_le_one (h : Fits closed opened line) : closed ≤ 1 := by
  obtain ⟨c, rest, -, -, rfl⟩ := h.starts
  split <;> omega

theorem startsWith_iff (h : Fits closed opened line) : line.startsWith '}' ↔ closed = 1 := by
  obtain ⟨c, rest, rfl, -, hclosed⟩ := h.starts
  rw [hclosed]
  by_cases hc : c = '}' <;> simp [Text.startsWith, hc]

theorem add_braces (h : Fits closed opened line) :
    closed + line.braces.1 = opened + line.braces.2 := by
  have hcount := Glyph.add_count_of_braceDepth (h.nests.depth 1 (Nat.le_refl 1))
  simp only [Text.braces]
  omega

/-- From a depth at which its braces can be closed, the line leads to the depth behind it. -/
theorem depthBehind?_eq (h : Fits closed opened line) (level : Nat) :
    depthBehind? (level + closed) line = some (level + opened) := by
  have hbraces := h.add_braces
  rw [depthBehind?, h.trim_eq]
  dsimp only
  have hdepth : line.startsWith '}' → 1 ≤ level + closed := fun hs => by
    rw [h.startsWith_iff.1 hs]
    omega
  rw [if_pos ⟨hdepth, by omega⟩]
  congr 1
  omega

end Fits

/-- Each line of the outline closes its braces and opens its own, from the first depth to the last,
and stands at its level. -/
inductive Aligned : Nat → List Entry → Nat → Prop
  | nil {depth : Nat} : Aligned depth [] depth
  | cons {depth level closed opened deeper : Nat} {line : Text} {rest : List Entry}
      (h : Fits closed opened line) (hdepth : depth = level + closed)
      (hrest : Aligned (level + opened) rest deeper) : Aligned depth (⟨level, line⟩ :: rest) deeper

namespace Aligned

variable {depth next deeper level closed opened : Nat} {xs ys : List Entry} {line : Text}

theorem single (h : Fits closed opened line) :
    Aligned (level + closed) [⟨level, line⟩] (level + opened) := .cons h rfl .nil

theorem append (hx : Aligned depth xs next) (hy : Aligned next ys deeper) :
    Aligned depth (xs ++ ys) deeper := by
  induction hx with
  | nil => exact hy
  | cons h hdepth _ ih => exact .cons h hdepth (ih hy)

theorem depthBehindAll?_eq (h : Aligned depth xs deeper) :
    depthBehindAll? depth (xs.map Entry.line) = some deeper := by
  induction h with
  | nil => rfl
  | cons h hdepth _ ih =>
    rw [List.map_cons, depthBehindAll?, List.foldlM_cons, hdepth, h.depthBehind?_eq]
    exact ih

theorem exists_fits (h : Aligned depth xs deeper) :
    ∀ e ∈ xs, ∃ closed opened, Fits closed opened e.line := by
  induction h with
  | nil => nofun
  | cons h _ _ ih => exact List.forall_mem_cons.2 ⟨⟨_, _, h⟩, ih⟩

/-- The layout of such lines indents each by its level. -/
theorem layoutFrom_eq {tabSize : Nat} {dropBlank : Bool} {rest : List Text} (hne : xs ≠ [])
    (h : Aligned depth xs deeper) :
    layoutFrom tabSize depth dropBlank (xs.map Entry.line ++ rest) =
      xs.map (Entry.indented tabSize) ++ layoutFrom tabSize deeper false rest := by
  induction h generalizing dropBlank with
  | nil => exact absurd rfl hne
  | @cons depth level closed opened deeper line more h hdepth hmore ih =>
    have hclosed := h.closed_le_one
    have hindent : (if line.startsWith '}' then depth - 1 else depth) = level := by
      simp only [h.startsWith_iff]
      split <;> omega
    have hvisible : line.trim ≠ [] := by
      rw [h.trim_eq]
      exact h.ne_nil
    rw [List.map_cons, List.cons_append,
      layoutFrom_of_depthBehind? hvisible (hdepth ▸ h.depthBehind?_eq level), h.trim_eq, hindent,
      List.map_cons, List.cons_append, Entry.indented]
    congr 1
    rcases eq_or_ne more [] with rfl | hmore'
    · cases hmore
      rfl
    · exact ih hmore'

end Aligned

/-! ### Statements -/

/-- A statement that stands in a body comes back to the depth of the body. -/
def Levels (s : Statement) : Prop := ∀ level, Aligned level (outline level s) level

theorem levels_of_statement {s : Statement} {line : Text} (hs : s.isLine) (hne : s ≠ .closer)
    (h : statement s = [line]) (hfits : Fits 0 0 line) : Levels s := by
  intro level
  have houtline : outline level s = [⟨level, line⟩] := by
    cases s with
    | selection | loop | function => cases hs
    | closer => exact absurd rfl hne
    | _ => simp [outline, h]
  rw [houtline]
  exact .single hfits

theorem aligned_statements {ss : List Statement} (h : ∀ s ∈ ss, Levels s) (level : Nat) :
    Aligned level (statementsOutline level ss) level := by
  induction ss with
  | nil =>
    rw [statementsOutline]
    exact .nil
  | cons s rest ih =>
    rw [statementsOutline]
    exact (h s List.mem_cons_self level).append (ih fun t ht => h t (List.mem_cons_of_mem _ ht))

/-- The statements of a body, and the `}` behind them. -/
theorem aligned_block {ss : List Statement} (h : ∀ s ∈ ss, Levels s) (level : Nat) :
    Aligned (level + 1) (statementsOutline (level + 1) (ss ++ [.closer])) level := by
  rw [statementsOutline_append]
  refine (aligned_statements h (level + 1)).append ?_
  rw [statementsOutline, statementsOutline, outline, List.append_nil]
  exact .single fits_closer

end Go

namespace Program

open Go (Aligned Fits Levels)

/-- Statements that were read come back to their depth. Clauses do so too, from where the header of
the first one leads to. -/
def Reading.IsLeveled : Reading → Prop
  | lines _ _ statements _ => ∀ s ∈ statements, Levels s
  | clauses _ header _ cs _ => ∀ level closed, Fits closed 1 (Go.clauseHeader header) →
    Aligned (level + closed) (Go.clausesOutline level cs) level

theorem Reads.isLeveled {reading : Reading} (h : Reads reading)
    (hf : reading.before.scope.symbols.Identifies) : reading.IsLeveled := by
  induction h with
  | nil => exact nofun
  | blank _ _ ih => exact ih hf
  | @line f next after line rest s statements _ hline _ ih =>
    obtain ⟨go, hgo, hfits⟩ := Go.fits_of_readsLine hline hf
    have hne : s ≠ .closer := by
      rintro rfl
      cases hline.spells
    exact List.forall_mem_cons.2 ⟨Go.levels_of_statement hline.spells.isLine hne hgo hfits,
      ih (hline.spells.identifies hf)⟩
  | result _ _ hresult _ =>
    obtain ⟨type, v, -, rfl, hv⟩ := Statement.readResult_eq_ok hresult
    have hstatement : Go.statement (.result v) = ["return ".toList ++ Go.value v] := by
      rw [Go.statement]
    refine List.forall_mem_cons.2 ⟨?_, nofun⟩
    exact Go.levels_of_statement rfl nofun hstatement (Go.fits_result hf hv)
  | @selection f next after line taken rest text condition clauses statements _ _ _ hcondition
      hclauses _ ihclauses ihrest =>
    refine List.forall_mem_cons.2 ⟨fun level => ?_, ihrest (hclauses.identifies hf)⟩
    rw [Go.outline]
    exact ihclauses hf level 0 (Go.fits_if hf hcondition)
  | @loop f inner after line close inside rest text condition body statements _ _ _ hcondition _ _
      _ _ ihinside ihrest =>
    refine List.forall_mem_cons.2 ⟨fun level => ?_, ihrest hf⟩
    rw [Frame.body, Go.outline]
    exact .cons (Go.fits_for hf hcondition) rfl (Go.aligned_block (ihinside hf) level)
  | @function f entered inner next after line close inside rest signature r body statements _ _
      hsignature henter _ _ _ hdeclare _ ihinside ihrest =>
    have hentered := identifies_of_enterFunction hf hsignature henter
    have hnext := identifies_of_declare hdeclare hf (readSignature_eq_ok hsignature).1
    refine List.forall_mem_cons.2 ⟨fun level => ?_, ihrest hnext⟩
    rw [Frame.body, Go.outline]
    exact .cons (Go.fits_functionHeader hsignature) rfl (Go.aligned_block (ihinside hentered) level)
  | @lastClause f inner header close inside body _ _ ihinside =>
    intro level closed hheader
    rw [Frame.body, Go.clausesOutline, Go.clausesOutline, List.append_nil]
    exact .cons hheader rfl (Go.aligned_block (ihinside hf) level)
  | @nextClause f inner after header next close inside taken body clauses _ _ hnext _ ihinside
      ihclauses =>
    intro level closed hheader
    rw [Frame.body, Go.clausesOutline]
    have hbody := Go.aligned_statements (ihinside hf) (level + 1)
    exact .cons hheader rfl (hbody.append (ihclauses hf level 1 (Go.fits_nextHeader hf hnext)))

end Program

namespace Go

/-! ### Units -/

theorem aligned_lines {lines : List Text} (level : Nat) (h : ∀ line ∈ lines, Fits 0 0 line) :
    Aligned level (lines.map (⟨level, ·⟩)) level := by
  induction lines with
  | nil => exact .nil
  | cons line rest ih =>
    obtain ⟨hline, hrest⟩ := List.forall_mem_cons.1 h
    exact .cons hline rfl (ih hrest)

/-- A carrier has a header, a line for each field, and a `}`. -/
theorem exists_carrier_eq (arity : Nat) : ∃ header fields,
    carrier arity = header :: (fields ++ [['}']]) ∧ Fits 0 1 header ∧
      ∀ field ∈ fields, Fits 0 0 field := by
  have hbare {t : Text} (h : t.isBare) : Text.Nests 0 0 t := respects_nests.bare t h
  refine ⟨_, _, rfl, ?_, fun field hfield => ?_⟩
  · have hparameters : Text.Nests 0 0
        (commas (((List.range arity).map Text.ofNat).map fun i => 'T' :: i ++ " any".toList)) := by
      rw [List.map_map]
      refine respects_nests.commas_map fun i _ => ?_
      exact (respects_nests.cons (by decide) (respects_nests.ofNat i)).append (hbare (by decide))
    have hname : Text.Nests 0 0 ("type ".toList ++ carrierName arity) :=
      (hbare (by decide)).append (respects_nests.carrierName arity)
    have hheader := (hname.append (respects_nests.cons (show Text.isBare ['['] from rfl)
      hparameters)).append (hbare (show Text.isBare "] struct".toList by decide))
    have hfits := Fits.header hheader ⟨'t', _, rfl, by decide, by decide⟩
    rw [List.append_assoc] at hfits
    exact hfits
  · obtain ⟨i, hi, rfl⟩ := List.mem_map.1 hfield
    obtain ⟨n, -, rfl⟩ := List.mem_map.1 hi
    have hfront := (respects_nests.cons (show Text.isBare ['v'] from rfl)
      (respects_nests.ofNat n)).append (hbare (show Text.isBare " T".toList by decide))
    exact .line (hfront.append (respects_nests.ofNat n)) ⟨'v', _, rfl, by decide, by decide⟩
      ((Text.EndsVisibly.ofNat n).append _)

theorem map_line_carrierOutline (arity : Nat) :
    (carrierOutline arity).map Entry.line = carrier arity := by
  obtain ⟨header, fields, heq, -⟩ := exists_carrier_eq arity
  simp [carrierOutline, heq, Function.comp_def]

theorem aligned_carrierOutline (arity : Nat) : Aligned 0 (carrierOutline arity) 0 := by
  obtain ⟨header, fields, heq, hheader, hfields⟩ := exists_carrier_eq arity
  rw [carrierOutline, heq, List.headD_cons, List.tail_cons, List.dropLast_concat]
  exact .cons hheader rfl ((aligned_lines 1 hfields).append (.single fits_closer))

theorem fits_package : Fits 0 0 "package main".toList :=
  .line (respects_nests.bare _ (by decide)) ⟨'p', _, rfl, by decide, by decide⟩
    ⟨"package mai".toList, 'n', rfl, by decide⟩

/-- If there is an import, its line stands in front of a blank line. -/
theorem importLines_eq {r : Requirements} (h : r.imports ≠ []) :
    importLines r = ["import \"fmt\"".toList] ++ [[]] ∧ Fits 0 0 "import \"fmt\"".toList := by
  obtain ⟨usesFmt, arities⟩ := r
  cases usesFmt with
  | false => exact absurd rfl h
  | true =>
    refine ⟨rfl, .line ⟨fun _ => rfl, fun _ _ => rfl⟩ ⟨'i', _, rfl, by decide, by decide⟩ ?_⟩
    exact ⟨"import \"fmt".toList, '"', rfl, by decide⟩

theorem outline_ne_nil {s : Statement} (h : ∃ signature body, s = .function signature body) :
    outline 0 s ≠ [] := by
  obtain ⟨signature, ⟨kind, depth, returns, body⟩, rfl⟩ := h
  rw [outline]
  nofun

theorem aligned_units {p : Program} (h : ∀ s ∈ p.body.statements, Levels s)
    (hfunctions : ∀ s ∈ p.body.statements, ∃ signature body, s = .function signature body) :
    ∀ unit ∈ units p, Aligned 0 unit 0 ∧ unit ≠ [] := by
  intro unit hunit
  simp only [units, List.mem_append, List.mem_map, List.mem_singleton] at hunit
  rcases hunit with ((rfl | hunit) | ⟨arity, -, rfl⟩) | ⟨s, hs, rfl⟩
  · exact ⟨.cons fits_package rfl .nil, nofun⟩
  · split at hunit
    · cases hunit
    · next himports =>
      obtain ⟨heq, hfits⟩ := importLines_eq himports
      rw [List.mem_singleton.1 hunit, heq, List.dropLast_concat]
      exact ⟨.cons hfits rfl .nil, nofun⟩
  · exact ⟨aligned_carrierOutline arity, nofun⟩
  · exact ⟨h s hs 0, outline_ne_nil (hfunctions s hs)⟩

theorem intercalate_append {α : Type} {sep : List α} {xs ys : List (List α)} (hy : ys ≠ []) :
    List.intercalate sep (xs ++ ys) = xs.flatMap (· ++ sep) ++ List.intercalate sep ys := by
  induction xs with
  | nil => rfl
  | cons x rest ih =>
    obtain ⟨next, more, hnext⟩ := List.exists_cons_of_ne_nil (List.append_ne_nil_of_right_ne_nil rest hy)
    rw [List.cons_append, hnext, List.intercalate_cons_cons, ← hnext, ih, List.flatMap_cons,
      List.append_assoc (x ++ sep)]

/-- The lines of the file are those of its units, with a blank line between them. -/
theorem fileLines_eq {p : Program} (h : p.body.statements ≠ []) :
    fileLines p = List.intercalate [[]] ((units p).map (·.map Entry.line)) := by
  have himports : importLines p.requirements =
      (((if p.requirements.imports = [] then []
        else [(importLines p.requirements).dropLast.map (⟨0, ·⟩)]) : List (List Entry)).map
          (·.map Entry.line)).flatMap (· ++ [[]]) := by
    split
    · next hnone => rw [importLines, if_pos hnone, List.map_nil, List.flatMap_nil]
    · next hsome =>
      rw [(importLines_eq hsome).1]
      rfl
  have hcarriers : ((p.requirements.arities.map carrierOutline).map
      (·.map Entry.line)).flatMap (· ++ [[]]) =
        p.requirements.arities.flatMap fun arity => carrier arity ++ [[]] := by
    rw [List.map_map, List.flatMap_map]
    exact List.flatMap_congr fun arity _ => by rw [Function.comp_apply, map_line_carrierOutline]
  have hstatements : (p.body.statements.map (outline 0)).map (·.map Entry.line) =
      p.body.statements.map statement := by
    rw [List.map_map]
    exact List.map_congr_left fun s _ => map_line_outline 0 s
  rw [units, List.map_append, intercalate_append (by simpa using h), List.map_append,
    List.map_append, List.flatMap_append, List.flatMap_append, ← himports, hcarriers, hstatements]
  rfl

theorem layoutFrom_units {tabSize : Nat} {dropBlank : Bool} {us : List (List Entry)}
    (h : ∀ unit ∈ us, Aligned 0 unit 0 ∧ unit ≠ []) :
    layoutFrom tabSize 0 dropBlank (List.intercalate [[]] (us.map (·.map Entry.line))) =
      List.intercalate [[]] (us.map (·.map (Entry.indented tabSize))) := by
  induction us generalizing dropBlank with
  | nil => rfl
  | cons unit rest ih =>
    obtain ⟨⟨halign, hne⟩, hrest⟩ := List.forall_mem_cons.1 h
    cases rest with
    | nil =>
      have hlayout : layoutFrom tabSize 0 dropBlank (unit.map Entry.line ++ []) = _ :=
        halign.layoutFrom_eq hne
      rw [List.append_nil] at hlayout
      rw [List.map_singleton, List.map_singleton, List.intercalate_singleton,
        List.intercalate_singleton, hlayout]
      exact List.append_nil _
    | cons next more =>
      rw [List.map_cons, List.map_cons, List.map_cons, List.map_cons, List.intercalate_cons_cons,
        List.intercalate_cons_cons, List.append_assoc, List.append_assoc, halign.layoutFrom_eq hne]
      have hblank (lines : List Text) :
          layoutFrom tabSize 0 false ([[]] ++ lines) = [[]] ++ layoutFrom tabSize 0 true lines := rfl
      rw [hblank]
      congr 2
      exact ih hrest

end Go

/-! ### The file -/

/-- Lines that are put together are the lines of the whole. -/
theorem Text.lines_unlines {lines : List Text} (hone : ∀ line ∈ lines, line.IsOneLine)
    (hend : ∀ line ∈ lines, line = [] ∨ line.EndsVisibly) : (unlines lines).lines = lines := by
  have hreturn : ∀ line ∈ lines, dropReturn line = line := by
    intro line hline
    have hnone : before? '\r' line = none := by
      rw [Option.eq_none_iff_forall_ne_some]
      intro front hfront
      obtain rfl := before?_eq_some_iff.1 hfront
      rcases hend _ hline with hnil | ⟨_, c, heq, hc⟩
      · exact absurd hnil (by simp)
      · obtain ⟨-, hlast⟩ := List.append_inj' heq rfl
        obtain rfl := List.singleton_inj.1 hlast
        cases hc
    rw [dropReturn, hnone, Option.getD_none]
  rw [Text.lines, splitOn_unlines hone, List.dropLast_concat, List.getLast?_concat]
  exact (List.append_nil _).trans ((List.map_congr_left hreturn).trans (List.map_id _))

/-- What layout makes of the code for a program whose units are given. -/
structure Go.LaidOut (tabSize : Nat) (units : List (List Entry)) (code out : Text) : Prop where
  /-- Between the units stands a blank line. -/
  lines : code.lines = List.intercalate [[]] (units.map (·.map Entry.line))
  /-- No line takes away more braces than are open in front of it. -/
  depth : depthBehindAll? 0 code.lines = some 0
  /-- Each unit begins and ends at depth zero. -/
  unitDepth : ∀ unit ∈ units, depthBehindAll? 0 (unit.map Entry.line) = some 0
  /-- Each line is indented by its level. -/
  layout : out = Text.unlines (List.intercalate [[]] (units.map (·.map (Entry.indented tabSize))))

/-- The Go file for an accepted source is indented by the bodies around each line. -/
theorem laidOut_of_compile {source out : Text} {tabSize : Nat}
    (h : compile source tabSize = .ok out) :
    ∃ p code, transpile (Comment.strip source) = .ok (p, code) ∧
      Go.LaidOut tabSize (Go.units p) code out := by
  obtain ⟨⟨p, code⟩, hcode, h⟩ := Check.bind_eq_ok_iff.1 h
  cases h
  obtain ⟨p', hp, heq⟩ := Check.bind_eq_ok_iff.1 hcode
  cases heq
  refine ⟨p, _, hcode, ?_⟩
  obtain ⟨after, hreads, -⟩ := Program.reads_of_read hp
  have hlevels : ∀ s ∈ p.body.statements, Go.Levels s := hreads.isLeveled Symbols.identifies_empty
  have hunits := Go.aligned_units hlevels (Program.functions_of_read hp)
  obtain ⟨signature, body, hmain, -⟩ := Program.exists_main_of_read hp
  have hfile := Go.fileLines_eq (List.ne_nil_of_mem hmain)
  have hlines : (Go.file p).lines = Go.fileLines p := by
    refine Text.lines_unlines (Program.isOneLine_of_read hp) fun line hline => ?_
    rw [hfile] at hline
    refine (Go.mem_intercalate hline).imp_right ?_
    rintro ⟨group, hgroup, hmem⟩
    obtain ⟨unit, hunit, rfl⟩ := List.mem_map.1 hgroup
    obtain ⟨entry, hentry, rfl⟩ := List.mem_map.1 hmem
    obtain ⟨closed, opened, hfits⟩ := (hunits unit hunit).1.exists_fits entry hentry
    exact hfits.ends
  have hdepth : ∀ unit ∈ Go.units p, Go.depthBehindAll? 0 (unit.map Go.Entry.line) = some 0 :=
    fun unit hunit => (hunits unit hunit).1.depthBehindAll?_eq
  constructor
  · exact hlines.trans hfile
  · rw [hlines, hfile]
    exact Go.depthBehindAll?_intercalate (List.forall_mem_map.2 hdepth)
  · exact hdepth
  · rw [Go.layout, hlines, hfile, Go.layoutFrom_units hunits]

theorem laidOut_of_compile_clause :
    ∃ source out, source = Text.block "function main() -> IO ="
        [Text.block "if true" ["print!(\"".toList ++ '{' :: "\")".toList]] ∧
      compile source 4 = .ok out ∧
      ∃ p code, transpile (Comment.strip source) = .ok (p, code) ∧
        Go.LaidOut 4 (Go.units p) code out := by
  have haccepted : (compile (Text.block "function main() -> IO ="
      [Text.block "if true" ["print!(\"".toList ++ '{' :: "\")".toList]]) 4).isOk := by
    decide +kernel
  obtain ⟨out, hout⟩ := Check.isOk_iff.1 haccepted
  exact ⟨_, out, rfl, hout, laidOut_of_compile hout⟩

end StellaGo
