import StellaGo.Proofs.Environment
import StellaGo.Proofs.Rendering

/-! Assignments in the tree of a file. Defined here: where each name that a statement can use comes
from, by a walk over the tree and the lines of the source together. Proved: in an accepted file the
target of every assignment was declared by a line `let mut` of the same function, so that no
parameter, no function and nothing that a plain `let` declares is ever assigned to. -/

namespace StellaGo

open Program (Reading Reads ReadsLine Spells written)

/-! ### Lines that declare -/

/-- The line starts with `let`, `mut`, the name and `:`, with spaces and tabs between the words. -/
def Text.DeclaresMutable (line : Text) (name : Name) : Prop :=
  ∃ first second third rest,
    line = "let".toList ++ first ++ "mut".toList ++ second ++ name ++ third ++ ':' :: rest ∧
      first ≠ [] ∧ second ≠ [] ∧ ∀ c ∈ first ++ second ++ third, isSpace c

theorem LetHeader.declaresMutable {line : Text} {header : LetHeader} (h : read? line = some header)
    (hmutable : header.isMutable) : line.DeclaresMutable header.name := by
  obtain ⟨first, front, third, fourth, written, rfl, -, hfirst, hspaces, hmarked, -⟩ :=
    read?_eq_some h
  obtain ⟨second, rfl, hsecond, hsecond'⟩ := hmarked hmutable
  refine ⟨first, second, third, fourth ++ written ++ '=' :: header.value, ?_, hfirst, hsecond, ?_⟩
  · simp only [List.append_assoc, List.cons_append]
  · intro c hc
    simp only [List.mem_append] at hc hspaces
    rcases hc with (hc | hc) | hc
    · exact hspaces c (.inl (.inl hc))
    · exact hsecond' c hc
    · exact hspaces c (.inl (.inr hc))

/-! ### Lines of a statement -/

namespace Statement

mutual

/-- On how many lines the statement stands, blank lines apart. The `}` of a clause stands on the line
of the next header. -/
def height : Statement → Nat
  | selection clauses => clausesHeight clauses
  | loop _ ⟨_, _, _, body⟩ => 1 + totalHeight body
  | function _ ⟨_, _, _, body⟩ => 1 + totalHeight body
  | _ => 1

def clausesHeight : List (Clause Statement) → Nat
  | [] => 0
  | ⟨_, ⟨_, _, _, body⟩⟩ :: rest => 1 + totalHeight body + clausesHeight rest

def totalHeight : List Statement → Nat
  | [] => 0
  | s :: rest => height s + totalHeight rest

end

theorem totalHeight_append (xs ys : List Statement) :
    totalHeight (xs ++ ys) = totalHeight xs + totalHeight ys := by
  induction xs with
  | nil => simp [totalHeight]
  | cons s rest ih => rw [List.cons_append, totalHeight, totalHeight, ih, Nat.add_assoc]

/-- A block takes the line of its header, its lines, and the line that closes it. -/
theorem drop_of_block {line : Text} {lines : List Text} {body : List Statement} :
    (line :: lines).drop (1 + totalHeight (body ++ [.closer])) =
      lines.drop (totalHeight body + 1) := by
  rw [totalHeight_append, Nat.add_comm, List.drop_succ_cons]
  rfl

theorem height_of_isLine {s : Statement} (h : s.isLine) : s.height = 1 := by
  cases s with
  | selection | loop | function => cases h
  | _ => rfl

end Statement

open Statement (clausesHeight totalHeight)

namespace Program

/-- The lines that are read are those that the statements stand on. The header of the first clause
of a selection stands before the lines. -/
def Reading.IsMeasured : Reading → Prop
  | lines _ taken statements _ => (written taken).length = totalHeight statements
  | clauses _ _ taken cs _ => (written taken).length + 1 = clausesHeight cs

theorem ReadsLine.trim_ne_nil {f next : Frame} {text : Text} {s : Statement}
    (h : ReadsLine f text s next) : text.trim ≠ [] := by
  cases h with
  | declaration hk | assignment hk | jump hk | builtin hk => exact Text.lineKind_ne_blank hk nofun

theorem trim_ne_nil_of_closer {line : Line} (h : line.text.startsWith '}') :
    line.text.trim ≠ [] := by
  obtain ⟨tail, htail, -⟩ := exists_tail_of_closer h
  have hkind : line.text.lineKind = .closer := by rw [htail, Text.lineKind_of_closer]
  exact Text.lineKind_ne_blank hkind nofun

theorem written_append_closer {inside rest : List Line} {close : Line}
    (h : close.text.startsWith '}') :
    written (inside ++ close :: rest) = written inside ++ close.text :: written rest := by
  rw [written_append, written_cons rest (trim_ne_nil_of_closer h)]

theorem Reads.isMeasured {reading : Reading} (h : Reads reading) : reading.IsMeasured := by
  induction h with
  | nil => exact rfl
  | blank hk _ ih =>
    rw [Reading.IsMeasured, written_cons_of_blank _ hk]
    exact ih
  | line _ hline _ ih =>
    rw [Reading.IsMeasured, written_cons _ hline.trim_ne_nil, List.length_cons, totalHeight,
      Statement.height_of_isLine hline.spells.isLine, ih]
    omega
  | result _ hk hresult hrest =>
    obtain ⟨type, v, -, rfl, -⟩ := Statement.readResult_eq_ok hresult
    rw [Reading.IsMeasured, written_cons _ (Text.lineKind_ne_blank hk (by decide)),
      written_eq_nil hrest]
    rfl
  | selection _ hk _ _ _ _ ihclauses ihrest =>
    rw [Reading.IsMeasured] at ihclauses
    rw [Reading.IsMeasured] at ihrest
    rw [Reading.IsMeasured, written_cons _ (Text.lineKind_ne_blank hk (by decide)), written_append,
      List.length_cons, List.length_append, totalHeight, Statement.height, ← ihclauses, ihrest]
    omega
  | loop _ hk _ _ _ _ hclose _ ihinside ihrest | function _ hk _ _ _ _ hclose _ _ ihinside ihrest =>
    rw [Reading.IsMeasured] at ihinside ihrest
    rw [Reading.IsMeasured, written_cons _ (Text.lineKind_ne_blank hk (by decide)), List.length_cons,
      written_append_closer hclose.1, List.length_append, List.length_cons, totalHeight, Frame.body,
      Statement.height, Statement.totalHeight_append, ihinside, ihrest]
    simp only [totalHeight, Statement.height]
    omega
  | lastClause _ hclose ih =>
    rw [Reading.IsMeasured] at ih
    rw [Reading.IsMeasured, written_append_closer hclose.1, List.length_append, List.length_cons,
      Frame.body, clausesHeight, Statement.totalHeight_append, ih]
    simp only [totalHeight, Statement.height, clausesHeight]
    rw [show written [] = [] from rfl, List.length_nil]
    omega
  | nextClause _ hclose _ _ ihinside ihclauses =>
    rw [Reading.IsMeasured] at ihinside
    rw [Reading.IsMeasured] at ihclauses
    rw [Reading.IsMeasured, written_append_closer hclose, List.length_append, List.length_cons,
      Frame.body, clausesHeight, ihinside, ← ihclauses]
    omega

/-- The lines behind the one that closes a block. -/
theorem Reads.drop_block {f inner : Frame} {inside rest : List Line} {close : Line}
    {body : List Statement} (h : Reads (.lines f inside body inner))
    (hclose : close.text.startsWith '}') (more : List Text) :
    (written (inside ++ close :: rest) ++ more).drop (totalHeight body + 1) =
      written rest ++ more := by
  have hheight := h.isMeasured
  rw [Reading.IsMeasured] at hheight
  rw [← hheight, written_append_closer hclose, List.append_assoc, List.drop_length_add_append]
  rfl

end Program

/-! ### Where names come from -/

/-- Where a name comes from that can be used in the body of a function. -/
inductive Origin where
  /-- It names a function, maybe this one. -/
  | outside
  | parameter
  /-- It is declared on this line of the body. -/
  | line (text : Text)
  deriving DecidableEq, Repr

/-- The names that can be used, the last one first. -/
abbrev Origins := Table Origin

namespace Origins

/-- The names behind a statement that starts on the first of the lines. What is declared in a clause,
a loop or a function stays there. -/
def extend (known : Origins) (lines : List Text) : Statement → Origins
  | .declaration name _ _ => (name, .line (lines.headD [])) :: known
  | .function signature _ => (signature.name, .outside) :: known
  | _ => known

/-- The names at the start of a body. No name that was known around the function counts as declared
in it. -/
def enterFunction (known : Origins) (s : Signature) : Origins :=
  s.parameters.foldl (fun known p => (p.name, .parameter) :: known)
    ((s.name, .outside) :: known.map fun entry => (entry.1, .outside))

/-- Walking over the statements, and over the lines that these stand on, the statement is met, at any
depth, with the last names known. -/
inductive Meets : Origins → List Text → List Statement → Origins → Statement → Prop
  | here {known : Origins} {lines : List Text} {s : Statement} {rest : List Statement} :
      Meets known lines (s :: rest) known s
  | later {known known' : Origins} {lines : List Text} {s s' : Statement} {rest : List Statement}
      (h : Meets (known.extend lines s) (lines.drop s.height) rest known' s') :
      Meets known lines (s :: rest) known' s'
  | clause {known known' : Origins} {lines : List Text} {before after : List (Clause Statement)}
      {clause : Clause Statement} {s' : Statement} {rest : List Statement}
      (h : Meets known (lines.drop (clausesHeight before + 1)) clause.body.statements known' s') :
      Meets known lines (.selection (before ++ clause :: after) :: rest) known' s'
  | loop {known known' : Origins} {lines : List Text} {condition : Expression}
      {body : Body Statement} {s' : Statement} {rest : List Statement}
      (h : Meets known (lines.drop 1) body.statements known' s') :
      Meets known lines (.loop condition body :: rest) known' s'
  | function {known known' : Origins} {lines : List Text} {signature : Signature}
      {body : Body Statement} {s' : Statement} {rest : List Statement}
      (h : Meets (known.enterFunction signature) (lines.drop 1) body.statements known' s') :
      Meets known lines (.function signature body :: rest) known' s'

/-- The name was declared by a line `let mut` of the body. -/
def Mutable (known : Origins) (name : Name) : Prop :=
  ∃ line, known.lookup name = some (.line line) ∧ line.DeclaresMutable name

end Origins

/-- The name of what is assigned to, or of the array whose element is. -/
def Target.name : Target → Name
  | whole name => name
  | element i => i.name

open Origins (Meets)

/-! ### Tables that agree on what is mutable -/

/-- Whether what is declared may be assigned to. -/
def Descriptor.isMutable : Descriptor → Bool
  | scalar b => b.isMutable
  | array b => b.isMutable
  | tuple b => b.isMutable
  | function _ => false

@[simp]
theorem Descriptor.isMutable_ofType {name : Name} {isMutable : Bool} {type : ValueType} :
    (ofType name isMutable type).isMutable = isMutable := by
  cases type <;> rfl

/-- What may be assigned to in a frame comes from a line `let mut`, and nothing may be assigned to
around the functions. -/
structure Tracks (f : Frame) (known : Origins) : Prop where
  mutable : ∀ name d, f.scope.symbols.lookup? name = some d → d.isMutable → known.Mutable name
  global : f.scope.kind = .global → ∀ name d, f.scope.symbols.lookup? name = some d → ¬d.isMutable

namespace Tracks

variable {f next : Frame} {known : Origins}

theorem empty : Tracks ⟨.global, .empty⟩ [] := ⟨nofun, fun _ => nofun⟩

theorem of_scope_eq (h : Tracks f known) (hscope : next.scope = f.scope) : Tracks next known := by
  constructor
  · rw [hscope]
    exact h.mutable
  · rw [hscope]
    exact h.global

theorem enter (h : Tracks f known) {kind : ScopeKind} (hkind : kind ≠ .global) :
    Tracks (f.enter kind) known :=
  ⟨h.mutable, fun hk => absurd hk hkind⟩

/-- What is declared is a new name, so the others keep their origin. -/
theorem declare {d : Descriptor} {origin : Origin} (h : Tracks f known)
    (hd : f.declare d = .ok next)
    (hmutable : d.isMutable → f.scope.kind ≠ .global ∧
      ∃ line, origin = .line line ∧ line.DeclaresMutable d.name) :
    Tracks next ((d.name, origin) :: known) := by
  obtain ⟨hfree, rfl⟩ := Frame.declare_eq_ok_iff.1 hd
  constructor
  · intro name e he hm
    dsimp only at he
    rw [Symbols.lookup?_insert hfree] at he
    split at he
    · next hname =>
      cases he
      obtain ⟨-, line, rfl, hline⟩ := hmutable hm
      exact ⟨line, by rw [hname, List.lookup_cons_self], hname ▸ hline⟩
    · next hname =>
      obtain ⟨line, hline, hdeclares⟩ := h.mutable name e he hm
      exact ⟨line, by rw [List.lookup_cons, beq_false_of_ne hname, hline], hdeclares⟩
  · intro hglobal name e he hm
    dsimp only at he
    rw [Symbols.lookup?_insert hfree] at he
    split at he
    · cases he
      exact (hmutable hm).1 hglobal
    · exact h.global hglobal name e he hm

theorem declareParameters {parameters : List Parameter} (h : Tracks f known)
    (hp : Program.declareParameters f parameters = .ok next) :
    Tracks next (parameters.foldl (fun known p => (p.name, .parameter) :: known) known) := by
  induction parameters generalizing f known with
  | nil =>
    cases hp
    exact h
  | cons p rest ih =>
    obtain ⟨middle, hmiddle, hrest⟩ := Check.bind_eq_ok_iff.1 hp
    have hdeclare : Tracks middle ((p.descriptor.name, .parameter) :: known) :=
      h.declare hmiddle (by simp [Parameter.descriptor])
    rw [Parameter.descriptor, Descriptor.name_ofType] at hdeclare
    exact ih hdeclare hrest

/-- Nothing may be assigned to at the start of a body. -/
theorem enterFunction {s : Signature} (h : Tracks f known) (hin : f.scope.kind = .global)
    (hs : Program.enterFunction f s = .ok next) : Tracks next (known.enterFunction s) := by
  obtain ⟨first, hfirst, hparameters⟩ := Check.bind_eq_ok_iff.1 hs
  have hentered (known : Origins) : Tracks { f.enter .function with
      scope := { (f.enter .function).scope with returns? := some s.returns } } known :=
    ⟨fun name d hd hm => absurd hm (h.global hin name d hd), nofun⟩
  exact ((hentered _).declare hfirst nofun).declareParameters hparameters

end Tracks

/-! ### Assignments are guarded -/

/-- What is assigned to in the walk was declared by a line `let mut`. -/
def Origins.Guards (known : Origins) (lines : List Text) (statements : List Statement) : Prop :=
  ∀ known' target v, Meets known lines statements known' (.assignment target v) →
    known'.Mutable target.name

namespace Origins.Guards

variable {known : Origins} {lines : List Text} {s : Statement} {statements : List Statement}

theorem nil : Guards known lines [] := nofun

theorem cons_of_isLine (hs : s.isLine)
    (hself : ∀ target v, s = .assignment target v → known.Mutable target.name)
    (hrest : (known.extend lines s).Guards (lines.drop 1) statements) :
    known.Guards lines (s :: statements) := by
  intro known' target v h
  cases h with
  | here => exact hself target v rfl
  | later h =>
    rw [Statement.height_of_isLine hs] at h
    exact hrest known' target v h
  | clause | loop | function => cases hs

theorem append_closer (h : known.Guards lines statements) :
    known.Guards lines (statements ++ [.closer]) := by
  induction statements generalizing known lines with
  | nil => exact cons_of_isLine rfl nofun nil
  | cons s rest ih =>
    intro known' target v hmeets
    cases hmeets with
    | here => exact h _ _ _ .here
    | later hlater => exact ih (fun _ _ _ hm => h _ _ _ (.later hm)) known' target v hlater
    | clause hm => exact h _ _ _ (.clause hm)
    | loop hm => exact h _ _ _ (.loop hm)
    | function hm => exact h _ _ _ (.function hm)

theorem selection {clauses : List (Clause Statement)}
    (hbodies : ∀ before clause after, clauses = before ++ clause :: after →
      known.Guards (lines.drop (clausesHeight before + 1)) clause.body.statements)
    (hrest : known.Guards (lines.drop (clausesHeight clauses)) statements) :
    known.Guards lines (.selection clauses :: statements) := by
  intro known' target v h
  cases h with
  | later h => exact hrest known' target v h
  | clause h => exact hbodies _ _ _ rfl known' target v h

theorem loop {condition : Expression} {body : Body Statement}
    (hbody : known.Guards (lines.drop 1) body.statements)
    (hrest : known.Guards (lines.drop (1 + totalHeight body.statements)) statements) :
    known.Guards lines (.loop condition body :: statements) := by
  intro known' target v h
  cases h with
  | later h => exact hrest known' target v h
  | loop h => exact hbody known' target v h

theorem function {signature : Signature} {body : Body Statement}
    (hbody : (known.enterFunction signature).Guards (lines.drop 1) body.statements)
    (hrest : Guards ((signature.name, .outside) :: known)
      (lines.drop (1 + totalHeight body.statements)) statements) :
    known.Guards lines (.function signature body :: statements) := by
  intro known' target v h
  cases h with
  | later h => exact hrest known' target v h
  | function h => exact hbody known' target v h

end Origins.Guards

namespace Program

variable {f next : Frame} {known : Origins} {text : Text} {s : Statement}

/-- What a line declares is mutable if the line says so. -/
theorem ReadsLine.tracks {rest : List Text} (h : ReadsLine f text s next)
    (hin : f.scope.kind ≠ .global) (hf : Tracks f known) :
    Tracks next (known.extend (text :: rest) s) := by
  cases h with
  | declaration _ h =>
    obtain ⟨header, type, v, r, hheader, -, -, -, -, rfl, hdeclare⟩ :=
      Statement.readDeclaration_eq_ok h
    have hscope : Tracks ⟨f.scope, r⟩ known := hf.of_scope_eq rfl
    have hnext : Tracks next (((Descriptor.ofType header.name header.isMutable type).name,
        .line text) :: known) := by
      refine hscope.declare hdeclare fun hm => ⟨hin, text, rfl, ?_⟩
      rw [Descriptor.isMutable_ofType] at hm
      rw [Descriptor.name_ofType]
      exact LetHeader.declaresMutable hheader hm
    rw [Descriptor.name_ofType] at hnext
    exact hnext
  | assignment _ h => cases Statement.readAssignment_eq_ok h <;> exact hf
  | jump _ h =>
    obtain ⟨-, -, rfl⟩ := Statement.readJump_eq_ok h
    exact hf
  | builtin _ h =>
    obtain ⟨name, rest, callee, inside, argument, -, -, -, -, -, rfl, hscope⟩ :=
      Statement.readBuiltin_eq_ok h
    exact hf.of_scope_eq hscope

/-- A target is found in the tables as something mutable. -/
theorem Spells.mutable {target : Target} {v : Value} (h : Spells f (.assignment target v) next)
    (hnames : f.scope.symbols.Identifies) (hf : Tracks f known) : known.Mutable target.name := by
  cases h with
  | @element i e target text hi hmutable =>
    obtain ⟨texts, array, -, hlookup, hname, -⟩ := Expression.indexing_eq_ok hi
    obtain ⟨hself, -⟩ := hnames _ _ hlookup
    rw [← hself, Descriptor.name] at hlookup
    rw [hname, Symbols.array?_of_lookup? hlookup] at hmutable
    have hmutable := hf.mutable _ _ hlookup hmutable
    rwa [Target.name, hname]
  | @whole b v target text hb hmutable =>
    obtain ⟨hself, -⟩ := hnames _ _ hb
    rw [← hself, Descriptor.name_ofType] at hb
    exact hf.mutable _ _ hb (by rwa [Descriptor.isMutable_ofType])

/-- In the walk over what was read, assignments are guarded. The lines that are walked over go on
behind those that were read. -/
def Reading.IsGuarded : Reading → Prop
  | lines f taken statements _ => ∀ known more, Tracks f known →
    known.Guards (written taken ++ more) statements
  | clauses f _ taken cs after => after.scope = f.scope ∧ ∀ known more, Tracks f known →
    ∀ before clause behind, cs = before ++ clause :: behind →
      known.Guards ((written taken ++ more).drop (clausesHeight before)) clause.body.statements

theorem Reads.isGuarded {reading : Reading} (h : Reads reading)
    (hnames : reading.before.scope.symbols.Identifies) : reading.IsGuarded := by
  induction h with
  | nil => exact fun _ _ _ => .nil
  | blank hk _ ih =>
    intro known more hf
    rw [written_cons_of_blank _ hk]
    exact ih hnames known more hf
  | @line f next after line rest s statements hin hline _ ih =>
    intro known more hf
    rw [written_cons _ hline.trim_ne_nil]
    refine .cons_of_isLine hline.spells.isLine ?_ ?_
    · rintro target v rfl
      exact hline.spells.mutable hnames hf
    · exact ih (hline.spells.identifies hnames) _ more (hline.tracks hin hf)
  | result _ _ hresult _ =>
    intro known more _
    obtain ⟨type, v, -, rfl, -⟩ := Statement.readResult_eq_ok hresult
    exact .cons_of_isLine rfl nofun .nil
  | @selection f next after line taken rest text condition clauses statements hin hk _ _ hclauses _
      ihclauses ihrest =>
    intro known more hf
    obtain ⟨hscope, hbodies⟩ := ihclauses hnames
    have hheight := hclauses.isMeasured
    rw [Reading.IsMeasured] at hheight
    rw [written_cons _ (Text.lineKind_ne_blank hk nofun), written_append]
    refine .selection ?_ ?_
    · intro before clause behind heq
      rw [List.cons_append, List.drop_succ_cons, List.append_assoc]
      exact hbodies known _ hf before clause behind heq
    · rw [← hheight, List.cons_append, List.drop_succ_cons, List.append_assoc, List.drop_left]
      exact ihrest (hclauses.identifies hnames) known more (hf.of_scope_eq hscope)
  | @loop f inner after line close inside rest text condition body statements hin hk _ _ hinside _
      hclose _ ihinside ihrest =>
    intro known more hf
    rw [written_cons _ (Text.lineKind_ne_blank hk nofun)]
    refine .loop ?_ ?_
    · rw [List.cons_append, List.drop_one, List.tail_cons, written_append, List.append_assoc]
      exact (ihinside hnames known _ (hf.enter nofun)).append_closer
    · dsimp only [Frame.body]
      rw [List.cons_append, Statement.drop_of_block, hinside.drop_block hclose.1]
      exact ihrest hnames known more (hf.of_scope_eq rfl)
  | @function f entered inner next after line close inside rest signature r body statements hin hk
      hsignature henter hinside _ hclose hdeclare _ ihinside ihrest =>
    intro known more hf
    have hentered : Tracks ⟨f.scope, r⟩ known := hf.of_scope_eq rfl
    have hbehind : Tracks ⟨f.scope, inner.requirements⟩ known := hf.of_scope_eq rfl
    rw [written_cons _ (Text.lineKind_ne_blank hk nofun)]
    refine .function ?_ ?_
    · rw [List.cons_append, List.drop_one, List.tail_cons, written_append, List.append_assoc]
      have hnames := identifies_of_enterFunction hnames hsignature henter
      exact (ihinside hnames _ _ (hentered.enterFunction hin henter)).append_closer
    · dsimp only [Frame.body]
      rw [List.cons_append, Statement.drop_of_block, hinside.drop_block hclose.1]
      have hnext := identifies_of_declare hdeclare hnames (readSignature_eq_ok hsignature).1
      exact ihrest hnext _ more (hbehind.declare hdeclare nofun)
  | @lastClause f inner header close inside body hinside hclose ih =>
    refine ⟨rfl, fun known more hf before clause behind heq => ?_⟩
    cases before with
    | nil =>
      obtain ⟨rfl, rfl⟩ := List.cons.inj heq
      rw [written_append, List.append_assoc]
      exact (ih hnames known _ (hf.enter nofun)).append_closer
    | cons first others => cases others <;> cases heq
  | @nextClause f inner after header next close inside taken body clauses hinside hclose hnext _
      ihinside ihclauses =>
    obtain ⟨hscope, hbodies⟩ := ihclauses hnames
    refine ⟨hscope, fun known more hf before clause behind heq => ?_⟩
    cases before with
    | nil =>
      obtain ⟨rfl, rfl⟩ := List.cons.inj heq
      rw [written_append, List.append_assoc]
      exact ihinside hnames known _ (hf.enter nofun)
    | cons first others =>
      obtain ⟨rfl, rfl⟩ := List.cons.inj heq
      rw [Frame.body, clausesHeight, Nat.add_comm 1, ← List.drop_drop, hinside.drop_block hclose]
      exact hbodies known more (hf.of_scope_eq rfl) others clause behind rfl

/-- In an accepted file, what is assigned to was declared by a line `let mut` of the same function. -/
theorem guards_of_read {source : Text} {p : Program} (h : Program.read source = .ok p) :
    Origins.Guards [] ((nonblank source.lines).map Text.trim) p.body.statements := by
  obtain ⟨after, hreads, -⟩ := reads_of_read h
  have hguards := hreads.isGuarded Symbols.identifies_empty [] [] Tracks.empty
  rwa [List.append_nil, written_numberedLines] at hguards

/-- The function holds a declaration and an assignment to an element. -/
theorem read_element_eq_some :
    ((Program.read (Text.block "function main() -> IO ="
        ["let mut a: int[1] = [1]".toList, "a[0] = 2".toList])).toOption.map fun p =>
      match p.body.statements with
        | [.function _ ⟨_, _, _, [.declaration _ _ _, .assignment (.element _) _, .closer]⟩] => true
        | _ => false) = some true := by decide +kernel

theorem guards_of_read_element :
    ∃ p, Program.read (Text.block "function main() -> IO ="
        ["let mut a: int[1] = [1]".toList, "a[0] = 2".toList]) = .ok p ∧
      ∃ known i v, Meets [] ["function main() -> IO = ".toList ++ ['{'],
          "let mut a: int[1] = [1]".toList, "a[0] = 2".toList, ['}']] p.body.statements known
          (.assignment (.element i) v) ∧ known.Mutable i.name := by
  have hlines : (nonblank (Text.lines (Text.block "function main() -> IO ="
      ["let mut a: int[1] = [1]".toList, "a[0] = 2".toList]))).map Text.trim =
        ["function main() -> IO = ".toList ++ ['{'], "let mut a: int[1] = [1]".toList,
          "a[0] = 2".toList, ['}']] := by decide +kernel
  obtain ⟨p, hp, hshape⟩ := Option.map_eq_some_iff.1 read_element_eq_some
  have hread := Check.toOption_eq_some_iff.1 hp
  have hguards := guards_of_read hread
  rw [hlines] at hguards
  split at hshape
  · next i v hstatements =>
    rw [hstatements] at hguards
    have hmutable := hguards _ _ _ (.function (.later .here))
    exact ⟨p, hread, _, i, v, hstatements ▸ .function (.later .here), hmutable⟩
  · cases hshape

end Program

end StellaGo
