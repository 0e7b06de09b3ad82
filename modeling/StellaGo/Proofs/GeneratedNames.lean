import StellaGo.Proofs.Scoping
import StellaGo.Go.Program

/-! The names that generated code gives a meaning of its own. Defined here: those names, which are
the keywords of Go, the names that Go declares around every file and that generated code relies on,
the package that prints, and the types that carry tuples. Proved: of all of them an accepted file
can declare one, `any`, by which the parameters of a carrier are constrained. -/

namespace StellaGo

open Environment (Visits)

namespace Go

def keywords : List String :=
  ["break", "case", "chan", "const", "continue", "default", "defer", "else", "fallthrough", "for",
    "func", "go", "goto", "if", "import", "interface", "map", "package", "range", "return",
    "select", "struct", "switch", "type", "var"]

/-- The names that Go declares around every file and that generated code relies on. -/
def predeclared : List String :=
  ["int", "float64", "bool", "byte", "string", "any", "true", "false", "panic"]

/-- Generated code writes the name as a keyword, or as an identifier for something that no source
declares. -/
inductive IsGenerated : Name → Prop
  | keyword {word : String} (h : word ∈ keywords) : IsGenerated word.toList
  | predeclared {word : String} (h : word ∈ predeclared) : IsGenerated word.toList
  | package : IsGenerated "fmt".toList
  | carrier (arity : Nat) : IsGenerated (carrierName arity)

end Go

/-! ### Names that may be declared -/

namespace Name

variable {name : Name} {word : String}

theorem isReserved_toList_iff : isReserved word.toList ↔ word ∈ keywords ++ targetWords := by
  rw [isReserved, String.ofList_toList, decide_eq_true_iff]

/-- Every keyword of Go is a word of the language or one that is kept free for generated code. -/
theorem isReserved_of_mem_goKeywords (h : word ∈ Go.keywords) : isReserved word.toList := by
  have hall : ∀ word ∈ Go.keywords, word ∈ keywords ++ targetWords := by decide
  exact isReserved_toList_iff.2 (hall word h)

/-- So is every name that generated code takes from Go, with one exception. -/
theorem isReserved_of_mem_goPredeclared (h : word ∈ Go.predeclared) (hany : word ≠ "any") :
    isReserved word.toList := by
  have hall : ∀ word ∈ Go.predeclared, word ≠ "any" → word ∈ keywords ++ targetWords := by decide
  exact isReserved_toList_iff.2 (hall word h hany)

theorem isCarrier_carrierName (arity : Nat) : isCarrier (carrierName arity) := by
  have hdigits : (Text.ofNat arity).all Char.isDigit :=
    List.all_eq_true.2 fun _ hc => Nat.isDigit_of_mem_toDigits (by decide) (by decide) hc
  have hne : Text.ofNat arity ≠ [] := Nat.toDigits_ne_nil
  have hafter : (carrierName arity).after? "tuple" = some (Text.ofNat arity) := rfl
  simp [isCarrier, hafter, hdigits, hne]

/-- Of the names with a meaning in generated code, one alone may be declared. -/
theorem isGenerated_iff_of_problem? (h : problem? name = none) :
    Go.IsGenerated name ↔ name = "any".toList := by
  obtain ⟨-, hreserved, hcarrier⟩ := problem?_eq_none_iff.1 h
  constructor
  · intro hgenerated
    cases hgenerated with
    | keyword hword =>
      rw [isReserved_of_mem_goKeywords hword] at hreserved
      cases hreserved
    | @predeclared word hword =>
      by_cases hany : word = "any"
      · rw [hany]
      · rw [isReserved_of_mem_goPredeclared hword hany] at hreserved
        cases hreserved
    | package => cases hreserved
    | carrier arity =>
      rw [isCarrier_carrierName] at hcarrier
      cases hcarrier
  · rintro rfl
    exact .predeclared (by decide)

end Name

/-! ### Declared names -/

namespace Statement

variable {f : Frame} {s : Statement} {d : Declared}

/-- Whatever a statement that was read introduces has a name that may be declared. -/
theorem IsRead.problem?_of_mem_introduces (h : s.IsRead f) (hd : d ∈ s.introduces) :
    Name.problem? d.name = none := by
  cases h with
  | line h =>
    cases h with
    | declaration hname =>
      obtain rfl := List.mem_singleton.1 hd
      exact hname
    | element | whole | jump | builtin => cases hd
  | result h =>
    obtain ⟨type, v, -, rfl, -⟩ := readResult_eq_ok h
    cases hd
  | function hs _ =>
    obtain ⟨hname, -, hparameters, -⟩ := Program.readSignature_eq_ok hs
    rcases List.mem_cons.1 hd with rfl | hd
    · exact hname
    · obtain ⟨p, hp, rfl⟩ := List.mem_map.1 hd
      exact (hparameters p hp).1
  | selection | loop | closer => cases hd

end Statement

namespace Environment

variable {s : Statement} {statements : List Statement}

theorem Visits.exists_of_mem (env : Environment) (h : s ∈ statements) :
    ∃ env', Visits env statements env' s := by
  induction statements generalizing env with
  | nil => cases h
  | cons t rest ih =>
    rcases List.mem_cons.1 h with rfl | h
    · exact ⟨env, .here⟩
    · obtain ⟨env', h⟩ := ih (env.extend t) h
      exact ⟨env', .later h⟩

end Environment

namespace Program

/-- Of all functions, parameters and variables of an accepted file, those named `any` alone have a
name that generated code gives a meaning of its own. -/
theorem isGenerated_iff_eq_any {source : Text} {p : Program} {env : Environment} {s : Statement}
    {d : Declared} (h : read source = .ok p) (hs : Visits .empty p.body.statements env s)
    (hd : d ∈ s.introduces) : Go.IsGenerated d.name ↔ d.name = "any".toList := by
  obtain ⟨f, -, hread⟩ := exists_frame_of_visits h hs
  exact Name.isGenerated_iff_of_problem? (hread.problem?_of_mem_introduces hd)

theorem isGenerated_iff_eq_any_parameter :
    ∃ p env s d, read
      (Text.block "function f(anything: int) -> int =" ["anything".toList] ++
        '\n' :: Text.block "function main() -> IO =" []) =
        .ok p ∧ Visits .empty p.body.statements env s ∧ d ∈ s.introduces ∧
      d.name = "anything".toList ∧ ¬Go.IsGenerated d.name := by
  have haccepted : ((read
      (Text.block "function f(anything: int) -> int =" ["anything".toList] ++
        '\n' :: Text.block "function main() -> IO =" [])
      ).toOption.map fun p => p.body.statements.any fun s =>
        .value "anything".toList (.primitive .int) ∈ s.introduces) = some true := by decide +kernel
  obtain ⟨p, hp, hany⟩ := Option.map_eq_some_iff.1 haccepted
  have hread := Check.toOption_eq_some_iff.1 hp
  obtain ⟨s, hs, hd⟩ := List.any_eq_true.1 hany
  obtain ⟨env, hvisits⟩ := Visits.exists_of_mem .empty hs
  have hiff := isGenerated_iff_eq_any hread hvisits (of_decide_eq_true hd)
  exact ⟨p, env, s, _, hread, hvisits, of_decide_eq_true hd, rfl,
    fun h => absurd (hiff.1 h) (by decide)⟩

/-- A function takes the name `any`, and with it the constraint of every carrier of the file. -/
theorem any_declared :
    ∃ p env s d, read
      (Text.block "function any(p: (int, int)) -> int =" ["p.0".toList] ++
        '\n' :: Text.block "function main() -> IO =" []) =
        .ok p ∧ Visits .empty p.body.statements env s ∧ d ∈ s.introduces ∧ Go.IsGenerated d.name ∧
      "type tuple2[T0 any, T1 any] struct ".toList ++ ['{'] ∈ Go.fileLines p ∧
      "func any(p tuple2[int, int]) int ".toList ++ ['{'] ∈ Go.fileLines p := by
  have haccepted : ((read
      (Text.block "function any(p: (int, int)) -> int =" ["p.0".toList] ++
        '\n' :: Text.block "function main() -> IO =" [])
      ).toOption.map fun p =>
        ((p.body.statements.any fun s => s.introduces.any fun d => d.name == "any".toList),
          decide ("type tuple2[T0 any, T1 any] struct ".toList ++ ['{'] ∈ Go.fileLines p),
          decide ("func any(p tuple2[int, int]) int ".toList ++ ['{'] ∈ Go.fileLines p))) =
      some (true, true, true) := by decide +kernel
  obtain ⟨p, hp, hfacts⟩ := Option.map_eq_some_iff.1 haccepted
  have hread := Check.toOption_eq_some_iff.1 hp
  simp only [Prod.mk.injEq, decide_eq_true_iff] at hfacts
  obtain ⟨hdeclared, hcarrier, hfunction⟩ := hfacts
  obtain ⟨s, hs, hdeclared⟩ := List.any_eq_true.1 hdeclared
  obtain ⟨d, hd, hname⟩ := List.any_eq_true.1 hdeclared
  obtain ⟨env, hvisits⟩ := Visits.exists_of_mem .empty hs
  have hgenerated : Go.IsGenerated d.name := by
    rw [beq_iff_eq.1 hname]
    exact .predeclared (by decide)
  exact ⟨p, env, s, d, hread, hvisits, hd, hgenerated, hcarrier, hfunction⟩

end Program

end StellaGo
