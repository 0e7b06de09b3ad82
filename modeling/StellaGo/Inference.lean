import StellaGo.Term
import StellaGo.Check

/-! The type of a row of terms. Each operator is typed on the operands next to it, and all results
of operators between two operands must be of one type. -/

namespace StellaGo.Inference

/-! ### Groups and operands -/

/-- The number of terms through the closing bracket that leaves none of the open ones, `depth` of
them before these terms. -/
def groupLength : (depth : Nat) → List Term → Option Nat
  | _, [] => none
  | depth, .opening _ :: rest => (groupLength (depth + 1) rest).map (· + 1)
  | depth, .closing _ :: rest =>
    if depth ≤ 1 then some 1 else (groupLength (depth - 1) rest).map (· + 1)
  | depth, _ :: rest => (groupLength depth rest).map (· + 1)

/-- The same for terms in reverse, where a closing bracket opens. -/
def groupLengthBack : (depth : Nat) → List Term → Option Nat
  | _, [] => none
  | depth, .closing _ :: rest => (groupLengthBack (depth + 1) rest).map (· + 1)
  | depth, .opening _ :: rest =>
    if depth ≤ 1 then some 1 else (groupLengthBack (depth - 1) rest).map (· + 1)
  | depth, _ :: rest => (groupLengthBack depth rest).map (· + 1)

/-- The terms without the brackets around all of them. -/
def stripGroups (terms : List Term) : List Term :=
  match terms with
  | .opening b :: rest =>
    if groupLength 0 (.opening b :: rest) = some (rest.length + 1) then stripGroups rest.dropLast
    else .opening b :: rest
  | other => other
termination_by terms.length
decreasing_by
  rw [List.length_dropLast, List.length_cons]
  omega

theorem length_stripGroups_le (terms : List Term) : (stripGroups terms).length ≤ terms.length := by
  fun_induction stripGroups terms <;> grind [List.length_dropLast]

/-- The length of the operand at the start of the terms: operators before it, then a group or one
term. -/
def operandLength : List Term → Check Nat
  | .opening b :: rest =>
    match groupLength 0 (.opening b :: rest) with
    | some n => .ok n
    | none => .error .unclosedGroup
  | .operator _ :: rest => (operandLength rest).map (· + 1)
  | .closing _ :: _ => .error .noOperand
  | [] => .error .noOperand
  | _ :: _ => .ok 1

/-- The length of the operand that ends where the terms, given in reverse, start: a group or one
term. -/
def operandLengthBack : List Term → Check Nat
  | .closing b :: rest =>
    match groupLengthBack 0 (.closing b :: rest) with
    | some n => .ok n
    | none => .error .unopenedGroup
  | .operator _ :: _ => .error .noLeftOperand
  | .opening _ :: _ => .error .noLeftOperand
  | [] => .error .noLeftOperand
  | _ :: _ => .ok 1

/-- An operator outside groups, with its operands. -/
inductive Site where
  | unary (op : Operator) (operand : List Term)
  | binary (op : Operator) (left right : List Term)

/-- The operands have fewer than `n` terms. -/
def Site.Within (n : Nat) : Site → Prop
  | unary _ operand => operand.length < n
  | binary _ left right => left.length < n ∧ right.length < n

/-- The operators outside groups, with their operands; `before` holds in reverse the terms before
these. -/
def sites (before terms : List Term) : Check (List Site) :=
  match terms with
  | [] => .ok []
  | .opening b :: rest =>
    match groupLength 0 (.opening b :: rest) with
    | none => .error .unclosedGroup
    | some n =>
      sites ((rest.take (n - 1)).reverse ++ .opening b :: before) (rest.drop (n - 1))
  | .operator op :: rest =>
    if Term.precedesUnary before.head? then do
      let n ← operandLength rest
      let others ← sites (.operator op :: before) rest
      return .unary op (rest.take n) :: others
    else do
      let m ← operandLengthBack before
      let n ← operandLength rest
      let others ← sites (.operator op :: before) rest
      return .binary op (before.take m).reverse (rest.take n) :: others
  | term :: rest => sites (term :: before) rest
termination_by terms.length
decreasing_by
  all_goals simp only [List.length_cons, List.length_drop]
  all_goals omega

theorem within_of_mem_sites {before terms : List Term} {found : List Site} {n : Nat}
    (h : sites before terms = .ok found) (hn : before.length + terms.length ≤ n) :
    ∀ site ∈ found, site.Within n := by
  fun_induction sites before terms generalizing found with
  | case1 => cases h; simp
  | case2 => cases h
  | case3 before b rest m _ ih =>
    refine ih h ?_
    simp only [List.length_append, List.length_reverse, List.length_take, List.length_cons,
      List.length_drop] at hn ⊢
    omega
  | case4 before op rest _ ih =>
    obtain ⟨k, _, h⟩ := Check.bind_eq_ok_iff.1 h
    obtain ⟨others, ho, h⟩ := Check.bind_eq_ok_iff.1 h
    cases h
    have := ih ho (by simp at hn ⊢; omega)
    simp only [List.mem_cons, forall_eq_or_imp, Site.Within, List.length_take]
    simp at hn
    exact ⟨by omega, this⟩
  | case5 before op rest _ ih =>
    obtain ⟨m, _, h⟩ := Check.bind_eq_ok_iff.1 h
    obtain ⟨k, _, h⟩ := Check.bind_eq_ok_iff.1 h
    obtain ⟨others, ho, h⟩ := Check.bind_eq_ok_iff.1 h
    cases h
    have := ih ho (by simp at hn ⊢; omega)
    simp only [List.mem_cons, forall_eq_or_imp, Site.Within, List.length_take, List.length_reverse]
    simp at hn
    exact ⟨⟨by omega, by omega⟩, this⟩
  | case6 before term rest _ _ ih => exact ih h (by simp at hn ⊢; omega)

/-! ### Operators -/

def unaryResult (op : Operator) (operand : Primitive) : Check Primitive :=
  match op with
  | .minus => if operand.isNumeric then .ok operand else .error (.unaryOperand op operand)
  | .not => if operand = .bool then .ok .bool else .error (.unaryOperand op operand)
  | _ => .error (.notUnary op)

/-- Numbers of one type. -/
def arithmeticResult (op : Operator) (left right : Primitive) : Check Primitive :=
  if !left.isNumeric || !right.isNumeric then .error (.binaryOperands op left right .numeric)
  else if left ≠ right then .error (.binaryOperands op left right .sameNumeric)
  else .ok left

def binaryResult (op : Operator) (left right : Primitive) : Check Primitive :=
  match op with
  | .plus =>
    if left = .string ∧ right = .string then .ok .string else arithmeticResult op left right
  | .minus | .times | .divide => arithmeticResult op left right
  | .and | .or =>
    if left = .bool ∧ right = .bool then .ok .bool else .error (.binaryOperands op left right .bools)
  | .equal | .unequal | .less | .greater | .lessEqual | .greaterEqual =>
    if left ≠ right then .error (.binaryOperands op left right .sameType)
    else if op.isOrdering ∧ left = .bool then .error (.binaryOperands op left right .ordered)
    else .ok .bool
  | .not => .error (.notBinary op)

/-- A number all of whose digits are zero, in any brackets. -/
def isZero (terms : List Term) : Bool :=
  match stripGroups terms with
  | [.literal digits type] => type.isNumeric && digits.all fun c => c == '0' || c == '.'
  | _ => false

/-- The types that operators were found to yield, each once. -/
structure Results where
  binary : List Primitive
  unary : List Primitive

def record (type : Primitive) (types : List Primitive) : List Primitive :=
  if type ∈ types then types else types ++ [type]

/-- The results of operators between two operands decide; those before an operand only where there
are no others. -/
def Results.type (results : Results) : Check Primitive :=
  match if results.binary = [] then results.unary else results.binary with
  | [] => .error .noOperands
  | [type] => .ok type
  | types => .error (.mixedResults types)

/-- The results of operators, where `infer` types operands of fewer than `n` terms. -/
def siteResults {n : Nat} (infer : (terms : List Term) → terms.length < n → Check Primitive)
    (results : Results) :
    (found : List Site) → (∀ site ∈ found, site.Within n) → Check Results
  | [], _ => .ok results
  | .unary op operand :: rest, short => do
    let type ← infer operand (short (.unary op operand) List.mem_cons_self)
    let result ← unaryResult op type
    siteResults infer { results with unary := record result results.unary } rest
      fun site h => short site (List.mem_cons_of_mem _ h)
  | .binary op left right :: rest, short => do
    let leftType ← infer left (short (.binary op left right) List.mem_cons_self).1
    let rightType ← infer right (short (.binary op left right) List.mem_cons_self).2
    if op = .divide ∧ isZero right then throw .zeroDivisor
    let result ← binaryResult op leftType rightType
    siteResults infer { results with binary := record result results.binary } rest
      fun site h => short site (List.mem_cons_of_mem _ h)

end Inference

/-- The type of a row of terms. -/
def Inference.infer (terms : List Term) : Check Primitive :=
  match _h : stripGroups terms with
  | [] => .error .emptyTerms
  | [term] =>
    match term.valueType? with
    | some type => .ok type
    | none => .error .noValue
  | first :: second :: rest =>
    match hs : sites [] (first :: second :: rest) with
    | .error fault => .error fault
    | .ok found => do
      let results ← siteResults (fun operand _short => infer operand) ⟨[], []⟩ found
        (within_of_mem_sites hs (Nat.le_of_eq (Nat.zero_add _)))
      results.type
termination_by terms.length
decreasing_by
  have := length_stripGroups_le terms
  rw [_h] at this
  omega

end StellaGo
