import StellaGo.Proofs.Offsets.Outcome
import StellaGo.Proofs.Operands

/-! Types of terms by index. Defined here: the search for the ends of groups and operands by index,
with a count of the open brackets that must not fall below zero, and the inference that types each
operator as it comes to it, on the parts of the terms between two indices. Proved: on the terms of a
parse tree the inference comes to its end, with the type or the fault that the inference on lists of
terms finds. -/

namespace StellaGo.Offsets

open Outcome (before? ended ended_bind ended_pure liftM_eq_ended liftM_some minus? part?)

/-! ### Groups -/

/-- The index of the closing bracket that leaves none of the open ones, of which there are `depth`
before the terms `rest`. The first of these has the index `i`. -/
def groupEnd : (depth i : Nat) → (rest : List Term) → Option (Option Nat)
  | _, _, [] => some none
  | depth, i, .opening _ :: rest => groupEnd (depth + 1) (i + 1) rest
  | depth, i, .closing _ :: rest => do
    let deeper ← minus? depth 1
    if deeper = 0 then return some i else groupEnd deeper (i + 1) rest
  | depth, i, _ :: rest => groupEnd depth (i + 1) rest

/-- The index of the bracket that closes the group which opens at the index `i`. -/
def closeOf (terms : List Term) (i : Nat) : Outcome Fault Nat := do
  match ← groupEnd 0 i (terms.drop i) with
  | some close => return close
  | none => throw .unclosedGroup

/-- The index of the opening bracket that leaves none of the `depth` closed ones, going back from the
term before the index. -/
def groupStart (terms : List Term) : (depth i : Nat) → Option (Option Nat)
  | _, 0 => some none
  | depth, i + 1 => do
    match ← terms[i]? with
    | .closing _ => groupStart terms (depth + 1) i
    | .opening _ =>
      let deeper ← minus? depth 1
      if deeper = 0 then return some i else groupStart terms deeper i
    | _ => groupStart terms depth i

/-- The terms without the brackets around all of them. -/
def strip : (fuel : Nat) → (terms : List Term) → Option (List Term)
  | 0, _ => none
  | fuel + 1, terms =>
    match terms.head?, terms.getLast? with
    | some (.opening _), some (.closing _) => do
      let close? ← groupEnd 0 0 terms
      let last ← minus? terms.length 1
      if close? = some last then strip fuel (← part? terms 1 last) else return terms
    | _, _ => return terms

theorem groupLength_bounds {depth n : Nat} {terms : List Term}
    (h : Inference.groupLength depth terms = some n) : 1 ≤ n ∧ n ≤ terms.length := by
  fun_induction Inference.groupLength depth terms generalizing n <;>
    grind [Option.map_eq_some_iff]

theorem groupLengthBack_bounds {depth n : Nat} {terms : List Term}
    (h : Inference.groupLengthBack depth terms = some n) : 1 ≤ n ∧ n ≤ terms.length := by
  fun_induction Inference.groupLengthBack depth terms generalizing n <;>
    grind [Option.map_eq_some_iff]

/-- A group that takes up all terms ends with a closing bracket. -/
theorem getLast?_of_groupLength {depth : Nat} {terms : List Term}
    (h : Inference.groupLength depth terms = some terms.length) :
    ∃ b, terms.getLast? = some (.closing b) := by
  have hcons {term : Term} {rest : List Term} (hrest : ∃ b, rest.getLast? = some (.closing b)) :
      ∃ b, (term :: rest).getLast? = some (.closing b) := by
    obtain ⟨b, hb⟩ := hrest
    exact ⟨b, by rw [List.getLast?_cons, hb, Option.getD_some]⟩
  fun_induction Inference.groupLength depth terms with
  | case1 => cases h
  | case2 depth b rest ih => exact hcons (ih (by simpa using h))
  | case3 depth b rest hone =>
    obtain rfl : rest = [] := List.length_eq_zero_iff.1 (by simpa using h.symm)
    exact ⟨b, rfl⟩
  | case4 depth b rest hmore ih => exact hcons (ih (by simpa using h))
  | case5 depth term rest _ _ ih => exact hcons (ih (by simpa using h))

theorem groupEnd_eq {depth : Nat} (hd : 0 < depth) (i : Nat) (rest : List Term) :
    groupEnd depth i rest = some ((Inference.groupLength depth rest).map (i + · - 1)) := by
  induction rest generalizing depth i with
  | nil => rfl
  | cons term rest ih =>
    have hnext {depth : Nat} (hd : 0 < depth) : groupEnd depth (i + 1) rest =
        some (((Inference.groupLength depth rest).map (· + 1)).map (i + · - 1)) := by
      rw [ih hd, Option.map_map]
      congr 2
      funext n
      simp only [Function.comp_apply]
      omega
    cases term with
    | opening b => exact hnext (Nat.succ_pos depth)
    | closing b =>
      rw [groupEnd, Inference.groupLength, Outcome.minus?_of_le hd, Option.bind_eq_bind,
        Option.bind_some]
      by_cases hone : depth ≤ 1
      · rw [if_pos (by omega), if_pos hone]
        rfl
      · rw [if_neg (by omega), if_neg hone]
        exact hnext (by omega)
    | literal | scalar | call | element | field | operator => exact hnext hd

theorem groupEnd_opening (i : Nat) (b : Bracket) (rest : List Term) :
    groupEnd 0 i (.opening b :: rest) =
      some ((Inference.groupLength 0 (.opening b :: rest)).map (i + · - 1)) := by
  rw [groupEnd, groupEnd_eq Nat.one_pos, Inference.groupLength, Option.map_map]
  congr 2
  funext n
  simp only [Function.comp_apply]
  omega

theorem groupStart_eq {depth : Nat} (hd : 0 < depth) (before rest : List Term) :
    groupStart (before.reverse ++ rest) depth before.length =
      some ((Inference.groupLengthBack depth before).map (before.length - ·)) := by
  induction before generalizing depth rest with
  | nil => rfl
  | cons term before ih =>
    have hterm : ((term :: before).reverse ++ rest)[before.length]? = some term := by simp
    have hnext {depth : Nat} (hd : 0 < depth) :
        groupStart ((term :: before).reverse ++ rest) depth before.length =
          some (((Inference.groupLengthBack depth before).map (· + 1)).map
            ((term :: before).length - ·)) := by
      rw [List.reverse_cons, List.append_assoc, ih hd, Option.map_map]
      congr 2
      funext n
      simp only [Function.comp_apply, List.length_cons]
      omega
    rw [List.length_cons, groupStart, hterm, Option.bind_eq_bind, Option.bind_some]
    cases term with
    | closing b => exact hnext (Nat.succ_pos depth)
    | opening b =>
      rw [Inference.groupLengthBack]
      dsimp only
      rw [Outcome.minus?_of_le hd, Option.bind_eq_bind, Option.bind_some]
      by_cases hone : depth ≤ 1
      · rw [if_pos (by omega), if_pos hone]
        rfl
      · rw [if_neg (by omega), if_neg hone]
        exact hnext (by omega)
    | literal | scalar | call | element | field | operator => exact hnext hd

theorem groupStart_closing (b : Bracket) (before rest : List Term) :
    groupStart ((.closing b :: before).reverse ++ rest) 0 (before.length + 1) =
      some ((Inference.groupLengthBack 0 (.closing b :: before)).map (before.length + 1 - ·)) := by
  have hterm : ((.closing b :: before).reverse ++ rest)[before.length]? = some (.closing b) := by simp
  rw [groupStart, hterm, List.reverse_cons, List.append_assoc, Option.bind_eq_bind, Option.bind_some]
  refine (groupStart_eq Nat.one_pos before (.closing b :: rest)).trans ?_
  rw [Inference.groupLengthBack, Option.map_map]
  congr 2
  funext n
  simp only [Function.comp_apply]
  omega

theorem closeOf_eq (front : List Term) (b : Bracket) (rest : List Term) :
    closeOf (front ++ .opening b :: rest) front.length =
      match Inference.groupLength 0 (.opening b :: rest) with
      | some n => pure (front.length + n - 1)
      | none => throw .unclosedGroup := by
  rw [closeOf, List.drop_left, groupEnd_opening]
  cases Inference.groupLength 0 (.opening b :: rest) <;> rfl

theorem strip_eq {fuel : Nat} {terms : List Term} (hfuel : terms.length < fuel) :
    strip fuel terms = some (Inference.stripGroups terms) := by
  induction fuel generalizing terms with
  | zero => exact absurd hfuel (Nat.not_lt_zero _)
  | succ fuel ih =>
    rw [strip]
    by_cases hopen : ∃ b rest, terms = .opening b :: rest
    · obtain ⟨b, rest, rfl⟩ := hopen
      rw [Inference.stripGroups, List.head?_cons]
      by_cases hclose : ∃ c, (Term.opening b :: rest).getLast? = some (.closing c)
      · obtain ⟨c, hc⟩ := hclose
        obtain ⟨inside, rfl⟩ : ∃ inside, rest = inside ++ [.closing c] := by
          rcases List.eq_nil_or_concat rest with rfl | ⟨inside, last, rfl⟩
          · cases hc
          · rw [List.concat_eq_append, List.getLast?_cons, List.getLast?_concat] at hc
            cases hc
            exact ⟨inside, List.concat_eq_append⟩
        have hlength : (Term.opening b :: (inside ++ [.closing c])).length = inside.length + 2 := by simp
        have hpart : part? (Term.opening b :: (inside ++ [.closing c])) 1 (inside.length + 1) =
            some inside := by
          rw [Nat.add_comm]
          exact Outcome.part?_append [Term.opening b] inside [.closing c]
        rw [hlength] at hfuel
        rw [hc]
        dsimp only
        rw [groupEnd_opening, hlength, Outcome.minus?_of_le (by omega), Option.bind_eq_bind,
          Option.bind_some, Option.bind_eq_bind, Option.bind_some]
        cases hgroup : Inference.groupLength 0 (.opening b :: (inside ++ [.closing c])) with
        | none => rfl
        | some n =>
          have hpos := (groupLength_bounds hgroup).1
          rw [Option.map_some]
          by_cases hwhole : n = inside.length + 2
          · have hn : 0 + n - 1 = inside.length + 2 - 1 := by omega
            have hlast : inside.length + 2 - 1 = inside.length + 1 := rfl
            rw [if_pos (congrArg some hn), if_pos (by simp [hwhole]), List.dropLast_concat, hlast, hpart]
            exact ih (by omega)
          · rw [if_neg (by simp; omega), if_neg (by simp [hwhole])]
            rfl
      · have hshort : ¬ Inference.groupLength 0 (.opening b :: rest) = some (rest.length + 1) :=
          fun h => hclose (getLast?_of_groupLength h)
        rw [if_neg hshort]
        split
        · next hlast => exact absurd ⟨_, hlast⟩ hclose
        · rfl
    · rw [Inference.stripGroups.eq_2 _ fun b rest hterms => hopen ⟨b, rest, hterms⟩]
      split
      · next b _ hhead _ =>
        obtain ⟨rest, hrest⟩ := List.head?_eq_some_iff.1 hhead
        exact absurd ⟨b, rest, hrest⟩ hopen
      · rfl

/-! ### Operands -/

/-- The index behind the operand that starts at the index `i`. -/
def operandEnd (terms : List Term) : (fuel i : Nat) → Outcome Fault Nat
  | 0, _ => (none : Option Nat)
  | fuel + 1, i =>
    match terms[i]? with
    | some (.opening _) => (· + 1) <$> closeOf terms i
    | some (.operator _) => operandEnd terms fuel (i + 1)
    | some (.closing _) | none => throw .noOperand
    | some _ => return i + 1

/-- The index of the start of the operand whose last term has the index `last`. -/
def operandStart (terms : List Term) (last : Nat) : Outcome Fault Nat := do
  match ← (terms[last]? : Option Term) with
  | .closing _ =>
    match ← groupStart terms 0 (last + 1) with
    | some start => return start
    | none => throw .unopenedGroup
  | .operator _ | .opening _ => throw .noLeftOperand
  | _ => return last

theorem operandEnd_eq {fuel : Nat} (front rest : List Term) (hfuel : rest.length < fuel) :
    operandEnd (front ++ rest) fuel front.length =
      ended ((Inference.operandLength rest).map (front.length + ·)) := by
  induction fuel generalizing front rest with
  | zero => exact absurd hfuel (Nat.not_lt_zero _)
  | succ fuel ih =>
    rw [operandEnd]
    cases rest with
    | nil =>
      rw [List.getElem?_eq_none (by simp)]
      rfl
    | cons term rest =>
      have hterm : (front ++ term :: rest)[front.length]? = some term := by simp
      rw [hterm]
      cases term with
      | opening b =>
        dsimp only
        rw [closeOf_eq, Inference.operandLength]
        cases hlength : Inference.groupLength 0 (.opening b :: rest) with
        | none => rfl
        | some n =>
          have hpos := (groupLength_bounds hlength).1
          have hstop : front.length + n - 1 + 1 = front.length + n := by omega
          exact congrArg (fun stop => (pure stop : Outcome Fault Nat)) hstop
      | operator op =>
        have hih := ih (front ++ [.operator op]) rest (by simpa using hfuel)
        rw [List.append_assoc, List.length_append] at hih
        refine hih.trans ?_
        rw [Inference.operandLength]
        cases Inference.operandLength rest with
        | error fault => rfl
        | ok n =>
          have hstop : front.length + [Term.operator op].length + n = front.length + (n + 1) := by
            rw [List.length_singleton]
            omega
          exact congrArg (fun stop => (pure stop : Outcome Fault Nat)) hstop
      | closing b => rfl
      | literal | scalar | call | element | field => rfl

theorem operandStart_eq (term : Term) (before rest : List Term) :
    operandStart ((term :: before).reverse ++ rest) before.length =
      ended ((Inference.operandLengthBack (term :: before)).map (before.length + 1 - ·)) := by
  have hterm : ((term :: before).reverse ++ rest)[before.length]? = some term := by simp
  rw [operandStart, hterm, liftM_some, pure_bind]
  cases term with
  | closing b =>
    dsimp only
    rw [groupStart_closing, liftM_some, pure_bind, Inference.operandLengthBack]
    cases Inference.groupLengthBack 0 (.closing b :: before) <;> rfl
  | opening | operator => rfl
  | literal | scalar | call | element | field => rfl

theorem operandLength_le {n : Nat} {terms : List Term} (h : Inference.operandLength terms = .ok n) :
    n ≤ terms.length := by
  fun_induction Inference.operandLength terms generalizing n with
  | case1 b rest n hgroup => cases h; exact (groupLength_bounds hgroup).2
  | case3 op rest ih =>
    obtain ⟨k, hk, rfl⟩ := Check.map_eq_ok_iff.1 h
    exact Nat.succ_le_succ (ih hk)
  | case2 | case4 | case5 => cases h
  | case6 => cases h; exact Nat.succ_pos _

theorem operandLengthBack_le {n : Nat} {terms : List Term}
    (h : Inference.operandLengthBack terms = .ok n) : n ≤ terms.length := by
  cases terms with
  | nil => cases h
  | cons term rest =>
    cases term with
    | closing b =>
      rw [Inference.operandLengthBack] at h
      split at h
      · next hgroup =>
        cases h
        exact (groupLengthBack_bounds hgroup).2
      · cases h
    | operator | opening => cases h
    | literal | scalar | call | element | field => cases h; exact Nat.succ_pos _

/-- The operand behind a term is cut out between its ends. -/
theorem operandEnd_behind {n : Nat} {rest : List Term} (before : List Term) (term : Term)
    (h : Inference.operandLength rest = .ok n) :
    operandEnd (before.reverse ++ term :: rest) ((before.reverse ++ term :: rest).length + 1)
        (before.length + 1) = pure (before.length + 1 + n) ∧
      part? (before.reverse ++ term :: rest) (before.length + 1) (before.length + 1 + n) =
        some (rest.take n) := by
  have hle := operandLength_le h
  have hfront : before.reverse ++ term :: rest = (term :: before).reverse ++ rest := by simp
  have hfuel : rest.length < (before.reverse ++ term :: rest).length + 1 := by simp; omega
  have hlength : (term :: before).reverse.length = before.length + 1 := by simp
  have hpart := Outcome.part?_append (term :: before).reverse (rest.take n) (rest.drop n)
  rw [List.take_append_drop, List.length_take_of_le hle, hlength] at hpart
  have hend := operandEnd_eq (term :: before).reverse rest hfuel
  rw [hlength, h] at hend
  rw [hfront] at hend ⊢
  exact ⟨hend, hpart⟩

/-- The operand before some terms is cut out between its ends. -/
theorem operandStart_before {n : Nat} {before : List Term} (rest : List Term)
    (h : Inference.operandLengthBack before = .ok n) :
    1 ≤ before.length ∧
      operandStart (before.reverse ++ rest) (before.length - 1) = pure (before.length - n) ∧
      part? (before.reverse ++ rest) (before.length - n) before.length =
        some (before.take n).reverse := by
  have hle := operandLengthBack_le h
  cases before with
  | nil => cases h
  | cons term before =>
    have hpart := Outcome.part?_append ((term :: before).drop n).reverse
      ((term :: before).take n).reverse rest
    rw [← List.append_assoc, ← List.reverse_append, List.take_append_drop, List.length_reverse,
      List.length_reverse, List.length_drop, List.length_take_of_le hle, Nat.sub_add_cancel hle] at hpart
    refine ⟨Nat.succ_pos _, ?_, hpart⟩
    rw [List.length_cons, Nat.add_sub_cancel, operandStart_eq, h]
    rfl

/-! ### Operators -/

def isZero (terms : List Term) : Option Bool := do
  match ← strip (terms.length + 1) terms with
  | [.literal digits type] => return type.isNumeric && digits.all fun c => c == '0' || c == '.'
  | _ => return false

/-- The operator at the index `i` stands before its operand. -/
def isUnaryAt (terms : List Term) (i : Nat) : Option Bool := (before? terms i).map Term.precedesUnary

def dividesByZero (op : Operator) (right : List Term) : Option Bool :=
  if op = .divide then isZero right else some false

/-- The results with that of the operator at the index `i`, whose operands are typed by `infer`. -/
def operatorAt (infer : List Term → Outcome Fault Primitive) (terms : List Term) (i : Nat)
    (op : Operator) (results : Inference.Results) : Outcome Fault Inference.Results := do
  if ← isUnaryAt terms i then
    let stop ← operandEnd terms (terms.length + 1) (i + 1)
    let type ← infer (← part? terms (i + 1) stop)
    let result ← Inference.unaryResult op type
    return { results with unary := Inference.record result results.unary }
  else
    let last ← minus? i 1
    let start ← operandStart terms last
    let leftType ← infer (← part? terms start i)
    let stop ← operandEnd terms (terms.length + 1) (i + 1)
    let right ← part? terms (i + 1) stop
    let rightType ← infer right
    if ← dividesByZero op right then throw .zeroDivisor
    let result ← Inference.binaryResult op leftType rightType
    return { results with binary := Inference.record result results.binary }

/-- The results with those of the operators outside groups from the index `i` on. -/
def operatorsFrom (infer : List Term → Outcome Fault Primitive) (terms : List Term) :
    (fuel i : Nat) → Inference.Results → Outcome Fault Inference.Results
  | 0, _, _ => (none : Option Inference.Results)
  | fuel + 1, i, results =>
    if i < terms.length then do
      match ← (terms[i]? : Option Term) with
      | .opening _ =>
        let close ← closeOf terms i
        operatorsFrom infer terms fuel (close + 1) results
      | .operator op =>
        let results ← operatorAt infer terms i op results
        operatorsFrom infer terms fuel (i + 1) results
      | _ => operatorsFrom infer terms fuel (i + 1) results
    else return results

/-- The type of a row of terms. -/
def infer : (fuel : Nat) → (terms : List Term) → Outcome Fault Primitive
  | 0, _ => (none : Option Primitive)
  | fuel + 1, terms => do
    match ← strip (terms.length + 1) terms with
    | [] => throw .emptyTerms
    | [term] =>
      match term.valueType? with
      | some type => return type
      | none => throw .noValue
    | stripped =>
      let results ← operatorsFrom (infer fuel) stripped (stripped.length + 1) 0 ⟨[], []⟩
      results.type

theorem isZero_eq (terms : List Term) : isZero terms = some (Inference.isZero terms) := by
  rw [isZero, strip_eq (Nat.lt_succ_self _), Option.bind_eq_bind, Option.bind_some, Inference.isZero]
  rcases Inference.stripGroups terms with _ | ⟨term, _ | ⟨second, rest⟩⟩
  · rfl
  · cases term <;> rfl
  · cases term <;> rfl

theorem dividesByZero_eq (op : Operator) (right : List Term) :
    dividesByZero op right = some (decide (op = .divide ∧ Inference.isZero right)) := by
  rw [dividesByZero, isZero_eq]
  by_cases hop : op = .divide <;> simp [hop]

theorem isUnaryAt_eq (before rest : List Term) :
    isUnaryAt (before.reverse ++ rest) before.length = some (Term.precedesUnary before.head?) := by
  have hbefore := Outcome.before?_append before.reverse rest
  rw [List.length_reverse, List.getLast?_reverse] at hbefore
  rw [isUnaryAt, hbefore, Option.map_some]

/-- The operands of an operator. -/
def operands : Inference.Site → List (List Term)
  | .unary _ operand => [operand]
  | .binary _ left right => [left, right]

section

variable {infer : List Term → Outcome Fault Primitive} {before rest : List Term} {op : Operator}
  {results : Inference.Results}

theorem operatorAt_unary {n : Nat} (hunary : Term.precedesUnary before.head?)
    (hright : Inference.operandLength rest = .ok n)
    (htyped : infer (rest.take n) = ended (Inference.infer (rest.take n))) :
    operatorAt infer (before.reverse ++ .operator op :: rest) before.length op results = ended do
      let type ← Inference.infer (rest.take n)
      let result ← Inference.unaryResult op type
      return { results with unary := Inference.record result results.unary } := by
  obtain ⟨hend, hpart⟩ := operandEnd_behind before (.operator op) hright
  rw [operatorAt, isUnaryAt_eq, liftM_some, pure_bind, if_pos hunary, hend, pure_bind, hpart,
    liftM_some, pure_bind, htyped, ended_bind]
  simp only [liftM_eq_ended, ended_bind, ended_pure]

theorem operatorAt_binary {m n : Nat} (hbinary : ¬ Term.precedesUnary before.head?)
    (hleft : Inference.operandLengthBack before = .ok m)
    (hright : Inference.operandLength rest = .ok n)
    (hleftTyped : infer (before.take m).reverse = ended (Inference.infer (before.take m).reverse))
    (hrightTyped : infer (rest.take n) = ended (Inference.infer (rest.take n))) :
    operatorAt infer (before.reverse ++ .operator op :: rest) before.length op results = ended do
      let leftType ← Inference.infer (before.take m).reverse
      let rightType ← Inference.infer (rest.take n)
      if op = .divide ∧ Inference.isZero (rest.take n) then throw .zeroDivisor
      let result ← Inference.binaryResult op leftType rightType
      return { results with binary := Inference.record result results.binary } := by
  obtain ⟨hend, hpart⟩ := operandEnd_behind before (.operator op) hright
  obtain ⟨hpos, hstart, hfront⟩ := operandStart_before (.operator op :: rest) hleft
  rw [operatorAt, isUnaryAt_eq, liftM_some, pure_bind, if_neg hbinary, Outcome.minus?_of_le hpos,
    liftM_some, pure_bind, hstart, pure_bind, hfront, liftM_some, pure_bind, hleftTyped, hend,
    ended_bind]
  simp only [pure_bind, hpart, liftM_some, hrightTyped, dividesByZero_eq, liftM_eq_ended, ended_bind,
    decide_eq_true_eq]
  refine bind_congr fun leftType => bind_congr fun rightType => ?_
  split
  · rfl
  · simp only [ended_bind, ended_pure]

/-- One step, by the term behind those passed over. -/
theorem operatorsFrom_at (term : Term) (fuel : Nat) :
    operatorsFrom infer (before.reverse ++ term :: rest) (fuel + 1) before.length results =
      let terms := before.reverse ++ term :: rest
      match term with
      | .opening _ => do
        let close ← closeOf terms before.length
        operatorsFrom infer terms fuel (close + 1) results
      | .operator op => do
        let results ← operatorAt infer terms before.length op results
        operatorsFrom infer terms fuel (before.length + 1) results
      | _ => operatorsFrom infer terms fuel (before.length + 1) results := by
  have hterm : (before.reverse ++ term :: rest)[before.length]? = some term := by simp
  have hbelow : before.length < (before.reverse ++ term :: rest).length := by simp
  rw [operatorsFrom, if_pos hbelow, hterm, liftM_some, pure_bind]

/-- The operators in a group are passed over. -/
theorem operatorsFrom_group {b : Bracket} {k : Nat} (fuel : Nat)
    (hgroup : Inference.groupLength 0 (.opening b :: rest) = some k) :
    operatorsFrom infer (before.reverse ++ .opening b :: rest) (fuel + 1) before.length results =
      let front := (rest.take (k - 1)).reverse ++ .opening b :: before
      operatorsFrom infer (front.reverse ++ rest.drop (k - 1)) fuel front.length results := by
  have hbounds := groupLength_bounds hgroup
  have hclose := closeOf_eq before.reverse b rest
  rw [hgroup, List.length_reverse] at hclose
  have hwhole : ((rest.take (k - 1)).reverse ++ .opening b :: before).reverse ++ rest.drop (k - 1) =
      before.reverse ++ .opening b :: rest := by simp
  have hbehind : before.length + k - 1 + 1 =
      ((rest.take (k - 1)).reverse ++ .opening b :: before).length := by
    simp at hbounds ⊢
    omega
  rw [operatorsFrom_at]
  dsimp only
  rw [hwhole, ← hbehind, hclose, pure_bind]

/-- Where every operator has its operands, and these are typed, the operators are typed. -/
theorem operatorsFrom_eq {found : List Inference.Site} {fuel n : Nat} (results : Inference.Results)
    (hsites : Inference.sites before rest = .ok found) (short : ∀ site ∈ found, site.Within n)
    (htyped : ∀ site ∈ found, ∀ operand ∈ operands site,
      infer operand = ended (Inference.infer operand))
    (hfuel : rest.length < fuel) :
    operatorsFrom infer (before.reverse ++ rest) fuel before.length results =
      ended (Inference.siteResults (fun operand _ => Inference.infer operand) results found short) := by
  induction fuel generalizing before rest found results with
  | zero => exact absurd hfuel (Nat.not_lt_zero _)
  | succ fuel ih =>
    cases rest with
    | nil =>
      rw [Inference.sites] at hsites
      cases hsites
      rw [operatorsFrom, if_neg (by simp)]
      rfl
    | cons term rest =>
      have hnext {found : List Inference.Site} (results : Inference.Results)
          (hsites : Inference.sites (term :: before) rest = .ok found)
          (short : ∀ site ∈ found, site.Within n)
          (htyped : ∀ site ∈ found, ∀ operand ∈ operands site,
            infer operand = ended (Inference.infer operand)) :
          operatorsFrom infer (before.reverse ++ term :: rest) fuel (before.length + 1) results =
            ended (Inference.siteResults (fun operand _ => Inference.infer operand) results found
              short) := by
        have hih := ih results hsites short htyped (Nat.lt_of_succ_lt_succ hfuel)
        rwa [List.reverse_cons, List.append_assoc] at hih
      cases term with
      | opening b =>
        rw [Inference.sites] at hsites
        split at hsites
        · cases hsites
        next k hgroup =>
        have hless : (rest.drop (k - 1)).length < fuel := by
          rw [List.length_drop]
          exact Nat.lt_of_le_of_lt (Nat.sub_le _ _) (Nat.lt_of_succ_lt_succ hfuel)
        rw [operatorsFrom_group fuel hgroup]
        exact ih results hsites short htyped hless
      | operator op =>
        rw [Inference.sites] at hsites
        rw [operatorsFrom_at]
        dsimp only
        split at hsites
        · next hunary =>
          obtain ⟨k, hk, hsites⟩ := Check.bind_eq_ok_iff.1 hsites
          obtain ⟨others, hothers, hsites⟩ := Check.bind_eq_ok_iff.1 hsites
          cases hsites
          have hoperand := htyped _ List.mem_cons_self _ List.mem_cons_self
          have hrest (results : Inference.Results) := hnext results hothers
            (fun site hs => short site (List.mem_cons_of_mem _ hs))
            fun site hs => htyped site (List.mem_cons_of_mem _ hs)
          rw [operatorAt_unary hunary hk hoperand, Inference.siteResults]
          simp only [ended_bind, bind_assoc, ended_pure, pure_bind, hrest]
        · next hbinary =>
          obtain ⟨m, hm, hsites⟩ := Check.bind_eq_ok_iff.1 hsites
          obtain ⟨k, hk, hsites⟩ := Check.bind_eq_ok_iff.1 hsites
          obtain ⟨others, hothers, hsites⟩ := Check.bind_eq_ok_iff.1 hsites
          cases hsites
          have hfirst := htyped _ List.mem_cons_self _ List.mem_cons_self
          have hsecond := htyped _ List.mem_cons_self _ (List.mem_cons_of_mem _ List.mem_cons_self)
          have hrest (results : Inference.Results) := hnext results hothers
            (fun site hs => short site (List.mem_cons_of_mem _ hs))
            fun site hs => htyped site (List.mem_cons_of_mem _ hs)
          rw [operatorAt_binary hbinary hm hk hfirst hsecond, Inference.siteResults]
          simp only [ended_bind, bind_assoc]
          refine bind_congr fun leftType => bind_congr fun rightType => ?_
          split
          · rfl
          · simp only [ended_bind, ended_pure, bind_assoc, pure_bind, hrest]
      | closing b =>
        rw [Inference.sites.eq_def] at hsites
        rw [operatorsFrom_at]
        exact hnext results hsites short htyped
      | literal | scalar | call | element | field =>
        rw [Inference.sites.eq_def] at hsites
        rw [operatorsFrom_at]
        exact hnext results hsites short htyped

end

/-! ### Types -/

/-- The operands of the operators of a tree are parts of the tree. -/
theorem exists_within_of_mem_operands {t : Tree} :
    ∀ site ∈ t.sites, ∀ part ∈ operands site, ∃ u : Tree, u.Within t ∧ u.terms = part := by
  induction t with
  | leaf | group => nofun
  | unary op operand ih =>
    intro site hsite part hpart
    rcases List.mem_cons.1 hsite with rfl | hsite
    · obtain rfl := List.mem_singleton.1 hpart
      exact ⟨operand, .unary .self, rfl⟩
    · obtain ⟨u, hu, rfl⟩ := ih site hsite part hpart
      exact ⟨u, .unary hu, rfl⟩
  | binary op left right ihl ihr =>
    intro site hsite part hpart
    rcases List.mem_append.1 hsite with hsite | hsite
    · obtain ⟨u, hu, rfl⟩ := ihl site hsite part hpart
      exact ⟨u, .left hu, rfl⟩
    rcases List.mem_cons.1 hsite with rfl | hsite
    · rcases List.mem_cons.1 hpart with rfl | hpart
      · exact ⟨left.last, .left left.within_last, rfl⟩
      · obtain rfl := List.mem_singleton.1 hpart
        exact ⟨right.first, .right right.within_first, rfl⟩
    · obtain ⟨u, hu, rfl⟩ := ihr site hsite part hpart
      exact ⟨u, .right hu, rfl⟩

theorem infer_of_stripGroups_nil {terms : List Term} (hstrip : Inference.stripGroups terms = []) :
    Inference.infer terms = .error .emptyTerms := by
  rw [Inference.infer.eq_def]
  split <;> simp_all

theorem infer_of_stripGroups_single {terms : List Term} {term : Term}
    (hstrip : Inference.stripGroups terms = [term]) :
    Inference.infer terms =
      match term.valueType? with
      | some type => .ok type
      | none => .error .noValue := by
  rw [Inference.infer.eq_def]
  split
  · next h => rw [hstrip] at h; cases h
  · next h => rw [hstrip] at h; cases h; rfl
  · next h => rw [hstrip] at h; cases h

theorem infer_of_stripGroups {terms rest : List Term} {first second : Term}
    {found : List Inference.Site} (hstrip : Inference.stripGroups terms = first :: second :: rest)
    (hsites : Inference.sites [] (first :: second :: rest) = .ok found)
    (short : ∀ site ∈ found, site.Within (first :: second :: rest).length) :
    Inference.infer terms =
      Inference.siteResults (fun operand _ => Inference.infer operand) ⟨[], []⟩ found short >>=
        Inference.Results.type := by
  rw [Inference.infer.eq_def]
  split
  · next h => rw [hstrip] at h; cases h
  · next h => rw [hstrip] at h; cases h
  · next h =>
    rw [hstrip] at h
    cases h
    split
    · next h => rw [hsites] at h; cases h
    · next h =>
      rw [hsites] at h
      cases h
      rfl

theorem length_lt_of_within {site : Inference.Site} {n : Nat} (h : site.Within n) :
    ∀ operand ∈ operands site, operand.length < n := by
  cases site with
  | unary op operand => simpa [operands, Inference.Site.Within] using h
  | binary op left right => simpa [operands, Inference.Site.Within] using h

/-- Inference comes to its end on the terms of every tree. -/
theorem infer_eq {fuel : Nat} {t : Tree} (ht : t.FollowsGo) (hfuel : t.terms.length < fuel) :
    infer fuel t.terms = ended (Inference.infer t.terms) := by
  induction fuel generalizing t with
  | zero => exact absurd hfuel (Nat.not_lt_zero _)
  | succ fuel ih =>
    have hlength := Inference.length_stripGroups_le t.terms
    have hf := t.within_strip.follows ht
    have hsites := Tree.sites_terms hf (show Term.precedesUnary [].head? from rfl) []
    rw [List.append_nil, ← Tree.stripGroups_terms ht, Inference.sites] at hsites
    rw [infer, strip_eq (Nat.lt_succ_self _), liftM_some, pure_bind]
    rcases hstrip : Inference.stripGroups t.terms with _ | ⟨first, _ | ⟨second, rest⟩⟩
    · rw [infer_of_stripGroups_nil hstrip]
      rfl
    · rw [infer_of_stripGroups_single hstrip]
      dsimp only
      cases first.valueType? <;> rfl
    · rw [hstrip] at hsites hlength
      have short := Inference.within_of_mem_sites hsites (Nat.le_of_eq (Nat.zero_add _))
      have htyped : ∀ site ∈ (t.strip.sites ++ []), ∀ operand ∈ operands site,
          infer fuel operand = ended (Inference.infer operand) := by
        intro site hsite operand hoperand
        have hwithin := length_lt_of_within (short site hsite) operand hoperand
        rw [List.append_nil] at hsite
        obtain ⟨u, hu, rfl⟩ := exists_within_of_mem_operands site hsite operand hoperand
        exact ih (hu.follows hf) (by omega)
      have hresults := operatorsFrom_eq ⟨[], []⟩ hsites short htyped (Nat.lt_succ_self _)
      rw [infer_of_stripGroups hstrip hsites short, ended_bind, ← hresults]
      rfl

end StellaGo.Offsets
