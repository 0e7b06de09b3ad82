import StellaGo.Program

/-! Faults that are found on one line. Defined here: what holds of a fault of a text of so many
characters, which is about no block, and about a call only if it is no longer than the text. Proved:
the readers of expressions, statements and headers find no other faults. -/

namespace StellaGo

/-- A fault of a text of `n` characters. -/
def Fault.FitsIn (n : Nat) : Fault → Prop
  | malformedCall token => token.length ≤ n
  | inHeader fault | inReturn fault => fault.FitsIn n
  | unclosedBlock => False
  | _ => True

namespace Fault.FitsIn

variable {n m : Nat} {fault : Fault}

theorem mono (h : fault.FitsIn n) (hle : n ≤ m) : fault.FitsIn m := by
  induction fault with
  | malformedCall token => exact Nat.le_trans h hle
  | inHeader fault ih | inReturn fault ih => exact ih h
  | unclosedBlock => exact h
  | _ => exact trivial

theorem kind_ne (h : fault.FitsIn n) : fault.kind ≠ .unclosedScope := by
  induction fault with
  | inReturn fault ih =>
    rw [Fault.kind]
    split
    · nofun
    · exact ih h
  | unclosedBlock => exact h.elim
  | _ => nofun

end Fault.FitsIn

/-- If the result is a fault, `P` holds of it. -/
def Check.Raises {α : Type} (P : Fault → Prop) (x : Check α) : Prop :=
  ∀ fault, x = .error fault → P fault

namespace Check.Raises

variable {α β : Type} {P Q : Fault → Prop} {x : Check α}

theorem ok (a : α) : Raises P (.ok a : Check α) := nofun

theorem error {fault : Fault} (h : P fault) : Raises P (.error fault : Check α) := by
  intro fault' heq
  cases heq
  exact h

theorem imp (hx : Raises P x) (h : ∀ fault, P fault → Q fault) : Raises Q x :=
  fun fault heq => h fault (hx fault heq)

theorem bind {f : α → Check β} (hx : Raises P x) (hf : ∀ a, Raises P (f a)) : Raises P (x >>= f) := by
  intro fault heq
  rcases Check.bind_eq_error_iff.1 heq with heq | ⟨a, -, heq⟩
  · exact hx fault heq
  · exact hf a fault heq

theorem map (hx : Raises P x) (f : α → β) : Raises P (x.map f) := by
  cases x with
  | error fault => exact .error (hx fault rfl)
  | ok a => exact .ok (f a)

theorem mapError {f : Fault → Fault} (hx : Raises P x) (hf : ∀ fault, P fault → P (f fault)) :
    Raises P (x.mapError f) := by
  cases x with
  | error fault => exact .error (hf fault (hx fault rfl))
  | ok a => exact .ok a

theorem mapM {f : α → Check β} {xs : List α} (h : ∀ x ∈ xs, Raises P (f x)) : Raises P (xs.mapM f) := by
  induction xs with
  | nil => exact .ok _
  | cons x rest ih =>
    obtain ⟨hx, hrest⟩ := List.forall_mem_cons.1 h
    rw [List.mapM_cons]
    exact .bind hx fun _ => .bind (ih hrest) fun _ => .ok _

end Check.Raises

open Check (Raises)

variable {n : Nat}

/-! ### Tokens -/

theorem Token.raises_group (word : Text) (stack : List Bracket) (t : Text) :
    Raises (Fault.FitsIn n) (group word stack t) := by
  fun_induction group word stack t with
  | case1 | case2 | case5 | case8 => exact .error trivial
  | case3 _ _ _ _ _ _ _ ih | case4 _ _ _ _ _ _ ih | case9 _ _ _ _ _ _ ih => exact ih.map _
  | case6 => exact .ok _
  | case7 _ _ _ _ _ _ _ _ _ _ ih => exact ih.map _

theorem Token.raises_word (whole t : Text) : Raises (Fault.FitsIn n) (word whole t) := by
  fun_induction word whole t with
  | case1 | case4 => exact .ok _
  | case2 c rest b _ fault h => exact .error (raises_group _ _ _ fault h)
  | case3 _ _ _ _ _ _ _ ih | case5 _ _ _ _ ih => exact ih.map _

theorem Token.raises_scan (t : Text) : Raises (Fault.FitsIn n) (scan t) := by
  unfold scan
  generalize [] = stack
  fun_induction scanInside stack t with
  | case1 => exact .ok _
  | case2 | case3 | case6 | case9 | case10 => exact .error trivial
  | case4 _ _ _ _ _ _ _ _ ih | case7 _ _ _ _ _ _ _ _ _ _ ih | case8 _ _ _ _ _ _ _ _ _ ih
  | case11 _ _ _ _ _ ih | case12 _ _ _ _ _ ih | case14 _ _ _ _ _ _ _ _ _ ih => exact ih.map _
  | case5 _ _ _ _ _ _ ih => exact ih
  | case13 _ _ _ _ _ h => exact .error (raises_word _ _ _ h)

theorem Token.raises_scanned (t : Text) : Raises (Fault.FitsIn n) (scanned t) := by
  unfold scanned
  split
  · next fault h => exact .error (raises_scan t fault h)
  · exact .ok _

theorem Placement.raises_check (previous : Option Text) (tokens : List Text) :
    Raises (Fault.FitsIn n) (check previous tokens) := by
  induction tokens generalizing previous with
  | nil => exact .ok _
  | cons token rest ih =>
    rw [check]
    split
    · exact ih _
    · refine .error ?_
      unfold fault
      split <;> (try split) <;> exact trivial

/-! ### Types -/

namespace Inference

theorem raises_operandLength (terms : List Term) : Raises (Fault.FitsIn n) (operandLength terms) := by
  induction terms with
  | nil => exact .error trivial
  | cons term rest ih =>
    cases term with
    | opening b =>
      rw [operandLength]
      split
      · exact .ok _
      · exact .error trivial
    | operator op => exact ih.map _
    | closing b => exact .error trivial
    | _ => exact .ok _

theorem raises_operandLengthBack (terms : List Term) :
    Raises (Fault.FitsIn n) (operandLengthBack terms) := by
  unfold operandLengthBack
  split
  · split
    · exact .ok _
    · exact .error trivial
  · exact .error trivial
  · exact .error trivial
  · exact .error trivial
  · exact .ok _

theorem raises_sites (before terms : List Term) : Raises (Fault.FitsIn n) (sites before terms) := by
  fun_induction sites before terms with
  | case1 => exact .ok _
  | case2 => exact .error trivial
  | case3 _ _ _ _ _ ih | case6 _ _ _ _ _ ih => exact ih
  | case4 _ _ _ _ ih =>
    exact .bind (raises_operandLength _) fun _ => .bind ih fun _ => .ok _
  | case5 _ _ _ _ ih =>
    exact .bind (raises_operandLengthBack _) fun _ => .bind (raises_operandLength _) fun _ =>
      .bind ih fun _ => .ok _

theorem raises_unaryResult (op : Operator) (operand : Primitive) :
    Raises (Fault.FitsIn n) (unaryResult op operand) := by
  unfold unaryResult
  split <;> (try split) <;> first | exact .ok _ | exact .error trivial

theorem raises_binaryResult (op : Operator) (left right : Primitive) :
    Raises (Fault.FitsIn n) (binaryResult op left right) := by
  have harithmetic : Raises (Fault.FitsIn n) (arithmeticResult op left right) := by
    unfold arithmeticResult
    split
    · exact .error trivial
    · split
      · exact .error trivial
      · exact .ok _
  unfold binaryResult
  split <;> (try split) <;> (try split) <;>
    first | exact .ok _ | exact .error trivial | exact harithmetic

theorem raises_type (results : Results) : Raises (Fault.FitsIn n) results.type := by
  unfold Results.type
  split
  · exact .error trivial
  · exact .ok _
  · exact .error trivial

theorem raises_siteResults {m : Nat} {infer : (terms : List Term) → terms.length < m → Check Primitive}
    (hinfer : ∀ terms short, Raises (Fault.FitsIn n) (infer terms short)) :
    ∀ (results : Results) (found : List Site) (short : ∀ site ∈ found, site.Within m),
      Raises (Fault.FitsIn n) (siteResults infer results found short)
  | _, [], _ => .ok _
  | results, .unary op operand :: rest, short => by
    rw [siteResults]
    exact .bind (hinfer _ _) fun _ => .bind (raises_unaryResult _ _) fun _ =>
      raises_siteResults hinfer _ rest _
  | results, .binary op left right :: rest, short => by
    rw [siteResults]
    refine .bind (hinfer _ _) fun _ => .bind (hinfer _ _) fun _ => ?_
    dsimp only
    split
    · exact .error trivial
    · exact .bind (raises_binaryResult _ _ _) fun _ => raises_siteResults hinfer _ rest _

theorem raises_infer (terms : List Term) : Raises (Fault.FitsIn n) (infer terms) := by
  unfold infer
  split
  · exact .error trivial
  · split
    · exact .ok _
    · exact .error trivial
  · next first second rest hstrip =>
    split
    · next fault h => exact .error (raises_sites _ _ fault h)
    · refine .bind (raises_siteResults (fun operand short => ?_) _ _ _) fun _ => raises_type _
      have hlt : operand.length < terms.length :=
        Nat.lt_of_lt_of_le (hstrip ▸ short) (length_stripGroups_le terms)
      exact raises_infer operand
termination_by terms.length

end Inference

/-! ### Names -/

theorem Symbols.raises_resolve (s : Symbols) (name : Name) :
    Raises (Fault.FitsIn n) (s.resolve name) := by
  unfold resolve
  split
  · exact .ok _
  · exact .error trivial

theorem Symbols.raises_ensureFree (s : Symbols) (name : Name) :
    Raises (Fault.FitsIn n) (s.ensureFree name) := by
  unfold ensureFree
  split
  · exact .error trivial
  · exact .ok _

theorem Frame.raises_declare (f : Frame) (d : Descriptor) : Raises (Fault.FitsIn n) (f.declare d) :=
  .bind (.bind (.bind (Symbols.raises_ensureFree _ _) fun _ => .ok _) fun _ => .ok _) fun _ => .ok _

theorem Requirements.raises_readType (r : Requirements) (t : Text) :
    Raises (Fault.FitsIn n) (r.readType t).1 := by
  unfold readType
  split
  · exact .ok _
  · exact .error trivial

/-! ### Expressions -/

namespace Expression

variable {symbols : Symbols} {m : Nat} {inner : Inner m}

theorem raises_callee (name : Name) : Raises (Fault.FitsIn n) (callee symbols name) := by
  refine .bind (Symbols.raises_resolve _ _) fun _ => ?_
  split
  · exact .ok _
  · exact .error trivial

theorem raises_readField (token : Text) : Raises (Fault.FitsIn n) (readField symbols token) := by
  unfold readField
  split
  · exact .error trivial
  split
  · exact .error trivial
  refine .bind (Symbols.raises_resolve _ _) fun _ => ?_
  split
  · split
    · exact .ok _
    · exact .error trivial
  · exact .error trivial

theorem raises_argument {function : Name} {position : Nat} {p : Parameter} {text : Text}
    {short : text.length < m} (hexpression : Raises (Fault.FitsIn n) (inner.expression text short))
    (haggregate : ∀ type, Raises (Fault.FitsIn n) (inner.aggregate type text short)) :
    Raises (Fault.FitsIn n) (argument inner function position p text short) := by
  unfold argument
  split
  · refine .bind hexpression fun _ => ?_
    split
    · exact .ok _
    · exact .error trivial
  · exact haggregate _
  · exact haggregate _

/-- The readers for shorter texts find such faults. -/
structure Inner.FitsIn (inner : Inner m) (n : Nat) : Prop where
  expression : ∀ text short, Raises (Fault.FitsIn n) (inner.expression text short)
  aggregate : ∀ type text short, Raises (Fault.FitsIn n) (inner.aggregate type text short)

section

variable (hinner : inner.FitsIn n)
include hinner

theorem raises_arguments {function : Name} :
    ∀ (position : Nat) (parameters : List Parameter) (texts : List Text)
      (short : ∀ text ∈ texts, text.length < m),
      Raises (Fault.FitsIn n) (arguments inner function position parameters texts short)
  | position, p :: parameters, text :: texts, short => by
    rw [arguments]
    exact .bind (raises_argument (hinner.expression _ _) fun _ => hinner.aggregate _ _ _) fun _ =>
      .bind (raises_arguments (position + 1) parameters texts _) fun _ => .ok _
  | _, [], _, _ => by rw [arguments.eq_def]; exact .ok _
  | _, _ :: _, [], _ => by rw [arguments.eq_def]; exact .ok _

theorem raises_readCall {token : Text} (short : token.length ≤ m) (hn : token.length ≤ n) :
    Raises (Fault.FitsIn n) (readCall symbols inner token short) := by
  unfold readCall
  dsimp only
  split
  · exact .error hn
  · refine .bind (raises_callee _) fun _ => ?_
    split
    · exact .error trivial
    · exact .bind (raises_arguments hinner _ _ _ _) fun _ => .ok _

theorem raises_index {array : Binding ArrayType} {size : Nat} {text : Text}
    (short : text.length < m) : Raises (Fault.FitsIn n) (index inner array size text short) := by
  refine .bind (hinner.expression _ _) fun _ => ?_
  dsimp only
  split
  · exact .error trivial
  split
  · split
    · exact .ok _
    · exact .error trivial
  · exact .ok _

theorem raises_indices {array : Binding ArrayType} :
    ∀ (sizes : List Nat) (texts : List Text) (short : ∀ text ∈ texts, text.length < m),
      Raises (Fault.FitsIn n) (indices inner array sizes texts short)
  | size :: sizes, text :: texts, short => by
    rw [indices]
    exact .bind (raises_index hinner _) fun _ => .bind (raises_indices sizes texts _) fun _ => .ok _
  | [], _, _ => by rw [indices.eq_def]; exact .ok _
  | _ :: _, [], _ => by rw [indices.eq_def]; exact .ok _

theorem raises_readIndexing {token : Text} (short : token.length ≤ m) :
    Raises (Fault.FitsIn n) (readIndexing symbols inner token short) := by
  unfold readIndexing
  dsimp only
  split
  · exact .error trivial
  refine .bind (.bind (Symbols.raises_resolve _ _) fun _ => ?_) fun _ => ?_
  · split
    · exact .ok _
    · exact .error trivial
  · split
    · exact .error trivial
    · exact .bind (raises_indices hinner _ _ _) fun _ => .ok _

theorem raises_readWord {token : Text} (short : token.length ≤ m) (hn : token.length ≤ n) :
    Raises (Fault.FitsIn n) (readWord symbols inner token short) := by
  unfold readWord
  split
  · refine .bind (raises_readCall hinner short hn) fun _ => ?_
    split <;> first | exact .ok _ | exact .error trivial
  · exact (raises_readIndexing hinner short).map _
  · exact (raises_readField token).map _
  · unfold readName
    split
    · exact .error trivial
    refine .bind (Symbols.raises_resolve _ _) fun _ => ?_
    split
    · exact .ok _
    · exact .error trivial

omit hinner in
theorem raises_readNumber (token : Text) : Raises (Fault.FitsIn n) (readNumber token) := by
  unfold readNumber
  split
  · exact .error trivial
  · split
    · exact .ok _
    · exact .error trivial
  · exact .ok _

theorem raises_readTerm {token : Text} (short : token.length ≤ m) (hn : token.length ≤ n) :
    Raises (Fault.FitsIn n) (readTerm symbols inner token short) := by
  unfold readTerm
  split
  · exact .ok _
  · exact .ok _
  · exact .ok _
  unfold readValue
  dsimp only
  split
  · exact .ok _
  split
  · split
    · exact .ok _
    · exact .error trivial
  split
  · exact .ok _
  split
  · exact raises_readNumber token
  split
  · exact .error trivial
  split
  · exact .error trivial
  · exact raises_readWord hinner short hn

theorem raises_readTerms :
    ∀ (tokens : List Text) (short : ∀ token ∈ tokens, token.length ≤ m),
      (∀ token ∈ tokens, token.length ≤ n) →
        Raises (Fault.FitsIn n) (readTerms symbols inner tokens short)
  | [], _, _ => .ok _
  | token :: tokens, short, hn => by
    rw [readTerms]
    obtain ⟨htoken, hrest⟩ := List.forall_mem_cons.1 hn
    exact .bind (raises_readTerm hinner _ htoken) fun _ =>
      .bind (raises_readTerms tokens _ hrest) fun _ => .ok _

theorem raises_readExpression {text : Text} (short : text.length ≤ m) (hn : text.length ≤ n) :
    Raises (Fault.FitsIn n) (readExpression symbols inner text short) := by
  unfold readExpression
  refine .bind (Token.raises_scanned text) fun ⟨tokens, within⟩ => ?_
  dsimp only
  split
  · exact .error trivial
  refine .bind (Placement.raises_check _ _) fun _ => ?_
  refine .bind (raises_readTerms hinner tokens _ fun token h => Nat.le_trans (within token h) hn) ?_
  exact fun _ => .bind (Inference.raises_infer _) fun _ => .ok _

/-! ### Arrays and tuples -/

theorem raises_elements {base : Primitive} :
    ∀ (texts : List Text) (short : ∀ text ∈ texts, text.length < m),
      Raises (Fault.FitsIn n) (elements inner base texts short)
  | [], _ => by rw [elements]; exact .ok _
  | text :: texts, short => by
    rw [elements]
    refine .bind (hinner.expression _ _) fun _ => ?_
    dsimp only
    split
    · exact .error trivial
    · exact .bind (raises_elements texts _) fun _ => .ok _

omit hinner in
theorem raises_rows {row : ArrayType} {readRow : (text : Text) → text.length < m → Check (List Item)}
    (hrow : ∀ text short, Raises (Fault.FitsIn n) (readRow text short)) :
    ∀ (texts : List Text) (short : ∀ text ∈ texts, text.length < m),
      Raises (Fault.FitsIn n) (rows row readRow texts short)
  | [], _ => by rw [rows]; exact .ok _
  | text :: texts, short => by
    rw [rows]
    split
    · exact .error trivial
    · exact .bind (hrow _ _) fun _ => .bind (raises_rows hrow texts _) fun _ => .ok _

theorem raises_readItems {base : Primitive} :
    ∀ (sizes : List Nat) (text : Text) (short : text.length ≤ m),
      Raises (Fault.FitsIn n) (readItems inner base sizes text short)
  | sizes, text, short => by
    unfold readItems
    split
    · exact .error trivial
    dsimp only
    split
    · exact .error trivial
    split
    · exact raises_rows (fun part _ => raises_readItems _ part _) _ _
    · exact raises_elements hinner _ _

theorem raises_readFields {type : TupleType} :
    ∀ (position : Nat) (types : List Primitive) (texts : List Text)
      (short : ∀ text ∈ texts, text.length < m),
      Raises (Fault.FitsIn n) (readFields inner type position types texts short)
  | position, expected :: types, text :: texts, short => by
    rw [readFields]
    refine .bind (hinner.expression _ _) fun _ => ?_
    dsimp only
    split
    · exact .error trivial
    · exact .bind (raises_readFields (position + 1) types texts _) fun _ => .ok _
  | _, [], _, _ => by rw [readFields.eq_def]; exact .ok _
  | _, _ :: _, [], _ => by rw [readFields.eq_def]; exact .ok _

theorem raises_readWhole {expected : Aggregate} {text : Text} (short : text.length ≤ m)
    (hn : text.length ≤ n) : Raises (Fault.FitsIn n) (readWhole symbols inner expected text short) := by
  unfold readWhole
  refine .bind (Token.raises_scanned text) fun ⟨tokens, within⟩ => ?_
  dsimp only
  split
  · refine .error ?_
    cases expected <;> exact trivial
  · next token within =>
    split
    · refine .bind (raises_readCall hinner _ (Nat.le_trans (within token List.mem_cons_self) hn))
        fun _ => ?_
      split
      · exact .ok _
      · exact .error trivial
    split
    · unfold readArrayName
      split
      · split
        · exact .ok _
        · exact .error trivial
      · exact .error trivial
      · split <;> exact .error trivial
    · refine .bind (Symbols.raises_resolve _ _) fun _ => ?_
      split
      · split
        · exact .ok _
        · exact .error trivial
      · exact .error trivial
  · refine .error ?_
    cases expected <;> exact trivial

theorem raises_readAggregate {expected : Aggregate} {text : Text} (short : text.length ≤ m)
    (hn : text.length ≤ n) :
    Raises (Fault.FitsIn n) (readAggregate symbols inner expected text short) := by
  have htrim : text.trim.length ≤ n := Nat.le_trans (Text.length_trim_le text) hn
  unfold readAggregate
  dsimp only
  split
  · split
    · exact (raises_readItems hinner _ _ _).map _
    · exact raises_readWhole hinner _ htrim
  · split
    · split
      · exact .error trivial
      · exact .bind (raises_readFields hinner _ _ _ _) fun _ => .ok _
    · exact raises_readWhole hinner _ htrim

end

mutual

theorem raises_expression (symbols : Symbols) (text : Text) :
    Raises (Fault.FitsIn text.length) (expression symbols text) := by
  rw [expression]
  refine raises_readExpression ⟨fun part short => ?_, fun type part short => ?_⟩ _ (Nat.le_refl _)
  · exact (raises_expression symbols part).imp fun fault h => h.mono (Nat.le_of_lt short)
  · exact (raises_aggregate symbols type part).imp fun fault h => h.mono (Nat.le_of_lt short)
termination_by text.length

theorem raises_aggregate (symbols : Symbols) (expected : Aggregate) (text : Text) :
    Raises (Fault.FitsIn text.length) (aggregate symbols expected text) := by
  rw [aggregate]
  refine raises_readAggregate ⟨fun part short => ?_, fun type part short => ?_⟩ _ (Nat.le_refl _)
  · exact (raises_expression symbols part).imp fun fault h => h.mono (Nat.le_of_lt short)
  · exact (raises_aggregate symbols type part).imp fun fault h => h.mono (Nat.le_of_lt short)
termination_by text.length

end

theorem fitsIn_inside (symbols : Symbols) (n : Nat) : (inside symbols n).FitsIn n where
  expression _ short := (raises_expression symbols _).imp fun _ h => h.mono (Nat.le_of_lt short)
  aggregate _ _ short := (raises_aggregate symbols _ _).imp fun _ h => h.mono (Nat.le_of_lt short)

end Expression

/-- The fault is not that a block is never closed. -/
def Fault.IsInLine (fault : Fault) : Prop := fault.kind ≠ .unclosedScope

theorem Expression.raises_isInLine (symbols : Symbols) (text : Text) :
    Raises Fault.IsInLine (expression symbols text) :=
  (raises_expression symbols text).imp fun _ h => h.kind_ne

/-! ### Statements -/

namespace Statement

variable {f : Frame} {symbols : Symbols} {scope : Scope}

theorem raises_ofType (type : Primitive) (what text : Text) :
    Raises Fault.IsInLine (Expression.ofType symbols type what text) := by
  refine .bind (Expression.raises_isInLine symbols text) fun _ => ?_
  split
  · exact .ok _
  · exact .error nofun

theorem raises_aggregate (expected : Aggregate) (text : Text) :
    Raises Fault.IsInLine (aggregate symbols expected text) :=
  (Expression.raises_aggregate symbols expected text).imp fun _ h => h.kind_ne

theorem raises_readValue (what : Text) (type : ValueType) (text : Text) :
    Raises Fault.IsInLine (readValue symbols what type text) := by
  unfold readValue
  split
  · exact (raises_ofType _ _ _).map _
  · exact raises_aggregate _ _
  · exact raises_aggregate _ _

theorem raises_resolve (name : Name) : Raises Fault.IsInLine (symbols.resolve name) :=
  (Symbols.raises_resolve (n := 0) symbols name).imp fun _ h => h.kind_ne

theorem raises_ensureFree (name : Name) : Raises Fault.IsInLine (symbols.ensureFree name) :=
  (Symbols.raises_ensureFree (n := 0) symbols name).imp fun _ h => h.kind_ne

theorem raises_declare (d : Descriptor) : Raises Fault.IsInLine (f.declare d) :=
  (Frame.raises_declare (n := 0) f d).imp fun _ h => h.kind_ne

theorem raises_readType (r : Requirements) (t : Text) : Raises Fault.IsInLine (r.readType t).1 :=
  (Requirements.raises_readType (n := 0) r t).imp fun _ h => h.kind_ne

theorem raises_readDeclaration (line : Text) : Raises Fault.IsInLine (readDeclaration f line) := by
  unfold readDeclaration
  split
  · exact .error nofun
  dsimp only
  split
  · exact .error nofun
  split
  · exact .error nofun
  refine .bind (raises_ensureFree _) fun _ => .bind (raises_readType _ _) fun _ => ?_
  split
  · exact .error nofun
  · exact .bind (raises_readValue _ _ _) fun _ => .bind (raises_declare _) fun _ => .ok _

theorem raises_readAssignment (line : Text) : Raises Fault.IsInLine (readAssignment symbols line) := by
  unfold readAssignment
  split
  · exact .error (by rintro ⟨⟩)
  dsimp only
  split
  · exact .error (by rintro ⟨⟩)
  split
  · refine .bind ?_ fun _ => ?_
    · exact (Expression.raises_readIndexing (Expression.fitsIn_inside symbols _) _).imp
        fun _ h => h.kind_ne
    dsimp only
    split
    · exact .error (by rintro ⟨⟩)
    · exact .bind (raises_ofType _ _ _) fun _ => .ok _
  · unfold readWholeAssignment
    split
    · exact .error (by rintro ⟨⟩)
    refine .bind (.bind (raises_resolve _) fun _ => ?_) fun _ => ?_
    · split <;> first | exact .ok _ | exact .error (by rintro ⟨⟩)
    · dsimp only
      split
      · exact .error (by rintro ⟨⟩)
      · exact .bind (raises_readValue _ _ _) fun _ => .ok _

theorem raises_readJump (jump : Jump) (line : Text) : Raises Fault.IsInLine (readJump scope jump line) := by
  unfold readJump
  split
  · exact .error nofun
  split
  · exact .error nofun
  · exact .ok _

theorem raises_readBuiltin (line : Text) : Raises Fault.IsInLine (readBuiltin f line) := by
  unfold readBuiltin
  split
  · split
    · dsimp only
      split
      · exact .error nofun
      split
      · split
        · exact .error nofun
        refine .bind (Expression.raises_isInLine _ _) fun argument => .bind ?_ fun _ => .ok _
        unfold checkArgument
        split
        · exact .error nofun
        · exact .ok _
      · exact .error nofun
    · exact .error nofun
  · exact .error nofun

theorem raises_readResult (line : Text) : Raises Fault.IsInLine (readResult scope line) := by
  have hreturn {fault : Fault} (h : fault.IsInLine) : (Fault.inReturn fault).IsInLine := by
    rw [Fault.IsInLine, Fault.kind]
    split
    · nofun
    · exact h
  unfold readResult
  split
  · exact .error nofun
  · exact .error nofun
  · refine .bind (Expression.raises_isInLine _ _) fun _ => ?_
    split
    · exact .ok _
    · exact .error nofun
  · exact .bind ((raises_aggregate _ _).mapError fun _ => hreturn) fun _ => .ok _
  · exact .bind ((raises_aggregate _ _).mapError fun _ => hreturn) fun _ => .ok _

theorem raises_readCondition (text : Text) : Raises Fault.IsInLine (readCondition symbols text) := by
  refine .bind (Expression.raises_isInLine _ _) fun _ => ?_
  split
  · exact .ok _
  · exact .error nofun

end Statement

/-! ### Headers -/

namespace Program

open Statement (raises_declare raises_ensureFree raises_readCondition raises_readType)

theorem raises_expectPlainClose (close : Line) : Raises Fault.IsInLine (expectPlainClose close) := by
  unfold expectPlainClose
  dsimp only
  split
  · exact .ok _
  split
  · exact .error nofun
  · exact .error nofun

theorem raises_readNextHeader (symbols : Symbols) (isLast : Bool) (rest : Text) :
    Raises Fault.IsInLine (readNextHeader symbols isLast rest) := by
  unfold readNextHeader
  split
  · exact .error nofun
  dsimp only
  split
  · exact .error nofun
  split
  · exact .error nofun
  split
  · exact .ok _
  split
  · split
    · exact .error nofun
    · exact (raises_readCondition _).map _
  · exact .error nofun

theorem raises_readParameter (r : Requirements) (earlier : List Name) (text : Text) :
    Raises Fault.IsInLine (readParameter r earlier text) := by
  unfold readParameter
  split
  · exact .error nofun
  dsimp only
  split
  · exact .error nofun
  split
  · exact .error nofun
  refine .bind ((raises_readType r _).mapError fun _ _ => nofun) fun _ => ?_
  split
  · exact .error nofun
  · exact .ok _

theorem raises_readParameters (r : Requirements) (earlier : List Name) (texts : List Text) :
    Raises Fault.IsInLine (readParameters r earlier texts) := by
  induction texts generalizing r earlier with
  | nil => exact .ok _
  | cons text texts ih =>
    exact .bind (raises_readParameter r earlier text) fun _ => .bind (ih _ _) fun _ => .ok _

theorem raises_readSignature (f : Frame) (line : Text) :
    Raises Fault.IsInLine (readSignature f line) := by
  unfold readSignature
  split
  · exact .error nofun
  split
  · exact .error nofun
  refine .bind (raises_ensureFree _) fun _ => .bind (raises_readParameters _ _ _) fun _ => ?_
  refine .bind ((raises_readType _ _).mapError fun _ _ => nofun) fun _ => .bind ?_ fun _ => .ok _
  unfold checkSignature
  split
  · split
    · exact .error nofun
    split
    · exact .error nofun
    · exact .ok _
  split
  · exact .error nofun
  · exact .ok _

theorem raises_enterFunction (f : Frame) (s : Signature) :
    Raises Fault.IsInLine (enterFunction f s) := by
  have hparameters (g : Frame) (parameters : List Parameter) :
      Raises Fault.IsInLine (declareParameters g parameters) := by
    induction parameters generalizing g with
    | nil => exact .ok _
    | cons p rest ih => exact .bind (raises_declare _) ih
  exact .bind (raises_declare _) fun g => hparameters g s.parameters

theorem raises_checkPlace (kind : LineKind) (scope : ScopeKind) (text : Text) :
    Raises Fault.IsInLine (checkPlace kind scope text) := by
  unfold checkPlace
  split
  · split
    · exact .ok _
    · exact .error nofun
  split
  · exact .error nofun
  · exact .ok _

end Program

end StellaGo
