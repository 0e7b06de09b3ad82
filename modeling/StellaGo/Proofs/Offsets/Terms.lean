import StellaGo.Proofs.Offsets.Inference
import StellaGo.Proofs.Offsets.Tokens
import StellaGo.Proofs.Reading.Terms
import StellaGo.Proofs.TokenNames
import StellaGo.Proofs.TokenOrder

/-! Expressions by byte offset. Defined here: the readers of calls, indices, names and expressions
that look for the first bracket of a token and cut the token there, with readers for what stands
inside. Proved: where the readers for the inside come to their end, so do these, with the term or the
fault that the readers on characters give. -/

namespace StellaGo.Offsets

open Outcome (bind_eq_ended ended ended_bind ended_ite ended_map ite_eq_ended liftM_eq_ended liftM_some)

/-! ### The first bracket of a token -/

/-- The byte at which the first character with a property starts. -/
def find? (p : Char → Bool) : Text → Option Nat
  | [] => none
  | c :: rest => if p c then some 0 else (find? p rest).map (c.utf8Size + ·)

theorem find?_eq_some {p : Char → Bool} {t : Text} {start : Nat} (h : find? p t = some start) :
    ∃ front c rest, t = front ++ c :: rest ∧ start = Text.byteSize front ∧ t.find? p = some c := by
  induction t generalizing start with
  | nil => cases h
  | cons c rest ih =>
    rw [find?] at h
    by_cases hc : p c
    · rw [if_pos hc] at h
      cases h
      exact ⟨[], c, rest, rfl, rfl, List.find?_cons_of_pos hc⟩
    · rw [if_neg hc] at h
      obtain ⟨b, hb, rfl⟩ := Option.map_eq_some_iff.1 h
      obtain ⟨front, d, behind, rfl, rfl, hd⟩ := ih hb
      exact ⟨c :: front, d, behind, rfl, rfl, by rw [List.find?_cons_of_neg hc, hd]⟩

theorem find?_eq_none {p : Char → Bool} {t : Text} (h : find? p t = none) : t.find? p = none := by
  induction t with
  | nil => rfl
  | cons c rest ih =>
    rw [find?] at h
    by_cases hc : p c
    · rw [if_pos hc] at h
      cases h
    · rw [if_neg hc, Option.map_eq_none_iff] at h
      rw [List.find?_cons_of_neg hc, ih h]

/-- The name before the first `b` ends where that starts, or at the end of the token. -/
theorem find?_getD (b : Char) (t : Text) :
    (find? (· == b) t).getD t.byteSize = t.byteOffset (t.takeWhile (· != b)).length := by
  induction t with
  | nil => rfl
  | cons c rest ih =>
    rw [find?, List.takeWhile_cons]
    by_cases hc : c = b
    · simp [hc, Text.byteOffset]
    · rw [if_neg (by simpa using hc), if_pos (by simpa using hc), List.length_cons, Text.byteSize_cons]
      have hnext : Text.byteOffset (c :: rest) ((rest.takeWhile (· != b)).length + 1) =
          c.utf8Size + Text.byteOffset rest (rest.takeWhile (· != b)).length := rfl
      rw [hnext, ← ih]
      cases find? (· == b) rest <;> rfl

theorem slice?_takeWhile (q : Char → Bool) (t : Text) :
    t.slice? 0 (t.byteOffset (t.takeWhile q).length) = some (t.takeWhile q) := by
  have hslice := Text.slice?_byteOffset t (Nat.zero_le (t.takeWhile q).length)
  rwa [List.drop_zero, ← List.prefix_iff_eq_take.1 (List.takeWhile_prefix q)] at hslice

theorem eq_of_mem_getElem?_takeWhile {b : Char} {t : Text} :
    ∀ c ∈ t[(t.takeWhile (· != b)).length]?, c = b := by
  induction t with
  | nil => nofun
  | cons c rest ih =>
    rw [List.takeWhile_cons]
    by_cases hc : c = b
    · simp [hc]
    · rw [if_pos (by simpa using hc), List.length_cons, List.getElem?_cons_succ]
      exact ih

/-! ### Calls -/

/-- Readers for expressions and for whole arrays and tuples. -/
structure Readers where
  expression : Text → Outcome Fault Expression
  aggregate : Aggregate → Text → Outcome Fault Value

/-- The readers come to their end on every text of fewer than `n` characters. -/
structure Readers.Agree (inner : Readers) (symbols : Symbols) (n : Nat) : Prop where
  expression : ∀ text, text.length < n → inner.expression text = ended (StellaGo.expression symbols text)
  aggregate : ∀ type text, text.length < n →
    inner.aggregate type text = ended (StellaGo.aggregate symbols type text)

section

variable (symbols : Symbols) (inner : Readers)

def argument (function : Name) (position : Nat) (parameter : Parameter) (text : Text) :
    Outcome Fault Value :=
  match parameter.type with
  | .primitive type => do
    let e ← inner.expression text
    if e.type = type then return .scalar e
    else throw (.argumentType position function parameter.name type e.type)
  | .array type => inner.aggregate (.array type) text
  | .tuple type => inner.aggregate (.tuple type) text

def arguments (function : Name) :
    (position : Nat) → List Parameter → List Text → Outcome Fault (List Value)
  | position, parameter :: parameters, text :: texts => do
    let value ← argument inner function position parameter text
    let values ← arguments function (position + 1) parameters texts
    return value :: values
  | _, _, _ => return []

/-- `name(argument, ...)`, cut at the first round bracket and at the last byte. -/
def readCall (token : Text) : Outcome Fault Call := do
  let start := (find? (· == '(') token).getD token.byteSize
  let name ← token.slice? 0 start
  match ← inside? token start with
  | none => throw (.malformedCall token)
  | some inside =>
    let signature ← Expression.callee symbols name
    let texts ← topLevelParts inside ','
    if texts.length ≠ signature.parameters.length then
      throw (.argumentCount name signature.parameters.length texts.length)
    let values ← arguments inner name 1 signature.parameters texts
    return ⟨signature.name, values, signature.returns⟩

end

section

variable {symbols : Symbols} {inner : Readers} {n : Nat} (hinner : inner.Agree symbols n)
include hinner

theorem argument_eq (function : Name) (position : Nat) (parameter : Parameter) {text : Text}
    (short : text.length < n) :
    argument inner function position parameter text =
      ended (Expression.argument (Expression.inside symbols n) function position parameter text
        short) := by
  obtain ⟨name, type⟩ := parameter
  cases type with
  | primitive type =>
    unfold argument Expression.argument
    refine bind_eq_ended (hinner.expression text short) fun e _ => ?_
    exact ite_eq_ended (fun _ => rfl) fun _ => rfl
  | array type => exact hinner.aggregate _ text short
  | tuple type => exact hinner.aggregate _ text short

theorem arguments_eq (function : Name) (position : Nat) (parameters : List Parameter)
    {texts : List Text} (short : ∀ text ∈ texts, text.length < n) :
    arguments inner function position parameters texts =
      ended (Expression.arguments (Expression.inside symbols n) function position parameters texts
        short) := by
  induction texts generalizing position parameters with
  | nil => cases parameters <;> rfl
  | cons text texts ih =>
    cases parameters with
    | nil => rfl
    | cons parameter parameters =>
      have shorter : ∀ other ∈ texts, other.length < n := fun other h =>
        short other (List.mem_cons_of_mem _ h)
      have hvalue := argument_eq hinner function position parameter (short text List.mem_cons_self)
      rw [arguments, Expression.arguments]
      apply bind_eq_ended hvalue
      intro value _
      apply bind_eq_ended (ih (position + 1) parameters shorter)
      intro values _
      rfl

theorem readCall_eq {token : Text} (hne : token ≠ []) (short : token.length ≤ n) :
    readCall symbols inner token =
      ended (Expression.readCall symbols (Expression.inside symbols n) token short) := by
  have hinside := inside?_byteOffset hne fun c hc => by
    rw [eq_of_mem_getElem?_takeWhile (b := '(') c hc]
    rfl
  unfold Expression.readCall
  dsimp only
  split
  · next h =>
    rw [h] at hinside
    rw [readCall, find?_getD, slice?_takeWhile, hinside]
    rfl
  · next inside h =>
    rw [h] at hinside
    rw [readCall, find?_getD, slice?_takeWhile, hinside]
    simp only [liftM_some, pure_bind, topLevelParts_eq]
    apply bind_eq_ended rfl
    intro signature _
    apply ite_eq_ended (fun _ => rfl)
    intro _
    exact bind_eq_ended (arguments_eq hinner _ _ _ _) fun values _ => rfl

end

/-! ### Indices -/

/-- The texts in the square brackets that follow each other from the byte `cursor` on and make up the
rest of the token. -/
def indexTexts (token : Text) : (fuel cursor : Nat) → Option (Option (List Text))
  | 0, _ => none
  | fuel + 1, cursor =>
    if cursor < token.byteSize then
      match closerFrom? token cursor with
      | none => some none
      | some close => do
        let ahead ← token.sliceFrom? cursor
        if Text.startsWith '[' ahead then
          let text ← token.slice? (cursor + 1) close
          let texts? ← indexTexts token fuel (close + 1)
          return texts?.map (text :: ·)
        else return none
    else some (some [])

theorem indexTexts_byteOffset {token : Text} {fuel i : Nat} (hi : i ≤ token.length)
    (hfuel : token.length - i < fuel) :
    indexTexts token fuel (token.byteOffset i) = some (token.indices? i) := by
  induction fuel generalizing i with
  | zero => exact absurd hfuel (Nat.not_lt_zero _)
  | succ fuel ih =>
    have hlength := Glyph.length_ofText token
    rw [indexTexts, closerFrom?_byteOffset, Text.indices?]
    by_cases hend : i = token.length
    · have hdrop : (Glyph.ofText token).drop i = [] := List.drop_eq_nil_of_le (by omega)
      rw [hdrop, Glyph.squareInsides?, hend, Text.byteOffset_length, if_neg (Nat.lt_irrefl _)]
    obtain ⟨g, rest, hrest⟩ : ∃ g rest, (Glyph.ofText token).drop i = g :: rest :=
      List.exists_cons_of_ne_nil (by rw [ne_eq, List.drop_eq_nil_iff]; omega)
    have hahead : token.drop i = g.char :: rest.map Glyph.char := by
      rw [← Glyph.map_char_ofText token, ← List.map_drop, hrest, List.map_cons]
    have hbehind : (Glyph.ofText token).drop (i + 1) = rest := by
      rw [← List.tail_drop, hrest, List.tail_cons]
    have hnext := Text.byteOffset_succ (t := token) (i := i) (c := g.char)
      (by rw [← List.head?_drop, hahead, List.head?_cons])
    have hbelow : token.byteOffset i < token.byteSize := by
      have hpos := g.char.utf8Size_pos
      have hle := Text.byteOffset_mono token (show i + 1 ≤ token.length by omega)
      rw [Text.byteOffset_length] at hle
      omega
    rw [if_pos hbelow, hrest, Glyph.squareInsides?]
    cases hcloser : token.closerFrom? i with
    | none =>
      have hclosing : Glyph.closing 0 (g :: rest) = none := by
        rwa [Text.closerFrom?, hrest, Option.map_eq_none_iff] at hcloser
      rw [hclosing]
      exact congrArg some (ite_self none).symm
    | some close =>
      have hlt := Text.closerFrom?_lt_length hcloser
      have hsucc := byteOffset_succ_of_closerFrom? hcloser
      have hafter := lt_of_closerFrom? hcloser
      rw [Text.closerFrom?, hrest] at hcloser
      obtain ⟨k, hk, rfl⟩ := Option.map_eq_some_iff.1 hcloser
      have hindices : token.indices? (i + k + 1) = Glyph.squareInsides? (rest.drop k) := by
        rw [Text.indices?, Nat.add_right_comm, ← List.drop_drop, hbehind]
      rw [Option.map_some]
      dsimp only
      rw [Text.sliceFrom?_byteOffset, hahead, hk, Option.bind_eq_bind, Option.bind_some]
      by_cases hopen : g.char = '['
      · have hone : token.byteOffset i + 1 = token.byteOffset (i + 1) := by
          rw [hnext, hopen]
          rfl
        have hpart : (token.take (i + k)).drop (i + 1) = (rest.take (k - 1)).map Glyph.char := by
          have hwidth : i + k - (i + 1) = k - 1 := by omega
          rw [List.drop_take, hwidth, ← List.tail_drop, hahead, List.tail_cons, List.map_take]
        rw [if_pos (by simp [Text.startsWith, hopen]), if_pos (by simp [hopen]), hone,
          Text.slice?_byteOffset token (by omega), hpart, ← hsucc, ih (by omega) (by omega), hindices]
        rfl
      · rw [if_neg (by simp [Text.startsWith, hopen]), if_neg (by simp [hopen])]
        rfl

section

variable (symbols : Symbols) (inner : Readers)

def index (array : Binding ArrayType) (size : Nat) (text : Text) : Outcome Fault Expression := do
  let e ← inner.expression text
  if e.type ≠ .int then throw (.wrongType "an array index".toList .int e.type)
  match e.constant? with
  | some value =>
    if Expression.inRange value size then return e
    else throw (.indexRange value array.name array.type size)
  | none => return e

def indices (array : Binding ArrayType) :
    (sizes : List Nat) → (texts : List Text) → Outcome Fault (List Expression)
  | size :: sizes, text :: texts => do
    let e ← index inner array size text
    let es ← indices array sizes texts
    return e :: es
  | _, _ => return []

/-- `name[index]...[index]`, cut at the first square bracket and where each bracket closes. -/
def readIndexing (token : Text) : Outcome Fault Indexing := do
  let start := (find? (· == '[') token).getD token.byteSize
  let name ← token.slice? 0 start
  match ← indexTexts token (token.length + 1) start with
  | none => throw (.malformedIndex token)
  | some texts =>
    let array ← Expression.indexedArray symbols name
    if texts.length ≠ array.type.dimensions.length then
      throw (.indexCount name array.type.dimensions.length texts.length)
    let es ← indices inner array array.type.dimensions texts
    return ⟨array.name, es, array.type.base⟩

end

section

variable {symbols : Symbols} {inner : Readers} {n : Nat} (hinner : inner.Agree symbols n)
include hinner

theorem index_eq (array : Binding ArrayType) (size : Nat) {text : Text} (short : text.length < n) :
    index inner array size text =
      ended (Expression.index (Expression.inside symbols n) array size text short) := by
  unfold index Expression.index
  apply bind_eq_ended (hinner.expression text short)
  intro e _
  apply ite_eq_ended (fun _ => rfl)
  intro _
  cases e.constant? with
  | none => rfl
  | some value => exact (ended_ite _ _).symm

theorem indices_eq (array : Binding ArrayType) (sizes : List Nat) {texts : List Text}
    (short : ∀ text ∈ texts, text.length < n) :
    indices inner array sizes texts =
      ended (Expression.indices (Expression.inside symbols n) array sizes texts short) := by
  induction texts generalizing sizes with
  | nil => cases sizes <;> rfl
  | cons text texts ih =>
    cases sizes with
    | nil => rfl
    | cons size sizes =>
      have shorter : ∀ other ∈ texts, other.length < n := fun other h =>
        short other (List.mem_cons_of_mem _ h)
      rw [indices, Expression.indices]
      apply bind_eq_ended (index_eq hinner array size (short text List.mem_cons_self))
      intro e _
      apply bind_eq_ended (ih sizes shorter)
      intro es _
      rfl

theorem readIndexing_eq {token : Text} (short : token.length ≤ n) :
    readIndexing symbols inner token =
      ended (Expression.readIndexing symbols (Expression.inside symbols n) token short) := by
  have htexts := indexTexts_byteOffset (List.takeWhile_prefix (· != '[')).length_le
    (Nat.lt_succ_of_le (Nat.sub_le token.length _))
  unfold Expression.readIndexing
  dsimp only
  split
  · next h =>
    rw [h] at htexts
    rw [readIndexing, find?_getD, slice?_takeWhile, htexts]
    rfl
  · next texts h =>
    rw [h] at htexts
    rw [readIndexing, find?_getD, slice?_takeWhile, htexts]
    simp only [liftM_some, pure_bind]
    apply bind_eq_ended rfl
    intro array _
    apply ite_eq_ended (fun _ => rfl)
    intro _
    exact bind_eq_ended (indices_eq hinner _ _ _) fun es _ => rfl

end

/-! ### Terms -/

theorem scan_eq_scanned (t : Text) : scan t = Subtype.val <$> ended (Token.scanned t) := by
  rw [scan_eq, ← ended_map, Token.scanned]
  split <;> next h => exact congrArg ended h

/-- The terms that the tokens of a text spell are those of a parse tree. -/
theorem exists_tree_of_tokens {symbols : Symbols} {text : Text} {tokens : List Text}
    {terms : List Term} (hscan : Token.scan text = .ok tokens) (hne : tokens ≠ [])
    (hcheck : Placement.check none tokens = .ok ())
    (hterms : tokens.mapM (Expression.term symbols) = .ok terms) :
    ∃ t : Tree, t.FollowsGo ∧ t.terms = terms := by
  have hfollow := Expression.canFollow_of_terms hscan hne hcheck (Check.mapM_eq_ok_iff.1 hterms)
  obtain ⟨t, ht⟩ := Parse.exists_finish (p := Parse.start) hfollow
  exact ⟨t, Tree.parse_eq_some_iff.1 ht⟩

theorem ne_nil_of_shape {token : Text} (h : Token.Shape token) : token ≠ [] := by
  cases h with
  | literal | bracket | word => nofun
  | operator op => cases op <;> decide

section

variable (symbols : Symbols) (inner : Readers)

def readScalarCall (token : Text) : Outcome Fault Term := do
  let call ← readCall symbols inner token
  match call.returns with
  | .primitive .io | .array _ | .tuple _ => throw (.callAsValue call.name call.returns)
  | .primitive _ => return .call call

/-- A token that starts with a letter: its part from the first of `(`, `[` and `.` on tells what it
is. -/
def readWord (token : Text) : Outcome Fault Term :=
  match find? (· ∈ ['(', '[', '.']) token with
  | some start => do
    let ahead ← token.sliceFrom? start
    if Text.startsWith '(' ahead then readScalarCall symbols inner token
    else if Text.startsWith '[' ahead then .element <$> readIndexing symbols inner token
    else (Expression.readField symbols token).map .field
  | none => Expression.readName symbols token

def readValue (token : Text) : Outcome Fault Term :=
  let first := token.headD '\x00'
  if first == '"' then return .literal token .string
  else if first == '\'' then
    if Literal.isByte token then return .literal token .byte else throw (.notByte token)
  else if token = "true".toList ∨ token = "false".toList then return .literal token .bool
  else if first.isDigit then Expression.readNumber token
  else if first == '[' then throw (.arrayAsValue token)
  else if !first.isAlpha then throw (.strayToken token)
  else readWord symbols inner token

def readTerm (token : Text) : Outcome Fault Term :=
  match Token.classify token with
  | .opening b => return .opening b
  | .closing b => return .closing b
  | .operator op => return .operator op
  | .value => readValue symbols inner token

def readTerms : (tokens : List Text) → Outcome Fault (List Term)
  | [] => return []
  | token :: tokens => do
    let term ← readTerm symbols inner token
    let terms ← readTerms tokens
    return term :: terms

def readExpression (text : Text) : Outcome Fault Expression := do
  let tokens ← scan text
  if tokens = [] then throw .noExpression
  checkPlacement tokens
  let terms ← readTerms symbols inner tokens
  return ⟨terms, ← infer (terms.length + 1) terms⟩

end

section

variable {symbols : Symbols} {inner : Readers} {n : Nat} (hinner : inner.Agree symbols n)
include hinner

theorem readScalarCall_eq {token : Text} (hne : token ≠ []) (short : token.length ≤ n) :
    readScalarCall symbols inner token =
      ended (Expression.readScalarCall symbols (Expression.inside symbols n) token short) := by
  rw [readScalarCall, Expression.readScalarCall]
  apply bind_eq_ended (readCall_eq hinner hne short)
  rintro ⟨name, arguments, returns⟩ _
  cases returns with
  | primitive type => cases type <;> rfl
  | array | tuple => rfl

theorem readWord_eq {token : Text} (hne : token ≠ []) (short : token.length ≤ n) :
    readWord symbols inner token =
      ended (Expression.readWord symbols (Expression.inside symbols n) token short) := by
  rw [readWord, Expression.readWord]
  cases hfind : find? (· ∈ ['(', '[', '.']) token with
  | none =>
    rw [find?_eq_none hfind]
    rfl
  | some start =>
    obtain ⟨front, c, rest, htoken, rfl, hc⟩ := find?_eq_some hfind
    have hahead := Text.sliceFrom?_append front (c :: rest)
    rw [← htoken] at hahead
    have hmem := List.find?_some hc
    simp only [List.mem_cons, List.not_mem_nil, or_false, decide_eq_true_eq] at hmem
    dsimp only
    rw [hahead, hc, liftM_some, pure_bind]
    rcases hmem with rfl | rfl | rfl
    · exact readScalarCall_eq hinner hne short
    · exact (congrArg (Term.element <$> ·) (readIndexing_eq hinner short)).trans (ended_map _ _).symm
    · rfl

theorem readValue_eq {token : Text} (hne : token ≠ []) (short : token.length ≤ n) :
    readValue symbols inner token =
      ended (Expression.readValue symbols (Expression.inside symbols n) token short) := by
  rw [readValue, Expression.readValue, readWord_eq hinner hne short]
  simp only [ended_ite, Outcome.ended_ok, Outcome.ended_error, liftM_eq_ended]

theorem readTerm_eq {token : Text} (hne : token ≠ []) (short : token.length ≤ n) :
    readTerm symbols inner token =
      ended (Expression.readTerm symbols (Expression.inside symbols n) token short) := by
  rw [readTerm, Expression.readTerm, readValue_eq hinner hne short]
  cases Token.classify token <;> rfl

theorem readTerms_eq {tokens : List Text} (hne : ∀ token ∈ tokens, token ≠ [])
    (short : ∀ token ∈ tokens, token.length ≤ n) :
    readTerms symbols inner tokens =
      ended (Expression.readTerms symbols (Expression.inside symbols n) tokens short) := by
  induction tokens with
  | nil => rfl
  | cons token tokens ih =>
    have hterm := readTerm_eq hinner (hne token List.mem_cons_self) (short token List.mem_cons_self)
    have hterms := ih (fun other h => hne other (List.mem_cons_of_mem _ h)) fun other h =>
      short other (List.mem_cons_of_mem _ h)
    rw [readTerms, Expression.readTerms]
    apply bind_eq_ended hterm
    intro term _
    exact bind_eq_ended hterms fun terms _ => rfl

theorem readExpression_eq {text : Text} (short : text.length ≤ n) :
    readExpression symbols inner text =
      ended (Expression.readExpression symbols (Expression.inside symbols n) text short) := by
  rw [readExpression, Expression.readExpression, scan_eq_scanned, bind_map_left, ended_bind]
  refine Outcome.bind_congr_ended fun scanned hscanned => ?_
  obtain ⟨tokens, within⟩ := scanned
  have hscan := Expression.scanned_eq_ok_iff.1 hscanned
  have hne : ∀ token ∈ tokens, token ≠ [] := fun token h =>
    ne_nil_of_shape (Token.shape_of_mem_scanInside hscan token h)
  have hshort : ∀ token ∈ tokens, token.length ≤ n := fun token h => Nat.le_trans (within token h) short
  apply ite_eq_ended (fun _ => rfl)
  intro hnone
  apply bind_eq_ended (checkPlacement_eq tokens)
  intro _ hcheck
  apply bind_eq_ended (readTerms_eq hinner hne hshort)
  intro terms hterms
  rw [Expression.readTerms_inside] at hterms
  obtain ⟨t, ht, rfl⟩ := exists_tree_of_tokens hscan hnone hcheck hterms
  exact bind_eq_ended (infer_eq ht (Nat.lt_succ_self _)) fun type _ => rfl

end

end StellaGo.Offsets
