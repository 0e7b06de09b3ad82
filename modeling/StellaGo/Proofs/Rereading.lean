import StellaGo.Proofs.Rescanning
import StellaGo.Proofs.RoundBrackets
import StellaGo.Proofs.TokenBoundaries

/-! Reading Go text piece by piece. Defined here: texts that can stand between commas. Proved: calls,
indexings, whole arrays and tuples and literals in the form in which Go text has them are accepted, if
what stands in their brackets is. -/

namespace StellaGo

open Text (Closes)
open Token (IsOperand)
open Expression (ReadsValue ReadsAggregate inside)

/-! ### Parts -/

/-- The text can stand between commas. -/
structure Text.IsPart (t : Text) : Prop where
  closes : Closes false [] t
  ne_nil : t ≠ []
  trim_eq : t.trim = t

theorem Token.IsOperand.exists_cons {t : Text} (h : IsOperand t) :
    ∃ c rest, t = c :: rest ∧ isBlank c = false := by
  obtain ⟨c, rest, rfl, hc⟩ := h.starts
  refine ⟨c, rest, rfl, ?_⟩
  rcases hc with hc | hc
  · exact isBlank_eq_false_of_word (by rw [hc, Bool.true_or])
  · rcases isQuote_iff.1 hc with rfl | rfl <;> rfl

theorem Token.IsOperand.isPart {t : Text} (h : IsOperand t) : t.IsPart where
  closes := h.closes
  ne_nil := by
    obtain ⟨c, rest, rfl, -⟩ := h.starts
    exact List.cons_ne_nil c rest
  trim_eq := by
    obtain ⟨c, rest, rfl, hc⟩ := h.exists_cons
    exact Text.trim_eq_self hc h.ends

namespace Token.IsOperand

/-- A name, or one with brackets behind it. -/
theorem of_name {name : Name} {u : Text} (hname : Name.isIdentifier name) (hr : Runs u)
    (hcloses : Closes false [] u) (hends : u ≠ [] → u.EndsVisibly) : IsOperand (name ++ u) := by
  obtain ⟨c, rest, rfl, hc, hword⟩ := Name.exists_cons_of_isIdentifier hname
  have hheld : ∀ d ∈ c :: rest, isHeldChar d := fun d hd => isHeldChar_of_word (hword d hd)
  have halphanum : c.isAlphanum := by rw [Char.isAlphanum, hc, Bool.true_or]
  have hoperand := of_held halphanum hheld
  have hvisible : Text.EndsVisibly ((c :: rest) ++ u) := by
    rcases eq_or_ne u [] with rfl | hne
    · rw [List.append_nil]
      exact hoperand.ends
    · exact (hends hne).append (c :: rest)
  exact of_runs halphanum ((Runs.of_held hheld).append hr) (hoperand.closes.append hcloses .inl) hvisible

theorem identifier {name : Name} (hname : Name.isIdentifier name) : IsOperand name := by
  have hoperand := of_name hname .nil .nil fun hne => absurd rfl hne
  rwa [List.append_nil] at hoperand

theorem call {name : Name} (hname : Name.isIdentifier name) {parts : List Text}
    (h : ∀ part ∈ parts, part.IsPart) :
    IsOperand (name ++ '(' :: (Go.commas parts ++ [')'])) := by
  have hcommas : Closes true [] (Go.commas parts) := .commas fun part hpart => (h part hpart).closes
  exact of_name hname (.group hcommas .round) (hcommas.group .round) fun _ =>
    (Text.EndsVisibly.last rfl (Go.commas parts)).cons '('

theorem indexing {name : Name} (hname : Name.isIdentifier name) {parts : List Text}
    (h : ∀ part ∈ parts, Closes true [] part) :
    IsOperand (name ++ squareGroups parts) := by
  refine of_name hname (.squareGroups h) (closes_squareGroups h) fun hne => ?_
  refine endsVisibly_squareGroups ?_
  rintro rfl
  exact hne rfl

end Token.IsOperand

namespace Expression

variable {symbols : Symbols} {n : Nat}

/-! ### Calls -/

/-- A name ends in front of a bracket. -/
theorem takeWhile_name {name : Name} (hname : Name.isIdentifier name) {c : Char} {u : Text}
    (hc : (c.isAlphanum || c == '_') = false) (hu : ∀ d ∈ u.head?, d = c) :
    (name ++ u).takeWhile (· != c) = name := by
  obtain ⟨-, -, -, -, hword⟩ := Name.exists_cons_of_isIdentifier hname
  rw [List.takeWhile_append_of_pos]
  · cases u with
    | nil => rw [List.takeWhile_nil, List.append_nil]
    | cons d rest =>
      obtain rfl : d = c := hu d rfl
      rw [List.takeWhile_cons_of_neg (by simp), List.append_nil]
  · intro d hd
    rw [bne_iff_ne]
    rintro rfl
    cases hc.symm.trans (hword d hd)

theorem not_isQuote_of_isIdentifier {name : Name} (hname : Name.isIdentifier name) :
    ∀ c ∈ name, ¬ isQuote c := by
  obtain ⟨-, -, -, -, hword⟩ := Name.exists_cons_of_isIdentifier hname
  exact fun c hc => Go.not_isQuote_of_word (hword c hc)

/-- Arguments of the types of the parameters are accepted. -/
theorem arguments_of_readsValue {function : Name} :
    ∀ {position : Nat} {parameters : List Parameter} {texts : List Text} {vs : List Value}
      {short : ∀ text ∈ texts, text.length < n}, texts = vs.map Go.value →
      List.Forall₂ (fun (p : Parameter) v => ReadsValue symbols p.type (Go.value v) v.rounded)
        parameters vs →
      arguments (inside symbols n) function position parameters texts short =
        .ok (vs.map Value.rounded)
  | _, [], _, [], _, _, _ => by
    rw [arguments.eq_def]
    rfl
  | position, p :: parameters, _, v :: vs, short, rfl, h => by
    obtain ⟨hv, hvs⟩ := List.forall₂_cons.1 h
    have hrest : arguments (inside symbols n) function (position + 1) parameters (vs.map Go.value)
      (fun text ht => short text (List.mem_cons_of_mem _ ht)) = .ok (vs.map Value.rounded) :=
      arguments_of_readsValue rfl hvs
    have hargument : argument (inside symbols n) function position p (Go.value v)
        (short _ List.mem_cons_self) = .ok v.rounded := by
      obtain ⟨name, type⟩ := p
      cases type with
      | primitive type =>
        obtain ⟨e, he, htype, hread⟩ := hv
        change (expression symbols (Go.value v) >>= _) = _
        rw [hread, he]
        exact if_pos htype
      | array type => exact hv
      | tuple type => exact hv
    simp only [List.map_cons]
    rw [arguments, hargument]
    change (arguments (inside symbols n) function (position + 1) parameters _ _ >>= _) = _
    rw [hrest]
    rfl

/-- A call of a declared function is accepted. -/
theorem call_of_arguments {name : Name} {s : Signature} {vs : List Value}
    (hname : Name.isIdentifier name) (hlookup : symbols.lookup? name = some (.function s))
    (hparts : ∀ v ∈ vs, (Go.value v).IsPart)
    (h : List.Forall₂ (fun (p : Parameter) v => ReadsValue symbols p.type (Go.value v) v.rounded)
      s.parameters vs) :
    call symbols (name ++ '(' :: (Go.commas (vs.map Go.value) ++ [')'])) =
      .ok ⟨s.name, vs.map Value.rounded, s.returns⟩ := by
  have hparts : ∀ part ∈ vs.map Go.value, part.IsPart := List.forall_mem_map.2 hparts
  have htake := takeWhile_name hname (c := '(')
    (u := '(' :: (Go.commas (vs.map Go.value) ++ [')'])) (by decide)
    fun d hd => (Option.some.inj hd).symm
  have hinside := Text.inside?_group (not_isQuote_of_isIdentifier hname)
    (.commas fun part hpart => (hparts part hpart).closes) .round
  have htexts := Text.topLevelParts_commas (fun part hpart => (hparts part hpart).closes)
    (fun part hpart => (hparts part hpart).ne_nil) fun part hpart => (hparts part hpart).trim_eq
  rw [call, readCall]
  dsimp only
  split
  · next hnone =>
    rw [htake] at hnone
    cases hnone.symm.trans hinside
  · next inner hsome =>
    rw [htake] at hsome
    obtain rfl := Option.some.inj (hsome.symm.trans hinside)
    have hcallee : callee symbols ((name ++ '(' :: (Go.commas (vs.map Go.value) ++ [')'])).takeWhile
        (· != '(')) = .ok s := by
      rw [htake, callee, Symbols.resolve_eq_ok_iff.2 hlookup]
      rfl
    have hlength :
        ¬ (Text.topLevelParts (Go.commas (vs.map Go.value)) ',').length ≠ s.parameters.length := by
      rw [htexts, List.length_map, not_not, h.length_eq]
    rw [hcallee]
    change (if _ then _ else _) = _
    rw [if_neg hlength, arguments_of_readsValue htexts h]
    rfl

/-! ### Indexings -/

/-- An int is accepted as an index, unless it is a constant outside its dimension. -/
theorem index_of_read {array : Binding ArrayType} {size : Nat} {text : Text} {e : Expression}
    {short : text.length < n} (hread : expression symbols text = .ok e) (htype : e.type = .int) :
    index (inside symbols n) array size text short =
      match e.constant? with
      | some v => if inRange v size then .ok e else .error (.indexRange v array.name array.type size)
      | none => .ok e := by
  rw [index]
  change (expression symbols text >>= _) = _
  rw [hread]
  change (if _ then _ else _) = _
  rw [if_neg (not_not.2 htype)]
  cases e.constant? <;> rfl

/-- Indices that lie in their dimensions are accepted. -/
theorem indices_of_read {array : Binding ArrayType} {sizes : List Nat} {texts : List Text}
    {es : List Expression} {short : ∀ text ∈ texts, text.length < n}
    (hread : List.Forall₂ (fun text e => expression symbols text = .ok e) texts es)
    (h : List.Forall₂ (fun size (e : Expression) => e.type = .int ∧ ∀ v ∈ e.constant?, inRange v size)
      sizes es) : indices (inside symbols n) array sizes texts short = .ok es := by
  induction h generalizing texts with
  | nil =>
    rw [indices.eq_def]
    rfl
  | cons hsize _ ih =>
    obtain ⟨htype, hrange⟩ := hsize
    cases hread with
    | cons he hothers =>
      rw [indices, index_of_read he htype, ih hothers]
      split
      · next v hv =>
        rw [if_pos (hrange v hv)]
        rfl
      · rfl

theorem takeWhile_squareGroups {name : Name} (hname : Name.isIdentifier name) (texts : List Text) :
    (name ++ Token.squareGroups texts).takeWhile (· != '[') = name := by
  refine takeWhile_name hname (by decide) fun d hd => ?_
  cases texts with
  | nil => cases hd
  | cons text rest => exact (Option.some.inj hd).symm

theorem indices?_squareGroups {name : Name} {texts : List Text} (hname : Name.isIdentifier name)
    (hclosed : ∀ text ∈ texts, Closes true [] text) :
    Text.indices? (name ++ Token.squareGroups texts) name.length = some texts := by
  have hflat := Text.IsClosed.of_forall (not_isQuote_of_isIdentifier hname)
  rw [Text.indices?, hflat, ← Glyph.length_ofText name, List.drop_left]
  exact Text.squareInsides?_groups hclosed

/-- An indexing of a declared array is read index by index. -/
theorem indexing_of_groups {name : Name} {array : Binding ArrayType} {texts : List Text}
    (hname : Name.isIdentifier name) (hlookup : symbols.lookup? name = some (.array array))
    (hclosed : ∀ text ∈ texts, Closes true [] text)
    (hlength : texts.length = array.type.dimensions.length) :
    ∃ short, indexing symbols (name ++ Token.squareGroups texts) =
      (indices (inside symbols (name ++ Token.squareGroups texts).length) array array.type.dimensions
        texts short).map fun es => ⟨array.name, es, array.type.base⟩ := by
  have htake := takeWhile_squareGroups hname texts
  have hindices := indices?_squareGroups hname hclosed
  refine ⟨Text.length_lt_of_mem_indices? hindices, ?_⟩
  rw [indexing, readIndexing]
  dsimp only
  split
  · next hnone =>
    rw [htake] at hnone
    cases hnone.symm.trans hindices
  · next found hsome =>
    rw [htake] at hsome
    obtain rfl := Option.some.inj (hindices.symm.trans hsome)
    have harray : indexedArray symbols ((name ++ Token.squareGroups texts).takeWhile (· != '[')) =
        .ok array := by
      rw [htake, indexedArray, Symbols.resolve_eq_ok_iff.2 hlookup]
      rfl
    rw [harray]
    change (if _ then _ else _) = _
    rw [if_neg (not_not.2 hlength)]
    cases indices (inside symbols _) array array.type.dimensions texts _ <;> rfl

/-- An indexing of a declared array is accepted. -/
theorem indexing_of_indices {name : Name} {array : Binding ArrayType} {es : List Expression}
    (hname : Name.isIdentifier name) (hlookup : symbols.lookup? name = some (.array array))
    (hparts : ∀ e ∈ es, (Go.expression e).IsPart)
    (hread : ∀ e ∈ es, expression symbols (Go.expression e) = .ok e.rounded)
    (h : List.Forall₂ (fun size (e : Expression) => e.type = .int ∧ ∀ v ∈ e.constant?, inRange v size)
      array.type.dimensions es) :
    indexing symbols (name ++ Token.squareGroups (es.map Go.expression)) =
      .ok ⟨array.name, es.map Expression.rounded, array.type.base⟩ := by
  have hclosed : ∀ text ∈ es.map Go.expression, Closes true [] text :=
    List.forall_mem_map.2 fun e he => (hparts e he).closes.in_brackets
  have hlength : (es.map Go.expression).length = array.type.dimensions.length := by
    rw [List.length_map, h.length_eq]
  obtain ⟨short, heq⟩ := indexing_of_groups hname hlookup hclosed hlength
  have hreads : List.Forall₂ (fun text e => expression symbols text = .ok e) (es.map Go.expression)
      (es.map Expression.rounded) := by
    rw [List.forall₂_map_left_iff, List.forall₂_map_right_iff, List.forall₂_same]
    exact hread
  have hranges : List.Forall₂ (fun size (e : Expression) => e.type = .int ∧
      ∀ v ∈ e.constant?, inRange v size) array.type.dimensions (es.map Expression.rounded) := by
    rw [List.forall₂_map_right_iff]
    refine h.imp fun size e he => ?_
    rwa [type_rounded, constant?_rounded]
  rw [heq, indices_of_read hreads hranges]
  rfl

/-! ### Whole arrays and tuples -/

/-- An array or tuple that is not written out is read off its one token. -/
theorem aggregate_eq_ok_of_whole {expected : Aggregate} {t : Text} {v : Value} (hpart : t.IsPart)
    (hstart : ∃ c rest, t = c :: rest ∧ c.isAlpha)
    (h : ∀ short : t.length ≤ t.length,
      readWhole symbols (inside symbols t.length) expected t short = .ok v) :
    aggregate symbols expected t = .ok v := by
  obtain ⟨c, rest, ht, hc⟩ := hstart
  have hnot {d : Char} (hd : d.isAlpha = false) : Text.startsWith d t = false := by
    rw [ht, Text.startsWith, List.head?_cons, beq_eq_false_iff_ne]
    rintro heq
    rw [Option.some.inj heq] at hc
    cases hc.symm.trans hd
  have hwhole (short : t.trim.length ≤ t.length) :
      readWhole symbols (inside symbols t.length) expected t.trim short = .ok v := by
    have htrim := hpart.trim_eq
    revert short
    rw [htrim]
    exact h
  have hsquare : Text.startsWith '[' t.trim = false := by rw [hpart.trim_eq, hnot (by decide)]
  have hround : Text.startsWith '(' t.trim = false := by rw [hpart.trim_eq, hnot (by decide)]
  rw [aggregate]
  cases expected with
  | array type =>
    simp only [readAggregate, hsquare, Bool.false_eq_true, if_false]
    exact hwhole _
  | tuple type =>
    simp only [readAggregate]
    split
    · next hstart _ => cases hround.symm.trans hstart
    · exact hwhole _

theorem scan_of_isOperand {t : Text} (h : IsOperand t) : Token.scan t = .ok [t] := by
  have hscan := h.scans [] [] nofun
  rw [List.append_nil, Token.scanInside.eq_def [] []] at hscan
  exact hscan

theorem readWhole_of_call {expected : Aggregate} {t : Text} {c : Call} {short : t.length ≤ n}
    (ht : IsOperand t) (hend : t.endsWith ')') (hround : t.contains '(')
    (hc : call symbols t = .ok c) (hr : c.returns = expected.type) :
    readWhole symbols (inside symbols n) expected t short = .ok (.call c) := by
  have hscanned : Token.scanned t = .ok ⟨[t], Token.length_le_of_mem_scanInside (scan_of_isOperand ht)⟩ :=
    scanned_eq_ok_iff.2 (scan_of_isOperand ht)
  rw [readWhole, hscanned]
  change (if _ then _ else _) = _
  rw [if_pos (by rw [hend, hround]; rfl), readCall_inside, hc]
  exact if_pos hr

theorem readWhole_of_name {name stored : Name} {expected : Aggregate} {isMutable : Bool}
    {short : name.length ≤ n} (hname : Name.isIdentifier name)
    (hlookup : symbols.lookup? name = some (.ofType stored isMutable expected.type)) :
    readWhole symbols (inside symbols n) expected name short = .ok (.whole stored expected.type) := by
  have hscan := scan_of_isOperand (.identifier hname)
  have hscanned : Token.scanned name = .ok ⟨[name], Token.length_le_of_mem_scanInside hscan⟩ :=
    scanned_eq_ok_iff.2 hscan
  have hround : ¬ (Text.endsWith ')' name && name.contains '(') := by
    obtain ⟨-, -, -, -, hword⟩ := Name.exists_cons_of_isIdentifier hname
    rw [Bool.and_eq_true, List.contains_iff_mem, not_and]
    exact fun _ hmem => absurd (hword '(' hmem) (by decide)
  rw [readWhole, hscanned]
  change (if _ then _ else _) = _
  rw [if_neg hround]
  cases expected with
  | array type =>
    change readArrayName symbols type name = _
    rw [readArrayName, hlookup]
    exact if_pos rfl
  | tuple type =>
    change readTupleName symbols type name = _
    rw [readTupleName, Symbols.resolve_eq_ok_iff.2 hlookup]
    exact if_pos rfl

/-! ### Literals -/

theorem isOperand_of_quote {quote : Char} {body : Text} (h : Token.Shape (quote :: body))
    (hq : isQuote quote) : IsOperand (quote :: body) := by
  generalize htoken : quote :: body = token at h
  cases h with
  | literal hquote hliteral =>
    have hwhole := Token.literal?_append hliteral []
    rw [List.append_nil] at hwhole
    exact .of_literal hquote hwhole
  | operator op => cases op <;> (cases htoken; cases hq)
  | bracket hbracket =>
    obtain ⟨rfl, -⟩ := List.cons.inj htoken
    rcases isQuote_iff.1 hq with rfl | rfl <;> exact absurd hbracket (by decide)
  | word hends _ =>
    obtain ⟨rfl, -⟩ := List.cons.inj htoken
    rw [Token.endsWord, hq] at hends
    cases hends

/-- A literal is one operand. -/
theorem isOperand_of_isLiteral {token : Text} {type : Primitive} (h : Token.Shape token)
    (hl : IsLiteral token type) : IsOperand token := by
  have hnumber {type : Primitive} (hn : Literal.numeric? token = some type) : IsOperand token := by
    obtain ⟨c, rest, rfl, hc, hrest⟩ := Go.exists_of_numeric? hn
    have hdigit {d : Char} (hd : d.isDigit) : Token.isHeldChar d :=
      Token.isHeldChar_of_word (by rw [Char.isAlphanum, hd, Bool.or_true, Bool.true_or])
    refine .of_held (by rw [Char.isAlphanum, hc, Bool.or_true])
      (List.forall_mem_cons.2 ⟨hdigit hc, fun d hd => ?_⟩)
    rcases hrest d hd with hd | rfl
    · exact hdigit hd
    · rfl
  cases type with
  | string =>
    cases token with
    | nil => exact absurd hl (by decide)
    | cons quote body =>
      obtain rfl : quote = '"' := hl
      exact isOperand_of_quote h rfl
  | byte =>
    obtain ⟨rest, rfl⟩ := Go.exists_of_isByte hl
    exact isOperand_of_quote h rfl
  | bool => rcases hl with rfl | rfl <;> exact .of_held (by decide) (by decide)
  | int => exact hnumber hl.1
  | float => exact hnumber hl
  | io => cases hl

/-! ### Terms -/

theorem classify_of_held {c : Char} {rest : Text} (h : Token.isHeldChar c) :
    Token.classify (c :: rest) = .value := by
  have hends := Token.not_endsWord_iff.1 (ne_true_of_eq_false (Token.endsWord_eq_false h))
  refine Token.classify_eq_value (eq_false_of_ne_true hends.2.2.2) fun hmem => ?_
  simp only [List.mem_cons, List.not_mem_nil, or_false] at hmem
  rcases hmem with rfl | rfl | rfl | rfl <;> cases h

/-- A token that starts with a digit is read as a number. -/
theorem term_of_digit {c : Char} {rest : Text} (hc : c.isDigit) :
    term symbols (c :: rest) = readNumber (c :: rest) := by
  have hne {d : Char} (hd : d.isDigit = false) : (c == d) = false := by
    rw [beq_eq_false_iff_ne]
    rintro rfl
    cases hc.symm.trans hd
  have hdouble : (c == '"') = false := hne (by decide)
  have hsingle : (c == '\'') = false := hne (by decide)
  have hbool : ¬ (c :: rest = "true".toList ∨ c :: rest = "false".toList) := by
    rintro (heq | heq) <;> (obtain ⟨rfl, -⟩ := List.cons.inj heq; cases hc)
  have hheld : Token.isHeldChar c :=
    Token.isHeldChar_of_word (by rw [Char.isAlphanum, hc, Bool.or_true, Bool.true_or])
  rw [term, readTerm, classify_of_held hheld]
  simp only [readValue, List.headD_cons, hdouble, hsingle, hbool, hc, Bool.false_eq_true, if_false,
    if_true]

/-- A token that starts with a letter is read as a word, except for the two bool literals. -/
theorem term_of_word {token : Text} (hstart : ∃ c rest, token = c :: rest ∧ c.isAlpha)
    (hbool : ¬ (token = "true".toList ∨ token = "false".toList)) :
    term symbols token =
      readWord symbols (inside symbols token.length) token (Nat.le_refl _) := by
  obtain ⟨c, rest, rfl, hc⟩ := hstart
  have hne {d : Char} (hd : d.isAlpha = false) : (c == d) = false := by
    rw [beq_eq_false_iff_ne]
    rintro rfl
    cases hc.symm.trans hd
  have hdouble : (c == '"') = false := hne (by decide)
  have hsingle : (c == '\'') = false := hne (by decide)
  have hsquare : (c == '[') = false := hne (by decide)
  have hheld : Token.isHeldChar c := Token.isHeldChar_of_word (by rw [Char.isAlphanum, hc]; rfl)
  rw [term, readTerm, classify_of_held hheld]
  simp only [readValue, List.headD_cons, hdouble, hsingle, hsquare, hbool,
    isDigit_eq_false_of_isAlpha hc, hc, Bool.false_eq_true, if_false, Bool.not_true]

theorem find?_eq_none {name : Name} (hname : Name.isIdentifier name) :
    name.find? (· ∈ ['(', '[', '.']) = none := by
  obtain ⟨-, -, -, -, hword⟩ := Name.exists_cons_of_isIdentifier hname
  rw [List.find?_eq_none]
  intro c hc hmem
  simp only [List.mem_cons, List.not_mem_nil, or_false, decide_eq_true_eq] at hmem
  rcases hmem with rfl | rfl | rfl <;> exact absurd (hword _ hc) (by decide)

/-- A token with a bracket in it is read as the bracket tells. -/
theorem term_of_bracket {name : Name} {c : Char} {u : Text} (hname : Name.isIdentifier name)
    (hc : c ∈ ['(', '[', '.']) :
    term symbols (name ++ c :: u) =
        readWord symbols (inside symbols (name ++ c :: u).length) (name ++ c :: u) (Nat.le_refl _) ∧
      (name ++ c :: u).find? (· ∈ ['(', '[', '.']) = some c := by
  have hmem : c ∈ name ++ c :: u := List.mem_append_right _ List.mem_cons_self
  have hfind : (name ++ c :: u).find? (· ∈ ['(', '[', '.']) = some c := by
    rw [List.find?_append, find?_eq_none hname, Option.none_or,
      List.find?_cons_of_pos (by simpa using hc)]
  refine ⟨term_of_word ?_ ?_, hfind⟩
  · obtain ⟨d, rest, rfl, hd, -⟩ := Name.exists_cons_of_isIdentifier hname
    exact ⟨d, rest ++ c :: u, rfl, hd⟩
  · have hplain : ∀ d ∈ ['(', '[', '.'], d ∉ "true".toList ∧ d ∉ "false".toList := by decide
    rintro (h | h)
    · exact (hplain c hc).1 (h ▸ hmem)
    · exact (hplain c hc).2 (h ▸ hmem)

/-- A call is a term if it has a primitive value. -/
theorem term_of_call {name : Name} {u : Text} {c : Call} {type : Primitive}
    (hname : Name.isIdentifier name) (hc : call symbols (name ++ '(' :: u) = .ok c)
    (hr : c.returns = .primitive type) (hio : type ≠ .io) :
    term symbols (name ++ '(' :: u) = .ok (.call c) := by
  have ⟨hword, hfind⟩ : term symbols (name ++ '(' :: u) = _ ∧ _ := term_of_bracket hname (by decide)
  rw [hword, readWord, hfind]
  change readScalarCall _ _ _ _ = _
  rw [readScalarCall, readCall_inside, hc]
  obtain ⟨f, arguments, returns⟩ := c
  obtain rfl : returns = .primitive type := hr
  cases type with
  | io => exact absurd rfl hio
  | _ => rfl

theorem term_of_indexing {name : Name} {u : Text} (hname : Name.isIdentifier name) :
    term symbols (name ++ '[' :: u) = (indexing symbols (name ++ '[' :: u)).map .element := by
  have ⟨hword, hfind⟩ : term symbols (name ++ '[' :: u) = _ ∧ _ := term_of_bracket hname (by decide)
  rw [hword, readWord, hfind]
  change (readIndexing _ _ _ _).map Term.element = _
  rw [readIndexing_inside]

/-- A term that is an indexing has at least one index. -/
theorem indices_ne_nil_of_term
    (hnames : ∀ name d, symbols.lookup? name = some d → Name.isIdentifier name) {token : Text}
    {i : Indexing} (h : term symbols token = .ok (.element i)) : i.indices ≠ [] := by
  intro hnil
  cases readsTerm_of_term h with
  | element _ hi =>
  obtain ⟨texts, array, htexts, hlookup, -, -, hforall, -⟩ := indexing_eq_ok hi
  rw [hnil, List.forall₂_nil_right_iff] at hforall
  subst hforall
  have hidentifier := hnames _ _ hlookup
  have hdrop := Glyph.squareInsides?_eq_some_nil htexts
  rw [List.drop_eq_nil_iff, Glyph.length_ofText] at hdrop
  have htoken : token.takeWhile (· != '[') = token := by
    rw [← take_length_takeWhile, List.take_of_length_le hdrop]
  rw [htoken] at hlookup hidentifier
  have hfind : token.find? (· ∈ ['(', '[', '.']) = none := find?_eq_none hidentifier
  by_cases hbool : token = "true".toList ∨ token = "false".toList
  · have hliteral : term symbols token = .ok (.literal token .bool) := by
      rcases hbool with rfl | rfl <;> rfl
    cases hliteral.symm.trans h
  · obtain ⟨c, rest, htext, hc, -⟩ := Name.exists_cons_of_isIdentifier hidentifier
    rw [term_of_word ⟨c, rest, htext, hc⟩ hbool, readWord, hfind] at h
    change readName symbols token = _ at h
    rw [readName, Symbols.resolve_eq_ok_iff.2 hlookup] at h
    split at h
    · cases h
    · cases h

end Expression

end StellaGo
