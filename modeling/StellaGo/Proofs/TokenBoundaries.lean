import StellaGo.Proofs.GoTokens

/-! Token boundaries in generated expressions. Proved: Go splits the text of an accepted expression
into the tokens of its terms, in calls and indices too, just if nowhere in it a `-` before its
operand is followed by another `-`. Such a pair of `-` is one token. -/

namespace StellaGo

/-! ### Pieces that are read -/

namespace Piece

/-- A call, an indexing or a field access stands where the text is a token. -/
def IsToken (text : Text) : Piece → Prop
  | call _ | indexing _ | field _ => Token.Shape text
  | _ => True

end Piece

/-- What a term is made of, if it is a piece itself. -/
def Term.piece? : Term → Option Piece
  | call c => some (.call c)
  | element i => some (.indexing i)
  | field f => some (.field f)
  | _ => none

namespace Go

open Token (Shape classify)
open Piece (Part IsRead IsToken)

variable {symbols : Symbols} {token text : Text}

/-! ### Tokens that spell terms -/

theorem startsPlainly_of_shape (h : Shape token) (hc : classify token = .value) :
    StartsPlainly token := by
  cases h with
  | @literal quote body rest more hq hl =>
    refine ⟨quote, body, rfl, ?_⟩
    rcases isQuote_iff.1 hq with rfl | rfl <;> decide
  | operator op =>
    rw [Token.classify_symbol] at hc
    cases hc
  | @bracket c hbracket =>
    refine ⟨c, [], rfl, fun hmem => ?_⟩
    simp only [List.mem_cons, List.not_mem_nil, or_false] at hmem
    rcases hmem with rfl | rfl <;> exact absurd hbracket (by decide)
  | @word c rest tail after hends h =>
    refine ⟨c, tail, rfl, fun hmem => ?_⟩
    simp only [List.mem_cons, List.not_mem_nil, or_false] at hmem
    rcases hmem with rfl | rfl <;> exact absurd hends (by decide)

/-- The beginning of a token, and something else behind it. -/
theorem StartsPlainly.of_prefix {name behind : Text} {c : Char} (h : StartsPlainly (name ++ behind))
    (hc : c ∉ ['-', '=']) (rest : Text) : StartsPlainly (name ++ c :: rest) := by
  cases name with
  | nil => exact ⟨c, rest, rfl, hc⟩
  | cons d more =>
    obtain ⟨e, _, heq, hplain⟩ := h
    obtain ⟨rfl, -⟩ := List.cons.inj heq
    exact ⟨d, _, rfl, hplain⟩

theorem exists_of_isByte (h : Literal.isByte token) : ∃ rest, token = '\'' :: rest := by
  unfold Literal.isByte at h
  split at h
  · simp only [Bool.and_eq_true, beq_iff_eq] at h
    exact ⟨_, by rw [h.1.1.1]⟩
  · simp only [Bool.and_eq_true, beq_iff_eq] at h
    exact ⟨_, by rw [h.1.1.1.1]⟩
  · cases h

/-- A number starts with a digit, and has digits and points in it. -/
theorem exists_of_numeric? {type : Primitive} (h : Literal.numeric? token = some type) :
    ∃ c rest, token = c :: rest ∧ c.isDigit ∧ ∀ d ∈ rest, d.isDigit ∨ d = '.' := by
  have hdigits {t : Text} (ht : Literal.isDigits t) :
      ∃ c rest, t = c :: rest ∧ c.isDigit ∧ ∀ d ∈ rest, d.isDigit := by
    rw [Literal.isDigits, Bool.and_eq_true, List.all_eq_true] at ht
    obtain ⟨hne, hall⟩ := ht
    obtain ⟨c, rest, rfl⟩ := List.exists_cons_of_ne_nil (bne_iff_ne.1 hne)
    exact ⟨c, rest, rfl, List.forall_mem_cons.1 hall⟩
  unfold Literal.numeric? at h
  split at h
  · next whole fraction hcut =>
    obtain ⟨rfl, -⟩ := Text.eq_append_of_cut? hcut
    split at h
    · next hnumber =>
      simp only [Bool.and_eq_true] at hnumber
      obtain ⟨c, rest, rfl, hc, hrest⟩ := hdigits hnumber.1.1
      obtain ⟨d, more, rfl, hd, hmore⟩ := hdigits hnumber.1.2
      refine ⟨c, rest ++ '.' :: d :: more, rfl, hc, fun e he => ?_⟩
      simp only [List.mem_append, List.mem_cons] at he
      rcases he with he | rfl | rfl | he
      · exact .inl (hrest e he)
      · exact .inr rfl
      · exact .inl hd
      · exact .inl (hmore e he)
    · cases h
  · split at h
    · next hnumber =>
      obtain ⟨c, rest, rfl, hc, hrest⟩ := hdigits (Bool.and_eq_true _ _ ▸ hnumber).1
      exact ⟨c, rest, rfl, hc, fun d hd => .inl (hrest d hd)⟩
    · cases h

theorem lex_of_numeric? {type : Primitive} (h : Literal.numeric? token = some type) :
    lex token = [token] := by
  obtain ⟨c, rest, rfl, hc, hrest⟩ := exists_of_numeric? h
  have hword {d : Char} (hd : d.isDigit) : isWordChar d :=
    isWordChar_of_word (by rw [Char.isAlphanum, hd, Bool.or_true, Bool.true_or])
  refine lex_word (hword hc) fun d hd => ?_
  rcases hrest d hd with hdigit | rfl
  · rw [continuesWord, hword hdigit, Bool.true_or]
  · rw [continuesWord, hc, Bool.true_and, beq_self_eq_true, Bool.or_true]

theorem lex_of_problem? {name : Name} (h : Name.problem? name = none) : lex name = [name] := by
  refine lex_of_forall ?_ (Name.isWordChar_of_problem? h)
  rintro rfl
  cases h

theorem lex_of_quote {quote : Char} {body : Text} (h : Shape (quote :: body)) (hq : isQuote quote) :
    lex (quote :: body) = [quote :: body] := by
  generalize htoken : quote :: body = token at h
  cases h with
  | literal hquote hliteral => exact lex_literal hquote hliteral
  | operator op => exact lex_symbol (mem_symbols op)
  | bracket hbracket =>
    obtain ⟨rfl, -⟩ := List.cons.inj htoken
    rcases isQuote_iff.1 hq with rfl | rfl <;> exact absurd hbracket (by decide)
  | word hends hword =>
    obtain ⟨rfl, -⟩ := List.cons.inj htoken
    rw [Token.endsWord, hq] at hends
    cases hends

/-- A literal is one token. -/
theorem lex_of_isLiteral {type : Primitive} (h : Shape token) (hl : Expression.IsLiteral token type) :
    lex token = [token] := by
  cases type with
  | string =>
    cases token with
    | nil => exact absurd hl (by decide)
    | cons quote body =>
      obtain rfl : quote = '"' := hl
      exact lex_of_quote h rfl
  | byte =>
    obtain ⟨rest, rfl⟩ := exists_of_isByte hl
    exact lex_of_quote h rfl
  | bool => rcases hl with rfl | rfl <;> exact lex_of_forall (by decide) (by decide)
  | int => exact lex_of_numeric? hl.1
  | float => exact lex_of_numeric? hl
  | io => cases hl

theorem startsPlainly_call (hs : symbols.KeepsNames) {c : Call} (hshape : Shape token)
    (hc : classify token = .value) (h : StellaGo.call symbols token = .ok c) :
    StartsPlainly (call c) := by
  obtain ⟨inner, signature, -, hlookup, hname, -⟩ := Expression.call_eq_ok h
  obtain ⟨name, arguments, returns⟩ := c
  obtain rfl : name = token.takeWhile (· != '(') := hname.trans (hs _ _ hlookup)
  have hplain := startsPlainly_of_shape hshape hc
  rw [← List.takeWhile_append_dropWhile (p := (· != '(')) (l := token)] at hplain
  rw [call, List.append_assoc]
  exact hplain.of_prefix (by decide) _

theorem startsPlainly_indexing (hs : symbols.KeepsNames) {i : Indexing} (hshape : Shape token)
    (hc : classify token = .value) (h : StellaGo.indexing symbols token = .ok i) :
    StartsPlainly (indexing i) := by
  obtain ⟨texts, array, htexts, hlookup, hname, -, hindices, -⟩ := Expression.indexing_eq_ok h
  obtain ⟨name, indices, type⟩ := i
  obtain rfl : name = token.takeWhile (· != '[') := hname.trans (hs _ _ hlookup)
  have hplain := startsPlainly_of_shape hshape hc
  have hsplit := List.takeWhile_append_dropWhile (p := (· != '[')) (l := token)
  rw [indexing]
  cases hindices with
  | nil =>
    -- without indices nothing stands behind the name
    have hnil := Glyph.squareInsides?_eq_some_nil htexts
    rw [List.drop_eq_nil_iff, Glyph.length_ofText] at hnil
    have hwhole : token.takeWhile (· != '[') = token := by
      rw [← take_length_takeWhile, List.take_of_length_le hnil]
    rw [hwhole, brackets, List.append_nil]
    exact hplain
  | cons =>
    rw [← hsplit] at hplain
    rw [brackets]
    exact hplain.of_prefix (by decide) _

theorem startsPlainly_field (hs : symbols.KeepsNames) {f : FieldAccess} (hshape : Shape token)
    (hc : classify token = .value) (h : fieldAccess symbols token = .ok f) :
    StartsPlainly (term (.field f)) := by
  have hplain := startsPlainly_of_shape hshape hc
  obtain ⟨name, tuple, rfl, hlookup, hname, -⟩ := Expression.exists_name_of_fieldAccess hshape h
  rw [term, hname, show tuple.name = name from hs _ _ hlookup, List.append_assoc]
  exact hplain.of_prefix (by decide) _

theorem spells_of_readsTerm (hs : symbols.KeepsNames) {t : Term} (hshape : Shape token)
    (h : Expression.ReadsTerm symbols token t)
    (hparts : ∀ y ∈ t.piece?, Splits y.go y.tokens y.KeepsMinus) :
    Spells t (∀ y ∈ t.piece?, y.KeepsMinus) := by
  have hnone {t : Term} (ht : t.piece? = none) : True ↔ ∀ y ∈ t.piece?, y.KeepsMinus := by
    rw [ht]
    exact iff_of_true trivial fun y hy => by cases hy
  have hsome {t : Term} {x : Piece} (ht : t.piece? = some x) :
      x.KeepsMinus ↔ ∀ y ∈ t.piece?, y.KeepsMinus := by
    rw [ht]
    exact ⟨fun hx y hy => Option.some.inj hy ▸ hx, fun h => h x rfl⟩
  cases h with
  | @opening b | @closing b =>
    refine ⟨(?_ : Splits _ _ _).congr (hnone rfl), fun _ => ?_⟩
    · rw [term, termTokens]
      exact .lone (by decide)
    · rw [term]
      exact ⟨_, [], rfl, by decide⟩
  | operator =>
    refine ⟨(?_ : Splits _ _ _).congr (hnone rfl), fun h => by cases h⟩
    rw [term, termTokens]
    exact .of_lex (.of_forall (not_isQuote_of_mem_symbols (mem_symbols _)))
      (lex_symbol (mem_symbols _))
  | literal hc hl =>
    refine ⟨(?_ : Splits _ _ _).congr (hnone rfl), fun _ => ?_⟩
    · rw [term, termTokens]
      exact .of_lex hshape.isClosed (lex_of_isLiteral hshape hl)
    · rw [term]
      exact startsPlainly_of_shape hshape hc
  | @scalar b hc hn hb =>
    have hname : b.name = token := hs _ _ hb
    refine ⟨(?_ : Splits _ _ _).congr (hnone rfl), fun _ => ?_⟩
    · rw [term, termTokens, hname]
      exact .of_lex hshape.isClosed (lex_of_problem? hn)
    · rw [term, hname]
      exact startsPlainly_of_shape hshape hc
  | call hc h =>
    refine ⟨(?_ : Splits _ _ _).congr (hsome rfl), fun _ => ?_⟩
    · rw [term, termTokens]
      exact hparts _ rfl
    · rw [term]
      exact startsPlainly_call hs hshape hc h
  | element hc h =>
    refine ⟨(?_ : Splits _ _ _).congr (hsome rfl), fun _ => ?_⟩
    · rw [term, termTokens]
      exact hparts _ rfl
    · rw [term]
      exact startsPlainly_indexing hs hshape hc h
  | field hc h =>
    exact ⟨(hparts _ rfl).congr (hsome rfl), fun _ => startsPlainly_field hs hshape hc h⟩

theorem isToken_of_shape (h : Shape token) {y : Piece} : y.IsToken token := by
  cases y <;> first | exact h | trivial

theorem isRead_of_piece? {t : Term} {y : Piece} (h : Expression.ReadsTerm symbols token t)
    (hy : y ∈ t.piece?) : IsRead symbols token y := by
  cases h with
  | call _ h | element _ h | field _ h =>
    cases hy
    exact h
  | _ => cases hy

theorem part_expression_iff {e : Expression} {y : Piece} :
    Part y (.expression e) ↔ ∃ t ∈ e.terms, y ∈ t.piece? := by
  constructor
  · rintro (h | h | h) <;> exact ⟨_, h, rfl⟩
  · rintro ⟨t, ht, hy⟩
    cases t with
    | call c =>
      cases hy
      exact .call ht
    | element i =>
      cases hy
      exact .element ht
    | field f =>
      cases hy
      exact .field ht
    | _ => cases hy

theorem respects_isClosed : Respects Text.IsClosed where
  bare t h := by
    refine .of_forall fun c hc => ?_
    have hbare := List.all_eq_true.1 h c hc
    simp only [Bool.and_eq_true, Bool.not_eq_true'] at hbare
    rw [hbare.1.1.1]
    decide
  append t u ht hu := ht.append hu
  braced t ht := .append ((Text.IsClosed.cons_iff (by decide)).2 ht) (.of_forall (by decide))

theorem keepsMinus_iff_of_ne {x : Piece} (hx : ∀ e, x ≠ .expression e) :
    x.KeepsMinus ↔ ∀ y, Part y x → y.KeepsMinus := by
  rw [Piece.keepsMinus_iff]
  exact and_iff_right fun e he => absurd he (hx e)

/-- A part of a piece that was read was read itself, off a token where it is a call, an indexing or
a field access. -/
theorem exists_isToken_of_part {x y : Piece} (hp : Part y x) (h : IsRead symbols text x) :
    ∃ part, y.IsToken part ∧ IsRead symbols part y := by
  have hterm {e : Expression} (hp : Part y (.expression e)) (h : IsRead symbols text (.expression e)) :
      ∃ part, y.IsToken part ∧ IsRead symbols part y := by
    obtain ⟨t, ht, hy⟩ := part_expression_iff.1 hp
    obtain ⟨tokens, hscan, -, -, hterms, -⟩ := Expression.expression_eq_ok_iff.1 h
    obtain ⟨token, hmem, hread⟩ := exists_of_mem_forall₂ hterms ht
    exact ⟨token, isToken_of_shape (Token.shape_of_mem_scanInside hscan token hmem),
      isRead_of_piece? (Expression.readsTerm_of_term hread) hy⟩
  have hplain (hy : ∀ part, y.IsToken part) : ∃ part, y.IsToken part ∧ IsRead symbols part y := by
    obtain ⟨part, -, hread⟩ := Piece.isRead_of_part hp h
    exact ⟨part, hy part, hread⟩
  cases hp with
  | call ht => exact hterm (.call ht) h
  | element ht => exact hterm (.element ht) h
  | field ht => exact hterm (.field ht) h
  | wholeCall =>
    obtain ⟨type, h⟩ := h
    obtain ⟨expected, -, hr⟩ := Piece.readsAggregate_of_readsValue (fun e he => by cases he) h
    cases hr with
    | call hscan hc _ =>
      exact ⟨_, Token.shape_of_mem_scanInside hscan _ List.mem_cons_self, hc⟩
  | _ => exact hplain fun _ => trivial

/-! ### Pieces and their tokens -/

theorem splits_expression (hs : symbols.KeepsNames) {e : Expression}
    (h : StellaGo.expression symbols text = .ok e)
    (hparts : ∀ y, Part y (.expression e) → Splits y.go y.tokens y.KeepsMinus) :
    Splits (expression e) (expressionTokens e) (Piece.expression e).KeepsMinus := by
  obtain ⟨tokens, hscan, -, -, hterms, -⟩ := Expression.expression_eq_ok_iff.1 h
  have hspells : ∀ t ∈ e.terms, Spells t (∀ y ∈ t.piece?, y.KeepsMinus) := by
    intro t ht
    obtain ⟨token, hmem, hterm⟩ := exists_of_mem_forall₂ hterms ht
    exact spells_of_readsTerm hs (Token.shape_of_mem_scanInside hscan token hmem)
      (Expression.readsTerm_of_term hterm) fun y hy => hparts y (part_expression_iff.2 ⟨t, ht, hy⟩)
  have hfollow : CanFollow [] (!true) (e.terms.map Term.class) :=
    Expression.canFollow_of_expression h
  obtain ⟨ts, type⟩ := e
  rw [expression, expressionTokens]
  refine (splits_terms true hfollow hspells).congr ?_
  rw [Piece.keepsMinus_iff]
  refine and_congr ⟨fun hself e he => ?_, fun hself => hself _ rfl⟩ ⟨fun hterms y hy => ?_, ?_⟩
  · cases he
    exact hself
  · obtain ⟨t, ht, hy⟩ := part_expression_iff.1 hy
    exact hterms t ht y hy
  · exact fun hall t ht y hy => hall y (part_expression_iff.2 ⟨t, ht, hy⟩)

theorem splits_call (hs : symbols.KeepsNames) {c : Call} (ht : Shape token)
    (h : StellaGo.call symbols token = .ok c)
    (hparts : ∀ y, Part y (.call c) → Splits y.go y.tokens y.KeepsMinus) :
    Splits (call c) (callTokens c) (Piece.call c).KeepsMinus := by
  obtain ⟨inner, signature, -, hlookup, hname, -⟩ := Expression.call_eq_ok h
  have hclosed := Expression.isClosed_name_of_call ht h
  obtain ⟨name, arguments, returns⟩ := c
  obtain rfl : name = token.takeWhile (· != '(') := hname.trans (hs _ _ hlookup)
  have harguments : Splits (commas (arguments.map value)) (commaTokens (arguments.map valueTokens))
      (∀ v ∈ arguments, (Piece.value v).KeepsMinus) :=
    .commas_map fun v hv => hparts _ (.argument hv)
  have hcall := ((Splits.of_lex hclosed rfl).between (c := '(') (by decide) (by decide)
    harguments).concat (c := ')') (by decide) (by decide)
  rw [call, values_eq_map, callTokens, valuesTokens_eq_map]
  refine hcall.congr ?_
  rw [keepsMinus_iff_of_ne (x := .call _) (fun e he => by cases he), true_and]
  refine ⟨fun hall y hy => ?_, fun hall v hv => hall _ (.argument hv)⟩
  cases hy with
  | argument hv => exact hall _ hv

/-- The indices start with a bracket, if there are any. -/
theorem apart_brackets (t : Text) (es : List Expression) : Apart t (brackets es) := by
  cases es with
  | nil =>
    rw [brackets]
    exact .nil_right
  | cons e rest =>
    rw [brackets]
    exact .before (by decide) t _

theorem splits_indexing {i : Indexing} (hclosed : Text.IsClosed i.name)
    (hparts : ∀ y, Part y (.indexing i) → Splits y.go y.tokens y.KeepsMinus) :
    Splits (indexing i) (indexingTokens i) (Piece.indexing i).KeepsMinus := by
  obtain ⟨name, indices, type⟩ := i
  have hindices : Splits (brackets indices) (bracketsTokens indices)
      (∀ e ∈ indices, (Piece.expression e).KeepsMinus) :=
    .brackets fun e he => hparts _ (.index he)
  rw [indexing, indexingTokens]
  refine ((Splits.of_lex hclosed rfl).append hindices (apart_brackets _ _)).congr ?_
  rw [keepsMinus_iff_of_ne (x := .indexing _) (fun e he => by cases he), true_and]
  refine ⟨fun hall y hy => ?_, fun hall e he => hall _ (.index he)⟩
  cases hy with
  | index he => exact hall _ he

theorem splits_field (hs : symbols.KeepsNames) {f : FieldAccess} (ht : Shape token)
    (h : fieldAccess symbols token = .ok f) :
    Splits (term (.field f)) (termTokens (.field f)) (Piece.field f).KeepsMinus := by
  obtain ⟨name, tuple, -, hlookup, hname, hclosed⟩ := Expression.exists_name_of_fieldAccess ht h
  have hfield : Text.IsClosed (term (.field f)) := by
    rw [term, hname, show tuple.name = name from hs _ _ hlookup]
    exact (hclosed.append (.of_forall (by decide))).append
      (.of_forall fun _ hc => not_isQuote_of_word (isAlphanum_of_mem_ofNat hc))
  rw [termTokens]
  refine (Splits.of_lex hfield rfl).congr (iff_of_true trivial ?_)
  rw [keepsMinus_iff_of_ne (x := .field _) fun e he => by cases he]
  intro y hy
  cases hy

/-- The type of a literal, and its parts in braces. -/
theorem splits_braced {type inner : Text} {xs : List Text} {p : Prop} (ht : type.IsClosed)
    (h : Splits inner xs p) :
    Splits (type ++ '{' :: inner ++ ['}']) (lex type ++ ['{'] :: xs ++ [['}']]) p := by
  have hbraced := h.around (c := '{') (d := '}') (by decide) (by decide)
  rw [List.append_assoc, List.append_assoc]
  exact ((Splits.of_lex ht rfl).append hbraced (.before (by decide) _ _)).congr
    (iff_of_eq (true_and p))

theorem splits_rows {items : List Item}
    (hparts : ∀ i ∈ items, Splits (item i) (itemTokens i) (Piece.item i).KeepsMinus) :
    Splits ('{' :: commas (rows items) ++ ['}']) (['{'] :: commaTokens (rowsTokens items) ++ [['}']])
      (∀ i ∈ items, (Piece.item i).KeepsMinus) := by
  rw [rows_eq_map, rowsTokens_eq_map]
  exact (Splits.commas_map hparts).around (by decide) (by decide)

theorem splits_value (hs : symbols.KeepsNames) {type : ValueType} {v : Value}
    (h : Expression.ReadsValue symbols type text v)
    (hparts : ∀ y, Part y (.value v) → Splits y.go y.tokens y.KeepsMinus) :
    Splits (value v) (valueTokens v) (Piece.value v).KeepsMinus := by
  rw [keepsMinus_iff_of_ne (x := .value _) fun e he => by cases he]
  cases v with
  | scalar e =>
    rw [value, valueTokens]
    refine (hparts _ .scalar).congr ⟨fun hall y hy => ?_, fun hall => hall _ .scalar⟩
    cases hy with
    | scalar => exact hall
  | arrayLiteral type items =>
    rw [value, valueTokens, rows_eq_map, rowsTokens_eq_map]
    have hitems := Splits.commas_map fun i hi => hparts (.item i) (.arrayItem hi)
    refine (splits_braced (respects_isClosed.array type) hitems).congr
      ⟨fun hall y hy => ?_, fun hall i hi => hall _ (.arrayItem hi)⟩
    cases hy with
    | arrayItem hi => exact hall _ hi
  | tupleLiteral type fields =>
    rw [value, valueTokens, namedFields_eq_map, namedFieldsTokens_eq_map]
    have hfields : Splits (commas ((fields.zipIdx 0).map namedField))
        (commaTokens ((fields.zipIdx 0).map namedFieldTokens))
        (∀ field ∈ fields.zipIdx 0, (Piece.expression field.1).KeepsMinus) :=
      .commas_map fun field hfield =>
        .namedField (hparts _ (.tupleField (List.fst_mem_of_mem_zipIdx hfield)))
    refine (splits_braced (respects_isClosed.tuple type) hfields).congr
      ⟨fun hall y hy => ?_, fun hall field hfield => ?_⟩
    · cases hy with
      | @tupleField _ _ e he =>
        rw [← List.zipIdx_map_fst 0 fields] at he
        obtain ⟨field, hfield, rfl⟩ := List.mem_map.1 he
        exact hall field hfield
    · exact hall _ (.tupleField (List.fst_mem_of_mem_zipIdx hfield))
  | whole name type =>
    obtain ⟨expected, -, hr⟩ := Piece.readsAggregate_of_readsValue (fun e he => by cases he) h
    have hname {token : Text} {d : Descriptor} (hscan : Token.scan text.trim = .ok [token])
        (hlookup : symbols.lookup? token = some d) : d.name.IsClosed := by
      rw [hs _ _ hlookup]
      exact (Token.shape_of_mem_scanInside hscan _ List.mem_cons_self).isClosed
    have hclosed : name.IsClosed := by
      cases hr with
      | array hscan hlookup => exact hname hscan hlookup
      | tuple hscan hlookup => exact hname hscan hlookup
    rw [value, valueTokens]
    exact (Splits.of_lex hclosed rfl).congr (iff_of_true trivial fun y hy => by cases hy)
  | call c =>
    rw [value, valueTokens]
    refine (hparts _ .wholeCall).congr ⟨fun hall y hy => ?_, fun hall => hall _ .wholeCall⟩
    cases hy with
    | wholeCall => exact hall

theorem splits_item {i : Item} (hparts : ∀ y, Part y (.item i) → Splits y.go y.tokens y.KeepsMinus) :
    Splits (item i) (itemTokens i) (Piece.item i).KeepsMinus := by
  rw [keepsMinus_iff_of_ne (x := .item _) fun e he => by cases he]
  cases i with
  | scalar e =>
    rw [item, itemTokens]
    refine (hparts _ .scalarItem).congr ⟨fun hall y hy => ?_, fun hall => hall _ .scalarItem⟩
    cases hy with
    | scalarItem => exact hall
  | row items =>
    rw [item, itemTokens]
    refine (splits_rows fun i hi => hparts _ (.rowItem hi)).congr
      ⟨fun hall y hy => ?_, fun hall i hi => hall _ (.rowItem hi)⟩
    cases hy with
    | rowItem hi => exact hall _ hi

/-- By induction on the parts of a piece: what was read splits into its tokens. -/
theorem splits_go (hs : symbols.KeepsNames) (x : Piece) :
    ∀ {text : Text}, x.IsToken text → IsRead symbols text x →
      Splits x.go x.tokens x.KeepsMinus := by
  induction x using Piece.induction with
  | step x ih =>
  intro text htoken hx
  have hparts : ∀ y, Part y x → Splits y.go y.tokens y.KeepsMinus := by
    intro y hy
    obtain ⟨part, hpart, hread⟩ := exists_isToken_of_part hy hx
    exact ih y hy hpart hread
  cases x with
  | expression e => exact splits_expression hs hx hparts
  | call c => exact splits_call hs htoken hx hparts
  | indexing i =>
    obtain ⟨texts, array, -, hlookup, hname, -⟩ := Expression.indexing_eq_ok hx
    have hclosed := Expression.isClosed_name_of_indexing htoken hx
    have hsame : i.name = text.takeWhile (· != '[') := hname.trans (hs _ _ hlookup)
    rw [← hsame] at hclosed
    exact splits_indexing hclosed hparts
  | field f => exact splits_field hs htoken hx
  | value v =>
    obtain ⟨type, hv⟩ := hx
    exact splits_value hs hv hparts
  | item i => exact splits_item hparts

/-- Go splits the text of an accepted expression into the tokens of its terms, in calls and indices
too, just if nowhere in it a `-` before its operand is followed by another `-`. -/
theorem lex_expression_iff (hs : symbols.KeepsNames) {e : Expression}
    (h : StellaGo.expression symbols text = .ok e) :
    lex (expression e) = expressionTokens e ↔
      ∀ inner, Piece.Inside (.expression e) (.expression inner) →
        Term.doublesMinus true inner.terms = false :=
  (splits_go hs (.expression e) trivial h).eq_iff

theorem lex_expression_iff_call :
    ∃ known, Symbols.empty.declare (.function ⟨"f".toList, [⟨"a".toList, .primitive .int⟩],
        .primitive .int⟩) = .ok known ∧ known.KeepsNames ∧
      ∃ e, StellaGo.expression known "f(1 - -2) * -(3)".toList = .ok e ∧
        (lex (expression e) = expressionTokens e ↔
          ∀ inner, Piece.Inside (.expression e) (.expression inner) →
            Term.doublesMinus true inner.terms = false) := by
  let known := Symbols.empty.insert (.function ⟨"f".toList, [⟨"a".toList, .primitive .int⟩],
    .primitive .int⟩)
  have hdeclare : Symbols.empty.declare (.function ⟨"f".toList, [⟨"a".toList, .primitive .int⟩],
    .primitive .int⟩) = .ok known := rfl
  have hknown : known.KeepsNames := Symbols.keepsNames_empty.declare hdeclare
  have haccepted : (StellaGo.expression known "f(1 - -2) * -(3)".toList).isOk := by decide +kernel
  obtain ⟨e, he⟩ := Check.isOk_iff.1 haccepted
  exact ⟨known, hdeclare, hknown, e, he, lex_expression_iff hknown he⟩

/-- Two `-` before one operand are written without a blank, and Go reads them as one token. -/
theorem lex_minus_minus_one :
    ∃ e, StellaGo.expression .empty "- -1".toList = .ok e ∧ expression e = "--1".toList ∧
      lex (expression e) = ["--".toList, "1".toList] ∧
      expressionTokens e = ["-".toList, "-".toList, "1".toList] := by
  have hnumber : lex "1".toList = ["1".toList] := lex_of_forall (by decide) (by decide)
  refine ⟨⟨[.operator .minus, .operator .minus, .literal "1".toList .int], .int⟩,
    Expression.expression_eq_ok_iff.2 ⟨["-".toList, "-".toList, "1".toList], by decide +kernel,
      by decide, by decide, ?_, by decide +kernel⟩, by decide,
    (lex_minus_minus _).trans (congrArg _ hnumber), by decide⟩
  have hminus : Expression.term .empty "-".toList = .ok (.operator .minus) := rfl
  have hone : Expression.term .empty "1".toList = .ok (.literal "1".toList .int) := rfl
  simp only [List.forall₂_cons, List.forall₂_nil_left_iff, hminus, hone, and_self]

end Go

end StellaGo
