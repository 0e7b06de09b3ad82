import StellaGo.Proofs.TokenReferences

/-! What checked expressions and values refer to in generated code. Defined here: rows of tokens
that are complete by themselves. Proved: the tokens of a piece that was read are such a row, if the
types of all known names are noted. Each carrier in them is noted, and each field is one of its
carrier. -/

namespace StellaGo.Go

open Piece (Part IsRead)

variable {env : Environment} {r : Requirements} {xs ys : List Text}

/-! ### Tokens that refer to nothing -/

/-- A token that refers to nothing and is no brace. -/
def isInert (t : Text) : Bool := isPlain t && t != ['{'] && t != ['}']

theorem isPlain_of_isInert {t : Text} (h : isInert t) : isPlain t := by
  rw [isInert, Bool.and_eq_true, Bool.and_eq_true] at h
  exact h.1.1

theorem not_isCarrier_of_head {t : Text} (h : t.head? ≠ some 't') : Name.isCarrier t = false := by
  cases t with
  | nil => rfl
  | cons c rest =>
    have hc : c ≠ 't' := fun hc => h (congrArg some hc)
    simp [Name.isCarrier, Text.after?, List.isPrefixOf?, hc.symm]

/-- The tokens that are not inert, besides the names of carriers. -/
def marks : List Text := ['.'] :: [':'] :: ['{'] :: ['}'] :: definers

theorem isInert_of_notMem {t : Text} (hcarrier : Name.isCarrier t = false) (h : t ∉ marks) :
    isInert t := by
  have hplain : ∀ u ∈ ['.'] :: [':'] :: definers, u ∈ marks := by decide
  have hbrace : ['{'] ∈ marks ∧ ['}'] ∈ marks := by decide
  rw [isInert, isPlain, hcarrier, Bool.not_false, Bool.and_true, Bool.and_eq_true,
    Bool.and_eq_true, Bool.not_eq_true', List.contains_eq_mem, decide_eq_false_iff_not,
    bne_iff_ne, bne_iff_ne]
  exact ⟨⟨fun hmem => h (hplain t hmem), fun heq => h (heq ▸ hbrace.1)⟩, fun heq => h (heq ▸ hbrace.2)⟩

theorem isInert_of_head {c : Char} {rest : Text} (h : c ∉ ['.', ':', 't', 'i', '{', '}']) :
    isInert (c :: rest) := by
  have hhead : ∀ t ∈ marks, ∃ d ∈ ['.', ':', 't', 'i', '{', '}'], t.head? = some d := by decide
  refine isInert_of_notMem (not_isCarrier_of_head fun heq => ?_) fun hmem => ?_
  · obtain rfl := Option.some.inj heq
    exact h (by simp)
  · obtain ⟨d, hd, heq⟩ := hhead _ hmem
    exact h (Option.some.inj heq ▸ hd)

theorem isInert_of_problem? {name : Name} (h : Name.problem? name = none) : isInert name := by
  obtain ⟨-, hreserved, hcarrier⟩ := Name.problem?_eq_none_iff.1 h
  have hword := Name.isWordChar_of_problem? h
  have hmark : ∀ t ∈ marks, Name.isReserved t ∨ ∃ c ∈ t, (c.isAlphanum || c == '_') = false := by
    decide
  refine isInert_of_notMem hcarrier fun hmem => ?_
  rcases hmark name hmem with hword' | ⟨c, hc, hfalse⟩
  · rw [hword'] at hreserved
    cases hreserved
  · rw [hword c hc] at hfalse
    cases hfalse

theorem isInert_of_isDigit {c : Char} {rest : Text} (h : c.isDigit) : isInert (c :: rest) := by
  refine isInert_of_head fun hmem => ?_
  have hall : ∀ c ∈ ['.', ':', 't', 'i', '{', '}'], c.isDigit = false := by decide
  rw [hall c hmem] at h
  cases h

theorem isInert_of_isLiteral {token : Text} {type : Primitive}
    (h : Expression.IsLiteral token type) : isInert token := by
  have hnumber {type : Primitive} (h : Literal.numeric? token = some type) : isInert token := by
    obtain ⟨c, rest, rfl, hc, -⟩ := exists_of_numeric? h
    exact isInert_of_isDigit hc
  cases type with
  | int => exact hnumber h.1
  | float => exact hnumber h
  | bool => rcases h with rfl | rfl <;> decide
  | byte =>
    obtain ⟨rest, rfl⟩ := exists_of_isByte h
    exact isInert_of_head (by decide)
  | string =>
    cases token with
    | nil => cases h
    | cons c rest =>
      obtain rfl : c = '"' := h
      exact isInert_of_head (by decide)
  | io => cases h

theorem isInert_of_mem_typeTokens {t : Text} (h : t ∈ typeTokens) : isInert t := by
  have hall : ∀ t ∈ typeTokens, isInert t := by decide
  exact hall t h

theorem isInert_ofNat (n : Nat) : isInert (Text.ofNat n) := by
  have hdigits : ∀ c ∈ Text.ofNat n, c.isDigit := fun _ hc =>
    Nat.isDigit_of_mem_toDigits (by decide) (by decide) hc
  have hne : Text.ofNat n ≠ [] := Nat.toDigits_ne_nil
  obtain ⟨c, rest, heq⟩ := List.exists_cons_of_ne_nil hne
  rw [heq] at hdigits ⊢
  exact isInert_of_isDigit (hdigits c List.mem_cons_self)

/-! ### Rows of tokens -/

/-- All that the tokens refer to is there, and every brace among them has its partner. -/
structure Complete (env : Environment) (r : Requirements) (ts : List Text) : Prop where
  refers : Refers env r (NamesField r) ts
  balanced : Balanced ts

namespace Complete

theorem of_isInert (h : ∀ t ∈ xs, isInert t) : Complete env r xs := by
  refine ⟨.of_isPlain fun t ht => isPlain_of_isInert (h t ht), .of_notMem ?_ ?_⟩
  · exact fun hmem => absurd (h _ hmem) (by decide)
  · exact fun hmem => absurd (h _ hmem) (by decide)

theorem nil : Complete env r [] := of_isInert nofun

theorem token {t : Text} (h : isInert t) : Complete env r [t] :=
  of_isInert (List.forall_mem_singleton.2 h)

theorem append (h : Complete env r xs) (h' : Complete env r ys) : Complete env r (xs ++ ys) :=
  ⟨h.refers.append h'.refers, h.balanced.append h'.balanced⟩

theorem cons {t : Text} (ht : isInert t) (h : Complete env r xs) : Complete env r (t :: xs) :=
  (token ht).append h

/-- A token that refers to nothing, others, and another one that refers to nothing. -/
theorem around {t u : Text} (ht : isInert t) (h : Complete env r xs) (hu : isInert u) :
    Complete env r (t :: xs ++ [u]) :=
  (h.cons ht).append (token hu)

theorem braced (h : Complete env r xs) : Complete env r (['{'] :: xs ++ [['}']]) := by
  have hopen : Refers env r (NamesField r) [['{']] := .of_isPlain (by decide)
  have hclose : Refers env r (NamesField r) [['}']] := .of_isPlain (by decide)
  exact ⟨(hopen.append h.refers).append hclose, h.balanced.braced⟩

theorem commaTokens {parts : List (List Text)} (h : ∀ part ∈ parts, Complete env r part) :
    Complete env r (Go.commaTokens parts) := by
  induction parts with
  | nil => exact nil
  | cons part rest ih =>
    obtain ⟨hpart, hrest⟩ := List.forall_mem_cons.1 h
    have hmore := ih hrest
    rw [Go.commaTokens] at hmore ⊢
    cases rest with
    | nil =>
      rw [List.intercalate_singleton]
      exact hpart
    | cons next more =>
      rw [List.intercalate_cons_cons]
      exact (hpart.append (token (by decide))).append hmore

theorem commaTokens_map {α : Type} {f : α → List Text} {as : List α}
    (h : ∀ a ∈ as, Complete env r (f a)) : Complete env r (Go.commaTokens (as.map f)) := by
  refine commaTokens fun part hpart => ?_
  obtain ⟨a, ha, rfl⟩ := List.mem_map.1 hpart
  exact h a ha

theorem termsTokens {ts : List Term} (h : ∀ t ∈ ts, Complete env r (termTokens t)) :
    Complete env r (Go.termsTokens ts) := by
  induction ts with
  | nil => exact nil
  | cons t rest ih =>
    obtain ⟨ht, hrest⟩ := List.forall_mem_cons.1 h
    rw [Go.termsTokens]
    exact ht.append (ih hrest)

theorem bracketsTokens {es : List Expression} (h : ∀ e ∈ es, Complete env r (expressionTokens e)) :
    Complete env r (Go.bracketsTokens es) := by
  induction es with
  | nil =>
    rw [Go.bracketsTokens]
    exact nil
  | cons e rest ih =>
    obtain ⟨he, hrest⟩ := List.forall_mem_cons.1 h
    rw [Go.bracketsTokens]
    exact (he.cons (by decide)).append ((ih hrest).cons (by decide))

/-! ### Types and names -/

theorem name {name : Name} (h : Name.problem? name = none) : Complete env r (lex name) := by
  rw [lex_of_problem? h]
  exact token (isInert_of_problem? h)

/-- The text of an array type is its dimensions in brackets and the type of its elements. -/
theorem array (type : ArrayType) : Complete env r (lex type.goName) := by
  obtain ⟨base, dimensions⟩ := type
  rw [ArrayType.goName]
  induction dimensions with
  | nil =>
    exact of_isInert fun t ht => isInert_of_mem_typeTokens (mem_typeTokens_of_primitive base t ht)
  | cons n rest ih =>
    have hsize : Splits (Text.ofNat n) [Text.ofNat n] True :=
      .of_lex (respects_isClosed.ofNat n) (lex_ofNat n)
    have hdimension : Splits ('[' :: Text.ofNat n ++ [']']) (['['] :: [Text.ofNat n] ++ [[']']]) True :=
      hsize.around (by decide) (by decide)
    have hsplit : ArrayType.brackets (n :: rest) ++ base.goName.toList =
        ('[' :: Text.ofNat n ++ [']']) ++ (ArrayType.brackets rest ++ base.goName.toList) := by
      rw [ArrayType.brackets, List.flatMap_cons, List.append_assoc]
      rfl
    rw [hsplit, lex_append hdimension.closed (.behind (by decide) _ _), hdimension.eq_iff.2 trivial]
    exact (around (by decide) (token (isInert_ofNat n)) (by decide)).append ih

theorem carrier {arity : Nat} (h : arity ∈ r.arities) : Complete env r [carrierName arity] := by
  have hnot {t : Text} (ht : Name.isCarrier t = false) : t ∉ [carrierName arity] := fun hmem =>
    carrierName_ne ht (List.mem_singleton.1 hmem).symm
  have hsplit {t : Text} {front rest : List Text} (ht : Name.isCarrier t = false) :
      [carrierName arity] ≠ front ++ t :: rest := fun heq =>
    hnot ht (heq ▸ List.mem_append_right front List.mem_cons_self)
  refine ⟨?_, .of_notMem (hnot (by decide)) (hnot (by decide))⟩
  constructor
  · intro other hmem
    rw [carrierName_inj (List.mem_singleton.1 hmem)]
    exact h
  · have hdefiner : ∀ word ∈ definers, Name.isCarrier word = false := by decide
    exact fun word hword => hnot (hdefiner word hword)
  · exact fun front rest heq => absurd heq (hsplit (by decide))
  · exact fun front rest heq => absurd heq (hsplit (by decide))

/-- A tuple type refers to its carrier. -/
theorem tuple {type : TupleType} (h : type.arity ∈ r.arities) :
    Complete env r (lex type.goName) := by
  have hfields : Complete env r
      (Go.commaTokens (type.fields.map fun p => lex p.goName.toList)) :=
    commaTokens_map fun p _ =>
      of_isInert fun t ht => isInert_of_mem_typeTokens (mem_typeTokens_of_primitive p t ht)
  rw [lex_tuple]
  exact (carrier h).append (around (by decide) hfields (by decide))

theorem type {type : ValueType} (h : r.Covers type) : Complete env r (lex type.goName) := by
  cases type with
  | primitive p =>
    exact of_isInert fun t ht => isInert_of_mem_typeTokens (mem_typeTokens_of_primitive p t ht)
  | array type => exact array type
  | tuple type => exact tuple (h _ rfl)

end Complete

/-! ### Fields -/

theorem isInert_fieldName (position : Nat) : isInert (fieldName position) :=
  isInert_of_head (by decide)

/-- A name is cut off from the point behind it, and the point from the field. -/
theorem lex_field {name : Name} (hname : Name.problem? name = none) (position : Nat) :
    lex (name ++ ".v".toList ++ Text.ofNat position) = [name, ['.'], fieldName position] := by
  obtain ⟨hidentifier, -, -⟩ := Name.problem?_eq_none_iff.1 hname
  have hword := Name.isWordChar_of_problem? hname
  have hfield : lex (fieldName position) = [fieldName position] :=
    (Splits.numbered (by decide) position).eq_iff.2 trivial
  have hpoint : lex ('.' :: fieldName position) = [['.'], fieldName position] := by
    have hfound : symbol? ('.' :: fieldName position) = some ['.'] := rfl
    rw [lex_cons_symbol hfound]
    exact congrArg (['.'] :: ·) hfield
  cases name with
  | nil => cases hidentifier
  | cons c rest =>
    have hdigit : c.isDigit = false := by
      refine isDigit_eq_false_of_isAlpha ?_
      by_contra halpha
      rw [Name.isIdentifier, Name.read?, if_neg halpha] at hidentifier
      cases hidentifier
    obtain ⟨hc, hrest⟩ := List.forall_mem_cons.1 hword
    have hcontinues : continuesWord c '.' = false := by
      rw [continuesWord, hdigit, Bool.false_and, Bool.or_false]
      decide
    have hlex := lex_word_append (u := '.' :: fieldName position) (isWordChar_of_word hc)
      (fun d hd => by rw [continuesWord, isWordChar_of_word (hrest d hd), Bool.true_or])
      fun d hd => by
        cases hd
        exact hcontinues
    rw [hpoint] at hlex
    rw [List.append_assoc]
    exact hlex

/-- A field of a declared tuple. -/
theorem Complete.field {name : Name} {type : TupleType} {position : Nat}
    (hname : Name.problem? name = none) (h : env.lookup? name = some (.value name (.tuple type)))
    (hp : position < type.arity) (hr : type.arity ∈ r.arities) :
    Complete env r [name, ['.'], fieldName position] := by
  have hinert : ∀ t ∈ [name] ++ [fieldName position], isInert t :=
    List.forall_mem_cons.2 ⟨isInert_of_problem? hname,
      List.forall_mem_singleton.2 (isInert_fieldName position)⟩
  have hplain : ∀ t ∈ [name] ++ [fieldName position], isPlain t := fun t ht =>
    isPlain_of_isInert (hinert t ht)
  have hselects : Selects env r ([] ++ [name]) ([fieldName position] ++ []) := .field h hp hr
  have hpoint : Balanced [(['.'] : Text)] := .of_notMem (by decide) (by decide)
  have hbefore : Complete env r [name] := token (isInert_of_problem? hname)
  have hbehind : Complete env r [fieldName position] := token (isInert_fieldName position)
  exact ⟨.of_mark (by decide) hplain (fun _ => hselects) nofun,
    hbefore.balanced.append (hpoint.append hbehind.balanced)⟩

/-- The last of the tokens is a field of the carrier whose brace stands in front of them, or of one
inside of it. -/
inductive NamesFieldOf (r : Requirements) (arity : Nat) : List Text → Prop
  | inside {front : List Text} (h : NamesField r front) : NamesFieldOf r arity front
  | own {inner : List Text} {position : Nat} (hinner : Balanced inner) (hp : position < arity) :
      NamesFieldOf r arity (inner ++ [fieldName position])

theorem NamesFieldOf.append_front {arity : Nat} {front before : List Text}
    (h : NamesFieldOf r arity front) (hb : Balanced before) :
    NamesFieldOf r arity (before ++ front) := by
  cases h with
  | inside h => exact .inside (h.append_front before)
  | own hinner hp =>
    rw [← List.append_assoc]
    exact .own (hb.append hinner) hp

theorem refers_namedField {arity position : Nat} {e : Expression} (hp : position < arity)
    (h : Complete env r (expressionTokens e)) :
    Refers env r (NamesFieldOf r arity) (namedFieldTokens (e, position)) ∧
      Balanced (namedFieldTokens (e, position)) := by
  have hname : Complete env r [fieldName position] := .token (isInert_fieldName position)
  have hplain : ∀ t ∈ [fieldName position] ++ [], isPlain t :=
    List.forall_mem_singleton.2 (isPlain_of_isInert (isInert_fieldName position))
  have hcolon : Balanced [([':'] : Text)] := .of_notMem (by decide) (by decide)
  have hnil : Complete env r [] := .nil
  have hkey : Refers env r (NamesFieldOf r arity) ([fieldName position] ++ [[':']]) :=
    .of_mark (by decide) hplain nofun fun _ => .own hnil.balanced hp
  exact ⟨hkey.append_of_imp h.refers fun _ hfront => .inside (hfront.append_front _),
    hname.balanced.append (hcolon.append h.balanced)⟩

/-- By induction on the fields: what is in front of a field is in braces by itself. -/
theorem refers_namedFields {arity position : Nat} {es : List Expression}
    (hp : position + es.length ≤ arity) (h : ∀ e ∈ es, Complete env r (expressionTokens e)) :
    Refers env r (NamesFieldOf r arity) (commaTokens (namedFieldsTokens position es)) ∧
      Balanced (commaTokens (namedFieldsTokens position es)) := by
  induction es generalizing position with
  | nil =>
    have hnil : Complete env r [] := .nil
    exact ⟨hnil.refers.imp fun _ => .inside, hnil.balanced⟩
  | cons e rest ih =>
    obtain ⟨he, hrest⟩ := List.forall_mem_cons.1 h
    rw [List.length_cons] at hp
    obtain ⟨hfield, hfieldb⟩ := refers_namedField (show position < arity by omega) he
    obtain ⟨hmore, hmoreb⟩ := ih (show position + 1 + rest.length ≤ arity by omega) hrest
    cases rest with
    | nil =>
      rw [namedFieldsTokens, namedFieldsTokens, commaTokens, List.intercalate_singleton]
      exact ⟨hfield, hfieldb⟩
    | cons next others =>
      have hcomma : Complete env r [[',']] := .token (by decide)
      have hfront := hfieldb.append hcomma.balanced
      have hfields : commaTokens (namedFieldsTokens position (e :: next :: others)) =
          namedFieldTokens (e, position) ++ [[',']] ++
            commaTokens (namedFieldsTokens (position + 1) (next :: others)) := by
        rw [namedFieldsTokens, namedFieldsTokens, commaTokens, List.intercalate_cons_cons]
        rfl
      rw [hfields]
      refine ⟨.append_of_imp ?_ hmore fun _ hkey => hkey.append_front hfront, hfront.append hmoreb⟩
      exact hfield.append_of_imp hcomma.refers fun _ hkey => .inside (hkey.append_front _)

/-- A tuple that is written out gives a value to fields of its carrier. -/
theorem Complete.tupleLiteral {type : TupleType} {fields : List Expression}
    (hlen : fields.length = type.arity) (hr : type.arity ∈ r.arities)
    (h : ∀ e ∈ fields, Complete env r (expressionTokens e)) :
    Complete env r (valueTokens (.tupleLiteral type fields)) := by
  obtain ⟨hfields, hbalanced⟩ :=
    refers_namedFields (show 0 + fields.length ≤ type.arity by omega) h
  have htype : Complete env r (lex type.goName) := .tuple hr
  have hopen : Refers env r (NamesField r) [['{']] := .of_isPlain (by decide)
  have hclose : Refers env r (NamesField r) [['}']] := .of_isPlain (by decide)
  have hkeys : Refers env r (NamesField r)
      (lex type.goName ++ [['{']] ++ Go.commaTokens (namedFieldsTokens 0 fields)) := by
    refine (htype.refers.append hopen).append_of_imp hfields fun front hkey => ?_
    cases hkey with
    | inside h => exact h.append_front _
    | @own inner position hinner hp =>
      have hsplit : lex type.goName ++ [['{']] ++ (inner ++ [fieldName position]) =
          [] ++ lex type.goName ++ ['{'] :: inner ++ [fieldName position] := by
        simp
      rw [hsplit]
      exact .mk hinner hp hr
  rw [valueTokens, List.append_assoc]
  refine ⟨?_, htype.balanced.append hbalanced.braced⟩
  have hwhole := hkeys.append hclose
  rw [List.append_assoc, List.append_assoc] at hwhole
  exact hwhole

/-! ### Pieces -/

section Pieces

variable {f : Frame} {text : Text}

theorem complete_term (hc : env.IsCovered r) {t : Term}
    (ht : Expression.ReadsTerm f.scope.symbols text t) (hagrees : t.Agrees env)
    (hparts : ∀ y ∈ t.piece?, Complete env r y.tokens) : Complete env r (termTokens t) := by
  cases ht with
  | opening | closing => exact .token (by decide)
  | @operator op => exact .token (by cases op <;> decide)
  | literal _ h => exact .token (isInert_of_isLiteral h)
  | scalar => exact .token (isInert_of_problem? (hc.problem?_eq_none hagrees))
  | call | element | field => exact hparts _ rfl

theorem complete_expression (hc : env.IsCovered r) {e : Expression}
    (h : StellaGo.expression f.scope.symbols text = .ok e)
    (hagrees : (Piece.expression e).Agrees env)
    (hparts : ∀ y, Part y (.expression e) → Complete env r y.tokens) :
    Complete env r (expressionTokens e) := by
  obtain ⟨tokens, -, -, -, hterms, -⟩ := Expression.expression_eq_ok_iff.1 h
  have hall : ∀ t ∈ e.terms, Complete env r (termTokens t) := by
    intro t ht
    obtain ⟨token, -, hterm⟩ := exists_of_mem_forall₂ hterms ht
    exact complete_term hc (Expression.readsTerm_of_term hterm) (hagrees t ht)
      fun y hy => hparts y (part_expression_iff.2 ⟨t, ht, hy⟩)
  obtain ⟨ts, type⟩ := e
  rw [expressionTokens]
  exact .termsTokens hall

theorem complete_call (hc : env.IsCovered r) {c : Call} (hagrees : (Piece.call c).Agrees env)
    (hparts : ∀ v ∈ c.arguments, Complete env r (valueTokens v)) : Complete env r (callTokens c) := by
  obtain ⟨s, hlookup, -⟩ := hagrees
  obtain ⟨name, arguments, returns⟩ := c
  rw [callTokens, valuesTokens_eq_map, List.append_assoc]
  exact .append (.name (hc.problem?_eq_none hlookup))
    (.around (by decide) (.commaTokens_map hparts) (by decide))

theorem complete_indexing (hc : env.IsCovered r) {i : Indexing}
    (hagrees : (Piece.indexing i).Agrees env)
    (hparts : ∀ e ∈ i.indices, Complete env r (expressionTokens e)) :
    Complete env r (indexingTokens i) := by
  obtain ⟨type, hlookup, -⟩ := hagrees
  obtain ⟨name, indices, base⟩ := i
  rw [indexingTokens]
  exact .append (.name (hc.problem?_eq_none hlookup)) (.bracketsTokens hparts)

theorem complete_field (hc : env.IsCovered r) {a : FieldAccess}
    (hagrees : (Piece.field a).Agrees env) : Complete env r (termTokens (.field a)) := by
  obtain ⟨type, hlookup, hp, -⟩ := hagrees
  have hname := hc.problem?_eq_none hlookup
  have hcovers : r.Covers (.tuple type) := hc.covers hlookup List.mem_cons_self
  rw [termTokens, term, lex_field hname]
  exact .field hname hlookup hp (hcovers _ rfl)

theorem complete_value (hc : env.IsCovered r) {v : Value} {type : ValueType}
    (hconforms : v.Conforms env type) (hcovers : r.Covers type)
    (hparts : ∀ y, Part y (.value v) → Complete env r y.tokens) :
    Complete env r (valueTokens v) := by
  cases hconforms with
  | scalar =>
    rw [valueTokens]
    exact hparts _ .scalar
  | arrayLiteral =>
    rw [valueTokens, rowsTokens_eq_map, List.append_assoc]
    exact .append (.array _) (.braced (.commaTokens_map fun i hi => hparts _ (.arrayItem hi)))
  | tupleLiteral htypes =>
    have hlen := congrArg List.length htypes
    rw [List.length_map] at hlen
    exact .tupleLiteral hlen (hcovers _ rfl) fun e he => hparts _ (.tupleField he)
  | whole hlookup =>
    rw [valueTokens]
    exact .name (hc.problem?_eq_none hlookup)
  | call =>
    rw [valueTokens]
    exact hparts _ .wholeCall

theorem complete_item {i : Item} (hparts : ∀ y, Part y (.item i) → Complete env r y.tokens) :
    Complete env r (itemTokens i) := by
  cases i with
  | scalar e =>
    rw [itemTokens]
    exact hparts _ .scalarItem
  | row items =>
    rw [itemTokens, rowsTokens_eq_map]
    exact .braced (.commaTokens_map fun i hi => hparts _ (.rowItem hi))

/-- By induction on the parts of a piece: what was read refers to what is there. A value does if it
has a type that is covered. -/
theorem complete_tokens (hf : Reflects f env) (hc : env.IsCovered r) (x : Piece) :
    ∀ {text : Text}, IsRead f.scope.symbols text x →
      (∀ v, x = .value v → ∃ type, v.Conforms env type ∧ r.Covers type) →
      Complete env r x.tokens := by
  induction x using Piece.induction with
  | step x ih =>
  intro text hx hvalue
  have hagrees := hf.agrees hx
  have hparts : ∀ y, Part y x → (∀ v, y = .value v → ∃ type, v.Conforms env type ∧ r.Covers type) →
      Complete env r y.tokens := by
    intro y hy hvalue
    obtain ⟨part, -, hread⟩ := Piece.isRead_of_part hy hx
    exact ih y hy hread hvalue
  cases x with
  | expression e =>
    refine complete_expression hc hx hagrees fun y hy => hparts y hy ?_
    rintro v rfl
    cases hy
  | call c =>
    refine complete_call hc hagrees fun v hv => hparts _ (.argument hv) ?_
    rintro w hw
    obtain rfl := Piece.value.inj hw
    -- an argument has the type of its parameter, which is written in the signature
    obtain ⟨s, hlookup, -, hall⟩ := hagrees
    obtain ⟨p, hp, hconforms⟩ := exists_of_mem_forall₂ hall hv
    exact ⟨p.type, hconforms,
      hc.covers hlookup (List.mem_append_left _ (List.mem_map_of_mem hp))⟩
  | indexing i => exact complete_indexing hc hagrees fun e he => hparts _ (.index he) nofun
  | field a => exact complete_field hc hagrees
  | value v =>
    obtain ⟨type, hconforms, hcovers⟩ := hvalue v rfl
    refine complete_value hc hconforms hcovers fun y hy => hparts y hy ?_
    rintro w rfl
    cases hy
  | item i =>
    refine complete_item fun y hy => hparts y hy ?_
    rintro w rfl
    cases hy

end Pieces

end StellaGo.Go
