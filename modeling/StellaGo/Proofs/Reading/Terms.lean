import Mathlib.Data.List.Forall2
import StellaGo.Expression

/-! How an accepted expression came to be read. The readers are given readers for shorter texts;
here each is said of the readers for texts of any length. Proved: an expression is accepted exactly
when its tokens fit together, each spells a term and the terms have a type; and a token spells a
term in one of eight ways. -/

namespace StellaGo

theorem Check.mapM_eq_ok_iff {ε α β : Type} {f : α → Except ε β} {xs : List α} {ys : List β} :
    xs.mapM f = .ok ys ↔ List.Forall₂ (fun x y => f x = .ok y) xs ys := by
  induction xs generalizing ys with
  | nil =>
    rw [List.mapM_nil, List.forall₂_nil_left_iff]
    exact ⟨fun h => by cases h; rfl, fun h => by subst h; rfl⟩
  | cons x xs ih =>
    rw [List.mapM_cons, List.forall₂_cons_left_iff, Check.bind_eq_ok_iff]
    constructor
    · rintro ⟨y, hy, h⟩
      obtain ⟨ys', hys, h⟩ := Check.bind_eq_ok_iff.1 h
      cases h
      exact ⟨y, ys', hy, ih.1 hys, rfl⟩
    · rintro ⟨y, ys', hy, hys, rfl⟩
      exact ⟨y, hy, Check.bind_eq_ok_iff.2 ⟨ys', ih.2 hys, rfl⟩⟩

theorem exists_of_mem_forall₂ {α β : Type} {R : α → β → Prop} {xs : List α} {ys : List β} {y : β}
    (h : List.Forall₂ R xs ys) (hy : y ∈ ys) : ∃ x ∈ xs, R x y := by
  induction h with
  | nil => cases hy
  | cons hxy _ ih =>
    rcases List.mem_cons.1 hy with rfl | hy
    · exact ⟨_, List.mem_cons_self, hxy⟩
    · obtain ⟨x, hx, hr⟩ := ih hy
      exact ⟨x, List.mem_cons_of_mem _ hx, hr⟩

theorem Symbols.resolve_eq_ok_iff {symbols : Symbols} {name : Name} {d : Descriptor} :
    symbols.resolve name = .ok d ↔ symbols.lookup? name = some d := by
  rw [resolve]
  cases symbols.lookup? name <;> simp

namespace Expression

variable {symbols : Symbols} {n : Nat}

/-! ### The bound on the length of what is inside -/

theorem arguments_inside {function : Name} {m : Nat} :
    ∀ (position : Nat) (parameters : List Parameter) (texts : List Text)
      (hn : ∀ text ∈ texts, text.length < n) (hm : ∀ text ∈ texts, text.length < m),
      arguments (inside symbols n) function position parameters texts hn =
        arguments (inside symbols m) function position parameters texts hm
  | position, p :: parameters, text :: texts, hn, hm => by
    rw [arguments, arguments, arguments_inside (position + 1) parameters texts]
    rfl
  | _, [], _, _, _ => by rw [arguments.eq_def, arguments.eq_def]
  | _, _ :: _, [], _, _ => by rw [arguments.eq_def, arguments.eq_def]

theorem indices_inside {array : Binding ArrayType} {m : Nat} :
    ∀ (sizes : List Nat) (texts : List Text)
      (hn : ∀ text ∈ texts, text.length < n) (hm : ∀ text ∈ texts, text.length < m),
      indices (inside symbols n) array sizes texts hn =
        indices (inside symbols m) array sizes texts hm
  | size :: sizes, text :: texts, hn, hm => by
    rw [indices, indices, indices_inside sizes texts]
    rfl
  | [], _, _, _ => by rw [indices.eq_def, indices.eq_def]
  | _ :: _, [], _, _ => by rw [indices.eq_def, indices.eq_def]

theorem readCall_inside (token : Text) (short : token.length ≤ n) :
    readCall symbols (inside symbols n) token short = call symbols token := by
  unfold call readCall
  dsimp only
  split
  · rfl
  · congr 1
    funext signature
    rw [arguments_inside]

theorem readIndexing_inside (token : Text) (short : token.length ≤ n) :
    readIndexing symbols (inside symbols n) token short = indexing symbols token := by
  unfold indexing readIndexing
  dsimp only
  split
  · rfl
  · congr 1
    funext array
    rw [indices_inside]

theorem readTerm_inside (token : Text) (short : token.length ≤ n) :
    readTerm symbols (inside symbols n) token short = term symbols token := by
  simp only [term, readTerm, readValue, readWord, readScalarCall, readCall_inside,
    readIndexing_inside]

theorem readTerms_inside :
    ∀ (tokens : List Text) (short : ∀ token ∈ tokens, token.length ≤ n),
      readTerms symbols (inside symbols n) tokens short = tokens.mapM (term symbols)
  | [], _ => by rw [readTerms, List.mapM_nil]
  | token :: tokens, short => by
    rw [readTerms, readTerm_inside, readTerms_inside tokens, List.mapM_cons]

/-! ### Expressions -/

theorem scanned_eq_ok_iff {text : Text}
    {x : { tokens : List Text // ∀ token ∈ tokens, token.length ≤ text.length }} :
    Token.scanned text = .ok x ↔ Token.scan text = .ok x.1 := by
  rw [Token.scanned]
  split
  · next fault h => simp [h]
  · next tokens h => simp [h, Subtype.ext_iff]

/-- How an expression is read once its text is split into tokens. -/
theorem expression_of_scan {text : Text} {tokens : List Text} (hscan : Token.scan text = .ok tokens) :
    expression symbols text =
      if tokens = [] then .error .noExpression
      else do
        Placement.check none tokens
        let terms ← tokens.mapM (term symbols)
        return ⟨terms, ← Inference.infer terms⟩ := by
  have hscanned : Token.scanned text = .ok ⟨tokens, Token.length_le_of_mem_scanInside hscan⟩ :=
    scanned_eq_ok_iff.2 hscan
  rw [expression, readExpression, hscanned]
  change (if tokens = [] then _ else _) = _
  congr 1
  congr 1
  funext _
  rw [← readTerms_inside tokens (Token.length_le_of_mem_scanInside hscan)]
  rfl

/-- An expression is accepted if its text splits into tokens, each of them fits between its
neighbours and spells a term, and the terms have a type. -/
theorem expression_eq_ok_iff {text : Text} {e : Expression} :
    expression symbols text = .ok e ↔
      ∃ tokens, Token.scan text = .ok tokens ∧ tokens ≠ [] ∧ Placement.check none tokens = .ok () ∧
        List.Forall₂ (fun token t => term symbols token = .ok t) tokens e.terms ∧
        Inference.infer e.terms = .ok e.type := by
  constructor
  · intro h
    obtain ⟨tokens, hscan⟩ : ∃ tokens, Token.scan text = .ok tokens := by
      rw [expression, readExpression] at h
      obtain ⟨⟨tokens, short⟩, hscanned, -⟩ := Check.bind_eq_ok_iff.1 h
      exact ⟨tokens, scanned_eq_ok_iff.1 hscanned⟩
    rw [expression_of_scan hscan] at h
    split at h
    · cases h
    next hne =>
    obtain ⟨⟨⟩, hcheck, h⟩ := Check.bind_eq_ok_iff.1 h
    obtain ⟨terms, hterms, h⟩ := Check.bind_eq_ok_iff.1 h
    obtain ⟨type, htype, h⟩ := Check.bind_eq_ok_iff.1 h
    cases h
    exact ⟨tokens, hscan, hne, hcheck, Check.mapM_eq_ok_iff.1 hterms, htype⟩
  · rintro ⟨tokens, hscan, hne, hcheck, hterms, htype⟩
    rw [expression_of_scan hscan, if_neg hne, hcheck]
    change (tokens.mapM (term symbols) >>= _) = _
    rw [Check.mapM_eq_ok_iff.2 hterms]
    change (Inference.infer e.terms >>= _) = _
    rw [htype]
    cases e
    rfl

/-! ### Terms -/

/-- A token is written as a literal of this type. -/
def IsLiteral (token : Text) : Primitive → Prop
  | .string => token.headD '\x00' = '"'
  | .byte => Literal.isByte token
  | .bool => token = "true".toList ∨ token = "false".toList
  | .int => Literal.numeric? token = some .int ∧ (Literal.intValue? token).isSome
  | .float => Literal.numeric? token = some .float
  | .io => False

instance (token : Text) : (type : Primitive) → Decidable (IsLiteral token type)
  | .string => inferInstanceAs (Decidable (_ = _))
  | .byte => inferInstanceAs (Decidable (_ = _))
  | .bool => inferInstanceAs (Decidable (_ ∨ _))
  | .int => inferInstanceAs (Decidable (_ ∧ _))
  | .float => inferInstanceAs (Decidable (_ = _))
  | .io => inferInstanceAs (Decidable False)

/-- The ways in which a token spells a term. -/
inductive ReadsTerm (symbols : Symbols) (token : Text) : Term → Prop
  | opening {b : Bracket} (hc : Token.classify token = .opening b) :
      ReadsTerm symbols token (.opening b)
  | closing {b : Bracket} (hc : Token.classify token = .closing b) :
      ReadsTerm symbols token (.closing b)
  | operator {op : Operator} (hc : Token.classify token = .operator op) :
      ReadsTerm symbols token (.operator op)
  | literal {type : Primitive} (hc : Token.classify token = .value) (h : IsLiteral token type) :
      ReadsTerm symbols token (.literal token type)
  | scalar {b : Binding Primitive} (hc : Token.classify token = .value)
      (hn : Name.problem? token = none) (h : symbols.lookup? token = some (.scalar b)) :
      ReadsTerm symbols token (.scalar b.name b.type)
  | call {c : Call} {type : Primitive} (hc : Token.classify token = .value)
      (h : call symbols token = .ok c) (hr : c.returns = .primitive type) (hio : type ≠ .io) :
      ReadsTerm symbols token (.call c)
  | element {i : Indexing} (hc : Token.classify token = .value)
      (h : indexing symbols token = .ok i) : ReadsTerm symbols token (.element i)
  | field {f : FieldAccess} (hc : Token.classify token = .value)
      (h : fieldAccess symbols token = .ok f) : ReadsTerm symbols token (.field f)

theorem numeric?_eq_int_or_float {token : Text} {type : Primitive}
    (h : Literal.numeric? token = some type) : type = .int ∨ type = .float := by
  unfold Literal.numeric? at h
  repeat' split at h
  all_goals simp_all

theorem readNumber_eq_ok {token : Text} {t : Term} (h : readNumber token = .ok t) :
    ∃ type, t = .literal token type ∧ IsLiteral token type := by
  unfold readNumber at h
  split at h
  · cases h
  · next hn =>
    split at h
    · next hv =>
      cases h
      exact ⟨.int, rfl, hn, hv⟩
    · cases h
  · next type hne hn =>
    cases h
    rcases numeric?_eq_int_or_float hn with rfl | rfl
    · exact absurd rfl hne
    · exact ⟨.float, rfl, hn⟩

theorem readWord_eq_ok {token : Text} {t : Term} (hc : Token.classify token = .value)
    (h : readWord symbols (inside symbols token.length) token (Nat.le_refl _) = .ok t) :
    ReadsTerm symbols token t := by
  unfold readWord at h
  split at h
  · rw [readScalarCall, readCall_inside] at h
    obtain ⟨c, hcall, h⟩ := Check.bind_eq_ok_iff.1 h
    split at h
    any_goals cases h
    next type hio hr => exact .call hc hcall hr hio
  · rw [readIndexing_inside] at h
    obtain ⟨i, hi, rfl⟩ := Check.map_eq_ok_iff.1 h
    exact .element hc hi
  · obtain ⟨f, hf, rfl⟩ := Check.map_eq_ok_iff.1 h
    exact .field hc hf
  · unfold readName at h
    split at h
    · cases h
    next hn =>
    obtain ⟨d, hd, h⟩ := Check.bind_eq_ok_iff.1 h
    split at h
    · next b =>
      cases h
      exact .scalar hc hn (Symbols.resolve_eq_ok_iff.1 hd)
    · cases h

/-- What a token spells, if it spells a term. -/
theorem readsTerm_of_term {token : Text} {t : Term} (h : term symbols token = .ok t) :
    ReadsTerm symbols token t := by
  rw [term, readTerm] at h
  split at h
  · next b hc => cases h; exact .opening hc
  · next b hc => cases h; exact .closing hc
  · next op hc => cases h; exact .operator hc
  next hc =>
  simp only [readValue, beq_iff_eq] at h
  split at h
  · next hq => cases h; exact .literal hc hq
  split at h
  · split at h
    · next hb => cases h; exact .literal hc hb
    · cases h
  split at h
  · next hb => cases h; exact .literal hc hb
  split at h
  · obtain ⟨type, rfl, hl⟩ := readNumber_eq_ok h
    exact .literal hc hl
  split at h
  · cases h
  split at h
  · cases h
  · exact readWord_eq_ok hc h

end Expression

end StellaGo
