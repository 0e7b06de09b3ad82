import StellaGo.Proofs.Offsets.Inference
import StellaGo.Proofs.Rereading
import StellaGo.Proofs.Scanning
import StellaGo.Proofs.SourceEdits
import StellaGo.Statement.Simple

/-! Constant indices. Defined here: the constant that the text of an index spells, indexings of a
declared array by ints, and lines that assign to a target. Proved: an indexing of an array by an int
for each of its dimensions is refused exactly if one of these is a constant outside its dimension, or
any constant where the size does not fit in a signed word. The verdict is the same where the element is
read and where it is assigned to. -/

namespace StellaGo

open Text (Closes)

/-! ### Constants -/

/-- The text is an int literal with this value, or one behind a single sign. -/
inductive SpellsConstant (text : Text) : Int → Prop
  | literal {digits : Text} {n : Nat} (hs : Token.scan text = .ok [digits])
      (hd : digits.toNat? = some n) : SpellsConstant text n
  | negated {digits : Text} {n : Nat} (hs : Token.scan text = .ok [['-'], digits])
      (hd : digits.toNat? = some n) : SpellsConstant text (-n)

/-- A constant is outside a dimension of this size, or the size does not fit in a signed word. -/
def EscapesSize (text : Text) (size : Nat) : Prop :=
  ∃ v, SpellsConstant text v ∧ (¬ (0 ≤ v ∧ v < size) ∨ Text.signBound ≤ size)

theorem bmod_wordSize {size : Nat} (hs : size < Text.wordSize) :
    Int.bmod size Text.wordSize =
      if size < Text.signBound then (size : Int) else size - Text.wordSize := by
  have hmod : (size : Int) % Text.wordSize = size := Int.emod_eq_of_lt (by omega) (by omega)
  have hhalf : ((Text.wordSize : Int) + 1) / 2 = Text.signBound := rfl
  rw [Int.bmod_def, hmod, hhalf]
  simp only [Int.ofNat_lt]

/-- A constant is taken for one inside a dimension if it is, and the size fits in a signed word. -/
theorem inRange_iff {v : Int} {size : Nat} (hs : size < Text.wordSize) :
    Expression.inRange v size ↔ (0 ≤ v ∧ v < size) ∧ size < Text.signBound := by
  rw [Expression.inRange, Bool.and_eq_true, decide_eq_true_eq, decide_eq_true_eq, bmod_wordSize hs]
  rcases Nat.lt_or_ge size Text.signBound with hsmall | hlarge
  · rw [if_pos hsmall, and_iff_left hsmall]
  · rw [if_neg (Nat.not_lt.2 hlarge)]
    omega

theorem Token.eq_symbol_of_classify {token : Text} {op : Operator}
    (h : classify token = .operator op) : token = op.symbol.toList := by
  rw [classify.eq_def] at h
  split at h
  any_goals cases h
  split at h
  · next found hfound =>
    cases h
    rw [Operator.ofSymbol?] at hfound
    split at hfound
    · next hread =>
      cases hfound
      rw [← Operator.append_of_read? hread, List.append_nil]
    · cases hfound
  · cases h

namespace Expression

variable {symbols : Symbols}

/-- Digits spell an int literal, if a term at all. -/
theorem eq_literal_of_toNat? {digits : Text} {n : Nat} {t : Term} (hd : digits.toNat? = some n)
    (h : term symbols digits = .ok t) : t = .literal digits .int := by
  rw [Text.toNat?] at hd
  split at hd
  case isFalse => cases hd
  next hdigits =>
  obtain ⟨hne, hall⟩ := hdigits
  have hdigit := List.all_eq_true.1 hall
  obtain ⟨c, rest, rfl⟩ := List.exists_cons_of_ne_nil hne
  rw [term_of_digit (hdigit c List.mem_cons_self), readNumber] at h
  split at h
  · cases h
  · split at h
    · cases h
      rfl
    · cases h
  · next type hint hnumeric =>
    rw [Literal.numeric?] at hnumeric
    split at hnumeric
    · next whole fraction hcut =>
      obtain ⟨heq, -⟩ := Text.eq_append_of_cut? hcut
      have hpoint := hdigit '.' (heq ▸ List.mem_append_right _ List.mem_cons_self)
      cases hpoint
    · split at hnumeric
      · cases hnumeric
        exact absurd rfl hint
      · cases hnumeric

/-- The constant of an expression is the one that its text spells. -/
theorem constant?_eq_some_iff {text : Text} {e : Expression} {v : Int}
    (h : expression symbols text = .ok e) : e.constant? = some v ↔ SpellsConstant text v := by
  obtain ⟨tokens, hscan, -, -, hterms, -⟩ := expression_eq_ok_iff.1 h
  obtain ⟨terms, type⟩ := e
  constructor
  · intro hv
    rw [constant?] at hv
    split at hv
    · next digits hone =>
      obtain ⟨value, hvalue, rfl⟩ := Option.map_eq_some_iff.1 hv
      obtain ⟨n, hn, hcast⟩ := Option.bind_eq_some_iff.1 hvalue
      cases hcast
      obtain rfl : terms = _ := hone
      obtain ⟨token, rest, htoken, hnil, rfl⟩ := List.forall₂_cons_right_iff.1 hterms
      rw [List.forall₂_nil_right_iff] at hnil
      subst hnil
      cases readsTerm_of_term htoken
      exact .literal hscan hn
    · next digits htwo =>
      obtain ⟨value, hvalue, rfl⟩ := Option.map_eq_some_iff.1 hv
      obtain ⟨n, hn, hcast⟩ := Option.bind_eq_some_iff.1 hvalue
      cases hcast
      obtain rfl : terms = _ := htwo
      obtain ⟨sign, rest, hsign, hrest, rfl⟩ := List.forall₂_cons_right_iff.1 hterms
      obtain ⟨token, behind, htoken, hnil, rfl⟩ := List.forall₂_cons_right_iff.1 hrest
      rw [List.forall₂_nil_right_iff] at hnil
      subst hnil
      cases readsTerm_of_term htoken
      cases readsTerm_of_term hsign with
      | operator hc =>
        obtain rfl := Token.eq_symbol_of_classify hc
        exact .negated hscan hn
    · cases hv
  · intro hv
    cases hv with
    | literal hs hd =>
      rw [hs] at hscan
      cases hscan
      obtain ⟨t, ts, ht, hnil, rfl⟩ := List.forall₂_cons_left_iff.1 hterms
      rw [List.forall₂_nil_left_iff] at hnil
      obtain rfl := eq_literal_of_toNat? hd ht
      subst hnil
      simp [constant?, hd]
    | negated hs hd =>
      rw [hs] at hscan
      cases hscan
      obtain ⟨t, ts, ht, hrest, rfl⟩ := List.forall₂_cons_left_iff.1 hterms
      obtain ⟨u, us, hu, hnil, rfl⟩ := List.forall₂_cons_left_iff.1 hrest
      rw [List.forall₂_nil_left_iff] at hnil
      obtain rfl := eq_literal_of_toNat? hd hu
      have hminus : term symbols ['-'] = .ok (.operator .minus) := rfl
      obtain rfl := Except.ok.inj (hminus.symm.trans ht)
      subst hnil
      simp [constant?, hd]

/-! ### Indices -/

variable {n : Nat} {array : Binding ArrayType} {size : Nat} {text : Text} {e : Expression}

theorem index_of_escapes {short : text.length < n} (he : expression symbols text = .ok e)
    (htype : e.type = .int) (hs : size < Text.wordSize) (h : EscapesSize text size) :
    ∃ v, index (inside symbols n) array size text short =
      .error (.indexRange v array.name array.type size) := by
  obtain ⟨v, hv, hout⟩ := h
  have hrange : ¬ inRange v size := by
    rw [inRange_iff hs, not_and_or, Nat.not_lt]
    exact hout
  refine ⟨v, ?_⟩
  rw [index_of_read he htype, (constant?_eq_some_iff he).2 hv]
  exact if_neg hrange

theorem inRange_of_not_escapes (he : expression symbols text = .ok e) (hs : size < Text.wordSize)
    (h : ¬ EscapesSize text size) : ∀ v ∈ e.constant?, inRange v size := by
  intro v hv
  rw [inRange_iff hs]
  by_contra hout
  rw [not_and_or, Nat.not_lt] at hout
  exact h ⟨v, (constant?_eq_some_iff he).1 hv, hout⟩

/-- Of indices some of which escape, the first that does is refused. -/
theorem indices_of_escapes {sizes : List Nat} {texts : List Text} {es : List Expression}
    {short : ∀ text ∈ texts, text.length < n}
    (hreads : List.Forall₂ (fun text e => expression symbols text = .ok e) texts es)
    (hints : ∀ e ∈ es, e.type = .int) (hs : ∀ size ∈ sizes, size < Text.wordSize)
    (h : ∃ p ∈ texts.zip sizes, EscapesSize p.1 p.2) :
    ∃ v size, indices (inside symbols n) array sizes texts short =
      .error (.indexRange v array.name array.type size) := by
  obtain ⟨p, hp, hout⟩ := h
  induction hreads generalizing sizes with
  | nil => cases hp
  | @cons text e texts es he _ ih =>
    obtain ⟨htype, hothers⟩ := List.forall_mem_cons.1 hints
    cases sizes with
    | nil => cases hp
    | cons size sizes =>
      obtain ⟨hsize, hsizes⟩ := List.forall_mem_cons.1 hs
      have hshort := short text List.mem_cons_self
      by_cases hfirst : EscapesSize text size
      · obtain ⟨v, hv⟩ : ∃ v, index (inside symbols n) array size text hshort =
          .error (.indexRange v array.name array.type size) :=
          index_of_escapes he htype hsize hfirst
        refine ⟨v, size, ?_⟩
        rw [indices, hv]
        rfl
      · have hindex : index (inside symbols n) array size text hshort = .ok e := by
          rw [index_of_read he htype]
          split
          · next v hv => exact if_pos (inRange_of_not_escapes he hsize hfirst v hv)
          · rfl
        have hlater : p ∈ texts.zip sizes := by
          rw [List.zip_cons_cons] at hp
          refine (List.mem_cons.1 hp).resolve_left ?_
          rintro rfl
          exact hfirst hout
        obtain ⟨v, other, hv⟩ : ∃ v other, indices (inside symbols n) array sizes texts
            (fun text ht => short text (List.mem_cons_of_mem _ ht)) =
              .error (.indexRange v array.name array.type other) := ih hothers hsizes hlater
        refine ⟨v, other, ?_⟩
        rw [indices, hindex]
        change (indices (inside symbols n) array sizes texts _ >>= _) = _
        rw [hv]
        rfl

theorem ranges_of_not_escapes {sizes : List Nat} {texts : List Text} {es : List Expression}
    (hreads : List.Forall₂ (fun text e => expression symbols text = .ok e) texts es)
    (hints : ∀ e ∈ es, e.type = .int) (hs : ∀ size ∈ sizes, size < Text.wordSize)
    (hlength : texts.length = sizes.length)
    (h : ∀ p ∈ texts.zip sizes, ¬ EscapesSize p.1 p.2) :
    List.Forall₂ (fun size (e : Expression) =>
      e.type = .int ∧ ∀ v ∈ e.constant?, inRange v size) sizes es := by
  induction hreads generalizing sizes with
  | nil =>
    obtain rfl := List.length_eq_zero_iff.1 hlength.symm
    exact .nil
  | @cons text e texts es he _ ih =>
    obtain ⟨htype, hothers⟩ := List.forall_mem_cons.1 hints
    cases sizes with
    | nil => cases hlength
    | cons size sizes =>
      obtain ⟨hsize, hsizes⟩ := List.forall_mem_cons.1 hs
      rw [List.zip_cons_cons] at h
      obtain ⟨hfirst, hlater⟩ := List.forall_mem_cons.1 h
      exact .cons ⟨htype, inRange_of_not_escapes he hsize hfirst⟩
        (ih hothers hsizes (Nat.succ.inj hlength) hlater)

end Expression

/-! ### Targets -/

namespace Glyph

/-- The last character of the glyphs, or the one before them. -/
def lastChar (before : Option Char) (xs : List Glyph) : Option Char :=
  xs.foldl (fun _ g => some g.char) before

/-- The search for a lone `=` goes through the glyphs, before which `depth` brackets are open and
behind which `deeper` are. -/
def Passes (depth : Int) (xs : List Glyph) (deeper : Int) : Prop :=
  ∀ before gs, loneEquals depth before (xs ++ gs) =
    (loneEquals deeper (lastChar before xs) gs).map (· + xs.length)

namespace Passes

variable {depth deeper deepest : Int} {g : Glyph} {xs ys : List Glyph} {t : Text}

theorem nil : Passes depth [] depth := fun _ _ => Option.map_id'.symm

theorem append (hx : Passes depth xs deeper) (hy : Passes deeper ys deepest) :
    Passes depth (xs ++ ys) deepest := by
  intro before gs
  rw [List.append_assoc, hx, hy, Option.map_map, lastChar, lastChar, lastChar, List.foldl_append]
  congr 1
  funext k
  simp only [Function.comp_apply, List.length_append]
  omega

theorem single (h : g = code '=' → depth ≠ 0) : Passes depth [g] (g.depthAfter depth) := by
  intro before gs
  have hskip : ¬ (g == code '=' && depth == 0 && !(before.any (· ∈ ['=', '!', '<', '>']) ||
      (gs.head?.map char).any (· == '='))) := by
    intro hfound
    simp only [Bool.and_eq_true, beq_iff_eq] at hfound
    exact h hfound.1.1 hfound.1.2
  rw [List.singleton_append, loneEquals]
  exact if_neg hskip

theorem cons (h : g = code '=' → depth ≠ 0) (hrest : Passes (g.depthAfter depth) xs deeper) :
    Passes depth (g :: xs) deeper := (single h).append hrest

theorem quoted (t : Text) : Passes depth (t.map .quoted) depth := by
  induction t with
  | nil => exact nil
  | cons c rest ih => exact cons nofun ih

theorem opener (b : Bracket) (h : Passes (depth + 1) (ofText t) deeper) :
    Passes depth (ofText (b.opener :: t)) deeper := by
  rw [Text.Pairs.ofText_opener]
  refine cons (fun heq => by cases b <;> cases heq) ?_
  cases b <;> exact h

theorem closer (b : Bracket) (h : Passes (depth - 1) (ofText t) deeper) :
    Passes depth (ofText (b.closer :: t)) deeper := by
  rw [Text.Pairs.ofText_closer]
  refine cons (fun heq => by cases b <;> cases heq) ?_
  cases b <;> exact h

theorem flat {c : Char} (hc : Text.isFlat [c]) (hequals : c = '=' → depth ≠ 0)
    (h : Passes depth (ofText t) deeper) : Passes depth (ofText (c :: t)) deeper := by
  obtain ⟨hq, ho, hcl⟩ := Text.isFlat_singleton_iff.1 hc
  rw [Text.Pairs.ofText_cons hq]
  refine cons (fun heq => hequals (code.inj heq)) ?_
  rw [depthAfter, isOpener, isCloser, ho, hcl]
  exact h

/-- A text without quotes, brackets and `=`. -/
theorem of_isFlat (hflat : t.isFlat) (h : '=' ∉ t) : Passes depth (ofText t) depth := by
  induction t with
  | nil => exact nil
  | cons c rest ih =>
    obtain ⟨hc, hrest⟩ := Text.isFlat_append.1 (show Text.isFlat ([c] ++ rest) from hflat)
    rw [List.mem_cons, not_or] at h
    exact flat hc (fun heq => absurd heq.symm h.1) (ih hrest h.2)

/-- A text in brackets. -/
theorem of_closes {inside : Bool} {stack : List Bracket} (h : Closes inside stack t) (n : Nat) :
    Passes (stack.length + (n + 1) : Nat) (ofText t) (n + 1 : Nat) := by
  induction h with
  | nil =>
    rw [List.length_nil, Nat.zero_add]
    exact nil
  | literal hq hl _ ih =>
    rw [Text.IsClosed.ofText_literal hq hl]
    exact (quoted _).append ih
  | @opener stack t b _ ih =>
    refine opener b ?_
    rwa [List.length_cons, Nat.add_right_comm] at ih
  | @closer stack t b _ ih =>
    refine closer b ?_
    rwa [List.length_cons, Nat.add_right_comm, Int.natCast_succ, Int.add_sub_cancel]
  | plain hc _ _ ih => exact flat hc (fun _ => by omega) ih

theorem squareGroups {texts : List Text} (h : ∀ text ∈ texts, Closes true [] text) :
    Passes 0 (ofText (Token.squareGroups texts)) 0 := by
  induction texts with
  | nil => exact nil
  | cons text others ih =>
    obtain ⟨htext, hothers⟩ := List.forall_mem_cons.1 h
    have hinside : Passes 1 (ofText text) 1 := of_closes htext 0
    have hgroup : Passes 0 (ofText ('[' :: (text ++ [']']))) 0 := by
      refine opener .square ?_
      rw [htext.isClosed]
      exact hinside.append (closer .square nil)
    have hcloses : Closes false [] ('[' :: (text ++ [']'])) := htext.group .square
    rw [Token.squareGroups, List.flatMap_cons, hcloses.isClosed]
    exact hgroup.append (ih hothers)

end Passes

theorem lastChar_ofText (before : Option Char) (front : Text) (c : Char) :
    lastChar before (ofText (front ++ [c])) = some c := by
  have hfold : lastChar before (ofText (front ++ [c])) =
      ((ofText (front ++ [c])).map char).foldl (fun _ c => some c) before := List.foldl_map.symm
  rw [hfold, map_char_ofText, List.foldl_append]
  rfl

end Glyph

/-- The first lone `=` is the one behind a text through which the search for it goes. -/
theorem Text.assignmentAt?_of_passes {front rest : Text} {c : Char}
    (hpasses : Glyph.Passes 0 (Glyph.ofText (front ++ [c])) 0) (hclosed : IsClosed (front ++ [c]))
    (hc : c ∉ ['=', '!', '<', '>']) (hrest : rest.head? ≠ some '=') :
    assignmentAt? (front ++ [c] ++ '=' :: rest) = some (front ++ [c]).length := by
  have hbefore : Option.any (· ∈ ['=', '!', '<', '>']) (some c) = false := decide_eq_false hc
  have hbehind : ((Glyph.ofText rest).head?.map Glyph.char).any (· == '=') = false := by
    rw [← List.head?_map, Glyph.map_char_ofText]
    cases hhead : rest.head? with
    | none => rfl
    | some d =>
      rw [hhead] at hrest
      exact beq_eq_false_iff_ne.2 fun heq => hrest (congrArg some heq)
  have hlone : Glyph.loneEquals 0 (some c) (.code '=' :: Glyph.ofText rest) = some 0 := by
    rw [Glyph.loneEquals, hbefore, hbehind]
    rfl
  rw [assignmentAt?, hclosed, Text.Pairs.ofText_cons (by decide), hpasses, Glyph.lastChar_ofText,
    hlone, Glyph.length_ofText, Option.map_some, Nat.zero_add]

/-- The line assigns to the target what spells a value. -/
inductive Assigns (target value : Text) : (line : Text) → Prop
  | mk {gap rest : Text} (hgap : ∀ c ∈ gap, isBlank c) (hrest : rest.head? ≠ some '=')
      (hvalue : rest.trim = value) (hne : value ≠ []) :
      Assigns target value (target ++ gap ++ '=' :: rest)

/-! ### Verdicts -/

namespace Expression

variable {symbols : Symbols} {target value line : Text} {array : Binding ArrayType}
  {texts : List Text} {es : List Expression}

theorem infer_element (i : Indexing) : Inference.infer [.element i] = .ok i.type := by
  have hstrip : Inference.stripGroups [Term.element i] = [Term.element i] :=
    Tree.stripGroups_terms (t := .leaf (.element i)) rfl
  exact Offsets.infer_of_stripGroups_single hstrip

/-- The target is a declared array and an int expression in square brackets for each dimension. -/
structure Indexes (symbols : Symbols) (target : Text) (array : Binding ArrayType)
    (texts : List Text) (es : List Expression) : Prop where
  spelled : target = array.name ++ Token.squareGroups texts
  isIdentifier : Name.isIdentifier array.name
  lookup? : symbols.lookup? array.name = some (.array array)
  sizes : ∀ size ∈ array.type.dimensions, size < Text.wordSize
  reads : List.Forall₂ (fun text e => expression symbols text = .ok e) texts es
  ints : ∀ e ∈ es, e.type = .int
  length : texts.length = array.type.dimensions.length

namespace Indexes

theorem closes (h : Indexes symbols target array texts es) :
    ∀ text ∈ texts, Closes true [] text := by
  intro text htext
  obtain ⟨i, hi, rfl⟩ := List.getElem_of_mem htext
  have hread := h.reads.get hi (h.reads.length_eq ▸ hi)
  obtain ⟨tokens, hscan, -⟩ := expression_eq_ok_iff.1 hread
  exact (Token.scan_eq_ok_iff.1 hscan).closes

theorem isOperand (h : Indexes symbols target array texts es) : Token.IsOperand target := by
  rw [h.spelled]
  exact .indexing h.isIdentifier h.closes

theorem indexing_eq (h : Indexes symbols target array texts es) :
    ∃ short, indexing symbols target =
      (indices (inside symbols target.length) array array.type.dimensions texts short).map
        fun es => ⟨array.name, es, array.type.base⟩ := by
  have hspelled := h.spelled
  subst hspelled
  exact indexing_of_groups h.isIdentifier h.lookup? h.closes h.length

theorem indexing_of_escapes (h : Indexes symbols target array texts es)
    (hout : ∃ p ∈ texts.zip array.type.dimensions, EscapesSize p.1 p.2) :
    ∃ v size, indexing symbols target = .error (.indexRange v array.name array.type size) := by
  obtain ⟨short, heq⟩ := h.indexing_eq
  obtain ⟨v, size, hv⟩ : ∃ v size,
      indices (inside symbols target.length) array array.type.dimensions texts short =
        .error (.indexRange v array.name array.type size) :=
    indices_of_escapes h.reads h.ints h.sizes hout
  refine ⟨v, size, ?_⟩
  rw [heq, hv]
  rfl

theorem indexing_of_not_escapes (h : Indexes symbols target array texts es)
    (hin : ∀ p ∈ texts.zip array.type.dimensions, ¬ EscapesSize p.1 p.2) :
    indexing symbols target = .ok ⟨array.name, es, array.type.base⟩ := by
  obtain ⟨short, heq⟩ := h.indexing_eq
  have hranges := ranges_of_not_escapes h.reads h.ints h.sizes h.length hin
  rw [heq, indices_of_read h.reads hranges]
  rfl

theorem indexing_eq_error_iff (h : Indexes symbols target array texts es) :
    (∃ fault, indexing symbols target = .error fault ∧ fault.kind = .indexOutOfBounds) ↔
      ∃ p ∈ texts.zip array.type.dimensions, EscapesSize p.1 p.2 := by
  constructor
  · rintro ⟨fault, hfault, -⟩
    by_contra hin
    simp only [not_exists, not_and] at hin
    rw [h.indexing_of_not_escapes hin] at hfault
    cases hfault
  · intro hout
    obtain ⟨v, size, hv⟩ := h.indexing_of_escapes hout
    exact ⟨_, hv, rfl⟩

theorem term_eq (h : Indexes symbols target array texts es) (hne : texts ≠ []) :
    term symbols target = (indexing symbols target).map .element := by
  obtain ⟨text, others, rfl⟩ := List.exists_cons_of_ne_nil hne
  rw [h.spelled]
  exact term_of_indexing h.isIdentifier

/-- The indexing is read as an expression of one term. -/
theorem expression_eq (h : Indexes symbols target array texts es) (hne : texts ≠ []) :
    expression symbols target =
      (indexing symbols target).map fun i => ⟨[.element i], i.type⟩ := by
  have hclass : Token.classify target = .value := by
    obtain ⟨c, rest, hstart, -, hword⟩ := Name.exists_cons_of_isIdentifier h.isIdentifier
    rw [h.spelled, hstart]
    exact classify_of_held (Token.isHeldChar_of_word (hword c (hstart ▸ List.mem_cons_self)))
  have hcheck : Placement.check none [target] = .ok () := by
    rw [Placement.check, hclass]
    rfl
  rw [expression_of_scan (scan_of_isOperand h.isOperand), if_neg (List.cons_ne_nil _ _), hcheck,
    List.mapM_cons, h.term_eq hne]
  cases indexing symbols target with
  | error fault => rfl
  | ok i =>
    change Inference.infer [.element i] >>= _ = _
    rw [infer_element]
    rfl

/-- The `=` behind the target, with blanks in between, is the first one outside brackets. -/
theorem assignmentAt?_eq (h : Indexes symbols target array texts es) (hne : texts ≠ [])
    {gap rest : Text} (hgap : ∀ c ∈ gap, isBlank c) (hrest : rest.head? ≠ some '=') :
    Text.assignmentAt? (target ++ gap ++ '=' :: rest) = some (target ++ gap).length := by
  have htarget := h.isOperand.closes.isClosed
  have hname := Text.IsClosed.of_forall (not_isQuote_of_isIdentifier h.isIdentifier)
  obtain ⟨-, -, -, -, hword⟩ := Name.exists_cons_of_isIdentifier h.isIdentifier
  have hpasses : Glyph.Passes 0 (Glyph.ofText (target ++ gap)) 0 := by
    rw [htarget, h.spelled, hname]
    refine (Glyph.Passes.append ?_ (.squareGroups h.closes)).append ?_
    · exact .of_isFlat (Text.isFlat_of_word hword) fun hmem => by cases hword _ hmem
    · exact .of_isFlat (Text.isFlat_of_blank hgap) fun hmem => by cases hgap _ hmem
  have hclosed : Text.IsClosed (target ++ gap) :=
    htarget.append (.of_forall fun c hc => Go.not_isQuote_of_isBlank (hgap c hc))
  have hends : ∃ front c, target ++ gap = front ++ [c] ∧ c ∉ ['=', '!', '<', '>'] := by
    rcases List.eq_nil_or_concat' gap with rfl | ⟨blanks, c, rfl⟩
    · obtain ⟨front, heq⟩ := Token.exists_squareGroups_eq hne
      refine ⟨array.name ++ front, ']', ?_, by decide⟩
      rw [h.spelled, heq, List.append_nil, List.append_assoc]
    · refine ⟨target ++ blanks, c, (List.append_assoc ..).symm, fun hmem => ?_⟩
      have hblank := hgap c (List.mem_append_right _ List.mem_cons_self)
      simp only [List.mem_cons, List.not_mem_nil, or_false] at hmem
      obtain rfl | rfl | rfl | rfl := hmem <;> cases hblank
  obtain ⟨front, c, heq, hc⟩ := hends
  rw [heq] at hpasses hclosed ⊢
  exact Text.assignmentAt?_of_passes hpasses hclosed hc hrest

theorem readAssignment_eq_element (h : Indexes symbols target array texts es) (hne : texts ≠ [])
    (ha : Assigns target value line) :
    Statement.readAssignment symbols line =
      Statement.readElementAssignment symbols target value := by
  obtain @⟨gap, rest, hgap, hrest, hvalue, hvalueNe⟩ := ha
  obtain ⟨-, htargetNe, htrim⟩ := h.isOperand.isPart
  have hfront : Text.trim ((target ++ gap ++ '=' :: rest).take (target ++ gap).length) = target := by
    rw [List.take_left, Text.trim_append_blanks hgap, htrim]
  have hbehind : (target ++ gap ++ '=' :: rest).drop ((target ++ gap).length + 1) = rest := by
    rw [← List.drop_drop, List.drop_left]
    rfl
  have hopens : target.contains '[' := by
    obtain ⟨text, others, rfl⟩ := List.exists_cons_of_ne_nil hne
    rw [List.contains_iff_mem, h.spelled]
    exact List.mem_append_right _ List.mem_cons_self
  rw [Statement.readAssignment, h.assignmentAt?_eq hne hgap hrest]
  simp only [hfront, hbehind, hvalue, if_neg (not_or.2 ⟨htargetNe, hvalueNe⟩), if_pos hopens]

/-- What is assigned to an element is checked once its indices are. -/
theorem readAssignment_eq (h : Indexes symbols target array texts es) (hne : texts ≠ [])
    (ha : Assigns target value line) :
    Statement.readAssignment symbols line =
      (do
        let i ← indexing symbols target
        if array.isMutable then
          let e ← ofType symbols i.type ("an element of `".toList ++ i.name ++ ['`']) value
          return .assignment (.element i) (.scalar e)
        else throw (.immutable i.name)) := by
  rw [h.readAssignment_eq_element hne ha, Statement.readElementAssignment]
  by_cases hout : ∃ p ∈ texts.zip array.type.dimensions, EscapesSize p.1 p.2
  · obtain ⟨v, size, hv⟩ := h.indexing_of_escapes hout
    rw [hv]
    rfl
  · simp only [not_exists, not_and] at hout
    rw [h.indexing_of_not_escapes hout]
    change (if (!(symbols.array? array.name).any (·.isMutable)) = true then _ else _) = _
    rw [Symbols.array?_of_lookup? h.lookup?, Option.any_some]
    cases array.isMutable <;> rfl

end Indexes

/-- An array that is indexed with an int for each dimension is refused for its bounds exactly if an
index is a constant that escapes its dimension. It is read and assigned to with the same verdict. -/
theorem verdict_of_indexes (h : Indexes symbols target array texts es) :
    ((∃ fault, indexing symbols target = .error fault ∧ fault.kind = .indexOutOfBounds) ↔
      ∃ p ∈ texts.zip array.type.dimensions, EscapesSize p.1 p.2) ∧
    ((¬ ∃ p ∈ texts.zip array.type.dimensions, EscapesSize p.1 p.2) →
      indexing symbols target = .ok ⟨array.name, es, array.type.base⟩) ∧
    (texts ≠ [] →
      term symbols target = (indexing symbols target).map .element ∧
      expression symbols target =
        (indexing symbols target).map (fun i => ⟨[.element i], i.type⟩) ∧
      ∀ value line, Assigns target value line →
        Statement.readAssignment symbols line =
          (do
            let i ← indexing symbols target
            if array.isMutable then
              let e ← ofType symbols i.type ("an element of `".toList ++ i.name ++ ['`']) value
              return .assignment (.element i) (.scalar e)
            else throw (.immutable i.name))) := by
  refine ⟨h.indexing_eq_error_iff, fun hin => h.indexing_of_not_escapes ?_, fun hne =>
    ⟨h.term_eq hne, h.expression_eq hne, fun _ _ => h.readAssignment_eq hne⟩⟩
  simpa only [not_exists, not_and] using hin

/-- A negative index is refused where the element is read and where it is assigned to. -/
theorem verdict_of_indexes_negative :
    ∃ (known : Symbols) (grid : Binding ArrayType) (es : List Expression),
      Indexes known "grid[1][-1]".toList grid ["1".toList, "-1".toList] es ∧
      grid.type.dimensions = [2, 3] ∧
      ∃ fault, fault.kind = .indexOutOfBounds ∧
        expression known "grid[1][-1]".toList = .error fault ∧
        Statement.readAssignment known "grid[1][-1] = 5".toList = .error fault := by
  let grid : Binding ArrayType := ⟨"grid".toList, ⟨.int, [2, 3]⟩, true⟩
  let known := Symbols.empty.insert (.array grid)
  let one : Expression := ⟨[.literal "1".toList .int], .int⟩
  let minus : Expression := ⟨[.operator .minus, .literal "1".toList .int], .int⟩
  have hone : expression known "1".toList = .ok one := by with_unfolding_all rfl
  have hminus : expression known "-1".toList = .ok minus := by with_unfolding_all rfl
  have hindexes : Indexes known "grid[1][-1]".toList grid ["1".toList, "-1".toList] [one, minus] := {
    spelled := rfl
    isIdentifier := by decide
    lookup? := by decide
    sizes := by decide
    reads := .cons hone (.cons hminus .nil)
    ints := by decide
    length := rfl }
  have hescapes : EscapesSize "-1".toList 3 := by
    have hspells : SpellsConstant "-1".toList (-(1 : Nat)) :=
      @SpellsConstant.negated _ "1".toList 1 (by decide +kernel) (by decide)
    exact ⟨_, hspells, .inl (by decide)⟩
  have hassigns : Assigns "grid[1][-1]".toList "5".toList
      ("grid[1][-1]".toList ++ " ".toList ++ '=' :: " 5".toList) :=
    .mk (by decide) (by decide) (by decide) (by decide)
  obtain ⟨hrefused, -, hpaths⟩ := verdict_of_indexes hindexes
  obtain ⟨-, hread, hassigned⟩ := hpaths (by decide)
  obtain ⟨fault, hfault, hkind⟩ := hrefused.2 ⟨("-1".toList, 3), by decide, hescapes⟩
  rw [hfault] at hread hassigned
  exact ⟨known, grid, _, hindexes, rfl, fault, hkind, hread, hassigned _ _ hassigns⟩

/-- An index inside its dimension is refused where the size does not fit in a signed word. -/
theorem zero_refused_of_signBound :
    ∃ (known : Symbols) (array : Binding ArrayType) (e : Expression),
      Indexes known "a[0]".toList array ["0".toList] [e] ∧
      array.type.dimensions = [Text.signBound] ∧ SpellsConstant "0".toList 0 ∧
      (∀ v, SpellsConstant "0".toList v → 0 ≤ v ∧ v < Text.signBound) ∧
      ∃ fault, indexing known "a[0]".toList = .error fault ∧ fault.kind = .indexOutOfBounds := by
  let array : Binding ArrayType := ⟨"a".toList, ⟨.int, [Text.signBound]⟩, false⟩
  let known := Symbols.empty.insert (.array array)
  let zero : Expression := ⟨[.literal "0".toList .int], .int⟩
  have hzero : expression known "0".toList = .ok zero := by with_unfolding_all rfl
  have hindexes : Indexes known "a[0]".toList array ["0".toList] [zero] := {
    spelled := rfl
    isIdentifier := by decide
    lookup? := by decide
    sizes := by decide
    reads := .cons hzero .nil
    ints := by decide
    length := rfl }
  have hscan : Token.scan "0".toList = .ok ["0".toList] := by decide +kernel
  have hnat : Text.toNat? "0".toList = some 0 := by decide
  have hspells : SpellsConstant "0".toList (0 : Nat) := .literal hscan hnat
  refine ⟨known, array, zero, hindexes, rfl, hspells, fun v hv => ?_, ?_⟩
  · cases hv with
    | literal hs hd =>
      cases hscan.symm.trans hs
      cases hnat.symm.trans hd
      decide
    | negated hs =>
      cases hscan.symm.trans hs
  · obtain ⟨v, size, hv⟩ := hindexes.indexing_of_escapes
      ⟨("0".toList, Text.signBound), by decide, 0, hspells, .inr le_rfl⟩
    exact ⟨_, hv, rfl⟩

end Expression

end StellaGo
