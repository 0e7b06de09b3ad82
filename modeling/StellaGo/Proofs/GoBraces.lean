import StellaGo.Go.Program
import StellaGo.Proofs.GoText

/-! Braces in generated lines. Defined here: lines that close at most the brace that they start with,
and open at most the one that they end with. Proved: the Go text of what was read leaves all braces
as they are, whatever stands in its literals, and so each line of a statement is such a line. -/

namespace StellaGo

/-! ### Ends of texts -/

/-- The last character is there, and is no blank. -/
def Text.EndsVisibly (t : Text) : Prop := ∃ front c, t = front ++ [c] ∧ isBlank c = false

theorem isBlank_eq_false_of_word {c : Char} (h : c.isAlphanum || c == '_') : isBlank c = false := by
  have hrange : 48 ≤ c.toNat ∧ c.toNat ≤ 122 := by
    rcases Bool.or_eq_true _ _ ▸ h with h | h
    · delta Char.isAlphanum Char.isAlpha Char.isUpper Char.isLower Char.isDigit at h
      simp only [Bool.or_eq_true, Bool.and_eq_true, decide_eq_true_eq, UInt32.le_iff_toNat_le,
        ge_iff_le] at h
      change ((65 ≤ c.val.toNat ∧ c.val.toNat ≤ 90) ∨ (97 ≤ c.val.toNat ∧ c.val.toNat ≤ 122)) ∨
        (48 ≤ c.val.toNat ∧ c.val.toNat ≤ 57) at h
      change 48 ≤ c.val.toNat ∧ c.val.toNat ≤ 122
      omega
    · rw [beq_iff_eq.1 h]
      decide
  simp only [isBlank, Bool.or_eq_false_iff, Bool.and_eq_false_iff, decide_eq_false_iff_not,
    beq_eq_false_iff_ne]
  omega

theorem isDigit_eq_false_of_isAlpha {c : Char} (h : c.isAlpha) : c.isDigit = false := by
  delta Char.isAlpha Char.isUpper Char.isLower at h
  delta Char.isDigit
  grind

namespace Text.EndsVisibly

variable {t : Text}

theorem append (h : t.EndsVisibly) (u : Text) : Text.EndsVisibly (u ++ t) := by
  obtain ⟨front, c, rfl, hc⟩ := h
  exact ⟨u ++ front, c, (List.append_assoc _ _ _).symm, hc⟩

theorem cons (h : t.EndsVisibly) (c : Char) : Text.EndsVisibly (c :: t) := h.append [c]

theorem last {c : Char} (hc : isBlank c = false) (front : Text) : Text.EndsVisibly (front ++ [c]) :=
  ⟨front, c, rfl, hc⟩

theorem of_getLast? (h : t.getLast?.any fun c => !isBlank c) : t.EndsVisibly := by
  obtain ⟨c, hlast, hblank⟩ := (Option.any_eq_true _ _).1 h
  obtain ⟨front, rfl⟩ := List.getLast?_eq_some_iff.1 hlast
  exact last (Bool.not_eq_eq_eq_not.1 hblank) front

/-- A text without blanks. -/
theorem of_forall (hne : t ≠ []) (h : ∀ c ∈ t, isBlank c = false) : t.EndsVisibly := by
  rw [← List.dropLast_append_getLast hne]
  exact last (h _ (List.getLast_mem hne)) _

theorem ofNat (n : Nat) : (Text.ofNat n).EndsVisibly := by
  refine of_forall (Nat.toDigits_ne_nil) fun c hc => isBlank_eq_false_of_word ?_
  have hdigit : c.isDigit := Nat.isDigit_of_mem_toDigits (by decide) (by decide) hc
  rw [Char.isAlphanum, hdigit, Bool.or_true, Bool.true_or]

/-- A name that may be declared. -/
theorem of_problem? (h : Name.problem? t = none) : t.EndsVisibly := by
  refine of_forall ?_ fun c hc => isBlank_eq_false_of_word (Name.isWordChar_of_problem? h c hc)
  rintro rfl
  cases h

theorem name {symbols : Symbols} (hs : symbols.Identifies) {name : Name} {d : Descriptor}
    (h : symbols.lookup? name = some d) : d.name.EndsVisibly := by
  obtain ⟨hname, hproblem⟩ := hs name d h
  rw [hname]
  exact of_problem? hproblem

end Text.EndsVisibly

/-- The first character is there, and is no blank and no `}`. -/
def Text.StartsVisibly (t : Text) : Prop :=
  ∃ c rest, t = c :: rest ∧ isBlank c = false ∧ c ≠ '}'

theorem Text.StartsVisibly.append {t : Text} (h : t.StartsVisibly) (u : Text) :
    Text.StartsVisibly (t ++ u) := by
  obtain ⟨c, rest, rfl, hc⟩ := h
  exact ⟨c, rest ++ u, rfl, hc⟩

namespace Token

open Text (Nests)

theorem endsVisibly_literal? {quote : Char} {t body more : Text} (hq : isBlank quote = false)
    (h : literal? quote t = some (body, more)) : body.EndsVisibly := by
  fun_induction literal? quote t generalizing body with
  | case1 | case2 => cases h
  | case3 c rest ih =>
    obtain ⟨⟨inner, after⟩, hi, heq⟩ := Option.map_eq_some_iff.1 h
    cases heq
    exact ((ih hi).cons c).cons '\\'
  | case4 c rest _ _ hc =>
    cases h
    rw [beq_iff_eq.1 hc]
    exact .last hq []
  | case5 c rest _ _ _ ih =>
    obtain ⟨⟨inner, after⟩, hi, heq⟩ := Option.map_eq_some_iff.1 h
    cases heq
    exact (ih hi).cons c

theorem isBlank_closer (b : Bracket) : isBlank b.closer = false := by cases b <;> decide

theorem endsVisibly_group {word t g after : Text} {stack : List Bracket}
    (h : group word stack t = .ok (g, after)) : g.EndsVisibly := by
  fun_induction group word stack t generalizing g with
  | case1 | case2 | case5 | case8 => cases h
  | case3 stack c rest hq body more hl ih =>
    obtain ⟨⟨tail, behind⟩, ht, heq⟩ := Check.map_eq_ok_iff.1 h
    cases heq
    exact ((ih ht).append body).cons c
  | case4 _ c _ _ _ _ ih | case9 _ c _ _ _ _ ih =>
    obtain ⟨⟨tail, behind⟩, ht, heq⟩ := Check.map_eq_ok_iff.1 h
    cases heq
    exact (ih ht).cons c
  | case6 c rest hq b top hb ho hsame =>
    cases h
    rw [Bracket.ofCloser?_eq_some_iff.1 hb]
    exact .last (isBlank_closer b) []
  | case7 c rest hq b top below hb ho hsame hbelow ih =>
    obtain ⟨⟨tail, behind⟩, ht, heq⟩ := Check.map_eq_ok_iff.1 h
    cases heq
    exact (ih ht).cons c

theorem endsVisibly_word {whole t w after : Text} (h : word whole t = .ok (w, after))
    (hne : w ≠ []) : w.EndsVisibly := by
  fun_induction word whole t generalizing w with
  | case1 | case4 =>
    cases h
    exact absurd rfl hne
  | case2 => cases h
  | case3 c rest b hb g more hg ih =>
    obtain ⟨⟨tail, behind⟩, ht, heq⟩ := Check.map_eq_ok_iff.1 h
    cases heq
    rcases eq_or_ne tail [] with rfl | htail
    · rw [List.append_nil]
      exact (endsVisibly_group hg).cons c
    · exact ((ih ht htail).append g).cons c
  | case5 c rest ho he ih =>
    obtain ⟨⟨tail, behind⟩, ht, heq⟩ := Check.map_eq_ok_iff.1 h
    cases heq
    rcases eq_or_ne tail [] with rfl | htail
    · obtain ⟨-, -, hblank, -⟩ := not_endsWord_iff.1 he
      exact .last (eq_false_of_ne_true hblank) []
    · exact (ih ht htail).cons c

/-- A token is one bracket, or it leaves all braces as they are and ends with no blank. -/
theorem nests_of_mem_scanInside {t : Text} {stack : List Bracket} {tokens : List Text}
    (h : scanInside stack t = .ok tokens) : ∀ token ∈ tokens,
      (∃ b : Bracket, token = [b.opener] ∨ token = [b.closer]) ∨
        Nests 0 0 token ∧ token.EndsVisibly := by
  fun_induction scanInside stack t generalizing tokens with
  | case1 =>
    cases h
    exact fun token ht => absurd ht List.not_mem_nil
  | case2 | case3 | case6 | case9 | case10 | case13 => cases h
  | case4 stack c rest _ hq body more hl ih =>
    obtain ⟨ts, hts, rfl⟩ := Check.map_eq_ok_iff.1 h
    have hblank : isBlank c = false := by
      rcases isQuote_iff.1 hq with rfl | rfl <;> decide
    have hpairs : Text.Pairs [] [] True (c :: (body ++ [])) := .literal hq hl .nil
    rw [List.append_nil] at hpairs
    exact List.forall_mem_cons.2
      ⟨.inr ⟨.of_pairs hpairs, (endsVisibly_literal? hblank hl).cons c⟩, ih hts⟩
  | case5 stack c rest _ _ _ ih => exact ih h
  | case7 stack c rest _ _ _ _ op more hr ih =>
    obtain ⟨ts, hts, rfl⟩ := Check.map_eq_ok_iff.1 h
    refine List.forall_mem_cons.2 ⟨.inr ⟨.of_plain (by cases op <;> decide), ?_⟩, ih hts⟩
    exact .of_getLast? (by cases op <;> decide)
  | case8 c rest _ _ _ _ b below hb ih =>
    obtain ⟨ts, hts, rfl⟩ := Check.map_eq_ok_iff.1 h
    rw [Bracket.ofCloser?_eq_some_iff.1 hb]
    exact List.forall_mem_cons.2 ⟨.inl ⟨b, .inr rfl⟩, ih hts⟩
  | case11 stack c rest _ hb ih | case12 stack c rest _ hb ih =>
    obtain ⟨ts, hts, rfl⟩ := Check.map_eq_ok_iff.1 h
    rw [Bracket.ofOpener?_eq_some_iff.1 hb]
    exact List.forall_mem_cons.2 ⟨.inl ⟨_, .inl rfl⟩, ih hts⟩
  | case14 stack c rest hc w more hw _ _ ih =>
    obtain ⟨ts, hts, rfl⟩ := Check.map_eq_ok_iff.1 h
    have hne := ne_nil_of_word (by simpa using hc) hw
    have hpairs : Text.Pairs [] [] True w := .word hw
    exact List.forall_mem_cons.2 ⟨.inr ⟨.of_pairs hpairs, endsVisibly_word hw hne⟩, ih hts⟩

end Token

/-! ### Pieces -/

namespace Go

open Text (EndsVisibly Nests)

variable {symbols : Symbols} {text : Text}

/-- Generated text is put together from texts that leave all braces as they are. -/
theorem respects_nests : Respects (Nests 0 0) where
  bare t h := by
    refine .of_plain (List.all_eq_true.2 fun c hc => ?_)
    have hbare := List.all_eq_true.1 h c hc
    rw [Bool.and_eq_true] at hbare
    exact hbare.1
  append _ _ := .append
  braced t h := .brace_open ((h.keep 1).append (.brace_close .nil))

theorem nests_literal {tokens : List Text} (hscan : Token.scan text = .ok tokens) :
    ∀ token ∈ tokens, ∀ type, Expression.IsLiteral token type →
      Nests 0 0 token ∧ token.EndsVisibly := by
  intro token htoken type hl
  refine (Token.nests_of_mem_scanInside hscan token htoken).resolve_left ?_
  -- a bracket is no literal
  rintro ⟨b, rfl | rfl⟩
  all_goals cases type <;> cases b <;> revert hl <;> decide

theorem nests_go (hs : symbols.Identifies) (x : Piece) (hx : Piece.IsRead symbols text x) :
    Nests 0 0 x.go := by
  refine respects_nests.go hs x (fun part tokens _ hscan token htoken type hl => ?_) hx
  exact (nests_literal hscan token htoken type hl).1

/-! ### Ends of terms and values -/

theorem endsVisibly_brackets (e : Expression) (rest : List Expression) :
    EndsVisibly ('[' :: expression e ++ ']' :: brackets rest) := by
  induction rest generalizing e with
  | nil =>
    rw [brackets]
    exact .last (by decide) _
  | cons next more ih =>
    rw [brackets]
    exact ((ih next).cons ']').append _

theorem endsVisibly_term (hs : symbols.Identifies) {t : Term}
    (hliteral : ∀ type, Expression.IsLiteral text type → text.EndsVisibly)
    (h : Expression.ReadsTerm symbols text t) : (term t).EndsVisibly := by
  cases h with
  | opening | closing =>
    rw [term]
    exact .last (by decide) []
  | @operator op =>
    rw [term]
    exact .of_getLast? (by cases op <;> decide)
  | literal _ hl =>
    rw [term]
    exact hliteral _ hl
  | scalar _ _ hb =>
    rw [term]
    exact .name hs hb
  | @call c =>
    obtain ⟨name, arguments, returns⟩ := c
    rw [term, call]
    exact .last (by decide) _
  | @element i hc hi =>
    obtain ⟨texts, array, -, hlookup, hname, -⟩ := Expression.indexing_eq_ok hi
    obtain ⟨name, indices, type⟩ := i
    obtain rfl : name = array.name := hname
    rw [term, indexing]
    cases indices with
    | nil =>
      rw [brackets, List.append_nil]
      exact .name hs hlookup
    | cons e rest =>
      rw [brackets]
      exact (endsVisibly_brackets e rest).append _
  | @field f =>
    rw [term]
    exact (EndsVisibly.ofNat _).append _

theorem endsVisibly_terms {ts : List Term} (unary glued : Bool) (hne : ts ≠ [])
    (h : ∀ t ∈ ts, (term t).EndsVisibly) : (terms unary glued ts).EndsVisibly := by
  induction ts generalizing unary glued with
  | nil => exact absurd rfl hne
  | cons t rest ih =>
    rw [terms]
    rcases eq_or_ne rest [] with rfl | hrest
    · rw [terms, List.append_nil]
      exact (h t List.mem_cons_self).append _
    · exact (ih _ _ hrest fun other ho => h other (List.mem_cons_of_mem _ ho)).append _

theorem endsVisibly_expression (hs : symbols.Identifies) {e : Expression}
    (h : StellaGo.expression symbols text = .ok e) : (expression e).EndsVisibly := by
  obtain ⟨tokens, hscan, hne, -, hterms, -⟩ := Expression.expression_eq_ok_iff.1 h
  obtain ⟨ts, type⟩ := e
  rw [expression]
  refine endsVisibly_terms _ _ ?_ fun t hmem => ?_
  · rintro rfl
    cases hterms
    exact hne rfl
  · obtain ⟨token, htoken, hterm⟩ := exists_of_mem_forall₂ hterms hmem
    refine endsVisibly_term hs (fun type hl => ?_) (Expression.readsTerm_of_term hterm)
    exact (nests_literal hscan token htoken type hl).2

theorem endsVisibly_value (hs : symbols.Identifies) {type : ValueType} {v : Value}
    (h : Expression.ReadsValue symbols type text v) : (value v).EndsVisibly := by
  cases v with
  | scalar e =>
    have hv : Piece.IsRead symbols text (.value (.scalar e)) := ⟨type, h⟩
    obtain ⟨part, -, he⟩ := Piece.isRead_of_part .scalar hv
    rw [value]
    exact endsVisibly_expression hs he
  | arrayLiteral | tupleLiteral =>
    rw [value]
    exact .last (by decide) _
  | whole name type =>
    obtain ⟨expected, -, hr⟩ := Piece.readsAggregate_of_readsValue (fun e he => by cases he) h
    rw [value]
    cases hr with
    | array _ hlookup | tuple _ hlookup => exact .name hs hlookup
  | call c =>
    obtain ⟨name, arguments, returns⟩ := c
    rw [value, call]
    exact .last (by decide) _

/-! ### Lines -/

/-- The line closes `closed` braces, of which there is one if the line starts with `}`, and then
opens `opened` others. There is nothing to trim. -/
structure Fits (closed opened : Nat) (line : Text) : Prop where
  nests : line.Nests closed opened
  starts : ∃ c rest, line = c :: rest ∧ isBlank c = false ∧ closed = if c = '}' then 1 else 0
  ends : line.EndsVisibly

theorem nests_open : Nests 0 1 [' ', '{'] :=
  (Nests.brace_open (.keep .nil 1)).after_plain (.of_plain (show Text.isPlain [' '] from rfl))

theorem Fits.line {t : Text} (hn : Nests 0 0 t) (hs : t.StartsVisibly) (he : t.EndsVisibly) :
    Fits 0 0 t := by
  obtain ⟨c, rest, rfl, hc, hbrace⟩ := hs
  exact ⟨hn, ⟨c, rest, rfl, hc, by rw [if_neg hbrace]⟩, he⟩

/-- The header of a block. -/
theorem Fits.header {t : Text} (hn : Nests 0 0 t) (hs : t.StartsVisibly) :
    Fits 0 1 (t ++ [' ', '{']) := by
  obtain ⟨c, rest, heq, hc, hbrace⟩ := hs.append [' ', '{']
  exact ⟨hn.append nests_open, ⟨c, rest, heq, hc, by rw [if_neg hbrace]⟩,
    EndsVisibly.append ⟨[' '], '{', rfl, by decide⟩ t⟩

/-- The header of a clause behind another one. -/
theorem Fits.nextHeader {t : Text} (hn : Nests 0 0 t) :
    Fits 1 1 ('}' :: t ++ [' ', '{']) where
  nests := (hn.brace_close).append nests_open
  starts := ⟨'}', _, rfl, by decide, rfl⟩
  ends := EndsVisibly.append ⟨[' '], '{', rfl, by decide⟩ _

theorem fits_closer : Fits 1 0 ['}'] where
  nests := .brace_close .nil
  starts := ⟨'}', [], rfl, by decide, rfl⟩
  ends := .last (by decide) []

/-! ### Lines of statements -/

theorem nests_value (hs : symbols.Identifies) {type : ValueType} {v : Value}
    (h : Expression.ReadsValue symbols type text v) : Nests 0 0 (value v) :=
  nests_go hs (.value v) ⟨type, h⟩

theorem nests_condition (hs : symbols.Identifies) {condition : Expression}
    (h : Statement.readCondition symbols text = .ok condition) : Nests 0 0 (expression condition) :=
  nests_go hs (.expression condition) (Statement.readCondition_eq_ok h).1

theorem startsVisibly_name (hs : symbols.Identifies) {name : Name} {d : Descriptor}
    (h : symbols.lookup? name = some d) : d.name.StartsVisibly := by
  obtain ⟨hname, hproblem⟩ := hs name d h
  rw [hname]
  cases name with
  | nil => cases hproblem
  | cons c rest =>
    have hc := Name.isWordChar_of_problem? hproblem c List.mem_cons_self
    refine ⟨c, rest, rfl, isBlank_eq_false_of_word hc, ?_⟩
    rintro rfl
    exact absurd hc (by decide)

theorem fits_assignment (hs : symbols.Identifies) {t : Target} {v : Value}
    (h : Statement.readAssignment symbols text = .ok (.assignment t v)) :
    Fits 0 0 (target t ++ " = ".toList ++ value v) := by
  have hequals : Nests 0 0 " = ".toList := respects_nests.bare _ (by decide)
  have hread := Statement.readAssignment_eq_ok h
  cases hread with
  | @element equals i e ha hi hm he ht =>
    have hindexing : Nests 0 0 (indexing i) := nests_go hs (.indexing i) hi
    have hvalue : Nests 0 0 (expression e) := nests_go hs (.expression e) he
    obtain ⟨texts, array, -, hlookup, hname, -⟩ := Expression.indexing_eq_ok hi
    obtain ⟨name, indices, type⟩ := i
    obtain rfl : name = array.name := hname
    rw [target, value]
    refine .line ((hindexing.append hequals).append hvalue) (.append (.append ?_ _) _)
      ((endsVisibly_expression hs he).append _)
    rw [indexing]
    exact (startsVisibly_name hs hlookup).append _
  | @whole equals b v ha hn hb hm hv =>
    have hname := respects_nests.name hs hb
    have hstarts := startsVisibly_name hs hb
    rw [Descriptor.name_ofType] at hname hstarts
    exact .line ((hname.append hequals).append (nests_value hs hv)) ((hstarts.append _).append _)
      ((endsVisibly_value hs hv).append _)

theorem fits_result (hs : symbols.Identifies) {type : ValueType} {v : Value}
    (h : Expression.ReadsValue symbols type text v) : Fits 0 0 ("return ".toList ++ value v) :=
  .line (.append (respects_nests.bare _ (by decide)) (nests_value hs h))
    ⟨'r', _, rfl, by decide, by decide⟩ ((endsVisibly_value hs h).append _)

/-- The line of a statement of one line. -/
theorem fits_of_readsLine {f next : Frame} {s : Statement} (h : Program.ReadsLine f text s next)
    (hs : f.scope.symbols.Identifies) : ∃ go, statement s = [go] ∧ Fits 0 0 go := by
  cases h with
  | declaration _ h =>
    obtain ⟨header, type, v, r, -, hname, -, -, hv, rfl, -⟩ := Statement.readDeclaration_eq_ok h
    refine ⟨_, by rw [statement], ?_⟩
    have hfront : Nests 0 0 ("var ".toList ++ header.name) :=
      .append (respects_nests.bare _ (by decide)) (respects_nests.of_problem? hname)
    have htype : Nests 0 0 (' ' :: type.goName) :=
      respects_nests.cons (by decide) (respects_nests.type type)
    have hequals : Nests 0 0 " = ".toList := respects_nests.bare _ (by decide)
    exact .line (((hfront.append htype).append hequals).append (nests_value hs hv))
      ⟨'v', _, rfl, by decide, by decide⟩ ((endsVisibly_value hs hv).append _)
  | assignment _ h =>
    have hread := Statement.readAssignment_eq_ok h
    cases hread with
    | element | whole => exact ⟨_, by rw [statement], fits_assignment hs h⟩
  | jump _ h =>
    obtain ⟨-, -, rfl⟩ := Statement.readJump_eq_ok h
    rename_i jump _
    refine ⟨_, by rw [statement], .line (.of_plain (by cases jump <;> decide)) ?_ ?_⟩
    · cases jump <;> exact ⟨_, _, rfl, by decide, by decide⟩
    · exact .of_getLast? (by cases jump <;> decide)
  | builtin _ h =>
    obtain ⟨name, rest, callee, inside, argument, -, -, -, hargument, -, rfl, -⟩ :=
      Statement.readBuiltin_eq_ok h
    have hcallee : Nests 0 0 (builtin callee).toList :=
      respects_nests.bare _ (by cases callee <;> decide)
    have hexpression : Nests 0 0 (expression argument) := nests_go hs (.expression argument) hargument
    refine ⟨_, by rw [statement], .line ?_ ?_ (.last (by decide) _)⟩
    · rw [List.append_assoc]
      exact hcallee.append (respects_nests.around (by decide) hexpression (by decide))
    · cases callee <;> exact ⟨_, _, rfl, by decide, by decide⟩

theorem fits_functionHeader {f : Frame} {s : Signature} {r : Requirements}
    (h : Program.readSignature f text = .ok (s, r)) : Fits 0 1 (functionHeader s) := by
  obtain ⟨hname, -, hparameters, -⟩ := Program.readSignature_eq_ok h
  have hlist : Nests 0 0 (commas (s.parameters.map parameter)) := by
    refine respects_nests.commas_map fun p hp => ?_
    exact .append (respects_nests.of_problem? (hparameters p hp).1)
      (respects_nests.cons (by decide) (respects_nests.type p.type))
  have hreturns : Nests 0 0 (if s.returns.isIO then [] else ' ' :: s.returns.goName) := by
    split
    · exact .nil
    · exact respects_nests.cons (by decide) (respects_nests.type s.returns)
  have hfront : Nests 0 0 ("func ".toList ++ s.name) :=
    .append (respects_nests.bare _ (by decide)) (respects_nests.of_problem? hname)
  exact .header ((hfront.append (respects_nests.cons (by decide) hlist)).append
    (respects_nests.cons (by decide) hreturns)) ⟨'f', _, rfl, by decide, by decide⟩

theorem fits_if (hs : symbols.Identifies) {condition : Expression}
    (h : Statement.readCondition symbols text = .ok condition) :
    Fits 0 1 (clauseHeader (.ifTrue condition)) :=
  .header (.append (respects_nests.bare _ (by decide)) (nests_condition hs h))
    ⟨'i', _, rfl, by decide, by decide⟩

theorem fits_for (hs : symbols.Identifies) {condition : Expression}
    (h : Statement.readCondition symbols text = .ok condition) :
    Fits 0 1 ("for ".toList ++ expression condition ++ [' ', '{']) :=
  .header (.append (respects_nests.bare _ (by decide)) (nests_condition hs h))
    ⟨'f', _, rfl, by decide, by decide⟩

theorem fits_nextHeader (hs : symbols.Identifies) {last : Bool} {next : ClauseHeader}
    (h : Program.readNextHeader symbols last text = .ok next) : Fits 1 1 (clauseHeader next) := by
  obtain ⟨continuation, -, ⟨rfl, -⟩ | ⟨inner, condition, rfl, -, hcondition⟩⟩ :=
    Program.readNextHeader_eq_ok h
  · exact .nextHeader (respects_nests.bare " else".toList (by decide))
  · exact .nextHeader (.append (respects_nests.bare " else if ".toList (by decide))
      (nests_condition hs hcondition))

end Go

end StellaGo
