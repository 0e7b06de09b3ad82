import StellaGo.Proofs.BracketKinds
import StellaGo.Proofs.GoBraces
import StellaGo.Proofs.TokenOrder

/-! How the lines of an accepted file end. Defined here: texts whose last visible character is no
slash, and texts that end so and outside literals. Proved: every line of an accepted file that is
not blank ends so, since the last token of an expression is no operator and every header ends with
its brace. So two slashes behind such a line start a comment, and start it there. -/

namespace StellaGo

/-! ### Ends of texts -/

/-- The last character that is not blank is there, and is no slash. -/
def Text.EndsClear (t : Text) : Prop :=
  ∃ front c behind, t = front ++ c :: behind ∧ isBlank c = false ∧ c ≠ '/' ∧ ∀ d ∈ behind, isBlank d

theorem isBlank_of_isSpace {c : Char} (h : isSpace c) : isBlank c := by
  rcases Bool.or_eq_true _ _ ▸ h with h | h
  · rw [beq_iff_eq.1 h]
    decide
  · rw [beq_iff_eq.1 h]
    decide

namespace Text.EndsClear

variable {t : Text}

theorem append (h : t.EndsClear) (u : Text) : Text.EndsClear (u ++ t) := by
  obtain ⟨front, c, behind, rfl, hc⟩ := h
  exact ⟨u ++ front, c, behind, (List.append_assoc _ _ _).symm, hc⟩

theorem cons (h : t.EndsClear) (c : Char) : Text.EndsClear (c :: t) := h.append [c]

theorem last {c : Char} (hblank : isBlank c = false) (hslash : c ≠ '/') (front : Text) :
    Text.EndsClear (front ++ [c]) := ⟨front, c, [], rfl, hblank, hslash, nofun⟩

theorem closer (front : Text) (b : Bracket) : Text.EndsClear (front ++ [b.closer]) :=
  last (by cases b <;> decide) (by cases b <;> decide) front

theorem opener (front : Text) (b : Bracket) : Text.EndsClear (front ++ [b.opener]) :=
  last (by cases b <;> decide) (by cases b <;> decide) front

theorem before_blanks (h : t.EndsClear) {u : Text} (hu : ∀ c ∈ u, isBlank c) :
    Text.EndsClear (t ++ u) := by
  obtain ⟨front, c, behind, rfl, hc, hslash, hbehind⟩ := h
  refine ⟨front, c, behind ++ u, by rw [List.append_assoc, List.cons_append], hc, hslash, ?_⟩
  exact List.forall_mem_append.2 ⟨hbehind, hu⟩

theorem of_trim (h : t.trim.EndsClear) : t.EndsClear := by
  obtain ⟨before, behind, ht, -, hbehind⟩ := exists_blanks_around_trim t
  rw [ht]
  exact (h.before_blanks hbehind).append before

theorem getLast?_ne (h : t.EndsClear) : t.getLast? ≠ some '/' := by
  obtain ⟨front, c, behind, rfl, -, hc, hbehind⟩ := h
  rcases List.eq_nil_or_concat behind with rfl | ⟨others, d, rfl⟩
  · rw [List.getLast?_concat, ne_eq, Option.some.injEq]
    exact hc
  · rw [List.concat_eq_append, ← List.cons_append, ← List.append_assoc, List.getLast?_concat,
      ne_eq, Option.some.injEq]
    rintro rfl
    cases hbehind '/' (by simp)

/-- A name that may be declared. -/
theorem of_problem? (h : Name.problem? t = none) : t.EndsClear := by
  have hword := Name.isWordChar_of_problem? h
  have hne : t ≠ [] := by
    rintro rfl
    cases h
  have hlast := hword _ (List.getLast_mem hne)
  rw [← List.dropLast_append_getLast hne]
  refine last (isBlank_eq_false_of_word hlast) ?_ _
  intro hslash
  rw [hslash] at hlast
  cases hlast

end Text.EndsClear

/-- The search for the end of a group stops at a closing bracket. -/
theorem Glyph.getElem?_of_closing {depth k : Nat} {gs : List Glyph} (h : closing depth gs = some k) :
    ∃ b : Bracket, gs[k]? = some (code b.closer) := by
  fun_induction closing depth gs generalizing k with
  | case1 | case4 => cases h
  | case2 _ _ _ ih | case3 _ _ _ _ ih | case6 _ _ _ _ _ _ ih | case7 _ _ _ _ _ ih =>
    obtain ⟨i, hi, rfl⟩ := Option.map_eq_some_iff.1 h
    exact ih hi
  | case5 c rest _ hc =>
    cases h
    obtain ⟨b, hb⟩ := Option.isSome_iff_exists.1 hc
    exact ⟨b, by rw [List.getElem?_cons_zero, Bracket.ofCloser?_eq_some_iff.1 hb]⟩

/-- A text that ends with a group whose end is found by counting. -/
theorem Text.EndsClear.of_inside? {t inner : Text} {start : Nat} (h : t.inside? start = some inner) :
    t.EndsClear := by
  rw [inside?] at h
  split at h
  · next hend =>
    have hlt := closerFrom?_lt_length hend
    obtain ⟨k, hk, heq⟩ := Option.map_eq_some_iff.1 hend
    obtain ⟨b, hb⟩ := Glyph.getElem?_of_closing hk
    rw [List.getElem?_drop, heq] at hb
    have hlast : t.getLast? = some b.closer := by
      have hchar := congrArg (Option.map Glyph.char) hb
      rwa [← List.getElem?_map, Glyph.map_char_ofText, ← List.getLast?_eq_getElem?] at hchar
    obtain ⟨front, rfl⟩ := List.getLast?_eq_some_iff.1 hlast
    exact .closer front b
  · cases h

/-! ### Tokens -/

namespace Token

theorem exists_of_literal? {quote : Char} {t body more : Text}
    (h : literal? quote t = some (body, more)) : ∃ front, body = front ++ [quote] := by
  fun_induction literal? quote t generalizing body with
  | case1 | case2 => cases h
  | case3 c rest ih =>
    obtain ⟨⟨inner, after⟩, hi, heq⟩ := Option.map_eq_some_iff.1 h
    cases heq
    obtain ⟨front, rfl⟩ := ih hi
    exact ⟨'\\' :: c :: front, rfl⟩
  | case4 c rest _ _ hc =>
    cases h
    exact ⟨[], by rw [beq_iff_eq.1 hc]; rfl⟩
  | case5 c rest _ _ _ ih =>
    obtain ⟨⟨inner, after⟩, hi, heq⟩ := Option.map_eq_some_iff.1 h
    cases heq
    obtain ⟨front, rfl⟩ := ih hi
    exact ⟨c :: front, rfl⟩

theorem endsClear_group {word t g after : Text} {stack : List Bracket}
    (h : group word stack t = .ok (g, after)) : g.EndsClear := by
  fun_induction group word stack t generalizing g with
  | case1 | case2 | case5 | case8 => cases h
  | case3 stack c rest hq body more hl ih =>
    obtain ⟨⟨tail, behind⟩, ht, heq⟩ := Check.map_eq_ok_iff.1 h
    cases heq
    exact ((ih ht).append body).cons c
  | case4 _ c _ _ _ _ ih | case9 _ c _ _ _ _ ih =>
    obtain ⟨⟨tail, behind⟩, ht, heq⟩ := Check.map_eq_ok_iff.1 h
    cases heq
    exact (ih ht).cons c
  | case6 c rest hq b top hb ho hsame =>
    cases h
    rw [Bracket.ofCloser?_eq_some_iff.1 hb]
    exact .closer [] b
  | case7 c rest hq b top below hb ho hsame hbelow ih =>
    obtain ⟨⟨tail, behind⟩, ht, heq⟩ := Check.map_eq_ok_iff.1 h
    cases heq
    exact (ih ht).cons c

/-- A word ends with a bracket, or with a character that belongs to words. -/
theorem endsClear_word {whole t w after : Text} (h : word whole t = .ok (w, after)) (hne : w ≠ []) :
    w.EndsClear := by
  fun_induction word whole t generalizing w with
  | case1 | case4 =>
    cases h
    exact absurd rfl hne
  | case2 => cases h
  | case3 c rest b hb g more hg ih =>
    obtain ⟨⟨tail, behind⟩, ht, heq⟩ := Check.map_eq_ok_iff.1 h
    cases heq
    have hgroup := (endsClear_group hg).cons c
    by_cases htail : tail = []
    · rw [htail, List.append_nil]
      exact hgroup
    · exact ((ih ht htail).append g).cons c
  | case5 c rest hb hc ih =>
    obtain ⟨⟨tail, behind⟩, ht, heq⟩ := Check.map_eq_ok_iff.1 h
    cases heq
    by_cases htail : tail = []
    · rw [htail]
      obtain ⟨-, -, hblank, hoperator⟩ := not_endsWord_iff.1 hc
      refine .last (eq_false_of_ne_true hblank) ?_ []
      rintro rfl
      exact hoperator (by decide)
    · exact (ih ht htail).cons c

/-- A text ends as the last one of its tokens does, or is blank if it has none; and a token ends
clear unless it is an operator. -/
structure EndsAs (tokens : List Text) (t : Text) : Prop where
  last : tokens = [] ∧ (∀ c ∈ t, isBlank c) ∨
    ∃ token, tokens.getLast? = some token ∧ (token.EndsClear → t.EndsClear)
  each : ∀ token ∈ tokens, token.EndsClear ∨ ∃ op, classify token = .operator op

theorem EndsAs.cons {t token more : Text} {tokens : List Text} (h : EndsAs tokens more)
    (ht : token ++ more = t) (htoken : token.EndsClear ∨ ∃ op, classify token = .operator op) :
    EndsAs (token :: tokens) t := by
  subst ht
  refine ⟨.inr ?_, List.forall_mem_cons.2 ⟨htoken, h.each⟩⟩
  rcases h.last with ⟨rfl, hblank⟩ | ⟨last, hlast, hends⟩
  · exact ⟨token, rfl, fun h => h.before_blanks hblank⟩
  · refine ⟨last, ?_, fun h => (hends h).append token⟩
    rw [List.getLast?_cons, hlast, Option.getD_some]

theorem endsAs_of_scanInside {t : Text} {stack : List Bracket} {tokens : List Text}
    (h : scanInside stack t = .ok tokens) : EndsAs tokens t := by
  fun_induction scanInside stack t generalizing tokens with
  | case1 => cases h; exact ⟨.inl ⟨rfl, List.forall_mem_nil _⟩, List.forall_mem_nil _⟩
  | case2 | case3 | case6 | case9 | case10 | case13 => cases h
  | case4 stack c rest hc hq body more hl ih =>
    obtain ⟨ts, hts, rfl⟩ := Check.map_eq_ok_iff.1 h
    obtain ⟨front, rfl⟩ := exists_of_literal? hl
    have hquote : Text.EndsClear (front ++ [c]) := by
      rcases isQuote_iff.1 hq with rfl | rfl
      · exact .last (by decide) (by decide) front
      · exact .last (by decide) (by decide) front
    have happ : c :: (front ++ [c]) ++ more = c :: rest :=
      congrArg (c :: ·) (append_of_literal? hl)
    exact (ih hts).cons happ (.inl (hquote.cons c))
  | case5 stack c rest hc hq hblank ih =>
    refine ⟨?_, (ih h).each⟩
    rcases (ih h).last with ⟨rfl, hrest⟩ | ⟨last, hlast, hends⟩
    · exact .inl ⟨rfl, List.forall_mem_cons.2 ⟨hblank, hrest⟩⟩
    · exact .inr ⟨last, hlast, fun h => (hends h).cons c⟩
  | case7 stack c rest _ _ _ _ op more hr ih =>
    obtain ⟨ts, hts, rfl⟩ := Check.map_eq_ok_iff.1 h
    exact (ih hts).cons (Operator.append_of_read? hr) (.inr ⟨op, classify_symbol op⟩)
  | case8 c rest _ _ _ _ b below hb ih =>
    obtain ⟨ts, hts, rfl⟩ := Check.map_eq_ok_iff.1 h
    have hcloser : Text.EndsClear [c] := by
      rw [Bracket.ofCloser?_eq_some_iff.1 hb]
      exact .closer [] b
    exact (ih hts).cons rfl (.inl hcloser)
  | case11 stack c rest _ hb ih | case12 stack c rest _ hb ih =>
    obtain ⟨ts, hts, rfl⟩ := Check.map_eq_ok_iff.1 h
    have hopener : Text.EndsClear [c] := by
      rw [Bracket.ofOpener?_eq_some_iff.1 hb]
      exact .opener [] _
    exact (ih hts).cons rfl (.inl hopener)
  | case14 stack c rest hc w more hw _ _ ih =>
    obtain ⟨ts, hts, rfl⟩ := Check.map_eq_ok_iff.1 h
    have hne := ne_nil_of_word (by simpa using hc) hw
    exact (ih hts).cons (append_of_word hw) (.inl (endsClear_word hw hne))

end Token

/-- The last of tokens that fit between their neighbours ends an operand. -/
theorem Placement.endsOperand_of_check {previous : Option Text} {tokens : List Text} {last : Text}
    (h : check previous tokens = .ok ()) (hlast : tokens.getLast? = some last) :
    endsOperand (some (Token.classify last)) := by
  induction tokens generalizing previous with
  | nil => cases hlast
  | cons token rest ih =>
    unfold check at h
    split at h
    case isFalse => cases h
    next hfits =>
    cases rest with
    | nil =>
      obtain rfl : token = last := Option.some.inj hlast
      cases hclass : Token.classify token <;> simp_all [fits, startsOperand, endsOperand]
    | cons next others =>
      rw [List.getLast?_cons_cons] at hlast
      exact ih h hlast

/-! ### Values -/

namespace Expression

open Text (EndsClear)

variable {symbols : Symbols} {text : Text}

theorem endsClear_of_expression {e : Expression} (h : expression symbols text = .ok e) :
    text.EndsClear := by
  obtain ⟨tokens, hscan, hne, hcheck, -⟩ := expression_eq_ok_iff.1 h
  have hends := Token.endsAs_of_scanInside hscan
  rcases hends.last with ⟨hnil, -⟩ | ⟨last, hlast, htext⟩
  · exact absurd hnil hne
  rcases hends.each last (List.mem_of_getLast? hlast) with hclear | ⟨op, hop⟩
  · exact htext hclear
  · have hoperand := Placement.endsOperand_of_check hcheck hlast
    rw [hop] at hoperand
    cases hoperand

theorem endsClear_of_token {token : Text} (hs : Token.scan text = .ok [token])
    (htoken : token.EndsClear) : text.EndsClear := by
  rcases (Token.endsAs_of_scanInside hs).last with ⟨hnil, -⟩ | ⟨last, hlast, htext⟩
  · cases hnil
  · cases hlast
    exact htext htoken

/-- An array literal. -/
theorem endsClear_of_readsItems {base : Primitive} :
    ∀ {sizes : List Nat} {text : Text} {items : List Item},
      ReadsItems symbols base sizes text items → text.EndsClear
  | [], _, _, h | [_], _, _, h | _ :: _ :: _, _, _, h => by
    obtain ⟨inner, hinner, -⟩ := h
    exact .of_inside? hinner

theorem endsClear_of_readsAggregate (hs : symbols.Identifies) {expected : Aggregate} {v : Value}
    (h : ReadsAggregate symbols text expected v) : text.EndsClear := by
  have hname {name : Name} {d : Descriptor} (hlookup : symbols.lookup? name = some d) :
      name.EndsClear := .of_problem? (hs name d hlookup).2
  apply EndsClear.of_trim
  cases h with
  | items _ h => exact endsClear_of_readsItems h
  | fields _ hinner => exact .of_inside? hinner
  | call hscan h =>
    obtain ⟨inner, signature, hinner, -⟩ := call_eq_ok h
    exact endsClear_of_token hscan (.of_inside? hinner)
  | array hscan hlookup | tuple hscan hlookup => exact endsClear_of_token hscan (hname hlookup)

theorem endsClear_of_readsValue (hs : symbols.Identifies) {type : ValueType} {v : Value}
    (h : ReadsValue symbols type text v) : text.EndsClear := by
  cases type with
  | primitive type =>
    obtain ⟨e, -, -, he⟩ := h
    exact endsClear_of_expression he
  | array type | tuple type => exact endsClear_of_readsAggregate hs (readsAggregate_of_aggregate h)

end Expression

/-! ### Lines -/

/-- The text ends outside literals, and ends clear. -/
structure Text.EndsOpen (t : Text) : Prop where
  outside : ∀ rest, Glyph.ofText (t ++ rest) = Glyph.ofText t ++ Glyph.ofText rest
  clear : t.EndsClear

/-- Blanks around a text change nothing of that. -/
theorem Text.EndsOpen.of_trim {t : Text} (h : t.trim.EndsOpen) : t.EndsOpen where
  outside rest := by
    have hblank {u : Text} (hu : ∀ c ∈ u, isBlank c) (rest : Text) :
        Glyph.ofText (u ++ rest) = Glyph.ofText u ++ Glyph.ofText rest := by
      have hpairs : Pairs [] [] True u := .of_flat (isFlat_of_blank hu)
      exact hpairs.ends rest
    obtain ⟨before, behind, ht, hbefore, hbehind⟩ := exists_blanks_around_trim t
    rw [ht, List.append_assoc, List.append_assoc, hblank hbefore, hblank hbefore, h.outside,
      h.outside, hblank hbehind, List.append_assoc, List.append_assoc]
  clear := h.clear.of_trim

/-- A line that is not blank ends outside literals, and ends clear. -/
def Line.EndsOpen (line : Line) : Prop := line.text.trim ≠ [] → line.text.EndsOpen

namespace Program

open Text (EndsClear)

variable {f : Frame} {text : Text}

theorem endsClear_of_readsLine {next : Frame} {s : Statement} (hs : f.scope.symbols.Identifies)
    (h : ReadsLine f text s next) : text.EndsClear := by
  cases h with
  | declaration _ h =>
    obtain ⟨header, type, v, r, hheader, -, -, -, hv, -⟩ := Statement.readDeclaration_eq_ok h
    obtain ⟨first, front, third, fourth, written, rfl, -⟩ := LetHeader.read?_eq_some hheader
    exact ((Expression.endsClear_of_readsValue hs hv).cons '=').append _
  | assignment _ h =>
    have hassign {equals : Nat} (ha : text.assignmentAt? = some equals)
        (hvalue : EndsClear (Text.trim (text.drop (equals + 1)))) : text.EndsClear := by
      rw [Text.eq_append_of_assignmentAt? ha]
      exact (hvalue.of_trim.cons '=').append _
    cases Statement.readAssignment_eq_ok h with
    | element ha _ _ he => exact hassign ha (Expression.endsClear_of_expression he)
    | whole ha _ _ _ hv => exact hassign ha (Expression.endsClear_of_readsValue hs hv)
  | @jump jump _ _ h =>
    rw [(Statement.readJump_eq_ok h).1]
    cases jump with
    | «break» => exact .last (by decide) (by decide) "brea".toList
    | «continue» => exact .last (by decide) (by decide) "continu".toList
  | builtin _ h =>
    obtain ⟨name, rest, callee, inside, argument, hname, -, hinside, -⟩ :=
      Statement.readBuiltin_eq_ok h
    rw [(Name.read?_eq_some hname).1]
    exact ((EndsClear.of_inside? hinside).cons '!').append name

theorem endsClear_of_readSignature {s : Signature} {r : Requirements}
    (h : readSignature f text = .ok (s, r)) : text.EndsClear := by
  unfold readSignature at h
  split at h
  · cases h
  next header hheader =>
  obtain ⟨first, blanks, rest, close, rfl, -, -, -, -, hreturns⟩ :=
    FunctionHeader.read?_eq_some hheader
  obtain ⟨spaces, second, written, third, fourth, hbehind, -, hspaces⟩ :=
    FunctionHeader.readReturns?_eq_some hreturns
  have hblanks : ∀ c ∈ fourth, isBlank c :=
    fun c hc => isBlank_of_isSpace (hspaces c (List.mem_append_right _ hc))
  have hbrace : EndsClear ('{' :: fourth) := (EndsClear.opener [] .curly).before_blanks hblanks
  rw [← List.take_append_drop (close + 1) ('(' :: rest), hbehind]
  exact (hbrace.append _).append _ |>.append _

theorem endsClear_of_header {keyword : String} {inner : Text}
    (h : text.betweenKeywordAndBrace? keyword = some inner) : text.EndsClear := by
  obtain ⟨between, rfl, -⟩ := Text.betweenKeywordAndBrace?_eq_some h
  exact .opener _ .curly

theorem ClosesBlock.endsClear {line : Line} (h : ClosesBlock line) : line.text.EndsClear := by
  obtain ⟨tail, htail, hafter⟩ := exists_tail_of_closer h.1
  have hblanks : ∀ c ∈ tail, isBlank c := Text.trim_eq_nil_iff.1 (hafter.symm.trans h.2)
  rw [htail]
  exact (EndsClear.closer [] .curly).before_blanks hblanks

theorem endsClear_of_readNextHeader {symbols : Symbols} {last : Bool} {line : Line}
    {next : ClauseHeader} (hs : line.text.startsWith '}')
    (h : readNextHeader symbols last (afterCloser line) = .ok next) : line.text.EndsClear := by
  obtain ⟨tail, htail, hafter⟩ := exists_tail_of_closer hs
  obtain ⟨continuation, hrest, hnext⟩ := readNextHeader_eq_ok h
  have hcontinuation : EndsClear continuation.trim := by
    rcases hnext with ⟨-, hbrace⟩ | ⟨text, condition, -, htext, -⟩
    · rw [hbrace]
      exact .opener [] .curly
    · exact endsClear_of_header htext
  have hbehind : EndsClear (Text.trim tail) := by
    rw [← hafter, hrest]
    exact hcontinuation.of_trim.append _
  rw [htail]
  exact hbehind.of_trim.cons '}'

/-! ### All lines -/

/-- The lines that were read. -/
def Reading.taken : Reading → List Line
  | lines _ taken _ _ => taken
  | clauses _ _ taken _ _ => taken

theorem endsOpen_of_pairs {line : Line} {closed opened : List Bracket} {same : Prop}
    (hp : Text.Pairs closed opened same line.text) (hc : line.text.EndsClear) : line.EndsOpen :=
  fun _ => ⟨hp.ends, hc⟩

theorem endsOpen_of_empty {lines : List Line} (h : ∀ line ∈ lines, line.text = []) :
    ∀ line ∈ lines, line.EndsOpen := by
  intro line hline hne
  exact absurd (by rw [h line hline]; rfl) hne

theorem endsOpen_of_header {line : Line} {symbols : Symbols} {keyword : String} {inner : Text}
    {condition : Expression} (hk : Text.isFlat keyword.toList)
    (h : line.text.betweenKeywordAndBrace? keyword = some inner)
    (hcondition : Statement.readCondition symbols inner = .ok condition) : line.EndsOpen :=
  endsOpen_of_pairs (.of_header hk h (pairs_of_readCondition hcondition)) (endsClear_of_header h)

/-- The lines in a block, the line that closes it, and the lines behind it. -/
theorem endsOpen_block {inside rest : List Line} {close : Line}
    (hinside : ∀ line ∈ inside, line.EndsOpen) (hclose : close.EndsOpen)
    (hrest : ∀ line ∈ rest, line.EndsOpen) : ∀ line ∈ inside ++ close :: rest, line.EndsOpen :=
  List.forall_mem_append.2 ⟨hinside, List.forall_mem_cons.2 ⟨hclose, hrest⟩⟩

/-- By induction on how the lines are read, along which the tables keep identifiers. -/
theorem Reads.endsOpen {reading : Reading} (h : Reads reading)
    (hf : reading.before.scope.symbols.Identifies) : ∀ line ∈ reading.taken, line.EndsOpen := by
  induction h with
  | nil => nofun
  | blank hk _ ih =>
    exact List.forall_mem_cons.2 ⟨fun hne => absurd (Text.trim_eq_nil_of_lineKind hk) hne, ih hf⟩
  | line _ hline _ ih =>
    have hends := endsOpen_of_pairs (pairs_of_readsLine hf hline) (endsClear_of_readsLine hf hline)
    exact List.forall_mem_cons.2 ⟨hends, ih (hline.spells.identifies hf)⟩
  | result _ hk hresult hrest =>
    obtain ⟨type, v, -, -, hv⟩ := Statement.readResult_eq_ok hresult
    have hends := endsOpen_of_pairs (Statement.pairs_of_readResult hk hresult)
      (Expression.endsClear_of_readsValue hf hv)
    exact List.forall_mem_cons.2 ⟨hends, endsOpen_of_empty hrest⟩
  | selection _ _ hheader hcondition hclauses _ ihclauses ihrest =>
    have hends := endsOpen_of_header (by decide) hheader hcondition
    exact List.forall_mem_cons.2 ⟨hends,
      List.forall_mem_append.2 ⟨ihclauses hf, ihrest (hclauses.identifies hf)⟩⟩
  | loop _ _ hheader hcondition _ _ hclose _ ihinside ihrest =>
    have hends := endsOpen_of_header (by decide) hheader hcondition
    have hcloses := endsOpen_of_pairs hclose.pairs hclose.endsClear
    exact List.forall_mem_cons.2 ⟨hends, endsOpen_block (ihinside hf) hcloses (ihrest hf)⟩
  | function _ hk hsignature henter _ _ hclose hdeclare _ ihinside ihrest =>
    have hentered := identifies_of_enterFunction hf hsignature henter
    have hnext := identifies_of_declare hdeclare hf (readSignature_eq_ok hsignature).1
    have hends := endsOpen_of_pairs (pairs_of_readSignature hk hsignature)
      (endsClear_of_readSignature hsignature)
    have hcloses := endsOpen_of_pairs hclose.pairs hclose.endsClear
    exact List.forall_mem_cons.2 ⟨hends, endsOpen_block (ihinside hentered) hcloses (ihrest hnext)⟩
  | lastClause _ hclose ihinside =>
    have hcloses := endsOpen_of_pairs hclose.pairs hclose.endsClear
    exact endsOpen_block (ihinside hf) hcloses nofun
  | nextClause _ hclose hnext _ ihinside ihclauses =>
    have hcloses := endsOpen_of_pairs (pairs_of_readNextHeader hclose hnext)
      (endsClear_of_readNextHeader hclose hnext)
    exact endsOpen_block (ihinside hf) hcloses (ihclauses hf)

/-- Every line of an accepted file that is not blank ends outside literals, and ends clear. -/
theorem endsOpen_of_read {source : Text} {p : Program} (h : read source = .ok p) :
    ∀ line ∈ source.numberedLines, line.EndsOpen := by
  obtain ⟨after, hreads, -⟩ := reads_of_read h
  exact hreads.endsOpen Symbols.identifies_empty

end Program

end StellaGo
