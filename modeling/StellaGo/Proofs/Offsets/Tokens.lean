import StellaGo.Placement
import StellaGo.Proofs.Offsets.Text

/-! Tokens by offset and index. Defined here: the scanner that counts the bytes it went over and cuts
the source there to read an operator, and the check that looks up the neighbours of a token by index.
Proved: both come to their end on every text and on every row of tokens, as the scanner of characters
and the check of neighbours do. -/

namespace StellaGo.Offsets

open Outcome (before? ended ended_map liftM_some minus?)

/-! ### Scanning -/

/-- The first token of `t`, the part of the source from the byte `offset` on, inside the open brackets
`stack`, and the tokens behind it, which `scan` finds. -/
def scanStep (source : Text) (scan : List Bracket → Nat → Text → Outcome Fault (List Text))
    (stack : List Bracket) (offset : Nat) (t : Text) : Outcome Fault (List Text) :=
  match t with
  | [] =>
    match stack with
    | [] => return []
    | b :: _ => throw (.neverClosed [b.opener])
  | c :: rest =>
    if Token.endsWord c then
      if isQuote c then
        match Token.literal? c rest with
        | none => throw (.openLiteral c)
        | some (body, more) =>
          ((c :: body) :: ·) <$> scan stack (offset + Text.byteSize (c :: body)) more
      else if isBlank c then scan stack (offset + Text.byteSize [c]) rest
      else if isOperatorChar c then do
        let ahead ← source.sliceFrom? offset
        match Operator.read? ahead with
        | none => throw (.noOperator (ahead.headD '\x00'))
        | some (op, more) =>
          let width ← minus? (Text.byteSize ahead) (Text.byteSize more)
          (op.symbol.toList :: ·) <$>
            scan stack (offset + Text.byteSize (t.take width)) (t.drop width)
      else
        match Bracket.ofCloser? c, stack with
        | some b, top :: below =>
          if top = b then ([c] :: ·) <$> scan below (offset + Text.byteSize [c]) rest
          else throw (.strayCloser c)
        | _, _ => throw (.strayCloser c)
    else
      match Bracket.ofOpener? c with
      | some .round => ([c] :: ·) <$> scan (.round :: stack) (offset + Text.byteSize [c]) rest
      | some .curly => ([c] :: ·) <$> scan (.curly :: stack) (offset + Text.byteSize [c]) rest
      | _ => do
        let (w, more) ← Token.word t t
        (w :: ·) <$> scan stack (offset + Text.byteSize w) more

def scanFrom (source : Text) : (fuel : Nat) → List Bracket → Nat → Text → Outcome Fault (List Text)
  | 0 => fun _ _ _ => (none : Option (List Text))
  | fuel + 1 => scanStep source (scanFrom source fuel)

def scan (t : Text) : Outcome Fault (List Text) := scanFrom t (t.length + 1) [] 0 t

/-- An operator takes as many bytes as characters. -/
theorem byteSize_symbol (op : Operator) : Text.byteSize op.symbol.toList = op.symbol.toList.length := by
  cases op <;> decide

/-- As many characters as an operator has bytes cut it off. -/
theorem exists_width_of_read? {t more : Text} {op : Operator} (h : Operator.read? t = some (op, more)) :
    ∃ width, minus? (Text.byteSize t) (Text.byteSize more) = some width ∧
      t.take width = op.symbol.toList ∧ t.drop width = more := by
  have ht := Operator.append_of_read? h
  refine ⟨op.symbol.toList.length, ?_, ?_, ?_⟩
  · rw [← ht, Text.byteSize_append, byteSize_symbol, Outcome.minus?_add]
  · rw [← ht, List.take_left]
  · rw [← ht, List.drop_left]

/-- A scanner at a character of the source, with more steps than characters are left, comes to its
end. -/
theorem scanFrom_eq {source front t : Text} {stack : List Bracket} {fuel : Nat}
    (hsource : source = front ++ t) (hfuel : t.length < fuel) :
    scanFrom source fuel stack (Text.byteSize front) t = ended (Token.scanInside stack t) := by
  induction fuel generalizing front stack t with
  | zero => exact absurd hfuel (Nat.not_lt_zero _)
  | succ fuel ih =>
    have hbehind {more : Text} (piece : Text) (stack : List Bracket) (ht : piece ++ more = t)
        (hne : piece ≠ []) :
        scanFrom source fuel stack (Text.byteSize front + Text.byteSize piece) more =
          ended (Token.scanInside stack more) := by
      have hpos := List.length_pos_iff.2 hne
      rw [← ht, List.length_append] at hfuel
      rw [← Text.byteSize_append]
      exact ih (by rw [hsource, ← ht, List.append_assoc]) (by omega)
    rw [scanFrom, scanStep.eq_def]
    fun_cases Token.scanInside stack t with
    | case1 | case2 => rfl
    | case3 stack c rest hc hq hl =>
      simp only [hc, hq, hl]
      rfl
    | case4 stack c rest hc hq body more hl =>
      have ht : (c :: body) ++ more = c :: rest := congrArg (c :: ·) (Token.append_of_literal? hl)
      simp only [hc, hq, hl, hbehind _ stack ht (List.cons_ne_nil _ _), ended_map]
      rfl
    | case5 stack c rest hc hq hb =>
      have hmore := hbehind [c] stack rfl (List.cons_ne_nil _ _)
      simp only [hc, hq, hb, hmore]
      rfl
    | case6 stack c rest hc hq hb ho hr =>
      have hahead := Text.sliceFrom?_append front (c :: rest)
      rw [← hsource] at hahead
      simp only [hc, hq, hb, ho, hahead, liftM_some, pure_bind, hr]
      rfl
    | case7 stack c rest hc hq hb ho op more hr =>
      have hahead := Text.sliceFrom?_append front (c :: rest)
      rw [← hsource] at hahead
      have hmore := hbehind _ stack (Operator.append_of_read? hr) (by cases op <;> decide)
      obtain ⟨width, hwidth, htake, hdrop⟩ := exists_width_of_read? hr
      simp only [hc, hq, hb, ho, hahead, liftM_some, pure_bind, hr, hwidth, htake, hdrop, hmore,
        ended_map]
      rfl
    | case8 c rest hc hq hb ho b below hbr =>
      have hmore := hbehind [c] below rfl (List.cons_ne_nil _ _)
      simp only [hc, hq, hb, ho, hbr, hmore, ended_map]
      rfl
    | case9 c rest hc hq hb ho b top below hbr hne =>
      simp only [hc, hq, hb, ho, hbr, hne]
      rfl
    | case10 stack c rest hc hq hb ho hbr =>
      dsimp only
      rw [if_pos hc, if_neg hq, if_neg hb, if_neg ho]
      split
      · next b top below hcloser => exact (hbr b top below hcloser rfl).elim
      · rfl
    | case11 stack c rest hc hb =>
      have hmore := hbehind [c] (.round :: stack) rfl (List.cons_ne_nil _ _)
      simp only [hc, hb, hmore, ended_map]
      rfl
    | case12 stack c rest hc hb =>
      have hmore := hbehind [c] (.curly :: stack) rfl (List.cons_ne_nil _ _)
      simp only [hc, hb, hmore, ended_map]
      rfl
    | case13 stack c rest hc fault hw hround hcurly =>
      dsimp only
      rw [if_neg hc]
      split
      · next hb => exact (hround hb).elim
      · next hb => exact (hcurly hb).elim
      · rw [hw]
        rfl
    | case14 stack c rest hc w more hw hround hcurly =>
      have hmore := hbehind _ stack (Token.append_of_word hw)
        (Token.ne_nil_of_word (by simpa using hc) hw)
      dsimp only
      rw [if_neg hc]
      split
      · next hb => exact (hround hb).elim
      · next hb => exact (hcurly hb).elim
      · rw [hw, ended_map, ← hmore]
        rfl

theorem scan_eq (t : Text) : scan t = ended (Token.scan t) :=
  scanFrom_eq (List.nil_append t).symm (Nat.lt_succ_self _)

/-! ### Neighbours -/

/-- What is wrong with the token of index `i`. -/
def misplaced (tokens : List Text) (i : Nat) : Outcome Fault Fault := do
  let token ← (tokens[i]? : Option Text)
  let previous ← before? tokens i
  return Placement.fault previous token tokens[i + 1]?

/-- The tokens of the classes `rest`, the first of them of index `i`, fit between their neighbours. -/
def placedFrom (tokens : List Text) : (i : Nat) → (rest : List Token.Class) → Outcome Fault Unit
  | _, [] => return ()
  | i, current :: rest => do
    let classes := tokens.map Token.classify
    let previous ← before? classes i
    if Placement.fits previous current classes[i + 1]? then placedFrom tokens (i + 1) rest
    else throw (← misplaced tokens i)

def checkPlacement (tokens : List Text) : Outcome Fault Unit :=
  placedFrom tokens 0 (tokens.map Token.classify)

theorem placedFrom_eq (front rest : List Text) :
    placedFrom (front ++ rest) front.length (rest.map Token.classify) =
      ended (Placement.check front.getLast? rest) := by
  induction rest generalizing front with
  | nil => rfl
  | cons token rest ih =>
    have hprevious := Outcome.before?_append front (token :: rest)
    have hclass := Outcome.before?_append (front.map Token.classify) ((token :: rest).map Token.classify)
    rw [← List.map_append, List.length_map, List.getLast?_map] at hclass
    have htoken : (front ++ token :: rest)[front.length]? = some token := by simp
    have hnext : (front ++ token :: rest)[front.length + 1]? = rest.head? := by
      rw [List.getElem?_append_right (by omega), Nat.add_sub_cancel_left, List.head?_eq_getElem?]
      rfl
    have hih := ih (front ++ [token])
    rw [List.append_assoc, List.length_append, List.getLast?_concat] at hih
    rw [List.map_cons, placedFrom, Placement.check, hclass, List.getElem?_map, hnext]
    simp only [liftM_some, pure_bind, misplaced, hprevious, htoken, hnext]
    split
    · exact hih
    · rfl

theorem checkPlacement_eq (tokens : List Text) :
    checkPlacement tokens = ended (Placement.check none tokens) := placedFrom_eq [] tokens

end StellaGo.Offsets
