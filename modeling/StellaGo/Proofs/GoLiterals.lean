import StellaGo.Proofs.Decimals
import StellaGo.Proofs.SourceEdits
import StellaGo.Proofs.SpelledPieces
import StellaGo.Proofs.TokenBoundaries

/-! Literals of Go. Defined here: the ints, floats, runes and interpreted strings that Go reads, and the
backslashes of a text that escape the character behind them. Proved: each literal of an accepted file
is a Go literal of its type, except for strings in which a backslash starts no escape of Go. -/

namespace StellaGo

namespace Go

/-! ### Escapes -/

/-- The value of a digit in base 16; capital letters are digits as well. -/
def hexValue? (c : Char) : Option Nat :=
  if c.isDigit then some (c.toNat - '0'.toNat)
  else if 'a' ≤ c ∧ c ≤ 'f' then some (c.toNat - 'a'.toNat + 10)
  else if 'A' ≤ c ∧ c ≤ 'F' then some (c.toNat - 'A'.toNat + 10)
  else none

/-- The value of a digit in the base, which is 16 at most. -/
def digitValue? (base : Nat) (c : Char) : Option Nat := (hexValue? c).filter (· < base)

/-- The code that the first `count` characters write in the base, and what follows them. -/
def readCode? (base : Nat) : (count : Nat) → (code : Nat) → Text → Option (Nat × Text)
  | 0, code, t => some (code, t)
  | _ + 1, _, [] => none
  | count + 1, code, c :: rest =>
    (digitValue? base c).bind fun digit => readCode? base count (base * code + digit) rest

/-- What stands behind the code, if it is allowed. -/
def afterCode? (base count : Nat) (allowed : Nat → Bool) (t : Text) : Option Text :=
  ((readCode? base count 0 t).filter fun (code, _) => allowed code).map Prod.snd

/-- The codes of characters: surrogates are none. -/
def isCharCode (code : Nat) : Bool := code < 0xD800 || 0xDFFF < code && code < 0x110000

/-- The letters that are escapes by themselves, in runes and in strings. -/
def escapeLetters : List Char := ['a', 'b', 'f', 'n', 'r', 't', 'v', '\\']

/-- What stands behind the escape that a string has at its first character, if that starts one. -/
def afterEscape? : Text → Option Text
  | '\\' :: 'x' :: rest => afterCode? 16 2 (fun _ => true) rest
  | '\\' :: 'u' :: rest => afterCode? 16 4 isCharCode rest
  | '\\' :: 'U' :: rest => afterCode? 16 8 isCharCode rest
  | '\\' :: c :: rest =>
    if c ∈ '"' :: escapeLetters then some rest else afterCode? 8 3 (· < 256) (c :: rest)
  | _ => none

/-! ### Literals -/

/-- What may stand between the quotes of an interpreted string. -/
inductive IsStringBody : Text → Prop
  | nil : IsStringBody []
  | char {c : Char} {rest : Text} (hc : c ∉ ['"', '\\', '\n']) (h : IsStringBody rest) :
      IsStringBody (c :: rest)
  | escape {t rest : Text} (he : afterEscape? t = some rest) (h : IsStringBody rest) : IsStringBody t

/-- A rune of one ASCII character or one letter behind a backslash. -/
inductive IsRune : Text → Prop
  | char {c : Char} (hascii : c.toNat < 128) (hc : c ∉ ['\'', '\\', '\n']) : IsRune ['\'', c, '\'']
  | escape {c : Char} (hc : c ∈ '\'' :: escapeLetters) : IsRune ['\'', '\\', c, '\'']

/-- The text is a Go literal of the Go type for this one. Ints have no zero in front, and a signed word
holds them; floats have digits on both sides of the point, and no superfluous zero in front. -/
def IsLiteral : Primitive → Text → Prop
  | .int, t => ∃ n < Text.signBound, t = Text.ofNat n
  | .float, t => ∃ n fraction, t = Text.ofNat n ++ '.' :: fraction ∧ Literal.isDigits fraction
  | .bool, t => t = "true".toList ∨ t = "false".toList
  | .byte, t => IsRune t
  | .string, t => ∃ body, t = '"' :: (body ++ ['"']) ∧ IsStringBody body
  | .io, _ => False

/-- Codes of three to eight digits. -/
example : afterEscape? "\\1012".toList = some ['2'] ∧ afterEscape? "\\xZ0".toList = none ∧
    afterEscape? "\\u00e9!".toList = some ['!'] ∧ afterEscape? "\\U00110000".toList = none := by
  decide

end Go

/-! ### Backslashes -/

/-- The text from each backslash on that escapes the character behind it. -/
def Literal.escapes : Text → List Text
  | [] => []
  | '\\' :: c :: rest => ('\\' :: c :: rest) :: escapes rest
  | _ :: rest => escapes rest

/-- Text between quotes: neither quotes nor backslashes stand in it but escaped ones. -/
inductive Literal.Inner (quote : Char) : Text → Prop
  | nil : Inner quote []
  | char {c : Char} {rest : Text} (hq : c ≠ quote) (hb : c ≠ '\\') (h : Inner quote rest) :
      Inner quote (c :: rest)
  | escape (c : Char) {rest : Text} (h : Inner quote rest) : Inner quote ('\\' :: c :: rest)

namespace Literal

variable {quote c : Char} {t body more : Text}

theorem escapes_cons (hc : c ≠ '\\') (t : Text) : escapes (c :: t) = escapes t := by
  rw [escapes]
  rintro d more rfl
  exact absurd rfl hc

theorem Inner.of_cons (hc : c ≠ '\\') (h : Inner quote (c :: t)) : Inner quote t := by
  cases h with
  | char _ _ h => exact h
  | escape => exact absurd rfl hc

theorem exists_inner_of_literal? (h : Token.literal? quote t = some (body, more)) :
    ∃ inner, body = inner ++ [quote] ∧ Inner quote inner := by
  fun_induction Token.literal? quote t generalizing body with
  | case1 | case2 => cases h
  | case3 c rest ih =>
    obtain ⟨⟨tail, behind⟩, ht, heq⟩ := Option.map_eq_some_iff.1 h
    cases heq
    obtain ⟨inner, rfl, hinner⟩ := ih ht
    exact ⟨'\\' :: c :: inner, rfl, .escape c hinner⟩
  | case4 c rest _ _ hq =>
    cases h
    exact ⟨[], by rw [beq_iff_eq.1 hq]; rfl, .nil⟩
  | case5 c rest hlast hnext hq ih =>
    obtain ⟨⟨tail, behind⟩, ht, heq⟩ := Option.map_eq_some_iff.1 h
    cases heq
    obtain ⟨inner, rfl, hinner⟩ := ih ht
    have hb : c ≠ '\\' := by
      rintro rfl
      cases rest with
      | nil => exact hlast rfl rfl
      | cons d after => exact hnext d after rfl rfl
    exact ⟨c :: inner, rfl, .char (by simpa using hq) hb hinner⟩

end Literal

namespace Go

variable {t rest : Text}

theorem exists_digits_of_readCode? {base count code n : Nat}
    (h : readCode? base count code t = some (n, rest)) :
    ∃ digits, t = digits ++ rest ∧ digits.length = count ∧ ∀ d ∈ digits, (hexValue? d).isSome := by
  fun_induction readCode? base count code t with
  | case1 =>
    cases h
    exact ⟨[], rfl, rfl, nofun⟩
  | case2 => cases h
  | case3 count code c rest ih =>
    obtain ⟨digit, hdigit, h⟩ := Option.bind_eq_some_iff.1 h
    obtain ⟨digits, rfl, hlength, hall⟩ := ih digit h
    obtain ⟨hvalue, -⟩ := Option.filter_eq_some_iff.1 hdigit
    have hc : (hexValue? c).isSome := by rw [hvalue]; rfl
    exact ⟨c :: digits, rfl, congrArg (· + 1) hlength, List.forall_mem_cons.2 ⟨hc, hall⟩⟩

theorem exists_digits_of_afterCode? {base count : Nat} {allowed : Nat → Bool}
    (h : afterCode? base count allowed t = some rest) :
    ∃ digits, t = digits ++ rest ∧ digits.length = count ∧ ∀ d ∈ digits, (hexValue? d).isSome := by
  obtain ⟨⟨n, rest⟩, hcode, rfl⟩ := Option.map_eq_some_iff.1 h
  exact exists_digits_of_readCode? (Option.filter_eq_some_iff.1 hcode).1

/-- An escape is a backslash, a character, and maybe some digits. -/
theorem exists_digits_of_afterEscape? (h : afterEscape? t = some rest) :
    ∃ c digits, t = '\\' :: c :: (digits ++ rest) ∧ ∀ d ∈ digits, (hexValue? d).isSome := by
  have hcode {c : Char} {u : Text} {count : Nat} {allowed : Nat → Bool}
      (h : afterCode? 16 count allowed u = some rest) :
      ∃ d digits, '\\' :: c :: u = '\\' :: d :: (digits ++ rest) ∧
        ∀ d ∈ digits, (hexValue? d).isSome := by
    obtain ⟨digits, rfl, -, hall⟩ := exists_digits_of_afterCode? h
    exact ⟨c, digits, rfl, hall⟩
  unfold afterEscape? at h
  split at h
  · exact hcode h
  · exact hcode h
  · exact hcode h
  · next c u _ _ _ =>
    split at h
    · cases h
      exact ⟨c, [], rfl, nofun⟩
    · obtain ⟨digits, heq, hlength, hall⟩ := exists_digits_of_afterCode? h
      obtain ⟨d, more, rfl⟩ := List.exists_cons_of_length_eq_add_one hlength
      obtain ⟨rfl, rfl⟩ := List.cons.inj heq
      exact ⟨c, more, rfl, (List.forall_mem_cons.1 hall).2⟩
  · cases h

theorem ne_of_hexValue? {c : Char} (h : (hexValue? c).isSome) : c ≠ '\\' ∧ c ≠ '"' := by
  constructor <;> rintro rfl <;> exact absurd h (by decide)

/-- The next backslash that escapes stands behind the digits of an escape. -/
theorem escapes_of_afterEscape? (h : afterEscape? t = some rest) :
    Literal.escapes t = t :: Literal.escapes rest := by
  obtain ⟨c, digits, rfl, hall⟩ := exists_digits_of_afterEscape? h
  have hdigits : Literal.escapes (digits ++ rest) = Literal.escapes rest := by
    clear h
    induction digits with
    | nil => rfl
    | cons d more ih =>
      obtain ⟨hd, hmore⟩ := List.forall_mem_cons.1 hall
      rw [List.cons_append, Literal.escapes_cons (ne_of_hexValue? hd).1, ih hmore]
  rw [Literal.escapes, hdigits]

theorem inner_of_afterEscape? (hi : Literal.Inner '"' t) (h : afterEscape? t = some rest) :
    Literal.Inner '"' rest := by
  obtain ⟨c, digits, rfl, hall⟩ := exists_digits_of_afterEscape? h
  have hbehind : Literal.Inner '"' (digits ++ rest) := by
    cases hi with
    | char _ hb => exact absurd rfl hb
    | escape _ h => exact h
  clear h hi
  induction digits with
  | nil => exact hbehind
  | cons d more ih =>
    obtain ⟨hd, hmore⟩ := List.forall_mem_cons.1 hall
    exact ih hmore (hbehind.of_cons (ne_of_hexValue? hd).1)

/-- Text between quotes is the body of a Go string just if each backslash in it that escapes the
character behind it starts an escape of Go. -/
theorem isStringBody_iff (hi : Literal.Inner '"' t) (hone : t.IsOneLine) :
    IsStringBody t ↔ ∀ tail ∈ Literal.escapes t, (afterEscape? tail).isSome := by
  constructor
  · intro h
    clear hi hone
    induction h with
    | nil => nofun
    | char hc _ ih =>
      rwa [Literal.escapes_cons fun heq => hc (by simp [heq])]
    | escape he _ ih =>
      rw [escapes_of_afterEscape? he]
      exact List.forall_mem_cons.2 ⟨by rw [he]; rfl, ih⟩
  · intro h
    -- an escape can be longer than a backslash and a character
    induction hlength : t.length using Nat.strongRecOn generalizing t with
    | ind n ih =>
      subst hlength
      cases hi with
      | nil => exact .nil
      | @char c rest hq hb hi =>
        rw [Literal.escapes_cons hb] at h
        have hfeed : c ≠ '\n' := fun heq => hone (heq ▸ List.mem_cons_self)
        have hrest : Text.IsOneLine rest := .of_subset (List.subset_cons_self _ _) hone
        exact .char (by simp [hq, hb, hfeed]) (ih _ (by simp) hi hrest h rfl)
      | @escape c rest hi =>
        have hstart := h _ (by rw [Literal.escapes]; exact List.mem_cons_self)
        obtain ⟨behind, hbehind⟩ := Option.isSome_iff_exists.1 hstart
        rw [escapes_of_afterEscape? hbehind] at h
        have hinner := inner_of_afterEscape? (.escape c hi) hbehind
        obtain ⟨d, digits, heq, -⟩ := exists_digits_of_afterEscape? hbehind
        obtain ⟨-, heq⟩ := List.cons.inj heq
        obtain ⟨rfl, rfl⟩ := List.cons.inj heq
        refine .escape hbehind (ih _ ?_ hinner ?_ (List.forall_mem_cons.1 h).2 rfl)
        · simp only [List.length_cons, List.length_append]
          omega
        · refine .of_subset ?_ hone
          exact List.subset_cons_of_subset _ (List.subset_cons_of_subset _
            (List.subset_append_right _ _))

theorem isLiteral_of_numeric? {type : Primitive} (hn : Literal.numeric? t = some type)
    (hv : type = .int → (Literal.intValue? t).isSome) : IsLiteral type t := by
  unfold Literal.numeric? at hn
  split at hn
  · next whole fraction hcut =>
    obtain ⟨rfl, -⟩ := Text.eq_append_of_cut? hcut
    split at hn
    · next hnumber =>
      cases hn
      simp only [Bool.and_eq_true] at hnumber
      obtain ⟨n, hwhole, -⟩ := Literal.eq_ofNat_of_isPlainWhole hnumber.1.1 hnumber.2
      exact ⟨n, fraction, by rw [hwhole], hnumber.1.2⟩
    · cases hn
  · split at hn
    · next hnumber =>
      cases hn
      simp only [Bool.and_eq_true] at hnumber
      obtain ⟨n, hdigits, hvalue⟩ := Literal.eq_ofNat_of_isPlainWhole hnumber.1 hnumber.2
      refine ⟨n, ?_, hdigits⟩
      have hfits := hv rfl
      have hbound : Literal.maxInt + 1 = Text.signBound := rfl
      rw [Literal.intValue?, Text.toNatBelow?, hvalue, hbound] at hfits
      simpa [Option.filter] using hfits
    · cases hn

theorem isRune_of_isByte (h : Literal.isByte t) (hone : t.IsOneLine) : IsRune t := by
  unfold Literal.isByte at h
  split at h
  · next first mark c last =>
    simp only [Bool.and_eq_true, beq_iff_eq, decide_eq_true_eq] at h
    obtain ⟨⟨⟨rfl, rfl⟩, rfl⟩, hc⟩ := h
    have hall : ∀ c ∈ Literal.byteEscapes, c ∈ '\'' :: escapeLetters := by decide
    exact .escape (hall c hc)
  · next first c last =>
    simp only [Bool.and_eq_true, beq_iff_eq, decide_eq_true_eq, bne_iff_ne] at h
    obtain ⟨⟨⟨⟨rfl, rfl⟩, hascii⟩, hquote⟩, hback⟩ := h
    have hfeed : c ≠ '\n' := fun heq => hone (by simp [heq])
    exact .char hascii (by simp [hquote, hback, hfeed])
  · cases h

/-- A literal token of one line is a Go literal of its type; a string is one if the backslashes in it
start escapes of Go. -/
theorem isLiteral_of_token {type : Primitive} (hshape : Token.Shape t) (hone : t.IsOneLine)
    (h : Expression.IsLiteral t type) :
    (type ≠ .string → IsLiteral type t) ∧
      (type = .string → ∃ body, t = '"' :: (body ++ ['"']) ∧ Literal.Inner '"' body ∧
        (IsLiteral .string t ↔ ∀ tail ∈ Literal.escapes body, (afterEscape? tail).isSome)) := by
  cases type with
  | int => exact ⟨fun _ => isLiteral_of_numeric? h.1 fun _ => h.2, nofun⟩
  | float => exact ⟨fun _ => isLiteral_of_numeric? h nofun, nofun⟩
  | bool => exact ⟨fun _ => h, nofun⟩
  | byte => exact ⟨fun _ => isRune_of_isByte h hone, nofun⟩
  | io => cases h
  | string =>
    refine ⟨fun hne => absurd rfl hne, fun _ => ?_⟩
    obtain ⟨body, rfl, hinner⟩ : ∃ body, t = '"' :: (body ++ ['"']) ∧ Literal.Inner '"' body := by
      cases hshape with
      | literal hq hl =>
        obtain ⟨body, rfl, hinner⟩ := Literal.exists_inner_of_literal? hl
        obtain rfl := show _ = '"' from h
        exact ⟨body, rfl, hinner⟩
      | operator op => cases op <;> cases h
      | bracket hc =>
        obtain rfl := show _ = '"' from h
        exact absurd hc (by decide)
      | word hc =>
        obtain rfl := show _ = '"' from h
        cases hc
    refine ⟨body, rfl, hinner, ?_⟩
    have hbody : Text.IsOneLine body :=
      .of_subset (List.subset_cons_of_subset _ (List.subset_append_left _ _)) hone
    rw [← isStringBody_iff hinner hbody]
    constructor
    · rintro ⟨other, heq, hother⟩
      obtain rfl := List.append_cancel_right (List.cons.inj heq).2
      exact hother
    · exact fun hb => ⟨body, rfl, hb⟩

end Go

/-! ### Accepted files -/

namespace Program

/-- A literal of an accepted file, in whatever statement and as deep in its expressions as it stands, is
as it is written a Go literal of its type; a string is one if and only if each backslash in it that
escapes the character behind it starts an escape of Go. -/
theorem isLiteral_of_read {source text : Text} {p : Program} {s : Statement} {x : Piece}
    {e : Expression} {type : Primitive} (h : Program.read source = .ok p)
    (hs : s ∈ p.body.statements) (hx : s.Holds x) (he : Piece.Inside x (.expression e))
    (ht : .literal text type ∈ e.terms) :
    (type ≠ .string → Go.IsLiteral type text) ∧
      (type = .string → ∃ body, text = '"' :: (body ++ ['"']) ∧ Literal.Inner '"' body ∧
        (Go.IsLiteral .string text ↔
          ∀ tail ∈ Literal.escapes body, (Go.afterEscape? tail).isSome)) := by
  obtain ⟨line, hline, symbols, part, hpart, hread⟩ := isSpelled_of_read h s hs x hx
  obtain ⟨inner, hinner, hexpression⟩ := Piece.isRead_of_inside he hread
  obtain ⟨tokens, hscan, -, -, hterms, -⟩ := Expression.expression_eq_ok_iff.1 hexpression
  obtain ⟨token, hmem, hterm⟩ := exists_of_mem_forall₂ hterms ht
  have hone : line.text.IsOneLine := by
    have htext := List.mem_map_of_mem (f := Line.text) hline
    rw [Text.map_text_numberedLines] at htext
    obtain ⟨l, hl, heq⟩ := List.mem_map.1 htext
    rw [← heq]
    exact .of_subset (Text.trim_subset l) (Text.isOneLine_of_mem_lines hl)
  cases Expression.readsTerm_of_term hterm with
  | literal _ hl =>
    have hsub := Token.subset_of_mem_scanInside hscan text hmem
    exact Go.isLiteral_of_token (Token.shape_of_mem_scanInside hscan text hmem)
      (.of_subset (List.Subset.trans hsub (List.Subset.trans hinner hpart)) hone) hl

/-- The literal that a file of one function prints. -/
def printed? (p : Program) : Option (Text × Primitive) :=
  match p.body.statements with
  | [.function _ ⟨_, _, _, [.builtin _ ⟨[.literal text type], _⟩, .closer]⟩] => some (text, type)
  | _ => none

theorem exists_holds_of_printed? {source text : Text} {type : Primitive}
    (h : (Program.read source).toOption.bind printed? = some (text, type)) :
    ∃ p s e, Program.read source = .ok p ∧ s ∈ p.body.statements ∧ s.Holds (.expression e) ∧
      .literal text type ∈ e.terms := by
  obtain ⟨p, hp, hprinted⟩ := Option.bind_eq_some_iff.1 h
  refine ⟨p, ?_⟩
  unfold printed? at hprinted
  split at hprinted
  · next hstatements =>
    cases hprinted
    rw [hstatements]
    exact ⟨_, _, Check.toOption_eq_some_iff.1 hp, List.mem_cons_self,
      .function List.mem_cons_self (.here List.mem_cons_self), List.mem_cons_self⟩
  · cases hprinted

theorem isLiteral_of_read_print :
    ∃ (p : Program) (s : Statement) (e : Expression) (text body : Text),
      Program.read (Text.block "function main() -> IO ="
        ["println!(\"\\\\x\\u00e9\\q\")".toList]) = .ok p ∧
      s ∈ p.body.statements ∧ s.Holds (.expression e) ∧ .literal text .string ∈ e.terms ∧
      text = '"' :: (body ++ ['"']) ∧ Literal.Inner '"' body ∧
      (Go.IsLiteral .string text ↔ ∀ tail ∈ Literal.escapes body, (Go.afterEscape? tail).isSome) := by
  have hprinted : (Program.read (Text.block "function main() -> IO ="
      ["println!(\"\\\\x\\u00e9\\q\")".toList])).toOption.bind printed? =
        some ("\"\\\\x\\u00e9\\q\"".toList, .string) := by
    decide +kernel
  obtain ⟨p, s, e, hread, hs, hx, ht⟩ := exists_holds_of_printed? hprinted
  obtain ⟨body, hbody⟩ := (isLiteral_of_read hread hs hx .refl ht).2 rfl
  exact ⟨p, s, e, _, body, hread, hs, hx, ht, hbody⟩

/-- A string with an escape that Go does not have is accepted. -/
theorem unknown_escape_accepted :
    ∃ (p : Program) (s : Statement) (e : Expression),
      Program.read (Text.block "function main() -> IO =" ["println!(\"\\q\")".toList]) = .ok p ∧
      s ∈ p.body.statements ∧ s.Holds (.expression e) ∧ .literal "\"\\q\"".toList .string ∈ e.terms ∧
      ¬ Go.IsLiteral .string "\"\\q\"".toList := by
  have hprinted : (Program.read (Text.block "function main() -> IO ="
      ["println!(\"\\q\")".toList])).toOption.bind printed? =
        some ("\"\\q\"".toList, .string) := by
    decide +kernel
  obtain ⟨p, s, e, hread, hs, hx, ht⟩ := exists_holds_of_printed? hprinted
  refine ⟨p, s, e, hread, hs, hx, ht, ?_⟩
  rintro ⟨body, heq, hbody⟩
  obtain rfl : ['\\', 'q'] = body := List.append_cancel_right (List.cons.inj heq).2
  have hescapes := (Go.isStringBody_iff (.escape 'q' .nil) (by decide)).1 hbody
  exact absurd (hescapes ['\\', 'q'] List.mem_cons_self) (by decide)

end Program

end StellaGo
