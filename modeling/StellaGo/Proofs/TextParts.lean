import Mathlib.Data.List.Basic
import Mathlib.Data.List.DropRight
import Mathlib.Data.List.TakeWhile
import StellaGo.Statement.Header
import StellaGo.Token

/-! Parts of a text. Proved: where a text is stripped, trimmed or cut, it is made up of the parts;
and what is read off brackets and the tokens have no other characters than those of the text. -/

namespace StellaGo.Text

variable {t : Text}

/-! ### Properties of characters -/

section Decidable

variable {P : Char → Prop} [DecidablePred P]

-- what is asked of the characters of a text is not looked for among all characters

instance decidableForallMem (t : Text) : Decidable (∀ c ∈ t, P c) := List.decidableBAll P t

instance decidableExistsMem (t : Text) : Decidable (∃ c ∈ t, P c) := List.decidableBEx P t

end Decidable

/-! ### Stripping and trimming -/

theorem after?_eq_some_iff {start : String} {rest : Text} :
    t.after? start = some rest ↔ t = start.toList ++ rest := by
  rw [after?, List.isPrefixOf?_eq_some_iff_append_eq]
  exact eq_comm

theorem before?_eq_some_iff {stop : Char} {front : Text} :
    t.before? stop = some front ↔ t = front ++ [stop] := by
  rw [before?]
  constructor
  · intro h
    split at h
    · next hlast =>
      obtain ⟨init, rfl⟩ := List.getLast?_eq_some_iff.1 hlast
      rw [List.dropLast_concat] at h
      cases h
      rfl
    · cases h
  · rintro rfl
    rw [List.getLast?_concat, if_pos rfl, List.dropLast_concat]

/-- A text is its trimmed text between blanks. -/
theorem exists_blanks_around_trim (t : Text) :
    ∃ before behind, t = before ++ (t.trim ++ behind) ∧ (∀ c ∈ before, isBlank c) ∧
      ∀ c ∈ behind, isBlank c := by
  refine ⟨t.takeWhile isBlank, (t.trimStart.reverse.takeWhile isBlank).reverse, ?_, ?_, ?_⟩
  · rw [trim, trimEnd, ← List.reverse_append, List.takeWhile_append_dropWhile, List.reverse_reverse,
      trimStart, List.takeWhile_append_dropWhile]
  · exact fun c hc => List.mem_takeWhile_imp hc
  · exact fun c hc => List.mem_takeWhile_imp (List.mem_reverse.1 hc)

theorem trimStart_trim (t : Text) : trimStart t.trim = t.trim := by
  cases htrim : t.trim with
  | nil => rfl
  | cons c rest =>
    have hstart := List.takeWhile_append_dropWhile (p := isBlank) (l := t.trimStart.reverse)
    have hfront : t.trimStart = c :: (rest ++ (t.trimStart.reverse.takeWhile isBlank).reverse) := by
      rw [← List.cons_append, ← htrim, trim, trimEnd, ← List.reverse_append, hstart,
        List.reverse_reverse]
    have hhead := List.head?_dropWhile_not isBlank t
    rw [trimStart] at hfront
    rw [hfront] at hhead
    exact List.dropWhile_cons_of_neg (by simpa using hhead)

theorem trim_trim (t : Text) : Text.trim t.trim = t.trim := by
  rw [trim, trimStart_trim, trim, trimEnd, trimEnd, List.reverse_reverse,
    List.dropWhile_idempotent]

theorem trim_subset (t : Text) : t.trim ⊆ t := by
  obtain ⟨before, behind, ht, -⟩ := exists_blanks_around_trim t
  intro c hc
  rw [ht]
  exact List.mem_append_right _ (List.mem_append_left _ hc)

theorem eq_append_of_cut? {c : Char} {front rest : Text} (h : t.cut? c = some (front, rest)) :
    t = front ++ c :: rest ∧ c ∉ front := by
  unfold cut? at h
  split at h
  · cases h
  next d more hd =>
  cases h
  have hhead : d = c := by
    have hd' := List.head?_dropWhile_not (· != c) t
    rw [hd] at hd'
    simpa using hd'
  constructor
  · conv_lhs => rw [← List.takeWhile_append_dropWhile (p := (· != c)) (l := t), hd, hhead]
  · intro hc
    simpa using List.mem_takeWhile_imp hc

/-! ### Brackets -/

end StellaGo.Text

namespace StellaGo.Glyph

theorem subset_of_mem_pieces {sep : Char} {depth : Int} {gs : List Glyph} {piece : Text}
    (h : piece ∈ pieces sep depth gs) : piece ⊆ gs.map char := by
  induction gs generalizing depth piece with
  | nil =>
    rw [pieces, List.mem_singleton] at h
    subst h
    exact List.nil_subset _
  | cons g rest ih =>
    unfold pieces at h
    split at h
    · rcases List.mem_cons.1 h with rfl | h
      · exact List.nil_subset _
      · exact List.subset_cons_of_subset _ (ih h)
    · cases hp : pieces sep (g.depthAfter depth) rest with
      | nil =>
        rw [hp] at h
        cases h
      | cons first others =>
        rw [hp, List.modifyHead_cons] at h
        rcases List.mem_cons.1 h with rfl | h
        · exact List.cons_subset_cons _ (ih (hp ▸ List.mem_cons_self))
        · exact List.subset_cons_of_subset _ (ih (hp ▸ List.mem_cons_of_mem _ h))

theorem subset_of_mem_squareInsides? {gs : List Glyph} {insides : List Text}
    (h : squareInsides? gs = some insides) : ∀ inside ∈ insides, inside ⊆ gs.map char := by
  fun_induction squareInsides? gs generalizing insides with
  | case1 =>
    cases h
    exact fun inside hi => absurd hi List.not_mem_nil
  | case2 g rest _ k _ ih =>
    obtain ⟨others, ho, rfl⟩ := Option.map_eq_some_iff.1 h
    intro inside hi
    rw [List.map_cons]
    refine List.subset_cons_of_subset _ ?_
    rcases List.mem_cons.1 hi with rfl | hm
    · exact List.map_subset _ (List.take_subset _ _)
    · exact List.Subset.trans (ih ho inside hm) (List.map_subset _ (List.drop_subset _ _))
  | case3 | case4 => cases h

end StellaGo.Glyph

namespace StellaGo.Text

variable {t : Text}

theorem inside?_subset {inner : Text} {start : Nat} (h : t.inside? start = some inner) :
    inner ⊆ t := by
  unfold inside? at h
  split at h
  · cases h
    exact List.Subset.trans (List.dropLast_subset _) (List.drop_subset _ _)
  · cases h

theorem subset_of_mem_topLevelParts {part : Text} {sep : Char} (h : part ∈ t.topLevelParts sep) :
    part ⊆ t := by
  unfold topLevelParts at h
  split at h
  · cases h
  · obtain ⟨piece, hp, rfl⟩ := List.mem_map.1 h
    have hsub := Glyph.subset_of_mem_pieces hp
    rw [Glyph.map_char_ofText] at hsub
    exact List.Subset.trans (trim_subset piece) hsub

theorem subset_of_mem_indices? {start : Nat} {indices : List Text}
    (h : t.indices? start = some indices) : ∀ index ∈ indices, index ⊆ t := by
  intro index hi
  have hsub := Glyph.subset_of_mem_squareInsides? h index hi
  rw [List.map_drop, Glyph.map_char_ofText] at hsub
  exact List.Subset.trans hsub (List.drop_subset _ _)

end StellaGo.Text

/-! ### Tokens -/

namespace StellaGo.Token

theorem subset_of_mem_scanInside {t : Text} {stack : List Bracket} {tokens : List Text}
    (h : scanInside stack t = .ok tokens) : ∀ token ∈ tokens, token ⊆ t := by
  fun_induction scanInside stack t generalizing tokens with
  | case1 =>
    cases h
    exact fun token ht => absurd ht List.not_mem_nil
  | case2 | case3 | case6 | case9 | case10 | case13 => cases h
  | case4 stack c rest _ _ body more hl ih =>
    obtain ⟨ts, hts, rfl⟩ := Check.map_eq_ok_iff.1 h
    rw [← append_of_literal? hl]
    intro token ht
    rcases List.mem_cons.1 ht with rfl | ht
    · exact List.cons_subset_cons _ (List.subset_append_left _ _)
    · exact List.subset_cons_of_subset _ (List.subset_append_of_subset_right _ (ih hts token ht))
  | case5 stack c rest _ _ _ ih =>
    exact fun token ht => List.subset_cons_of_subset _ (ih h token ht)
  | case7 stack c rest _ _ _ _ op more hr ih =>
    obtain ⟨ts, hts, rfl⟩ := Check.map_eq_ok_iff.1 h
    rw [← Operator.append_of_read? hr]
    intro token ht
    rcases List.mem_cons.1 ht with rfl | ht
    · exact List.subset_append_left _ _
    · exact List.subset_append_of_subset_right _ (ih hts token ht)
  | case8 c rest _ _ _ _ b below hb ih | case11 stack c rest _ hb ih | case12 stack c rest _ hb ih =>
    obtain ⟨ts, hts, rfl⟩ := Check.map_eq_ok_iff.1 h
    intro token ht
    rcases List.mem_cons.1 ht with rfl | ht
    · exact List.cons_subset_cons _ (List.nil_subset _)
    · exact List.subset_cons_of_subset _ (ih hts token ht)
  | case14 stack c rest _ w more hw _ _ ih =>
    obtain ⟨ts, hts, rfl⟩ := Check.map_eq_ok_iff.1 h
    rw [← append_of_word hw]
    intro token ht
    rcases List.mem_cons.1 ht with rfl | ht
    · exact List.subset_append_left _ _
    · exact List.subset_append_of_subset_right _ (ih hts token ht)

end StellaGo.Token

/-! ### Headers -/

namespace StellaGo

theorem Text.afterSpaces?_eq_some {t rest : Text} (h : t.afterSpaces? = some rest) :
    ∃ spaces, t = spaces ++ rest ∧ spaces ≠ [] ∧ ∀ c ∈ spaces, isSpace c := by
  unfold afterSpaces? at h
  split at h
  · next hhead =>
    cases h
    refine ⟨t.takeWhile isSpace, List.takeWhile_append_dropWhile.symm, ?_,
      fun c hc => List.mem_takeWhile_imp hc⟩
    cases t with
    | nil => cases hhead
    | cons c rest => simpa using hhead
  · cases h

theorem Text.betweenKeywordAndBrace?_eq_some {keyword : String} {header inner : Text}
    (h : betweenKeywordAndBrace? keyword header = some inner) :
    ∃ between, header = keyword.toList ++ between ++ ['{'] ∧ inner = Text.trim between := by
  obtain ⟨rest, hrest, h⟩ := Option.bind_eq_some_iff.1 h
  obtain ⟨between, hbetween, h⟩ := Option.bind_eq_some_iff.1 h
  split at h
  · cases h
  · cases h
    refine ⟨between, ?_, rfl⟩
    rw [after?_eq_some_iff.1 hrest, before?_eq_some_iff.1 hbetween, List.append_assoc]

theorem Text.subset_of_betweenKeywordAndBrace? {keyword : String} {header inner : Text}
    (h : betweenKeywordAndBrace? keyword header = some inner) : inner ⊆ header := by
  obtain ⟨between, rfl, rfl⟩ := betweenKeywordAndBrace?_eq_some h
  refine List.Subset.trans (trim_subset between) ?_
  exact List.subset_append_of_subset_left _ (List.subset_append_right _ _)

/-- What stands between `let` and the name: spaces and tabs, and `mut` with more of them. -/
theorem LetHeader.exists_front {rest : Text} {marked? : Option Text}
    (h : (Text.after? "mut" rest).bind Text.afterSpaces? = marked?) :
    ∃ front, rest = front ++ marked?.getD rest ∧
      (marked?.isSome → ∃ spaces, front = "mut".toList ++ spaces ∧ spaces ≠ [] ∧
        ∀ c ∈ spaces, isSpace c) ∧ (marked? = none → front = []) := by
  cases marked? with
  | none => exact ⟨[], rfl, nofun, fun _ => rfl⟩
  | some marked =>
    obtain ⟨afterMut, hmut, hspaces⟩ := Option.bind_eq_some_iff.1 h
    obtain ⟨spaces, rfl, hne, hall⟩ := Text.afterSpaces?_eq_some hspaces
    refine ⟨"mut".toList ++ spaces, ?_, fun _ => ⟨spaces, rfl, hne, hall⟩, nofun⟩
    rw [Text.after?_eq_some_iff.1 hmut, List.append_assoc]
    rfl

/-- The words of a declaration, with spaces and tabs between them. -/
theorem LetHeader.read?_eq_some {line : Text} {header : LetHeader} (h : read? line = some header) :
    ∃ first front third fourth written,
      line = "let".toList ++ first ++ front ++ header.name ++ third ++ ':' :: fourth ++ written ++
          '=' :: header.value ∧
        header.type = Text.trim written ∧ first ≠ [] ∧ (∀ c ∈ first ++ third ++ fourth, isSpace c) ∧
        (header.isMutable → ∃ spaces, front = "mut".toList ++ spaces ∧ spaces ≠ [] ∧
          ∀ c ∈ spaces, isSpace c) ∧ (header.isMutable = false → front = []) := by
  obtain ⟨afterLet, hlet, h⟩ := Option.bind_eq_some_iff.1 h
  obtain ⟨rest, hrest, h⟩ := Option.bind_eq_some_iff.1 h
  dsimp only at h
  generalize hmarked? : (Text.after? "mut" rest).bind Text.afterSpaces? = marked? at h
  obtain ⟨front, hfront, hmarked, hplain⟩ := exists_front hmarked?
  generalize marked?.getD rest = named at h hfront
  obtain ⟨afterColon, hcolon, h⟩ := Option.bind_eq_some_iff.1 h
  obtain ⟨⟨written, value⟩, hcut, h⟩ := Option.bind_eq_some_iff.1 h
  dsimp only at h
  split at h
  · cases h
  cases h
  obtain ⟨first, rfl, hfirst, hfirst'⟩ := Text.afterSpaces?_eq_some hrest
  rw [Text.after?_eq_some_iff] at hlet hcolon
  let inName := fun c : Char => c != ':' && !isBlank c
  let third := (named.dropWhile inName).takeWhile isSpace
  let fourth := afterColon.takeWhile isSpace
  refine ⟨first, front, third, fourth, written, ?_, rfl, hfirst, ?_, hmarked, fun hnone => ?_⟩
  · have hname : named = named.takeWhile inName ++ (third ++ ':' :: afterColon) := by
      have hcolon' : ':' :: afterColon = (named.dropWhile inName).dropWhile isSpace := hcolon.symm
      rw [hcolon', List.takeWhile_append_dropWhile, List.takeWhile_append_dropWhile]
    have hwritten : afterColon = fourth ++ (written ++ '=' :: value) := by
      rw [← (Text.eq_append_of_cut? hcut).1, List.takeWhile_append_dropWhile]
    rw [hlet, hfront, hname]
    conv_lhs => rw [hwritten]
    simp only [List.append_assoc, List.cons_append]
    rw [← hname]
  · intro c hc
    rcases List.mem_append.1 hc with hc | hc
    · exact (List.mem_append.1 hc).elim (hfirst' c) fun hc => List.mem_takeWhile_imp hc
    · exact List.mem_takeWhile_imp hc
  · exact hplain (Option.not_isSome_iff_eq_none.1 (Bool.not_eq_true _ ▸ hnone))

theorem LetHeader.value_subset {line : Text} {header : LetHeader} (h : read? line = some header) :
    header.value ⊆ line := by
  obtain ⟨first, front, third, fourth, written, rfl, -⟩ := read?_eq_some h
  exact List.subset_append_of_subset_right _ (List.subset_cons_self _ _)

/-- What stands behind the arrow of a function header: a type, and the brace that opens the body. -/
theorem FunctionHeader.readReturns?_eq_some {t returns : Text} (h : readReturns? t = some returns) :
    ∃ first second written third fourth,
      t = first ++ "->".toList ++ second ++ written ++ '=' :: third ++ '{' :: fourth ∧
        returns = Text.trim written ∧ ∀ c ∈ first ++ second ++ third ++ fourth, isSpace c := by
  obtain ⟨afterArrow, harrow, h⟩ := Option.bind_eq_some_iff.1 h
  obtain ⟨⟨written, afterEquals⟩, hcut, h⟩ := Option.bind_eq_some_iff.1 h
  obtain ⟨fourth, hbrace, h⟩ := Option.bind_eq_some_iff.1 h
  split at h
  · cases h
  next hspaces =>
  cases h
  rw [Text.after?_eq_some_iff] at harrow hbrace
  refine ⟨t.takeWhile isSpace, afterArrow.takeWhile isSpace, written,
    afterEquals.takeWhile isSpace, fourth, ?_, rfl, ?_⟩
  · have hthird : afterEquals = afterEquals.takeWhile isSpace ++ '{' :: fourth := by
      conv_lhs => rw [← List.takeWhile_append_dropWhile (p := isSpace) (l := afterEquals), hbrace]
      rfl
    have hsecond : afterArrow = afterArrow.takeWhile isSpace ++ (written ++ '=' :: afterEquals) := by
      rw [← (Text.eq_append_of_cut? hcut).1, List.takeWhile_append_dropWhile]
    have hfirst : t = t.takeWhile isSpace ++ ("->".toList ++ afterArrow) := by
      rw [← harrow, List.takeWhile_append_dropWhile]
    rw [hthird] at hsecond
    rw [hsecond] at hfirst
    simpa only [List.append_assoc, List.cons_append] using hfirst
  · intro c hc
    simp only [List.mem_append] at hc
    rcases hc with ((hc | hc) | hc) | hc
    · exact List.mem_takeWhile_imp hc
    · exact List.mem_takeWhile_imp hc
    · exact List.mem_takeWhile_imp hc
    · by_contra hspace
      exact hspaces (.inr (List.any_eq_true.2 ⟨c, hc, by simpa using hspace⟩))

/-- The words of a function header, and the brackets around its parameters. -/
theorem FunctionHeader.read?_eq_some {line : Text} {header : FunctionHeader}
    (h : read? line = some header) :
    ∃ first blanks rest close,
      line = "function".toList ++ first ++ header.name ++ blanks ++ '(' :: rest ∧
        (∀ c ∈ first, isSpace c) ∧ (∀ c ∈ blanks, isBlank c) ∧
        Text.closerFrom? ('(' :: rest) 0 = some close ∧
        header.parameters = (('(' :: rest).take close).tail ∧
        readReturns? (('(' :: rest).drop (close + 1)) = some header.returns := by
  obtain ⟨afterFunction, hfunction, h⟩ := Option.bind_eq_some_iff.1 h
  obtain ⟨named, hnamed, h⟩ := Option.bind_eq_some_iff.1 h
  dsimp only at h
  split at h
  · cases h
  next hparts =>
  obtain ⟨close, hclose, h⟩ := Option.bind_eq_some_iff.1 h
  obtain ⟨returns, hreturns, h⟩ := Option.bind_eq_some_iff.1 h
  cases h
  obtain ⟨first, rfl, -, hfirst⟩ := Text.afterSpaces?_eq_some hnamed
  rw [Text.after?_eq_some_iff] at hfunction
  let inName := fun c : Char => c != '(' && !isBlank c
  have hbracket : (Text.trimStart (named.dropWhile inName)).head? = some '(' :=
    not_not.1 (not_or.1 hparts).2
  obtain ⟨rest, hrest⟩ := List.head?_eq_some_iff.1 hbracket
  have hblanks : named.dropWhile inName =
      (named.dropWhile inName).takeWhile isBlank ++ '(' :: rest := by
    rw [← hrest, Text.trimStart, List.takeWhile_append_dropWhile]
  refine ⟨first, (named.dropWhile inName).takeWhile isBlank, rest, close, ?_, hfirst,
    fun c hc => List.mem_takeWhile_imp hc, hrest ▸ hclose, ?_, hrest ▸ hreturns⟩
  · have hname : named = named.takeWhile inName ++ named.dropWhile inName :=
      List.takeWhile_append_dropWhile.symm
    rw [hblanks] at hname
    rw [hfunction]
    simp only [List.append_assoc]
    exact congrArg (fun rest => "function".toList ++ (first ++ rest)) hname
  · exact congrArg (fun text : Text => (text.take close).tail) hrest

/-- A name has letters, digits and `_` only. -/
theorem Name.read?_eq_some {t name rest : Text} (h : read? t = some (name, rest)) :
    t = name ++ rest ∧ ∀ c ∈ name, c.isAlphanum || c == '_' := by
  cases t with
  | nil => cases h
  | cons c more =>
    rw [read?] at h
    split at h
    · next halpha =>
      cases h
      refine ⟨by rw [List.cons_append, List.takeWhile_append_dropWhile], ?_⟩
      have hmore := List.all_eq_true.1 (List.all_takeWhile
        (p := fun d : Char => d.isAlphanum || d == '_') (l := more))
      refine List.forall_mem_cons.2 ⟨?_, hmore⟩
      rw [Char.isAlphanum, halpha]
      rfl
    · cases h

theorem Name.subset_of_read? {t name rest : Text} (h : read? t = some (name, rest)) :
    rest ⊆ t := by
  rw [(read?_eq_some h).1]
  exact List.subset_append_right _ _

end StellaGo
