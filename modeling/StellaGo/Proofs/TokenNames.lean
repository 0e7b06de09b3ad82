import StellaGo.Proofs.GoLexer
import StellaGo.Proofs.TokenOrder

/-! Names in tokens. Defined here: what a token of an accepted text looks like, and glyphs that have
literals inside brackets only. Proved: the name in front of the brackets of a call or an indexing,
or in front of the point of a field access, ends outside literals, whatever characters the name has.
-/

namespace StellaGo

/-! ### Depth -/

namespace Glyph

/-- Literals stand inside brackets only, if `depth` brackets are open before the glyphs. -/
def Shelters : (depth : Int) → List Glyph → Prop
  | _, [] => True
  | depth, g :: rest => (∀ c, g = quoted c → 0 < depth) ∧ Shelters (g.depthAfter depth) rest

variable {depth : Int} {xs ys : List Glyph}

theorem shelters_append :
    Shelters depth (xs ++ ys) ↔ Shelters depth xs ∧ Shelters (xs.foldl depthAfter depth) ys := by
  induction xs generalizing depth with
  | nil => exact (iff_of_eq (true_and _)).symm
  | cons g rest ih => rw [List.cons_append, Shelters, Shelters, ih, and_assoc, List.foldl_cons]

theorem foldl_depthAfter_map_quoted (t : Text) : (t.map quoted).foldl depthAfter depth = depth := by
  induction t with
  | nil => rfl
  | cons c rest ih => exact ih

theorem shelters_map_quoted (hd : 0 < depth) (t : Text) : Shelters depth (t.map quoted) := by
  induction t with
  | nil => trivial
  | cons c rest ih => exact ⟨fun _ _ => hd, ih⟩

theorem shelters_code {c : Char} (h : Shelters ((code c).depthAfter depth) xs) :
    Shelters depth (code c :: xs) := ⟨nofun, h⟩

theorem foldl_depthAfter_add (depth : Int) (gs : List Glyph) :
    gs.foldl depthAfter depth = depth + gs.foldl depthAfter 0 := by
  induction gs generalizing depth with
  | nil => rw [List.foldl_nil, List.foldl_nil, Int.add_zero]
  | cons g rest ih =>
    rw [List.foldl_cons, List.foldl_cons, ih, ih (g.depthAfter 0)]
    cases g with
    | quoted c => rw [depthAfter, depthAfter, Int.zero_add]
    | code c =>
      rw [depthAfter, depthAfter]
      split
      · omega
      · split <;> omega

/-- Behind the bracket that closes the first one there are none open. -/
theorem foldl_depthAfter_of_closing {n k : Nat} {gs : List Glyph} (h : closing n gs = some k) :
    (gs.take (k + 1)).foldl depthAfter n = 0 := by
  fun_induction closing n gs generalizing k with
  | case1 => cases h
  | case2 n c rest ih =>
    obtain ⟨i, hi, rfl⟩ := Option.map_eq_some_iff.1 h
    exact ih hi
  | case3 n c rest ho ih =>
    obtain ⟨i, hi, rfl⟩ := Option.map_eq_some_iff.1 h
    rw [List.take_succ_cons, List.foldl_cons, depthAfter, if_pos ho]
    exact ih hi
  | case4 => cases h
  | case5 c rest ho hc =>
    cases h
    rw [List.take_succ_cons, List.take_zero, List.foldl_cons, depthAfter, if_neg ho, if_pos hc]
    rfl
  | case6 c rest ho hc deeper hdeeper ih =>
    obtain ⟨i, hi, rfl⟩ := Option.map_eq_some_iff.1 h
    rw [List.take_succ_cons, List.foldl_cons, depthAfter, if_neg ho, if_pos hc]
    rw [show (deeper.succ : Int) - 1 = deeper by omega]
    exact ih hi
  | case7 n c rest ho hc ih =>
    obtain ⟨i, hi, rfl⟩ := Option.map_eq_some_iff.1 h
    rw [List.take_succ_cons, List.foldl_cons, depthAfter, if_neg ho, if_neg hc]
    exact ih hi

/-- Square groups that follow each other close what they open. -/
theorem foldl_depthAfter_of_squareInsides? {gs : List Glyph} {insides : List Text}
    (h : squareInsides? gs = some insides) : gs.foldl depthAfter 0 = 0 := by
  fun_induction squareInsides? gs generalizing insides with
  | case1 => rfl
  | case2 g rest _ k hk ih =>
    obtain ⟨others, hothers, -⟩ := Option.map_eq_some_iff.1 h
    have hfront : ((g :: rest).take (k + 1)).foldl depthAfter 0 = 0 := foldl_depthAfter_of_closing hk
    rw [← List.take_append_drop (k + 1) (g :: rest), List.foldl_append, hfront,
      List.drop_succ_cons]
    exact ih hothers
  | case3 | case4 => cases h

theorem closing_map_quoted (n : Nat) (t : Text) : closing n (t.map quoted) = none := by
  induction t with
  | nil => rfl
  | cons c rest ih => rw [List.map_cons, closing, ih, Option.map_none]

end Glyph

/-- Where no bracket is open, a text with literals inside brackets only is outside literals. -/
theorem Text.IsClosed.take_of_shelters {t : Text} {n : Nat} (hn : n < t.length)
    (hs : Glyph.Shelters 0 (Glyph.ofText t))
    (hd : ((Glyph.ofText t).take n).foldl Glyph.depthAfter 0 = 0) : Text.IsClosed (t.take n) := by
  have hlength : n < (Glyph.ofText t).length := by rwa [Glyph.length_ofText]
  have hsplit := (List.take_append_drop n (Glyph.ofText t)).symm
  rw [List.drop_eq_getElem_cons hlength] at hsplit
  have hnext := hs
  rw [hsplit, Glyph.shelters_append, hd] at hnext
  cases hg : (Glyph.ofText t)[n] with
  | quoted c => exact absurd (hnext.2.1 c hg) (by decide)
  | code c =>
    rw [hg] at hsplit
    obtain ⟨front, behind, rfl, -, hfront, -⟩ := Glyph.exists_append_of_read hsplit
    have hbefore : Glyph.ofText front = (Glyph.ofText (front ++ c :: behind)).take n := by
      have hnil := hfront []
      rwa [List.append_nil, Glyph.read, List.append_nil] at hnil
    have hcount : front.length = n := by
      rw [← Glyph.length_ofText, hbefore, List.length_take, Nat.min_eq_left (Nat.le_of_lt hlength)]
    rw [← hcount, List.take_left]
    intro rest
    rw [hbefore]
    exact hfront rest

/-! ### Tokens -/

namespace Token

theorem shelters_group {word t g after : Text} {stack : List Bracket} (hs : stack ≠ [])
    (h : group word stack t = .ok (g, after)) :
    Glyph.Shelters stack.length (Glyph.ofText g) := by
  fun_induction group word stack t generalizing g with
  | case1 | case2 | case5 | case8 => cases h
  | case3 stack c rest hq body more hl ih =>
    obtain ⟨⟨tail, behind⟩, ht, heq⟩ := Check.map_eq_ok_iff.1 h
    cases heq
    have hpos : 0 < (stack.length : Int) := by
      have := List.length_pos_iff.2 hs
      omega
    rw [Text.IsClosed.ofText_literal hq hl, Glyph.shelters_append,
      Glyph.foldl_depthAfter_map_quoted]
    exact ⟨Glyph.shelters_map_quoted hpos _, ih hs ht⟩
  | case4 stack c rest hq b hb ih =>
    obtain ⟨⟨tail, behind⟩, ht, heq⟩ := Check.map_eq_ok_iff.1 h
    cases heq
    have hopener : isOpener c := by rw [isOpener, hb]; rfl
    rw [Text.Pairs.ofText_cons hq]
    refine Glyph.shelters_code ?_
    rw [Glyph.depthAfter, if_pos hopener]
    exact ih (List.cons_ne_nil _ _) ht
  | case6 c rest hq b top hb ho hsame =>
    cases h
    rw [Text.Pairs.ofText_cons hq]
    exact Glyph.shelters_code trivial
  | case7 c rest hq b top below hb ho hsame hbelow ih =>
    obtain ⟨⟨tail, behind⟩, ht, heq⟩ := Check.map_eq_ok_iff.1 h
    cases heq
    have hopener : ¬ isOpener c := by rw [isOpener, ho]; decide
    have hcloser : isCloser c := by rw [isCloser, hb]; rfl
    have hdepth : (((top :: below).length : Nat) : Int) - 1 = below.length := by
      rw [List.length_cons]
      omega
    rw [Text.Pairs.ofText_cons hq]
    refine Glyph.shelters_code ?_
    rw [Glyph.depthAfter, if_neg hopener, if_pos hcloser, hdepth]
    exact ih hbelow ht
  | case9 stack c rest hq hc ho ih =>
    obtain ⟨⟨tail, behind⟩, ht, heq⟩ := Check.map_eq_ok_iff.1 h
    cases heq
    have hopener : ¬ isOpener c := by rw [isOpener, ho]; decide
    have hcloser : ¬ isCloser c := by rw [isCloser, hc]; decide
    rw [Text.Pairs.ofText_cons hq]
    refine Glyph.shelters_code ?_
    rw [Glyph.depthAfter, if_neg hopener, if_neg hcloser]
    exact ih hs ht

theorem shelters_word {whole t w after : Text} (h : word whole t = .ok (w, after)) :
    Glyph.Shelters 0 (Glyph.ofText w) := by
  fun_induction word whole t generalizing w with
  | case1 | case4 =>
    cases h
    trivial
  | case2 => cases h
  | case3 c rest b hb g more hg ih =>
    obtain ⟨⟨tail, behind⟩, ht, heq⟩ := Check.map_eq_ok_iff.1 h
    cases heq
    obtain rfl := Bracket.ofOpener?_eq_some_iff.1 hb
    have hpairs := Text.Pairs.group hg
    obtain ⟨pairs, hrun, -⟩ := hpairs.run
    have hdepth : (Glyph.ofText g).foldl Glyph.depthAfter 1 = 0 :=
      Glyph.foldl_depthAfter_of_pairs? hrun
    have hopener : isOpener b.opener := by cases b <;> rfl
    rw [Text.Pairs.ofText_opener, hpairs.ends]
    refine Glyph.shelters_code ?_
    rw [Glyph.depthAfter, if_pos hopener, Glyph.shelters_append]
    refine ⟨shelters_group (List.cons_ne_nil b []) hg, ?_⟩
    rw [Int.zero_add, hdepth]
    exact ih ht
  | case5 c rest ho hc ih =>
    obtain ⟨⟨tail, behind⟩, ht, heq⟩ := Check.map_eq_ok_iff.1 h
    cases heq
    obtain ⟨hq, hcloser, -, -⟩ := not_endsWord_iff.1 hc
    have hopener : ¬ isOpener c := by rw [isOpener, ho]; decide
    rw [Text.Pairs.ofText_cons hq]
    refine Glyph.shelters_code ?_
    rw [Glyph.depthAfter, if_neg hopener, if_neg hcloser]
    exact ih ht

/-- What a token of an accepted text looks like. -/
inductive Shape : Text → Prop
  | literal {quote : Char} {body rest more : Text} (hq : isQuote quote)
      (hl : literal? quote rest = some (body, more)) : Shape (quote :: body)
  | operator (op : Operator) : Shape op.symbol.toList
  | bracket {c : Char} (hc : isOpener c ∨ isCloser c) : Shape [c]
  | word {c : Char} {rest tail after : Text} (hc : endsWord c = false)
      (h : word (c :: rest) (c :: rest) = .ok (c :: tail, after)) : Shape (c :: tail)

theorem shape_of_mem_scanInside {t : Text} {stack : List Bracket} {tokens : List Text}
    (h : scanInside stack t = .ok tokens) : ∀ token ∈ tokens, Shape token := by
  fun_induction scanInside stack t generalizing tokens with
  | case1 => cases h; exact List.forall_mem_nil _
  | case2 | case3 | case6 | case9 | case10 | case13 => cases h
  | case4 stack c rest hc hq body more hl ih =>
    obtain ⟨ts, hts, rfl⟩ := Check.map_eq_ok_iff.1 h
    exact List.forall_mem_cons.2 ⟨.literal hq hl, ih hts⟩
  | case5 stack c rest hc hq hblank ih => exact ih h
  | case7 stack c rest _ _ _ _ op more hr ih =>
    obtain ⟨ts, hts, rfl⟩ := Check.map_eq_ok_iff.1 h
    exact List.forall_mem_cons.2 ⟨.operator op, ih hts⟩
  | case8 c rest _ _ _ _ b below hb ih =>
    obtain ⟨ts, hts, rfl⟩ := Check.map_eq_ok_iff.1 h
    have hcloser : isCloser c := by rw [isCloser, hb]; rfl
    exact List.forall_mem_cons.2 ⟨.bracket (.inr hcloser), ih hts⟩
  | case11 stack c rest _ hb ih | case12 stack c rest _ hb ih =>
    obtain ⟨ts, hts, rfl⟩ := Check.map_eq_ok_iff.1 h
    have hopener : isOpener c := by rw [isOpener, hb]; rfl
    exact List.forall_mem_cons.2 ⟨.bracket (.inl hopener), ih hts⟩
  | case14 stack c rest hc w more hw _ _ ih =>
    obtain ⟨ts, hts, rfl⟩ := Check.map_eq_ok_iff.1 h
    have hc : endsWord c = false := by simpa using hc
    obtain ⟨tail, rfl⟩ := exists_cons_of_word hc hw
    exact List.forall_mem_cons.2 ⟨.word hc hw, ih hts⟩

namespace Shape

variable {t : Text}

theorem isClosed (h : Shape t) : t.IsClosed := by
  cases h with
  | @literal quote body rest more hq hl =>
    have hclosed := (Text.IsClosed.literal_iff hq hl).2 Text.IsClosed.nil
    rwa [List.append_nil] at hclosed
  | operator op => exact .of_forall (by cases op <;> decide)
  | @bracket c hc =>
    have hbracket : ¬ isQuote c := by
      rw [isQuote_iff]
      rintro (rfl | rfl) <;> exact absurd hc (by decide)
    exact .of_forall (List.forall_mem_singleton.2 hbracket)
  | word hc h =>
    have hpairs : Text.Pairs [] [] True _ := Text.Pairs.word h
    exact hpairs.ends

/-- In front of brackets that close each other through the end, a token is outside literals. -/
theorem isClosed_take {n k : Nat} (h : Shape t)
    (hk : Glyph.closing 0 ((Glyph.ofText t).drop n) = some k)
    (hd : ((Glyph.ofText t).drop n).foldl Glyph.depthAfter 0 = 0) :
    Text.IsClosed (t.take n) := by
  have hplain (hall : ∀ c ∈ t, ¬ isQuote c) : Text.IsClosed (t.take n) :=
    .of_forall fun c hc => hall c (List.mem_of_mem_take hc)
  cases h with
  | @literal quote body rest more hq hl =>
    have hglyphs := Text.IsClosed.ofText_literal hq hl []
    have hnil : Glyph.ofText [] = [] := rfl
    rw [List.append_nil, hnil, List.append_nil] at hglyphs
    rw [hglyphs, ← List.map_drop, Glyph.closing_map_quoted] at hk
    cases hk
  | operator op => exact hplain (by cases op <;> decide)
  | @bracket c hc =>
    refine hplain (List.forall_mem_singleton.2 ?_)
    rw [isQuote_iff]
    rintro (rfl | rfl) <;> exact absurd hc (by decide)
  | word hc h =>
    have hn := Glyph.closing_lt_length hk
    rw [List.length_drop, Glyph.length_ofText] at hn
    have hpairs : Text.Pairs [] [] True _ := Text.Pairs.word h
    obtain ⟨pairs, hrun, -⟩ := hpairs.run
    have hwhole := Glyph.foldl_depthAfter_of_pairs? hrun
    rw [← List.take_append_drop n (Glyph.ofText _), List.foldl_append,
      Glyph.foldl_depthAfter_add, hd, Int.add_zero] at hwhole
    exact .take_of_shelters (by omega) (shelters_word h) hwhole

end Shape

end Token

theorem take_length_takeWhile {t : Text} (p : Char → Bool) :
    t.take (t.takeWhile p).length = t.takeWhile p :=
  (List.prefix_iff_eq_take.1 (List.takeWhile_prefix p)).symm

/-- The end of a text is outside literals if nothing but characters without quotes follows. -/
theorem Text.IsClosed.of_append {t u : Text} (h : IsClosed (t ++ u)) (hu : ∀ c ∈ u, ¬ isQuote c) :
    t.IsClosed := by
  match t with
  | [] => exact .nil
  | c :: rest =>
    by_cases hc : isQuote c
    · obtain ⟨body, more, hl⟩ := exists_literal hc h
      have happ := Token.append_of_literal? hl
      rcases List.append_eq_append_iff.1 happ with ⟨between, rfl, rfl⟩ | ⟨beyond, rfl, rfl⟩
      · rw [List.cons_append, List.append_assoc, literal_iff hc hl] at h
        exact (literal_iff hc hl).2 (h.of_append hu)
      · obtain ⟨front, hlast⟩ := Token.exists_of_literal? hl
        cases beyond with
        | nil =>
          rw [List.append_nil] at hl
          have hclosed := (literal_iff hc hl).2 .nil
          rwa [List.append_nil] at hclosed
        | cons d behind =>
          have hmem : c ∈ d :: behind := by
            have hend := congrArg List.getLast? hlast
            rw [List.getLast?_append_cons, List.getLast?_concat] at hend
            exact List.mem_of_getLast? hend
          exact absurd hc (hu c (List.mem_append_left _ hmem))
    · exact (cons_iff hc).2 (((cons_iff hc).1 h).of_append hu)
termination_by t.length

namespace Expression

open Token (Shape)

variable {symbols : Symbols} {token : Text}

/-! ### Names -/

theorem isClosed_name_of_call {c : Call} (ht : Shape token) (h : call symbols token = .ok c) :
    Text.IsClosed (token.takeWhile (· != '(')) := by
  obtain ⟨inner, signature, hinner, -⟩ := call_eq_ok h
  rw [Text.inside?] at hinner
  split at hinner
  case isFalse => cases hinner
  next hend =>
  obtain ⟨k, hk, hlength⟩ := Option.map_eq_some_iff.1 hend
  have hlt := Glyph.closing_lt_length hk
  rw [List.length_drop, Glyph.length_ofText] at hlt
  have hdepth := Glyph.foldl_depthAfter_of_closing hk
  rw [List.take_of_length_le (by rw [List.length_drop, Glyph.length_ofText]; omega)] at hdepth
  rw [← take_length_takeWhile]
  exact ht.isClosed_take hk hdepth

theorem isClosed_name_of_indexing {i : Indexing} (ht : Shape token)
    (h : indexing symbols token = .ok i) : Text.IsClosed (token.takeWhile (· != '[')) := by
  obtain ⟨texts, array, htexts, -⟩ := indexing_eq_ok h
  rw [← take_length_takeWhile]
  rw [Text.indices?] at htexts
  have hdepth := Glyph.foldl_depthAfter_of_squareInsides? htexts
  generalize (token.takeWhile (· != '[')).length = n at htexts hdepth
  cases hdrop : (Glyph.ofText token).drop n with
  | nil =>
    rw [List.drop_eq_nil_iff, Glyph.length_ofText] at hdrop
    rw [List.take_of_length_le hdrop]
    exact ht.isClosed
  | cons g rest =>
    rw [hdrop, Glyph.squareInsides?] at htexts
    split at htexts
    · split at htexts
      · next k hk => exact ht.isClosed_take (hdrop ▸ hk) hdepth
      · cases htexts
    · cases htexts

/-- A field access is spelled by a name, a point and the digits of the position. -/
theorem exists_name_of_fieldAccess {f : FieldAccess} (ht : Shape token)
    (h : fieldAccess symbols token = .ok f) :
    ∃ name tuple, token = name ++ '.' :: Text.ofNat f.position ∧
      symbols.lookup? name = some (.tuple tuple) ∧ f.name = tuple.name ∧ name.IsClosed := by
  rw [fieldAccess, readField] at h
  split at h
  · cases h
  next name digits hcut =>
  split at h
  · cases h
  next position hposition =>
  obtain ⟨d, hd, h⟩ := Check.bind_eq_ok_iff.1 h
  split at h
  · next tuple =>
    split at h
    · cases h
      obtain ⟨rfl, -⟩ := Text.eq_append_of_cut? hcut
      obtain ⟨-, hdigits⟩ := Option.filter_eq_some_iff.1 hposition
      obtain rfl : Text.ofNat position = digits := beq_iff_eq.1 hdigits
      refine ⟨name, tuple, rfl, Symbols.resolve_eq_ok_iff.1 hd, rfl, ?_⟩
      exact ht.isClosed.of_append (List.forall_mem_cons.2
        ⟨by decide, fun _ hc => Go.not_isQuote_of_word (Go.isAlphanum_of_mem_ofNat hc)⟩)
    · cases h
  · cases h

end Expression

end StellaGo
