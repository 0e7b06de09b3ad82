import Mathlib.Data.List.TakeDrop
import StellaGo.Proofs.ByteSlices
import StellaGo.Proofs.LineEnds
import StellaGo.Proofs.Offsets.Outcome

/-! Brackets by byte offset. Defined here: the readers of brackets, parts and lone `=` that go over the
bytes of a text and cut it at offsets they found. Proved: each of them comes to its end on every text,
with what the reader of characters finds. -/

namespace StellaGo

/-! ### Offsets of characters -/

namespace Text

theorem byteOffset_length (t : Text) : t.byteOffset t.length = t.byteSize := by
  rw [byteOffset, List.take_length]

theorem byteOffset_zero (t : Text) : t.byteOffset 0 = 0 := rfl

/-- The character behind index `i` starts where the one at `i` ends. -/
theorem byteOffset_succ {t : Text} {i : Nat} {c : Char} (h : t[i]? = some c) :
    t.byteOffset (i + 1) = t.byteOffset i + c.utf8Size := by
  rw [byteOffset, byteOffset, List.take_add_one, h, byteSize_append]
  rfl

theorem byteOffset_mono (t : Text) {i j : Nat} (h : i ≤ j) : t.byteOffset i ≤ t.byteOffset j := by
  rw [byteOffset, byteOffset, ← List.take_append_drop i (t.take j), List.take_take, Nat.min_eq_left h,
    byteSize_append]
  exact Nat.le_add_right _ _

theorem slice?_byteOffset (t : Text) {i j : Nat} (h : i ≤ j) :
    t.slice? (t.byteOffset i) (t.byteOffset j) = some ((t.take j).drop i) := by
  have htake : (t.take j).take i = t.take i := by rw [List.take_take, Nat.min_eq_left h]
  have hcut : t = t.take i ++ ((t.take j).drop i ++ t.drop j) := by
    rw [← List.append_assoc, ← htake, List.take_append_drop, List.take_append_drop]
  have hsize : t.byteOffset j = t.byteOffset i + byteSize ((t.take j).drop i) := by
    rw [byteOffset, byteOffset, ← byteSize_append, ← htake, List.take_append_drop]
  exact slice?_eq_some_iff.2 ⟨_, _, hcut, rfl, hsize⟩

/-- No slice starts inside a character. -/
example : slice? ['é', '('] 1 2 = none ∧ slice? ['é', '('] 2 3 = some ['('] := by decide

theorem sliceFrom?_byteOffset (t : Text) (i : Nat) : t.sliceFrom? (t.byteOffset i) = some (t.drop i) := by
  have hslice := sliceFrom?_append (t.take i) (t.drop i)
  rwa [List.take_append_drop] at hslice

end Text

namespace Glyph

theorem le_of_mem_offsets {b : Nat} {gs : List Glyph} :
    ∀ x ∈ offsets b gs, b ≤ x.1 := by
  induction gs generalizing b with
  | nil => nofun
  | cons g rest ih =>
    intro x hx
    cases g with
    | code c =>
      rcases List.mem_cons.1 hx with rfl | hx
      · exact Nat.le_refl b
      · exact Nat.le_of_add_right_le (ih x hx)
    | quoted c => exact Nat.le_of_add_right_le (ih x hx)

/-- The offsets behind some glyphs are those of the other glyphs. -/
theorem dropWhile_offsets (b : Nat) (front rest : List Glyph) :
    (offsets b (front ++ rest)).dropWhile (·.1 < b + Text.byteSize (front.map char)) =
      offsets (b + Text.byteSize (front.map char)) rest := by
  induction front generalizing b with
  | nil =>
    rw [List.nil_append, List.map_nil, Text.byteSize_nil, Nat.add_zero, List.dropWhile_eq_self_iff]
    intro hpos
    have hle := le_of_mem_offsets _ (List.getElem_mem hpos)
    simpa using hle
  | cons g rest' ih =>
    have hih := ih (b + g.char.utf8Size)
    rw [List.map_cons, Text.byteSize_cons, ← Nat.add_assoc]
    cases g with
    | code c =>
      have hless : decide (b < b + c.utf8Size + Text.byteSize (rest'.map char)) := by
        have := c.utf8Size_pos
        simp only [decide_eq_true_eq]
        omega
      rw [List.cons_append, offsets, char, List.dropWhile_cons, if_pos hless]
      exact hih
    | quoted c => exact hih

end Glyph

namespace Offsets

open Glyph (offsets)
open Outcome (before? minus?)

/-! ### Brackets -/

/-- The offset of the bracket that brings the number of open brackets from `depth` down to none, among
characters with their offsets. -/
def closing : (depth : Nat) → List (Nat × Char) → Option Nat
  | _, [] => none
  | depth, (i, c) :: rest =>
    if isOpener c then closing (depth + 1) rest
    else if isCloser c then
      match depth with
      | 0 => none
      | 1 => some i
      | deeper + 1 => closing deeper rest
    else closing depth rest

/-- The offset of the bracket that closes the first one at or behind the offset `start`. -/
def closerFrom? (t : Text) (start : Nat) : Option Nat :=
  closing 0 (t.unquoted.dropWhile (·.1 < start))

theorem closing_offsets (depth b : Nat) (gs : List Glyph) :
    closing depth (offsets b gs) =
      (Glyph.closing depth gs).map fun k => b + Text.byteSize ((gs.take k).map Glyph.char) := by
  induction gs generalizing depth b with
  | nil => rfl
  | cons g rest ih =>
    have hstep (depth : Nat) : closing depth (offsets (b + g.char.utf8Size) rest) =
        ((Glyph.closing depth rest).map (· + 1)).map fun k =>
          b + Text.byteSize (((g :: rest).take k).map Glyph.char) := by
      rw [ih, Option.map_map]
      congr 1
      funext k
      simp only [Function.comp_apply, List.take_succ_cons, List.map_cons, Text.byteSize_cons]
      omega
    cases g with
    | quoted c => exact hstep depth
    | code c =>
      rw [offsets, closing.eq_def, Glyph.closing.eq_def]
      dsimp only
      by_cases hopener : isOpener c
      · rw [if_pos hopener, if_pos hopener]
        exact hstep (depth + 1)
      rw [if_neg hopener, if_neg hopener]
      by_cases hcloser : isCloser c
      · rw [if_pos hcloser, if_pos hcloser]
        rcases depth with _ | _ | deeper
        · rfl
        · rfl
        · exact hstep (deeper + 1)
      · rw [if_neg hcloser, if_neg hcloser]
        exact hstep depth

theorem closerFrom?_byteOffset (t : Text) (i : Nat) :
    closerFrom? t (t.byteOffset i) = (t.closerFrom? i).map t.byteOffset := by
  have hsplit := List.take_append_drop i (Glyph.ofText t)
  have htake (k : Nat) : ((Glyph.ofText t).take k).map Glyph.char = t.take k := by
    rw [List.map_take, Glyph.map_char_ofText]
  have hdrop := Glyph.dropWhile_offsets 0 ((Glyph.ofText t).take i) ((Glyph.ofText t).drop i)
  rw [hsplit, htake, Nat.zero_add] at hdrop
  rw [closerFrom?, Text.closerFrom?, Text.unquoted, Text.byteOffset, hdrop, closing_offsets,
    Option.map_map]
  congr 1
  funext k
  rw [Function.comp_apply, Text.byteOffset, ← Text.byteSize_append, ← htake, ← List.map_append,
    ← List.take_add, htake]

/-- What stands between the bracket at the offset `start` and the last byte, if these two close each
other. -/
def inside? (t : Text) (start : Nat) : Option (Option Text) := do
  let last ← minus? t.byteSize 1
  if closerFrom? t start = some last then (t.slice? (start + 1) last).map some else return none

/-- A closing bracket takes one byte. -/
theorem byteOffset_succ_of_closerFrom? {t : Text} {i k : Nat} (h : t.closerFrom? i = some k) :
    t.byteOffset (k + 1) = t.byteOffset k + 1 := by
  obtain ⟨j, hj, rfl⟩ := Option.map_eq_some_iff.1 h
  obtain ⟨b, hb⟩ := Glyph.getElem?_of_closing hj
  have hchar := congrArg (Option.map Glyph.char) hb
  rw [List.getElem?_drop, ← List.getElem?_map, Glyph.map_char_ofText] at hchar
  rw [Text.byteOffset_succ hchar]
  cases b <;> rfl

/-- A closing bracket stands on the last byte just if it is the last character. -/
theorem byteOffset_eq_last_iff {t : Text} {i k : Nat} (h : t.closerFrom? i = some k) :
    t.byteOffset k = t.byteSize - 1 ↔ k = t.length - 1 := by
  have hnext := byteOffset_succ_of_closerFrom? h
  have hlt := Text.closerFrom?_lt_length h
  have hsize : t.byteSize = t.byteOffset (k + 1) + Text.byteSize (t.drop (k + 1)) := by
    rw [Text.byteOffset, ← Text.byteSize_append, List.take_append_drop]
  constructor
  · intro hlast
    have hzero : Text.byteSize (t.drop (k + 1)) = 0 := by omega
    rw [Text.byteSize_eq_zero_iff, List.drop_eq_nil_iff] at hzero
    omega
  · intro hlast
    rw [List.drop_eq_nil_of_le (by omega), Text.byteSize_nil] at hsize
    omega

/-- A search does not end where it starts. -/
theorem lt_of_closerFrom? {t : Text} {i k : Nat} (h : t.closerFrom? i = some k) : i < k := by
  have hpos : ∀ {gs : List Glyph}, Glyph.closing 0 gs ≠ some 0 := by
    intro gs hzero
    rw [Glyph.closing.eq_def] at hzero
    split at hzero
    · cases hzero
    · simp at hzero
    · split at hzero
      · simp at hzero
      split at hzero
      · cases hzero
      · simp at hzero
  obtain ⟨j, hj, rfl⟩ := Option.map_eq_some_iff.1 h
  have hne : j ≠ 0 := by
    rintro rfl
    exact hpos hj
  omega

theorem inside?_byteOffset {t : Text} (hne : t ≠ []) {i : Nat}
    (hone : ∀ c ∈ t[i]?, c.utf8Size = 1) :
    inside? t (t.byteOffset i) = some (t.inside? i) := by
  have hpos : 1 ≤ t.byteSize := by
    have := mt Text.byteSize_eq_zero_iff.1 hne
    omega
  rw [inside?, Outcome.minus?_of_le hpos, Option.bind_eq_bind, Option.bind_some,
    closerFrom?_byteOffset, Text.inside?]
  cases hcloser : t.closerFrom? i with
  | none => rfl
  | some k =>
    have hlast := byteOffset_eq_last_iff hcloser
    have hlt := lt_of_closerFrom? hcloser
    have hk := Text.closerFrom?_lt_length hcloser
    rw [Option.map_some]
    by_cases heq : k = t.length - 1
    · obtain ⟨c, hc⟩ : ∃ c, t[i]? = some c := ⟨_, List.getElem?_eq_getElem (by omega)⟩
      have hstart : t.byteOffset i + 1 = t.byteOffset (i + 1) := by
        rw [Text.byteOffset_succ hc, hone c hc]
      have hpart : (t.take k).drop (i + 1) = (t.drop (i + 1)).dropLast := by
        rw [heq, ← List.dropLast_eq_take, List.dropLast_drop_eq_drop_dropLast]
      rw [if_pos (congrArg some (hlast.2 heq)), if_pos (congrArg some heq), hstart, ← hlast.2 heq,
        Text.slice?_byteOffset t (by omega), Option.map_some, hpart]
    · rw [if_neg fun h => heq (hlast.1 (Option.some.inj h)), if_neg fun h => heq (Option.some.inj h)]
      rfl

/-! ### Parts -/

/-- The trimmed parts between separators outside brackets, from the one that starts at the offset
`start` on. -/
def partsFrom (t : Text) (sep : Char) :
    (depth : Int) → (start : Nat) → List (Nat × Char) → Option (List Text)
  | _, start, [] => do
    let part ← t.sliceFrom? start
    return [part.trim]
  | depth, start, (i, c) :: rest =>
    if isOpener c then partsFrom t sep (depth + 1) start rest
    else if isCloser c then partsFrom t sep (depth - 1) start rest
    else if c = sep ∧ depth = 0 then do
      let part ← t.slice? start i
      let parts ← partsFrom t sep depth (i + c.utf8Size) rest
      return part.trim :: parts
    else partsFrom t sep depth start rest

def topLevelParts (t : Text) (sep : Char) : Option (List Text) :=
  if t.trim = [] then some [] else partsFrom t sep 0 0 t.unquoted

theorem modifyHead_nil_append (ts : List Text) : ts.modifyHead ([] ++ ·) = ts :=
  congrFun List.modifyHead_id ts

theorem partsFrom_offsets {t : Text} {sep : Char} (depth : Int) (front piece : Text) (gs : List Glyph)
    (ht : t = front ++ (piece ++ gs.map Glyph.char)) :
    partsFrom t sep depth (Text.byteSize front)
        (offsets (Text.byteSize front + Text.byteSize piece) gs) =
      some (((Glyph.pieces sep depth gs).modifyHead (piece ++ ·)).map Text.trim) := by
  induction gs generalizing depth front piece with
  | nil =>
    rw [List.map_nil, List.append_nil] at ht
    rw [offsets, partsFrom, ht, Text.sliceFrom?_append, Glyph.pieces]
    simp
  | cons g rest ih =>
    have hstep (depth : Int) : partsFrom t sep depth (Text.byteSize front)
        (offsets (Text.byteSize front + Text.byteSize piece + g.char.utf8Size) rest) =
          some (((Glyph.pieces sep depth rest).modifyHead ((piece ++ [g.char]) ++ ·)).map Text.trim) := by
      have hih := ih depth front (piece ++ [g.char]) (by simp [ht])
      rwa [Text.byteSize_append, Text.byteSize_cons, Text.byteSize_nil, Nat.add_zero,
        ← Nat.add_assoc] at hih
    have hgoes (depth : Int) (hsep : ¬ (g.separates sep && depth == 0)) :
        ((Glyph.pieces sep depth (g :: rest)).modifyHead (piece ++ ·)) =
          (Glyph.pieces sep (g.depthAfter depth) rest).modifyHead ((piece ++ [g.char]) ++ ·) := by
      rw [Glyph.pieces, if_neg hsep, List.modifyHead_modifyHead]
      congr 1
      funext t
      simp
    cases g with
    | quoted c =>
      rw [hgoes depth (by simp [Glyph.separates])]
      exact hstep depth
    | code c =>
      rw [offsets, partsFrom]
      by_cases hopener : isOpener c
      · rw [if_pos hopener, hgoes depth (by simp [Glyph.separates, hopener]), Glyph.depthAfter,
          if_pos hopener]
        exact hstep (depth + 1)
      rw [if_neg hopener]
      by_cases hcloser : isCloser c
      · rw [if_pos hcloser, hgoes depth (by simp [Glyph.separates, hcloser]), Glyph.depthAfter,
          if_neg hopener, if_pos hcloser]
        exact hstep (depth - 1)
      rw [if_neg hcloser]
      by_cases hsep : c = sep ∧ depth = 0
      · obtain ⟨rfl, rfl⟩ := hsep
        have hpart : t.slice? (Text.byteSize front) (Text.byteSize front + Text.byteSize piece) =
            some piece := by
          rw [ht]
          exact Text.slice?_append front piece _
        have hih := ih 0 (front ++ (piece ++ [c])) [] (by simp [ht, Glyph.char])
        rw [Text.byteSize_append, Text.byteSize_append, Text.byteSize_cons, Text.byteSize_nil,
          Nat.add_zero, Nat.add_zero, ← Nat.add_assoc] at hih
        rw [modifyHead_nil_append] at hih
        rw [if_pos ⟨rfl, rfl⟩, hpart, Option.bind_eq_bind, Option.bind_some, hih, Glyph.pieces,
          if_pos (by simp [Glyph.separates, hopener, hcloser]), List.modifyHead_cons, List.append_nil]
        rfl
      · rw [if_neg hsep, hgoes depth (by simp [Glyph.separates, hopener, hcloser, hsep]),
          Glyph.depthAfter, if_neg hopener, if_neg hcloser]
        exact hstep depth

theorem topLevelParts_eq (t : Text) (sep : Char) : topLevelParts t sep = some (t.topLevelParts sep) := by
  have hparts : partsFrom t sep 0 0 t.unquoted = some _ :=
    partsFrom_offsets 0 [] [] (Glyph.ofText t) (Glyph.map_char_ofText t).symm
  rw [topLevelParts, Text.topLevelParts, hparts, modifyHead_nil_append]
  split <;> rfl

/-! ### Lone `=` -/

/-- The bytes of a text. -/
def bytes (t : Text) : List UInt8 := t.flatMap String.utf8EncodeChar

/-- The byte is one of these ASCII characters. -/
def isOneOf (chars : List Char) (byte? : Option UInt8) : Bool :=
  byte?.any (· ∈ chars.map Char.toUInt8)

/-- The offset of the first lone `=` outside brackets; the bytes next to it tell whether it is one. -/
def loneEquals (bytes : List UInt8) : (depth : Int) → List (Nat × Char) → Option (Option Nat)
  | _, [] => some none
  | depth, (i, c) :: rest =>
    if isOpener c then loneEquals bytes (depth + 1) rest
    else if isCloser c then loneEquals bytes (depth - 1) rest
    else if c = '=' ∧ depth = 0 then do
      let before ← before? bytes i
      if isOneOf ['=', '!', '<', '>'] before || isOneOf ['='] bytes[i + 1]? then
        loneEquals bytes depth rest
      else return some i
    else loneEquals bytes depth rest

def assignmentAt? (t : Text) : Option (Option Nat) := loneEquals (bytes t) 0 t.unquoted

theorem bytes_append (t u : Text) : bytes (t ++ u) = bytes t ++ bytes u := List.flatMap_append

theorem length_bytes (t : Text) : (bytes t).length = t.byteSize := by
  induction t with
  | nil => rfl
  | cons c rest ih =>
    rw [bytes, List.flatMap_cons, List.length_append, String.length_utf8EncodeChar, Text.byteSize_cons]
    exact congrArg _ ih

/-- An ASCII byte is all there is of its character. -/
theorem toNat_of_mem_utf8EncodeChar {c : Char} {b : UInt8} (hb : b ∈ String.utf8EncodeChar c)
    (hascii : b.toNat < 128) : c.toNat = b.toNat := by
  have hlead {n m base : Nat} (hm : 0 < m) (hbase : 128 ≤ base) (hbound : m + base ≤ 256) :
      ¬ (UInt8.ofNat (n % m + base)).toNat < 128 := by
    have := Nat.mod_lt n hm
    rw [UInt8.toNat_ofNat', Nat.mod_eq_of_lt (by omega)]
    omega
  unfold String.utf8EncodeChar at hb
  dsimp only at hb
  split at hb
  · next hsmall =>
    rw [List.mem_singleton] at hb
    rw [hb, UInt8.toNat_ofNat', Char.toNat]
    omega
  -- no byte of a longer character is an ASCII byte
  split at hb
  · simp only [List.mem_cons, List.not_mem_nil, or_false] at hb
    rcases hb with rfl | rfl <;> exact absurd hascii (hlead (by decide) (by decide) (by decide))
  split at hb
  · simp only [List.mem_cons, List.not_mem_nil, or_false] at hb
    rcases hb with rfl | rfl | rfl <;> exact absurd hascii (hlead (by decide) (by decide) (by decide))
  · simp only [List.mem_cons, List.not_mem_nil, or_false] at hb
    rcases hb with rfl | rfl | rfl | rfl <;>
      exact absurd hascii (hlead (by decide) (by decide) (by decide))

/-- A byte of a character tells whether that is one of these ASCII characters. -/
theorem mem_toUInt8_iff {chars : List Char} (hascii : ∀ d ∈ chars, d.toNat < 128) {c : Char}
    {b : UInt8} (hb : b ∈ String.utf8EncodeChar c) : b ∈ chars.map Char.toUInt8 ↔ c ∈ chars := by
  have hsize {d : Char} (hd : d.toNat < 128) : d.toUInt8.toNat = d.toNat := by
    have hmod : d.toUInt8.toNat = d.toNat % 2 ^ 8 := rfl
    rw [hmod]
    omega
  constructor
  · intro hmem
    obtain ⟨d, hd, rfl⟩ := List.mem_map.1 hmem
    have hsmall := hascii d hd
    have hsame := toNat_of_mem_utf8EncodeChar hb (by rw [hsize hsmall]; exact hsmall)
    rw [hsize hsmall] at hsame
    rwa [Char.toNat_inj.1 hsame]
  · intro hmem
    have hsmall := hascii c hmem
    have hle : c.val.toNat ≤ 127 := Nat.le_of_lt_succ hsmall
    unfold String.utf8EncodeChar at hb
    dsimp only at hb
    rw [if_pos hle, List.mem_singleton] at hb
    rw [hb]
    exact List.mem_map_of_mem hmem

theorem isOneOf_getLast? {chars : List Char} (hascii : ∀ d ∈ chars, d.toNat < 128) (front : Text) :
    isOneOf chars (bytes front).getLast? = front.getLast?.any (· ∈ chars) := by
  rcases List.eq_nil_or_concat front with rfl | ⟨start, c, rfl⟩
  · rfl
  · have hne := String.utf8EncodeChar_ne_nil (c := c)
    have hmem := List.getLast_mem hne
    have hlast : (bytes (start ++ [c])).getLast? = some ((String.utf8EncodeChar c).getLast hne) := by
      rw [bytes_append, bytes, bytes, List.flatMap_singleton, List.getLast?_append,
        List.getLast?_eq_some_getLast hne, Option.some_or]
    rw [List.concat_eq_append, hlast, List.getLast?_concat, isOneOf, Option.any_some, Option.any_some,
      Bool.eq_iff_iff, decide_eq_true_iff, decide_eq_true_iff]
    exact mem_toUInt8_iff hascii hmem

theorem isOneOf_head? {chars : List Char} (hascii : ∀ d ∈ chars, d.toNat < 128) (rest : Text) :
    isOneOf chars (bytes rest).head? = rest.head?.any (· ∈ chars) := by
  cases rest with
  | nil => rfl
  | cons c rest =>
    obtain ⟨b, more, hb⟩ := List.exists_cons_of_ne_nil (String.utf8EncodeChar_ne_nil (c := c))
    have hmem : b ∈ String.utf8EncodeChar c := by rw [hb]; exact List.mem_cons_self
    rw [bytes, List.flatMap_cons, hb, List.cons_append, List.head?_cons, List.head?_cons, isOneOf,
      Option.any_some, Option.any_some, Bool.eq_iff_iff, decide_eq_true_iff, decide_eq_true_iff]
    exact mem_toUInt8_iff hascii hmem

/-- The bytes next to an `=` tell what the characters next to it tell. -/
theorem isOneOf_around (front rest : Text) :
    ∃ before, before? (bytes (front ++ '=' :: rest)) (Text.byteSize front) = some before ∧
      (isOneOf ['=', '!', '<', '>'] before ||
          isOneOf ['='] (bytes (front ++ '=' :: rest))[Text.byteSize front + 1]?) =
        (front.getLast?.any (· ∈ ['=', '!', '<', '>']) || rest.head?.any (· == '=')) := by
  have hbefore := Outcome.before?_append (bytes front) (bytes ('=' :: rest))
  have hafter : (bytes (front ++ '=' :: rest))[Text.byteSize front + 1]? = (bytes rest).head? := by
    rw [bytes_append, ← length_bytes front, List.getElem?_append_right (by omega),
      Nat.add_sub_cancel_left, List.head?_eq_getElem?]
    rfl
  have hequals : rest.head?.any (· ∈ ['=']) = rest.head?.any (· == '=') := by
    congr 1
    funext d
    rw [Bool.eq_iff_iff, decide_eq_true_iff, List.mem_singleton, beq_iff_eq]
  rw [← bytes_append, length_bytes] at hbefore
  refine ⟨_, hbefore, ?_⟩
  rw [hafter, isOneOf_getLast? (by decide), isOneOf_head? (by decide), hequals]

theorem loneEquals_offsets {t : Text} (depth : Int) (front : Text) (gs : List Glyph)
    (ht : t = front ++ gs.map Glyph.char) :
    loneEquals (bytes t) depth (offsets (Text.byteSize front) gs) =
      some ((Glyph.loneEquals depth front.getLast? gs).map fun k =>
        Text.byteSize front + Text.byteSize ((gs.take k).map Glyph.char)) := by
  induction gs generalizing depth front with
  | nil => rfl
  | cons g rest ih =>
    have hstep (depth : Int) : loneEquals (bytes t) depth
        (offsets (Text.byteSize front + g.char.utf8Size) rest) =
        some (((Glyph.loneEquals depth (some g.char) rest).map (· + 1)).map fun k =>
          Text.byteSize front + Text.byteSize (((g :: rest).take k).map Glyph.char)) := by
      have hih := ih depth (front ++ [g.char]) (by simp [ht])
      rw [Text.byteSize_append, Text.byteSize_cons, Text.byteSize_nil, Nat.add_zero,
        List.getLast?_concat] at hih
      rw [hih, Option.map_map]
      congr 2
      funext k
      simp only [Function.comp_apply, List.take_succ_cons, List.map_cons, Text.byteSize_cons]
      omega
    have hgoes (hplain : g ≠ .code '=' ∨ depth ≠ 0) : Glyph.loneEquals depth front.getLast? (g :: rest) =
        (Glyph.loneEquals (g.depthAfter depth) (some g.char) rest).map (· + 1) := by
      rw [Glyph.loneEquals, if_neg]
      rcases hplain with hplain | hplain <;> simp [hplain]
    cases g with
    | quoted c =>
      rw [hgoes (.inl (by simp))]
      exact hstep depth
    | code c =>
      rw [offsets, loneEquals]
      by_cases hopener : isOpener c
      · rw [if_pos hopener, hgoes (.inl (by rintro ⟨⟩; cases hopener)), Glyph.depthAfter, if_pos hopener]
        exact hstep (depth + 1)
      rw [if_neg hopener]
      by_cases hcloser : isCloser c
      · rw [if_pos hcloser, hgoes (.inl (by rintro ⟨⟩; cases hcloser)), Glyph.depthAfter,
          if_neg hopener, if_pos hcloser]
        exact hstep (depth - 1)
      rw [if_neg hcloser]
      by_cases heq : c = '=' ∧ depth = 0
      · obtain ⟨rfl, rfl⟩ := heq
        obtain ⟨before, hbefore, haround⟩ := isOneOf_around front (rest.map Glyph.char)
        rw [List.map_cons, Glyph.char] at ht
        rw [← ht] at hbefore haround
        rw [if_pos ⟨rfl, rfl⟩, hbefore, Option.bind_eq_bind, Option.bind_some, haround,
          List.head?_map, Glyph.loneEquals]
        by_cases hjoined : (front.getLast?.any (· ∈ ['=', '!', '<', '>']) ||
            (rest.head?.map Glyph.char).any (· == '=')) = true
        · rw [if_pos hjoined, hjoined, if_neg (by decide)]
          exact hstep 0
        · rw [if_neg hjoined, eq_false_of_ne_true hjoined, if_pos (by decide)]
          rfl
      · rw [if_neg heq, hgoes (by simpa [or_iff_not_imp_left] using heq), Glyph.depthAfter,
          if_neg hopener, if_neg hcloser]
        exact hstep depth

theorem assignmentAt?_eq (t : Text) : assignmentAt? t = some (t.assignmentAt?.map t.byteOffset) := by
  have hlone : loneEquals (bytes t) 0 t.unquoted = _ :=
    loneEquals_offsets 0 [] (Glyph.ofText t) (Glyph.map_char_ofText t).symm
  rw [assignmentAt?, hlone, Text.assignmentAt?]
  congr 2
  funext k
  rw [Text.byteSize_nil, Nat.zero_add, Text.byteOffset, List.map_take, Glyph.map_char_ofText]

end Offsets

end StellaGo
