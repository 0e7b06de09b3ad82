import StellaGo.Text

/-! Parts of a text between byte offsets. Defined here: the part between two offsets, which is there
only if a character starts, or the text ends, at each of them and the second is not before the first.
Proved: there is such a part exactly where the text is made up of it and of what stands before and
behind it. -/

namespace StellaGo.Text

/-! ### Sizes -/

@[simp]
theorem byteSize_nil : byteSize [] = 0 := rfl

@[simp]
theorem byteSize_cons (c : Char) (t : Text) : byteSize (c :: t) = c.utf8Size + byteSize t := rfl

@[simp]
theorem byteSize_append (t u : Text) : byteSize (t ++ u) = byteSize t + byteSize u := by
  induction t with
  | nil => exact (Nat.zero_add _).symm
  | cons c rest ih => rw [List.cons_append, byteSize_cons, ih, byteSize_cons, Nat.add_assoc]

theorem byteSize_eq_zero_iff {t : Text} : byteSize t = 0 ↔ t = [] := by
  cases t with
  | nil => exact iff_of_true rfl rfl
  | cons c rest =>
    have := c.utf8Size_pos
    exact iff_of_false (by rw [byteSize_cons]; omega) nofun

/-! ### Slices -/

/-- The texts before and behind byte `b`, if a character starts or the text ends there. -/
def splitAt? : Text → (b : Nat) → Option (Text × Text)
  | t, 0 => some ([], t)
  | [], _ + 1 => none
  | c :: rest, b + 1 =>
    if b + 1 < c.utf8Size then none
    else (splitAt? rest (b + 1 - c.utf8Size)).map fun (front, behind) => (c :: front, behind)

/-- The text between two byte offsets. -/
def slice? (t : Text) (start stop : Nat) : Option Text := do
  if stop < start then none
  else
    let (_, behind) ← t.splitAt? start
    let (part, _) ← Text.splitAt? behind (stop - start)
    return part

/-- The text from a byte offset on. -/
def sliceFrom? (t : Text) (start : Nat) : Option Text := (t.splitAt? start).map Prod.snd

theorem splitAt?_append (front behind : Text) :
    splitAt? (front ++ behind) (byteSize front) = some (front, behind) := by
  induction front with
  | nil => cases behind <;> rfl
  | cons c rest ih =>
    have hpos := c.utf8Size_pos
    obtain ⟨b, hb⟩ : ∃ b, byteSize (c :: rest) = b + 1 :=
      ⟨byteSize (c :: rest) - 1, by rw [byteSize_cons]; omega⟩
    have hle : ¬ b + 1 < c.utf8Size := by rw [← hb, byteSize_cons]; omega
    have hsub : b + 1 - c.utf8Size = byteSize rest := by rw [← hb, byteSize_cons]; omega
    rw [hb, List.cons_append, splitAt?, if_neg hle, hsub, ih]
    rfl

theorem eq_append_of_splitAt? {t front behind : Text} {b : Nat}
    (h : t.splitAt? b = some (front, behind)) : t = front ++ behind ∧ b = byteSize front := by
  fun_induction splitAt? t b generalizing front with
  | case1 => cases h; exact ⟨rfl, rfl⟩
  | case2 => cases h
  | case3 => cases h
  | case4 c rest b hle ih =>
    obtain ⟨⟨front', behind'⟩, hrest, heq⟩ := Option.map_eq_some_iff.1 h
    cases heq
    obtain ⟨rfl, hsize⟩ := ih hrest
    exact ⟨rfl, by rw [byteSize_cons]; omega⟩

/-- A part of the text lies between the end of what stands before it and its own end. -/
theorem slice?_eq_some_iff {t part : Text} {start stop : Nat} :
    t.slice? start stop = some part ↔
      ∃ before behind, t = before ++ (part ++ behind) ∧ start = byteSize before ∧
        stop = start + byteSize part := by
  constructor
  · intro h
    unfold slice? at h
    split at h
    · cases h
    next hle =>
    obtain ⟨⟨before, rest⟩, hbefore, h⟩ := Option.bind_eq_some_iff.1 h
    obtain ⟨⟨part', behind⟩, hpart, h⟩ := Option.bind_eq_some_iff.1 h
    cases h
    obtain ⟨rfl, hstart⟩ := eq_append_of_splitAt? hbefore
    obtain ⟨rfl, hstop⟩ := eq_append_of_splitAt? hpart
    exact ⟨before, behind, rfl, hstart, by omega⟩
  · rintro ⟨before, behind, rfl, rfl, rfl⟩
    rw [slice?, if_neg (by omega), splitAt?_append, Nat.add_sub_cancel_left]
    dsimp only [Option.bind_eq_bind, Option.bind_some]
    rw [splitAt?_append]
    rfl

theorem slice?_append (before part behind : Text) :
    slice? (before ++ (part ++ behind)) (byteSize before) (byteSize before + byteSize part) =
      some part :=
  slice?_eq_some_iff.2 ⟨before, behind, rfl, rfl, rfl⟩

theorem sliceFrom?_append (before behind : Text) :
    sliceFrom? (before ++ behind) (byteSize before) = some behind := by
  rw [sliceFrom?, splitAt?_append]
  rfl

end StellaGo.Text
