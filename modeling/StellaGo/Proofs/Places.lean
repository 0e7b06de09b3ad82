import StellaGo.Proofs.PartReaders
import StellaGo.Proofs.SourceEdits

/-! Places among parts. Defined here: texts without commas outside brackets and literals, places between
commas, and lists that are the same but for one place. Proved: the parts between the commas are those
around a place and what stands there, and what is read off them differs where the texts do. -/

namespace StellaGo

open Text (Closes)
open Check (Alike)

/-! ### Commas -/

namespace Text

/-- No comma stands outside brackets and literals. -/
def HoldsCommas (t : Text) : Prop := ∀ front rest, t = front ++ ',' :: rest → ¬ Closes true [] front

variable {stack : List Bracket} {t : Text}

theorem Closes.of_comma_free (h : Closes true stack t)
    (hcommas : ∀ front rest, t = front ++ ',' :: rest → ¬ Closes true stack front) :
    Closes false stack t := by
  induction h with
  | nil => exact .nil
  | literal hq hl _ ih =>
    refine .literal hq hl (ih fun front rest ht hfront => ?_)
    exact hcommas _ rest (by rw [ht, ← List.append_assoc]; rfl) (.literal hq hl hfront)
  | opener b _ ih =>
    refine .opener b (ih fun front rest ht hfront => ?_)
    exact hcommas _ rest (by rw [ht]; rfl) (.opener b hfront)
  | closer b _ ih =>
    refine .closer b (ih fun front rest ht hfront => ?_)
    exact hcommas _ rest (by rw [ht]; rfl) (.closer b hfront)
  | @plain stack c t hc _ _ ih =>
    refine .plain hc (fun heq => .inr fun hnil => ?_) (ih fun front rest ht hfront => ?_)
    · subst heq hnil
      exact hcommas [] t rfl .nil
    · exact hcommas _ rest (by rw [ht]; rfl) (.plain hc (fun _ => .inl rfl) hfront)

theorem HoldsCommas.closes {tokens : List Text} (h : t.HoldsCommas)
    (hscan : Token.scan t = .ok tokens) : Closes false [] t :=
  (Token.scan_eq_ok_iff.1 hscan).closes.of_comma_free h

theorem HoldsCommas.of_not_mem (h : ',' ∉ t) : t.HoldsCommas := by
  rintro front rest rfl
  exact absurd (List.mem_append_right front List.mem_cons_self) h

theorem Closes.wrap (h : Closes true [] t) (b : Bracket) {inside : Bool} :
    Closes inside [] (b.wrap t) := h.group b

theorem trim_wrap (b : Bracket) (t : Text) : Text.trim (b.wrap t) = b.wrap t :=
  trim_eq_self (by cases b <;> decide) (.cons (.last (Token.isBlank_closer b) t) b.opener)

end Text

/-! ### Places between commas -/

/-- A place among parts, with blanks next to it. The parts can stand between commas, or each `inside`
of brackets of its own. -/
structure Slot (inside : Bool) where
  before : List Text
  left : Text
  right : Text
  after : List Text
  closes : ∀ part ∈ before ++ after, Closes inside [] part
  blank : ∀ c ∈ left ++ right, isBlank c

namespace Slot

variable {inside : Bool} {t u v : Text}

def position (s : Slot inside) : Nat := s.before.length

/-- The parts, with this text at the place. -/
def parts (s : Slot inside) (t : Text) : List Text := s.before ++ (s.left ++ t ++ s.right) :: s.after

/-- The parts between commas. -/
def fill (s : Slot false) (t : Text) : Text := List.intercalate [','] (s.parts t)

theorem closes_blanks {t : Text} (h : ∀ c ∈ t, isBlank c) : Closes inside [] t :=
  .flat (Text.isFlat_of_blank h) fun hcomma => absurd (h ',' hcomma) (by decide)

theorem closes_of_mem_parts (s : Slot inside) (ht : Closes inside [] t) :
    ∀ part ∈ s.parts t, Closes inside [] part := by
  have hblank := List.forall_mem_append.1 s.blank
  have hcloses := List.forall_mem_append.1 s.closes
  have hplace : Closes inside [] (s.left ++ t ++ s.right) :=
    ((closes_blanks hblank.1).append ht .inl).append (closes_blanks hblank.2) .inl
  exact List.forall_mem_append.2 ⟨hcloses.1, List.forall_mem_cons.2 ⟨hplace, hcloses.2⟩⟩

variable {s : Slot false}

theorem closes_fill (s : Slot false) (ht : Closes false [] t) : Closes true [] (s.fill t) :=
  .intercalate (.comma .nil) (s.closes_of_mem_parts ht)

/-- Nothing but blanks stands in the place and around it only if there are no commas. -/
theorem eq_nil_of_trim_fill (h : (s.fill t).trim = []) :
    s.before = [] ∧ s.after = [] ∧ t.trim = [] := by
  rw [Text.trim_eq_nil_iff, fill] at h
  have hlength : (s.parts t).length < 2 := by
    by_contra hlong
    match hparts : s.parts t with
    | [] | [_] => simp [hparts] at hlong
    | first :: next :: more =>
      rw [hparts, List.intercalate_cons_cons] at h
      exact absurd (h ',' (by simp)) (by decide)
  rw [parts, List.length_append, List.length_cons] at hlength
  have hbefore : s.before = [] := List.eq_nil_of_length_eq_zero (by omega)
  have hafter : s.after = [] := List.eq_nil_of_length_eq_zero (by omega)
  rw [parts, hbefore, hafter, List.nil_append, List.intercalate_singleton] at h
  exact ⟨hbefore, hafter, Text.trim_eq_nil_iff.2 fun c hc => h c (by simp [hc])⟩

theorem topLevelParts_fill (ht : Closes false [] t) (hvisible : (s.fill t).trim ≠ []) :
    (s.fill t).topLevelParts ',' = s.before.map Text.trim ++ t.trim :: s.after.map Text.trim := by
  have hparts := s.closes_of_mem_parts ht
  have hblank := List.forall_mem_append.1 s.blank
  have htrim : Text.trim (s.left ++ t ++ s.right) = t.trim := by
    rw [Text.trim_append_blanks hblank.2, Text.trim_blanks_append hblank.1]
  have hne : s.parts t ≠ [] := by simp [parts]
  obtain ⟨first, others, hcons⟩ := List.exists_cons_of_ne_nil hne
  rw [hcons] at hparts
  obtain ⟨hfirst, hothers⟩ := List.forall_mem_cons.1 hparts
  rw [Text.topLevelParts, if_neg hvisible, fill, hcons, Text.pieces_intercalate hfirst hothers, ← hcons,
    parts, List.map_append, List.map_cons, htrim]

/-- The text at a place in square brackets, these at a place in square brackets, and so on. -/
def nest : List (Slot false) → Text → Text
  | [], t => t
  | s :: frames, t => Bracket.square.wrap (s.fill (nest frames t))

end Slot

/-! ### Lists that differ at one place -/

/-- The lists are the same but for the entries at this place, which are related by `R`. -/
inductive DiffersAt {α : Type} (R : α → α → Prop) : Nat → List α → List α → Prop
  | here {x y : α} {rest : List α} (h : R x y) : DiffersAt R 0 (x :: rest) (y :: rest)
  | later {k : Nat} {x : α} {xs ys : List α} (h : DiffersAt R k xs ys) :
      DiffersAt R (k + 1) (x :: xs) (x :: ys)

theorem DiffersAt.exists_related {α : Type} {R : α → α → Prop} {k : Nat} {xs ys : List α}
    (h : DiffersAt R k xs ys) : ∃ x y, R x y := by
  induction h with
  | here hxy => exact ⟨_, _, hxy⟩
  | later _ ih => exact ih

theorem DiffersAt.map {α β : Type} {R : α → α → Prop} {S : β → β → Prop} {f : α → β} {k : Nat}
    {xs ys : List α} (h : DiffersAt R k xs ys) (hf : ∀ x y, R x y → S (f x) (f y)) :
    DiffersAt S k (xs.map f) (ys.map f) := by
  induction h with
  | here hxy => exact .here (hf _ _ hxy)
  | later _ ih => exact .later ih

/-- The items are the same but for those at the end of this path, which are related by `R`. -/
def Item.DiffersIn (R : Item → Item → Prop) : List Nat → Item → Item → Prop
  | [], i, j => R i j
  | k :: path, i, j => ∃ is js, i = .row is ∧ j = .row js ∧ DiffersAt (DiffersIn R path) k is js

theorem Item.DiffersIn.exists_related {R : Item → Item → Prop} {path : List Nat} {i j : Item}
    (h : DiffersIn R path i j) : ∃ x y, R x y := by
  induction path generalizing i j with
  | nil => exact ⟨i, j, h⟩
  | cons k path ih =>
    obtain ⟨is, js, -, -, hitems⟩ := h
    obtain ⟨x, y, hxy⟩ := hitems.exists_related
    exact ih hxy

namespace Check

variable {α β γ δ : Type}

theorem Alike.map {R : α → β → Prop} {S : γ → δ → Prop} {x : Check α} {y : Check β} {f : α → γ}
    {g : β → δ} (h : Alike R x y) (hfg : ∀ a b, R a b → S (f a) (g b)) :
    Alike S (x.map f) (y.map g) := by
  cases h with
  | error h => exact .error h
  | ok h => exact .ok (hfg _ _ h)

theorem Alike.imp {R S : α → β → Prop} {x : Check α} {y : Check β} (h : Alike R x y)
    (hrs : ∀ a b, R a b → S a b) : Alike S x y := by
  cases h with
  | error h => exact .error h
  | ok h => exact .ok (hrs _ _ h)

theorem Alike.exists_error {R : α → β → Prop} {x : Check α} {y : Check β} (h : Alike R x y)
    (hx : ∃ fault, x = .error fault) : ∃ fault, y = .error fault := by
  obtain ⟨fault, rfl⟩ := hx
  cases h
  exact ⟨_, rfl⟩

theorem exists_error_map {x : Check α} {f : α → β} (h : ∃ fault, x = .error fault) :
    ∃ fault, x.map f = .error fault := by
  obtain ⟨fault, rfl⟩ := h
  exact ⟨fault, rfl⟩

variable {R : β → β → Prop} {f : α → Check β} {x y : α}

/-- What is read off lists with alike results at one place differs at this place. -/
theorem alike_mapM (h : Alike R (f x) (f y)) (front back : List α) :
    Alike (DiffersAt R front.length) ((front ++ x :: back).mapM f) ((front ++ y :: back).mapM f) := by
  have hsame {γ : Type} (z : Check γ) : Alike Eq z z := Rel.of_eq (fun _ => trivial) rfl
  induction front with
  | nil =>
    rw [List.nil_append, List.nil_append, List.mapM_cons, List.mapM_cons]
    refine Rel.bind h fun a b _ _ hab => Rel.bind (hsame _) fun as bs _ _ hs => ?_
    subst hs
    exact .ok (.here hab)
  | cons z front ih =>
    rw [List.cons_append, List.cons_append, List.mapM_cons, List.mapM_cons]
    refine Rel.bind (hsame _) fun a b _ _ hab => Rel.bind ih fun as bs _ _ hs => ?_
    subst hab
    exact .ok (.later hs)

theorem exists_error_of_mapM (h : ∃ fault, f x = .error fault) (front back : List α) :
    ∃ fault, (front ++ x :: back).mapM f = .error fault := by
  obtain ⟨fault, hx⟩ := h
  induction front with
  | nil =>
    rw [List.nil_append, List.mapM_cons, hx]
    exact ⟨fault, rfl⟩
  | cons z front ih =>
    obtain ⟨found, hfound⟩ := ih
    rw [List.cons_append, List.mapM_cons, hfound]
    cases f z <;> exact ⟨_, rfl⟩

end Check

/-! ### Lists beside the parts -/

section

variable {α : Type} {as : List α} {a : α} {before : List Text}

theorem exists_zip_eq (h : as[before.length]? = some a) (after : List Text) :
    ∃ front back, front.length = before.length ∧
      ∀ t, as.zip (before ++ t :: after) = front ++ (a, t) :: back := by
  induction before generalizing as with
  | nil =>
    obtain ⟨rest, rfl⟩ := List.head?_eq_some_iff.1 (List.head?_eq_getElem? ▸ h)
    exact ⟨[], rest.zip after, rfl, fun t => rfl⟩
  | cons first others ih =>
    cases as with
    | nil => cases h
    | cons b rest =>
      obtain ⟨front, back, hlength, hzip⟩ := ih h
      exact ⟨(b, first) :: front, back, congrArg Nat.succ hlength,
        fun t => congrArg ((b, first) :: ·) (hzip t)⟩

theorem exists_zipIdx_eq (h : as[before.length]? = some a) (start : Nat) (after : List Text) :
    ∃ front back, front.length = before.length ∧
      ∀ t, (as.zip (before ++ t :: after)).zipIdx start =
        front ++ ((a, t), start + before.length) :: back := by
  obtain ⟨front, back, hlength, hzip⟩ := exists_zip_eq h after
  refine ⟨front.zipIdx start, back.zipIdx (start + before.length + 1), ?_, fun t => ?_⟩
  · rw [List.length_zipIdx, hlength]
  · rw [hzip, List.zipIdx_append, List.zipIdx_cons, hlength]

end

/-! ### Parts that are read -/

/-- What is read off the parts between commas is alike if what is read off one place is. A place that
is blank is no part, but then it can not be read either. -/
theorem Slot.alike_readParts {α : Type} {R : α → α → Prop} {u v : Text} {size : Nat}
    {fault : Nat → Fault} {read : List Text → Check α} (s : Slot false) (hu : Closes false [] u) (hv : Closes false [] v)
    (hvisible : v.trim ≠ []) (hsize : s.position < size)
    (hread : Alike R (read (s.before.map Text.trim ++ u.trim :: s.after.map Text.trim))
      (read (s.before.map Text.trim ++ v.trim :: s.after.map Text.trim)))
    (hblank : u.trim = [] →
      ∃ fault, read (s.before.map Text.trim ++ u.trim :: s.after.map Text.trim) = .error fault) :
    Alike R ((s.fill u).readParts size fault read) ((s.fill v).readParts size fault read) := by
  have hfillv : (s.fill v).trim ≠ [] := fun h => hvisible (s.eq_nil_of_trim_fill h).2.2
  rw [Text.readParts, Text.readParts, s.topLevelParts_fill hv hfillv]
  by_cases hfillu : (s.fill u).trim = []
  · obtain ⟨found, hfound⟩ := hread.exists_error (hblank (s.eq_nil_of_trim_fill hfillu).2.2)
    have hnone : (s.fill u).topLevelParts ',' = [] := by rw [Text.topLevelParts, if_pos hfillu]
    have hcount : ([] : List Text).length ≠ size := by
      rw [List.length_nil]
      omega
    rw [hnone, if_pos hcount, hfound]
    split <;> exact .error trivial
  · rw [s.topLevelParts_fill hu hfillu, List.length_append, List.length_append, List.length_cons,
      List.length_cons]
    split
    · exact .error trivial
    · exact hread

end StellaGo
