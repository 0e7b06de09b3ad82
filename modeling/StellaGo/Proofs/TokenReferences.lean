import StellaGo.Proofs.RequiredTypes
import StellaGo.Proofs.TokenBoundaries

/-! What the tokens of generated code refer to. Defined here: braces that are in pairs, when a `.`
and a `:` among tokens belong to a field of a carrier, and when all that the tokens refer to is
there. Proved: tokens that follow each other refer to what each of them refers to, and pairs of `-`
that become one token change nothing. -/

namespace StellaGo

/-- What stands at some place of two lists in a row stands in one of them. -/
theorem exists_mid_of_append_eq {α : Type} {xs ys front rest : List α} {t : α}
    (h : xs ++ ys = front ++ t :: rest) :
    (∃ mid, xs = front ++ t :: mid ∧ rest = mid ++ ys) ∨
      ∃ mid, ys = mid ++ t :: rest ∧ front = xs ++ mid := by
  rcases List.append_eq_append_iff.1 h with ⟨mid, rfl, rfl⟩ | ⟨beyond, rfl, hbeyond⟩
  · exact .inr ⟨mid, rfl, rfl⟩
  · cases beyond with
    | nil => exact .inr ⟨[], hbeyond.symm, by rw [List.append_nil, List.append_nil]⟩
    | cons u mid =>
      obtain ⟨rfl, rfl⟩ := List.cons.inj hbeyond
      exact .inl ⟨mid, rfl, rfl⟩

namespace Go

variable {xs ys : List Text}

/-! ### Pairs of `-` -/

namespace Merges

variable {front rest : List Text} {t : Text}

/-- Tokens that became these ones split where these do. -/
theorem exists_split (h : Merges xs (front ++ rest)) :
    ∃ front' rest', xs = front' ++ rest' ∧ Merges front' front ∧ Merges rest' rest := by
  generalize heq : front ++ rest = ys at h
  induction h generalizing front with
  | nil =>
    obtain ⟨rfl, rfl⟩ := List.append_eq_nil_iff.1 heq
    exact ⟨[], [], rfl, .nil, .nil⟩
  | @cons u xs ys h ih =>
    cases front with
    | nil =>
      obtain rfl : rest = u :: ys := heq
      exact ⟨[], u :: xs, rfl, .nil, .cons h⟩
    | cons v front =>
      rw [List.cons_append] at heq
      obtain ⟨rfl, htail⟩ := List.cons.inj heq
      obtain ⟨front', rest', rfl, hfront, hrest⟩ := ih htail
      exact ⟨v :: front', rest', rfl, .cons hfront, hrest⟩
  | @minus xs ys h ih =>
    cases front with
    | nil =>
      obtain rfl : rest = ['-', '-'] :: ys := heq
      exact ⟨[], _, rfl, .nil, .minus h⟩
    | cons v front =>
      rw [List.cons_append] at heq
      obtain ⟨rfl, htail⟩ := List.cons.inj heq
      obtain ⟨front', rest', rfl, hfront, hrest⟩ := ih htail
      exact ⟨_ :: _ :: front', rest', rfl, .minus hfront, hrest⟩

theorem exists_cons (ht : t ≠ ['-', '-']) (h : Merges xs (t :: rest)) :
    ∃ rest', xs = t :: rest' ∧ Merges rest' rest := by
  cases h with
  | cons h => exact ⟨_, rfl, h⟩
  | minus => exact absurd rfl ht

theorem exists_split_cons (ht : t ≠ ['-', '-']) (h : Merges xs (front ++ t :: rest)) :
    ∃ front' rest', xs = front' ++ t :: rest' ∧ Merges front' front ∧ Merges rest' rest := by
  obtain ⟨front', behind, rfl, hfront, hbehind⟩ := h.exists_split
  obtain ⟨rest', rfl, hrest⟩ := exists_cons ht hbehind
  exact ⟨front', rest', rfl, hfront, hrest⟩

/-- A token other than a `-` stays where it is. -/
theorem exists_of_append_cons (ht : t ≠ ['-']) (h : Merges (front ++ t :: rest) ys) :
    ∃ front' rest', ys = front' ++ t :: rest' ∧ Merges front front' ∧ Merges rest rest' := by
  generalize heq : front ++ t :: rest = xs at h
  induction h generalizing front with
  | nil => cases front <;> cases heq
  | @cons u xs ys h ih =>
    cases front with
    | nil =>
      obtain ⟨rfl, rfl⟩ := List.cons.inj heq
      exact ⟨[], ys, rfl, .nil, h⟩
    | cons v front =>
      rw [List.cons_append] at heq
      obtain ⟨rfl, htail⟩ := List.cons.inj heq
      obtain ⟨front', rest', rfl, hfront, hrest⟩ := ih htail
      exact ⟨v :: front', rest', rfl, .cons hfront, hrest⟩
  | @minus xs ys h ih =>
    rcases front with _ | ⟨u, _ | ⟨v, front⟩⟩
    · exact absurd (List.cons.inj heq).1 ht
    · exact absurd (List.cons.inj (List.cons.inj heq).2).1 ht
    · simp only [List.cons_append, List.cons.injEq] at heq
      obtain ⟨rfl, rfl, heq⟩ := heq
      obtain ⟨front', rest', rfl, hfront, hrest⟩ := ih heq
      exact ⟨_ :: front', rest', rfl, .minus hfront, hrest⟩

theorem exists_of_append (hxs : ['-'] ∉ xs) (h : Merges (xs ++ rest) ys) :
    ∃ rest', ys = xs ++ rest' ∧ Merges rest rest' := by
  induction xs generalizing ys with
  | nil => exact ⟨ys, rfl, h⟩
  | cons t more ih =>
    obtain ⟨ht, hmore⟩ := List.ne_and_not_mem_of_not_mem_cons hxs
    have hcons : Merges ([] ++ t :: (more ++ rest)) ys := h
    obtain ⟨front', behind, rfl, hfront, hbehind⟩ := hcons.exists_of_append_cons ht.symm
    cases hfront
    obtain ⟨rest', rfl, hrest⟩ := ih hmore hbehind
    exact ⟨rest', rfl, hrest⟩

/-- A token other than a pair of `-` was there before. -/
theorem mem_of_mem {t : Text} (ht : t ≠ ['-', '-']) (h : Merges xs ys) (hmem : t ∈ ys) : t ∈ xs := by
  obtain ⟨front, rest, rfl⟩ := List.append_of_mem hmem
  obtain ⟨front', rest', rfl, -, -⟩ := h.exists_split_cons ht
  exact List.mem_append_right _ List.mem_cons_self

/-- A last token other than a `-` stays the last one. -/
theorem exists_of_concat {t : Text} (ht : t ≠ ['-']) (h : Merges (xs ++ [t]) ys) :
    ∃ front, ys = front ++ [t] ∧ Merges xs front := by
  obtain ⟨front, rest, rfl, hfront, hrest⟩ := h.exists_of_append_cons ht
  cases hrest
  exact ⟨front, rfl, hfront⟩

theorem count_eq (h : Merges xs ys) (h₁ : t ≠ ['-']) (h₂ : t ≠ ['-', '-']) :
    ys.count t = xs.count t := by
  induction h with
  | nil => rfl
  | cons _ ih => rw [List.count_cons, List.count_cons, ih]
  | minus _ ih =>
    rw [List.count_cons_of_ne h₂.symm, List.count_cons_of_ne h₁.symm, List.count_cons_of_ne h₁.symm,
      ih]

end Merges

/-! ### Braces -/

/-- Every brace among the tokens has its partner among them. -/
structure Balanced (ts : List Text) : Prop where
  le : ∀ front rest, ts = front ++ rest → front.count ['}'] ≤ front.count ['{']
  eq : ts.count ['}'] = ts.count ['{']

namespace Balanced

theorem of_notMem (hopen : ['{'] ∉ xs) (hclose : ['}'] ∉ xs) : Balanced xs := by
  constructor
  · rintro front rest rfl
    rw [List.count_eq_zero_of_not_mem fun h => hclose (List.mem_append_left _ h)]
    exact Nat.zero_le _
  · rw [List.count_eq_zero_of_not_mem hclose, List.count_eq_zero_of_not_mem hopen]

theorem append (h : Balanced xs) (h' : Balanced ys) : Balanced (xs ++ ys) := by
  constructor
  · intro front rest heq
    rcases List.append_eq_append_iff.1 heq with ⟨mid, rfl, hys⟩ | ⟨mid, hxs, -⟩
    · have := h'.le mid rest hys
      have := h.eq
      rw [List.count_append, List.count_append]
      omega
    · exact h.le front mid hxs
  · rw [List.count_append, List.count_append, h.eq, h'.eq]

theorem braced (h : Balanced xs) : Balanced (['{'] :: xs ++ [['}']]) := by
  have hopen (ts : List Text) : (['{'] :: ts).count ['{'] = ts.count ['{'] + 1 :=
    List.count_cons_self
  have hclose (ts : List Text) : (['{'] :: ts).count ['}'] = ts.count ['}'] :=
    List.count_cons_of_ne (by decide)
  have := h.eq
  rw [List.cons_append]
  constructor
  · intro front rest heq
    cases front with
    | nil => exact Nat.le_refl _
    | cons t front =>
      rw [List.cons_append] at heq
      obtain ⟨rfl, htail⟩ := List.cons.inj heq
      rw [hopen, hclose]
      rcases List.append_eq_append_iff.1 htail with ⟨mid, rfl, hmid⟩ | ⟨mid, hxs, -⟩
      · have hlength := congrArg List.length hmid
        rw [List.length_append, List.length_singleton] at hlength
        have := List.count_le_length (a := (['}'] : Text)) (l := mid)
        rw [List.count_append, List.count_append]
        omega
      · have := h.le front mid hxs
        omega
  · have hlast : [(['}'] : Text)].count ['{'] = 0 := by decide
    rw [hopen, hclose, List.count_append, List.count_append, List.count_singleton_self, hlast]
    omega

theorem merges (h : Balanced xs) (hm : Merges xs ys) : Balanced ys := by
  have hcount {us vs : List Text} (hm : Merges us vs) :
      vs.count ['}'] = us.count ['}'] ∧ vs.count ['{'] = us.count ['{'] :=
    ⟨hm.count_eq (by decide) (by decide), hm.count_eq (by decide) (by decide)⟩
  constructor
  · rintro front rest rfl
    obtain ⟨front', rest', rfl, hfront, -⟩ := hm.exists_split
    obtain ⟨hclose, hopen⟩ := hcount hfront
    rw [hclose, hopen]
    exact h.le front' rest' rfl
  · obtain ⟨hclose, hopen⟩ := hcount hm
    rw [hclose, hopen, h.eq]

end Balanced

/-! ### Fields of carriers -/

/-- The name of the field of a carrier for the position. -/
def fieldName (position : Nat) : Text := 'v' :: Text.ofNat position

/-- What stands in front of a `.` and behind it: the package that prints and a function of it, or a
tuple and one of its fields. -/
inductive Selects (env : Environment) (r : Requirements) : List Text → List Text → Prop
  | package {front rest : List Text} {function : String} (h : env.lookup? "fmt".toList = none)
      (hf : function ∈ ["Print", "Println"]) (hr : r.usesFmt = true) :
      Selects env r (front ++ ["fmt".toList]) (function.toList :: rest)
  | field {front rest : List Text} {name : Name} {type : TupleType} {position : Nat}
      (h : env.lookup? name = some (.value name (.tuple type))) (hp : position < type.arity)
      (hr : type.arity ∈ r.arities) : Selects env r (front ++ [name]) (fieldName position :: rest)

/-- The last of the tokens is a field of the carrier that stands in front of the innermost brace
that is open there. -/
inductive NamesField (r : Requirements) : List Text → Prop
  | mk {front inner : List Text} {type : TupleType} {position : Nat} (hinner : Balanced inner)
      (hp : position < type.arity) (hr : type.arity ∈ r.arities) :
      NamesField r (front ++ lex type.goName ++ ['{'] :: inner ++ [fieldName position])

/-- The words that start a definition in front of the functions of a file. -/
def definers : List Text := ["import", "type"].map String.toList

/-- The tokens import nothing and define no type. Each carrier among them is noted, each `.` selects
something, and in front of each `:` stands what is asked for. -/
structure Refers (env : Environment) (r : Requirements) (keyed : List Text → Prop)
    (ts : List Text) : Prop where
  carrier : ∀ arity, carrierName arity ∈ ts → arity ∈ r.arities
  definer : ∀ word ∈ definers, word ∉ ts
  selects : ∀ front rest, ts = front ++ ['.'] :: rest → Selects env r front rest
  keys : ∀ front rest, ts = front ++ [':'] :: rest → keyed front

/-- A token that refers to nothing and defines nothing. -/
def isPlain (t : Text) : Bool :=
  !(['.'] :: [':'] :: definers).contains t && !Name.isCarrier t

theorem carrierName_ne {arity : Nat} {t : Text} (ht : Name.isCarrier t = false) :
    carrierName arity ≠ t := by
  rintro rfl
  rw [Name.isCarrier_carrierName] at ht
  cases ht

variable {env : Environment} {r : Requirements} {p q : List Text → Prop}

theorem Selects.append {front rest : List Text} (h : Selects env r front rest) (more : List Text) :
    Selects env r front (rest ++ more) := by
  cases h with
  | package h hf hr => exact .package h hf hr
  | field h hp hr => exact .field h hp hr

theorem Selects.append_front {front rest : List Text} (h : Selects env r front rest)
    (before : List Text) : Selects env r (before ++ front) rest := by
  cases h with
  | package h hf hr =>
    rw [← List.append_assoc]
    exact .package h hf hr
  | field h hp hr =>
    rw [← List.append_assoc]
    exact .field h hp hr

theorem NamesField.append_front {front : List Text} (h : NamesField r front) (before : List Text) :
    NamesField r (before ++ front) := by
  cases h with
  | mk hinner hp hr =>
    rw [← List.append_assoc, ← List.append_assoc, ← List.append_assoc]
    exact .mk hinner hp hr

namespace Refers

theorem of_isPlain (h : ∀ t ∈ xs, isPlain t) : Refers env r p xs := by
  have hplain {t : Text} (ht : t ∈ xs) :
      t ∉ ['.'] :: [':'] :: definers ∧ Name.isCarrier t = false := by
    have hplain := h t ht
    rw [isPlain, Bool.and_eq_true, Bool.not_eq_true', Bool.not_eq_true', List.contains_eq_mem,
      decide_eq_false_iff_not] at hplain
    exact hplain
  constructor
  · intro arity hmem
    have hcarrier := (hplain hmem).2
    rw [Name.isCarrier_carrierName] at hcarrier
    cases hcarrier
  · intro word hword hmem
    exact (hplain hmem).1 (List.mem_cons_of_mem _ (List.mem_cons_of_mem _ hword))
  · rintro front rest rfl
    exact absurd (hplain (List.mem_append_right _ List.mem_cons_self)).1 (by decide)
  · rintro front rest rfl
    exact absurd (hplain (List.mem_append_right _ List.mem_cons_self)).1 (by decide)

/-- A `.` or a `:` between tokens that refer to nothing. -/
theorem of_mark {t : Text} (ht : Name.isCarrier t = false ∧ t ∉ definers)
    (hplain : ∀ u ∈ xs ++ ys, isPlain u) (hs : t = ['.'] → Selects env r xs ys)
    (hk : t = [':'] → p xs) : Refers env r p (xs ++ t :: ys) := by
  have hother {u : Text} (hu : u ∈ xs ++ t :: ys) (hne : u ≠ t) : isPlain u := by
    refine hplain u ?_
    rw [List.mem_append, List.mem_cons, or_iff_right hne] at hu
    exact List.mem_append.2 hu
  have hmark {u : Text} {front rest : List Text} (hu : isPlain u = false)
      (heq : xs ++ t :: ys = front ++ u :: rest) : t = u ∧ xs = front ∧ ys = rest := by
    have hmem : u ∈ xs ++ t :: ys := heq ▸ List.mem_append_right front List.mem_cons_self
    have hne : ¬ u ≠ t := by
      intro hne
      rw [hother hmem hne] at hu
      cases hu
    obtain rfl := not_not.1 hne
    have hnot {zs : List Text} (hz : ∀ v ∈ zs, v ∈ xs ++ ys) : u ∉ zs := by
      intro hmem
      rw [hplain u (hz u hmem)] at hu
      cases hu
    obtain ⟨hxs, -, hys⟩ := (List.append_cons_inj_of_notMem (hnot fun _ => List.mem_append_left _)
      (hnot fun _ => List.mem_append_right _)).1 heq
    exact ⟨rfl, hxs, hys⟩
  constructor
  · intro arity hmem
    have hplain := hother hmem (carrierName_ne ht.1)
    rw [isPlain, Name.isCarrier_carrierName, Bool.not_true, Bool.and_false] at hplain
    cases hplain
  · intro word hword hmem
    have hne : word ≠ t := fun heq => ht.2 (heq ▸ hword)
    have hall : ∀ word ∈ definers, isPlain word = false := by decide
    exact absurd (hother hmem hne) (by rw [hall word hword]; decide)
  · intro front rest heq
    obtain ⟨hdot, rfl, rfl⟩ := hmark (by decide) heq
    exact hs hdot
  · intro front rest heq
    obtain ⟨hcolon, rfl, -⟩ := hmark (by decide) heq
    exact hk hcolon

theorem imp (h : Refers env r p xs) (hpq : ∀ front, p front → q front) : Refers env r q xs :=
  ⟨h.carrier, h.definer, h.selects, fun front rest heq => hpq front (h.keys front rest heq)⟩

/-- The keys of the second tokens are looked for in both. -/
theorem append_of_imp (h : Refers env r p xs) (h' : Refers env r q ys)
    (hq : ∀ front, q front → p (xs ++ front)) : Refers env r p (xs ++ ys) := by
  constructor
  · intro arity hmem
    rcases List.mem_append.1 hmem with hmem | hmem
    · exact h.carrier arity hmem
    · exact h'.carrier arity hmem
  · intro word hword hmem
    rcases List.mem_append.1 hmem with hmem | hmem
    · exact h.definer word hword hmem
    · exact h'.definer word hword hmem
  · intro front rest heq
    rcases exists_mid_of_append_eq heq with ⟨mid, hxs, rfl⟩ | ⟨mid, hys, rfl⟩
    · exact (h.selects front mid hxs).append ys
    · exact (h'.selects mid rest hys).append_front xs
  · intro front rest heq
    rcases exists_mid_of_append_eq heq with ⟨mid, hxs, rfl⟩ | ⟨mid, hys, rfl⟩
    · exact h.keys front mid hxs
    · exact hq mid (h'.keys mid rest hys)

theorem append (h : Refers env r (NamesField r) xs) (h' : Refers env r (NamesField r) ys) :
    Refers env r (NamesField r) (xs ++ ys) :=
  h.append_of_imp h' fun _ hfront => hfront.append_front xs

end Refers

/-! ### Types -/

theorem forall_mem_commaTokens {P : Text → Prop} {parts : List (List Text)} (hcomma : P [','])
    (h : ∀ part ∈ parts, ∀ t ∈ part, P t) : ∀ t ∈ commaTokens parts, P t := by
  induction parts with
  | nil => nofun
  | cons part rest ih =>
    obtain ⟨hpart, hrest⟩ := List.forall_mem_cons.1 h
    cases rest with
    | nil =>
      rw [commaTokens, List.intercalate_singleton]
      exact hpart
    | cons next more =>
      have hmore := ih hrest
      rw [commaTokens] at hmore ⊢
      rw [List.intercalate_cons_cons, List.forall_mem_append, List.forall_mem_append,
        List.forall_mem_singleton]
      exact ⟨⟨hpart, hcomma⟩, hmore⟩

/-- The tokens that types are made of, besides numbers and the names of carriers. -/
def typeTokens : List Text :=
  ["[", "]", ",", "int", "float64", "bool", "byte", "string"].map String.toList

theorem mem_typeTokens_of_primitive (type : Primitive) :
    ∀ t ∈ lex type.goName.toList, t ∈ typeTokens := by
  cases type <;> decide +kernel

theorem lex_carrierName (arity : Nat) : lex (carrierName arity) = [carrierName arity] := by
  refine lex_of_forall (by simp [carrierName]) fun c hc => ?_
  rcases List.mem_append.1 hc with hc | hc
  · have hall : ∀ c ∈ "tuple".toList, c.isAlphanum || c == '_' := by decide
    exact hall c hc
  · exact isAlphanum_of_mem_ofNat hc

/-- The text of a tuple type is the name of its carrier and the types of its fields in brackets. -/
theorem lex_tuple (type : TupleType) :
    lex type.goName = carrierName type.arity :: ['['] ::
      (commaTokens (type.fields.map fun p => lex p.goName.toList) ++ [[']']]) := by
  have hname : Splits (carrierName type.arity) [carrierName type.arity] True :=
    .of_lex (respects_isClosed.carrierName _) (lex_carrierName _)
  have hfields : Splits (commas (type.fields.map fun p => p.goName.toList))
      (commaTokens (type.fields.map fun p => lex p.goName.toList)) (∀ p ∈ type.fields, True) :=
    .commas_map fun p _ => .of_lex (respects_isClosed.primitive p) rfl
  have hwhole := (hname.between (c := '[') (by decide) (by decide) hfields).concat (c := ']')
    (by decide) (by decide)
  exact hwhole.eq_iff.2 ⟨trivial, fun _ _ => trivial⟩

theorem mem_lex_tuple {type : TupleType} {t : Text} (h : t ∈ lex type.goName) :
    t = carrierName type.arity ∨ t ∈ typeTokens := by
  rw [lex_tuple] at h
  rcases List.mem_cons.1 h with rfl | h
  · exact .inl rfl
  refine .inr ?_
  rcases List.mem_cons.1 h with rfl | h
  · decide
  rcases List.mem_append.1 h with h | h
  · refine forall_mem_commaTokens (by decide) (fun part hpart => ?_) t h
    obtain ⟨p, -, rfl⟩ := List.mem_map.1 hpart
    exact mem_typeTokens_of_primitive p
  · rw [List.mem_singleton.1 h]
    decide

theorem ofNat_inj {n m : Nat} (h : Text.ofNat n = Text.ofNat m) : n = m := by
  have hread := congrArg Text.toNat? h
  rw [Text.toNat?_ofNat, Text.toNat?_ofNat] at hread
  exact Option.some.inj hread

theorem carrierName_inj {n m : Nat} (h : carrierName n = carrierName m) : n = m :=
  ofNat_inj (List.append_cancel_left h)

theorem fieldName_ne {position : Nat} {t : Text} (ht : t.head? ≠ some 'v') :
    fieldName position ≠ t := by
  rintro rfl
  exact ht rfl

/-! ### Pairs of `-` refer to nothing -/

theorem NamesField.merges {front : List Text} (h : NamesField r xs) (hm : Merges xs front) :
    NamesField r front := by
  cases h with
  | @mk before inner type position hinner hp hr =>
    have hlex := lex_tuple type
    generalize hmore : ['['] ::
      (commaTokens (type.fields.map fun p => lex p.goName.toList) ++ [[']']]) = more at hlex
    have hplain : ['-'] ∉ more ++ [['{']] := by
      intro hmem
      rcases List.mem_append.1 hmem with hmem | hmem
      · rcases mem_lex_tuple (hlex ▸ List.mem_cons_of_mem _ hmem) with hname | htoken
        · exact carrierName_ne (by decide) hname.symm
        · exact absurd htoken (by decide)
      · exact absurd hmem (by decide)
    obtain ⟨front, rfl, hfront⟩ := hm.exists_of_concat (fieldName_ne (by decide))
    have hsplit : before ++ lex type.goName ++ ['{'] :: inner =
        before ++ carrierName type.arity :: (more ++ [['{']] ++ inner) := by
      rw [hlex]
      simp
    rw [hsplit] at hfront
    obtain ⟨before', rest, rfl, -, hrest⟩ := hfront.exists_of_append_cons (carrierName_ne (by decide))
    obtain ⟨inner', rfl, hinner'⟩ := hrest.exists_of_append hplain
    have hsplit' : before' ++ carrierName type.arity :: (more ++ [['{']] ++ inner') =
        before' ++ lex type.goName ++ ['{'] :: inner' := by
      rw [hlex]
      simp
    rw [hsplit']
    exact .mk (hinner.merges hinner') hp hr

theorem Selects.merges {front rest front' rest' : List Text} (henv : env.lookup? ['-'] = none)
    (h : Selects env r front' rest') (hfront : Merges front' front) (hrest : Merges rest' rest) :
    Selects env r front rest := by
  have hhead {t : Text} {us vs : List Text} (ht : t ≠ ['-']) (h : Merges (t :: us) vs) :
      ∃ more, vs = t :: more := by
    have hcons : Merges ([] ++ t :: us) vs := h
    obtain ⟨front, more, rfl, hnil, -⟩ := hcons.exists_of_append_cons ht
    cases hnil
    exact ⟨more, rfl⟩
  cases h with
  | @package before _ function hfree hf hr =>
    obtain ⟨before', rfl, -⟩ := hfront.exists_of_concat (by decide)
    have hfunction : ∀ function ∈ ["Print", "Println"], function.toList ≠ ['-'] := by decide
    obtain ⟨more, rfl⟩ := hhead (hfunction function hf) hrest
    exact .package hfree hf hr
  | @field before _ name type position hlookup hp hr =>
    have hname : name ≠ ['-'] := by
      rintro rfl
      cases henv.symm.trans hlookup
    obtain ⟨before', rfl, -⟩ := hfront.exists_of_concat hname
    obtain ⟨more, rfl⟩ := hhead (fieldName_ne (by decide)) hrest
    exact .field hlookup hp hr

/-- Tokens refer to the same after some pairs of `-` became one token. -/
theorem Refers.merges (h : Refers env r (NamesField r) xs) (henv : env.lookup? ['-'] = none)
    (hm : Merges xs ys) : Refers env r (NamesField r) ys := by
  constructor
  · exact fun arity hmem => h.carrier arity (hm.mem_of_mem (carrierName_ne (by decide)) hmem)
  · intro word hword hmem
    have hall : ∀ word ∈ definers, word ≠ ['-', '-'] := by decide
    exact h.definer word hword (hm.mem_of_mem (hall word hword) hmem)
  · rintro front rest rfl
    obtain ⟨front', rest', rfl, hfront, hrest⟩ := hm.exists_split_cons (by decide)
    exact (h.selects front' rest' rfl).merges henv hfront hrest
  · rintro front rest rfl
    obtain ⟨front', rest', rfl, hfront, -⟩ := hm.exists_split_cons (by decide)
    exact (h.keys front' rest' rfl).merges hfront

end Go

end StellaGo
