import StellaGo.Proofs.ClosedTexts
import StellaGo.Proofs.Decimals
import StellaGo.ValueType

/-! The texts that spell a type. Defined here: the types that can be written, and the spellings of a
type, which are its written form up to spaces and tabs around the fields of a tuple and zeros in front
of the sizes of an array. Proved: the reader finds a type in just the texts that spell it. -/

namespace StellaGo

theorem Primitive.ofKeyword?_eq_some_iff {t : Text} {p : Primitive} :
    ofKeyword? t = some p ↔ t = p.keyword.toList := by
  constructor
  · intro h
    have hkeyword := List.find?_some (p := fun other : Primitive => other.keyword.toList == t) h
    exact (beq_iff_eq.1 hkeyword).symm
  · rintro rfl
    cases p <;> decide

/-- Keywords are letters. -/
theorem Primitive.isAlpha_of_mem_keyword (p : Primitive) : ∀ c ∈ p.keyword.toList, c.isAlpha := by
  cases p <;> decide

namespace ValueType

/-- What is written in an array or a tuple is no `IO`, arrays have dimensions whose sizes a word holds,
and tuples have fields. -/
def IsWritable : ValueType → Prop
  | primitive _ => True
  | array type => type.base ≠ .io ∧ type.dimensions ≠ [] ∧ ∀ n ∈ type.dimensions, n < Text.wordSize
  | tuple type => type.fields ≠ [] ∧ ∀ p ∈ type.fields, p ≠ .io

/-- The digits of a size, maybe behind zeros, in square brackets. -/
def SpellsSize (t : Text) (n : Nat) : Prop :=
  ∃ zeros, t = '[' :: (List.replicate zeros '0' ++ Text.ofNat n ++ [']'])

/-- The keyword of a field, maybe between spaces and tabs. -/
def SpellsField (t : Text) (p : Primitive) : Prop :=
  ∃ before behind, t = before ++ p.keyword.toList ++ behind ∧ (∀ c ∈ before, isSpace c) ∧
    ∀ c ∈ behind, isSpace c

/-- The text is the written form of the type, up to spaces and tabs around fields and zeros in front of
sizes. -/
inductive Spells : Text → ValueType → Prop
  | primitive (p : Primitive) : Spells p.keyword.toList (.primitive p)
  | array {type : ArrayType} {sizes : List Text} (h : List.Forall₂ SpellsSize sizes type.dimensions) :
      Spells (type.base.keyword.toList ++ sizes.flatten) (.array type)
  | tuple {type : TupleType} {fields : List Text} (h : List.Forall₂ SpellsField fields type.fields) :
      Spells ('(' :: (List.intercalate [','] fields ++ [')'])) (.tuple type)

variable {t : Text}

/-! ### Fields -/

theorem element?_eq_some_iff {p : Primitive} : element? t = some p ↔ p ≠ .io ∧ t = p.keyword.toList := by
  rw [element?, Option.filter_eq_some_iff, Primitive.ofKeyword?_eq_some_iff, bne_iff_ne, and_comm]

theorem exists_spaces_around (t : Text) :
    ∃ before behind, t = before ++ trimSpaces t ++ behind ∧ (∀ c ∈ before, isSpace c) ∧
      ∀ c ∈ behind, isSpace c := by
  refine ⟨t.takeWhile isSpace, ((t.dropWhile isSpace).reverse.takeWhile isSpace).reverse, ?_,
    fun c hc => List.mem_takeWhile_imp hc, fun c hc => List.mem_takeWhile_imp (List.mem_reverse.1 hc)⟩
  rw [trimSpaces, List.append_assoc, ← List.reverse_append, List.takeWhile_append_dropWhile,
    List.reverse_reverse, List.takeWhile_append_dropWhile]

/-- A keyword is found again between spaces. -/
theorem trimSpaces_keyword {before behind : Text} (p : Primitive) (hbefore : ∀ c ∈ before, isSpace c)
    (hbehind : ∀ c ∈ behind, isSpace c) :
    trimSpaces (before ++ p.keyword.toList ++ behind) = p.keyword.toList := by
  have hword : ∀ c ∈ p.keyword.toList, isSpace c = false := by cases p <;> decide
  have hne : p.keyword.toList ≠ [] := by cases p <;> decide
  have hdrop {spaces word rest : Text} (hspaces : ∀ c ∈ spaces, isSpace c) (hne : word ≠ [])
      (hword : ∀ c ∈ word, isSpace c = false) :
      (spaces ++ (word ++ rest)).dropWhile isSpace = word ++ rest := by
    obtain ⟨c, more, rfl⟩ := List.exists_cons_of_ne_nil hne
    rw [List.dropWhile_append_of_pos hspaces, List.cons_append,
      List.dropWhile_cons_of_neg (by simp [hword c List.mem_cons_self])]
  have hback : (behind.reverse ++ (p.keyword.toList.reverse ++ [])).dropWhile isSpace =
      p.keyword.toList.reverse ++ [] :=
    hdrop (fun c hc => hbehind c (List.mem_reverse.1 hc)) (List.reverse_ne_nil_iff.2 hne)
      fun c hc => hword c (List.mem_reverse.1 hc)
  rw [List.append_nil] at hback
  rw [trimSpaces, List.append_assoc, hdrop hbefore hne hword, List.reverse_append, hback,
    List.reverse_reverse]

theorem element?_trimSpaces_eq_some_iff {p : Primitive} :
    element? (trimSpaces t) = some p ↔ p ≠ .io ∧ SpellsField t p := by
  rw [element?_eq_some_iff]
  refine and_congr_right fun _ => ⟨fun h => ?_, ?_⟩
  · obtain ⟨before, behind, ht, hbefore, hbehind⟩ := exists_spaces_around t
    exact ⟨before, behind, h ▸ ht, hbefore, hbehind⟩
  · rintro ⟨before, behind, rfl, hbefore, hbehind⟩
    exact trimSpaces_keyword p hbefore hbehind

theorem mapM_eq_some_iff {α β : Type} {f : α → Option β} {xs : List α} {ys : List β} :
    xs.mapM f = some ys ↔ List.Forall₂ (fun x y => f x = some y) xs ys := by
  induction xs generalizing ys with
  | nil => simp [eq_comm]
  | cons x rest ih =>
    rw [List.mapM_cons]
    constructor
    · intro h
      obtain ⟨y, hy, h⟩ := Option.bind_eq_some_iff.1 h
      obtain ⟨others, hothers, h⟩ := Option.bind_eq_some_iff.1 h
      cases h
      exact .cons hy (ih.1 hothers)
    · intro h
      cases h with
      | cons hy hothers => rw [hy, Option.bind_eq_bind, Option.bind_some, ih.2 hothers]; rfl

/-- No comma stands in a field. -/
theorem SpellsField.notMem_comma {p : Primitive} (h : SpellsField t p) : ',' ∉ t := by
  obtain ⟨before, behind, rfl, hbefore, hbehind⟩ := h
  have hword : ',' ∉ p.keyword.toList := by cases p <;> decide
  have hspaces {spaces : Text} (hs : ∀ c ∈ spaces, isSpace c) : ',' ∉ spaces := fun hm =>
    absurd (hs ',' hm) (by decide)
  simp [hword, hspaces hbefore, hspaces hbehind]

theorem notMem_comma_of_mem {texts : List Text} {fields : List Primitive}
    (h : List.Forall₂ SpellsField texts fields) : ∀ field ∈ texts, ',' ∉ field := by
  induction h with
  | nil => nofun
  | cons hp _ ih => exact List.forall_mem_cons.2 ⟨hp.notMem_comma, ih⟩

theorem mapM_fields_eq_some_iff {texts : List Text} {fields : List Primitive} :
    (texts.mapM fun field => element? (trimSpaces field)) = some fields ↔
      (∀ p ∈ fields, p ≠ .io) ∧ List.Forall₂ SpellsField texts fields := by
  rw [mapM_eq_some_iff]
  simp only [element?_trimSpaces_eq_some_iff]
  constructor
  · intro h
    induction h with
    | nil => exact ⟨nofun, .nil⟩
    | cons hp _ ih => exact ⟨List.forall_mem_cons.2 ⟨hp.1, ih.1⟩, .cons hp.2 ih.2⟩
  · rintro ⟨hio, h⟩
    induction h with
    | nil => exact .nil
    | cons hp _ ih =>
      obtain ⟨hfirst, hothers⟩ := List.forall_mem_cons.1 hio
      exact .cons ⟨hfirst, hp⟩ (ih hothers)

theorem tuple?_eq_some_iff {type : TupleType} :
    tuple? t = some type ↔ (ValueType.tuple type).IsWritable ∧ Spells t (.tuple type) := by
  constructor
  · intro h
    unfold tuple? at h
    split at h
    · next rest =>
      obtain ⟨inner, hinner, h⟩ := Option.bind_eq_some_iff.1 h
      obtain ⟨fields, hfields, h⟩ := Option.bind_eq_some_iff.1 h
      cases h
      obtain ⟨hio, hspells⟩ := mapM_fields_eq_some_iff.1 hfields
      have hne : fields ≠ [] := by
        rintro rfl
        cases hspells' : inner.splitOn ',' with
        | nil => exact List.splitOn_ne_nil ',' inner hspells'
        | cons => rw [hspells'] at hspells; cases hspells
      have hjoin : List.intercalate [','] (inner.splitOn ',') = inner := List.intercalate_splitOn ','
      rw [Text.before?_eq_some_iff.1 hinner, ← hjoin]
      exact ⟨⟨hne, hio⟩, .tuple hspells⟩
    · cases h
  · rintro ⟨⟨hne, hio⟩, h⟩
    cases h with
    | @tuple _ fields hfields =>
      have hparts : fields ≠ [] := by
        rintro rfl
        exact hne (List.forall₂_nil_left_iff.1 hfields)
      have hsplit := List.splitOn_intercalate ',' (notMem_comma_of_mem hfields) hparts
      have hread := mapM_fields_eq_some_iff.2 ⟨hio, hfields⟩
      rw [← hsplit] at hread
      have hbefore : Text.before? ')' (List.intercalate [','] fields ++ [')']) =
          some (List.intercalate [','] fields) := Text.before?_eq_some_iff.2 rfl
      rw [tuple?, hbefore, Option.bind_eq_bind, Option.bind_some, hread]
      rfl

/-! ### Sizes -/

/-- The digits of a size stand up to the bracket behind them. -/
theorem dimensions?_cons {digits : Text} (hdigits : ∀ c ∈ digits, c.isDigit) (rest : Text) :
    dimensions? ('[' :: (digits ++ ']' :: rest)) =
      (Text.toNatBelow? Text.wordSize digits).bind fun size =>
        (dimensions? rest).map (size :: ·) := by
  have hclose : ¬ Char.isDigit ']' := by decide
  have hdrop : (digits ++ ']' :: rest).dropWhile Char.isDigit = ']' :: rest := by
    rw [List.dropWhile_append_of_pos hdigits, List.dropWhile_cons_of_neg hclose]
  have htake : (digits ++ ']' :: rest).takeWhile Char.isDigit = digits := by
    rw [List.takeWhile_append_of_pos hdigits, List.takeWhile_cons_of_neg hclose, List.append_nil]
  rw [dimensions?]
  split
  · next more hmore =>
    obtain ⟨-, rfl⟩ := List.cons.inj (hdrop.symm.trans hmore)
    rw [htake]
    cases Text.toNatBelow? Text.wordSize digits with
    | none => rfl
    | some size => cases dimensions? rest <;> rfl
  · next hmore => exact absurd hdrop (hmore _)

theorem SpellsSize.exists_digits {n : Nat} (h : SpellsSize t n) :
    ∃ digits : Text, (∀ c ∈ digits, c.isDigit) ∧ digits.toNat? = some n ∧
      ∀ rest, t ++ rest = '[' :: (digits ++ ']' :: rest) := by
  obtain ⟨zeros, rfl⟩ := h
  have hvalue := Text.toNat?_zeros zeros n
  refine ⟨List.replicate zeros '0' ++ Text.ofNat n, fun c hc => ?_, hvalue, fun rest => by simp⟩
  rw [Text.toNat?] at hvalue
  split at hvalue
  · next hdigits => exact List.all_eq_true.1 hdigits.2 c hc
  · cases hvalue

theorem dimensions?_eq_some_iff {sizes : List Nat} :
    dimensions? t = some sizes ↔ (∀ n ∈ sizes, n < Text.wordSize) ∧
      ∃ texts : List Text, t = texts.flatten ∧ List.Forall₂ SpellsSize texts sizes := by
  constructor
  · intro h
    induction t using dimensions?.induct generalizing sizes with
    | case1 =>
      rw [dimensions?] at h
      cases h
      exact ⟨nofun, [], rfl, .nil⟩
    | case2 rest more hmore ih =>
      have hdigits := List.takeWhile_append_dropWhile (p := Char.isDigit) (l := rest)
      rw [hmore] at hdigits
      rw [← hdigits, dimensions?_cons fun c hc => List.mem_takeWhile_imp hc] at h
      obtain ⟨size, hsize, h⟩ := Option.bind_eq_some_iff.1 h
      obtain ⟨others, hothers, h⟩ := Option.map_eq_some_iff.1 h
      cases h
      obtain ⟨hbounds, texts, rfl, hspells⟩ := ih hothers
      obtain ⟨hvalue, hlt⟩ := Option.filter_eq_some_iff.1 hsize
      obtain ⟨zeros, hzeros⟩ := Text.toNat?_eq_some_iff.1 hvalue
      refine ⟨List.forall_mem_cons.2 ⟨of_decide_eq_true hlt, hbounds⟩,
        ('[' :: (List.replicate zeros '0' ++ Text.ofNat size ++ [']'])) :: texts, ?_,
        .cons ⟨zeros, rfl⟩ hspells⟩
      rw [← hdigits, hzeros]
      simp
    | case3 rest hmore =>
      rw [dimensions?] at h
      split at h
      · next more heq => exact absurd heq (hmore more)
      · cases h
    | case4 t hnil hopen =>
      rw [dimensions?] at h
      · cases h
      · exact hnil
      · exact hopen
  · rintro ⟨hbounds, texts, rfl, hspells⟩
    induction hspells with
    | nil => rw [List.flatten_nil, dimensions?]
    | cons hsize _ ih =>
      obtain ⟨hlt, hothers⟩ := List.forall_mem_cons.1 hbounds
      obtain ⟨digits, hdigits, hvalue, htext⟩ := hsize.exists_digits
      rw [List.flatten_cons, htext, dimensions?_cons hdigits, ih hothers, Text.toNatBelow?, hvalue,
        Option.filter_some, if_pos (decide_eq_true hlt)]
      rfl

/-- A keyword goes up to the first size. -/
theorem takeWhile_isAlpha_keyword (p : Primitive) {rest : Text} (h : ∀ c ∈ rest.head?, ¬ c.isAlpha) :
    (p.keyword.toList ++ rest).takeWhile Char.isAlpha = p.keyword.toList ∧
      (p.keyword.toList ++ rest).dropWhile Char.isAlpha = rest := by
  rw [List.takeWhile_append_of_pos p.isAlpha_of_mem_keyword,
    List.dropWhile_append_of_pos p.isAlpha_of_mem_keyword]
  cases rest with
  | nil => exact ⟨List.append_nil _, rfl⟩
  | cons c rest =>
    have hc := h c rfl
    rw [List.takeWhile_cons_of_neg hc, List.dropWhile_cons_of_neg hc, List.append_nil]
    exact ⟨rfl, rfl⟩

/-- Sizes start with a bracket. -/
theorem head?_sizes {texts : List Text} {sizes : List Nat} (h : List.Forall₂ SpellsSize texts sizes) :
    ∀ c ∈ texts.flatten.head?, c = '[' := by
  cases h with
  | nil => nofun
  | cons hsize _ =>
    obtain ⟨zeros, rfl⟩ := hsize
    exact fun c hc => (Option.some.inj hc).symm

theorem array?_eq_some_iff {type : ArrayType} :
    array? t = some type ↔ (ValueType.array type).IsWritable ∧ Spells t (.array type) := by
  constructor
  · intro h
    obtain ⟨base, hbase, h⟩ := Option.bind_eq_some_iff.1 h
    obtain ⟨dimensions, hdimensions, h⟩ := Option.bind_eq_some_iff.1 h
    obtain ⟨hio, hkeyword⟩ := element?_eq_some_iff.1 hbase
    obtain ⟨hbounds, texts, htexts, hspells⟩ := dimensions?_eq_some_iff.1 hdimensions
    split at h
    · cases h
    · next hne =>
      cases h
      rw [← List.takeWhile_append_dropWhile (p := Char.isAlpha) (l := t), hkeyword, htexts]
      exact ⟨⟨hio, hne, hbounds⟩, @Spells.array ⟨base, dimensions⟩ texts hspells⟩
  · rintro ⟨⟨hio, hne, hbounds⟩, h⟩
    cases h with
    | @array type texts hspells =>
      have hbracket : ∀ c ∈ texts.flatten.head?, ¬ c.isAlpha := by
        intro c hc
        rw [head?_sizes hspells c hc]
        decide
      obtain ⟨htake, hdrop⟩ := takeWhile_isAlpha_keyword type.base hbracket
      have hdimensions := dimensions?_eq_some_iff.2 ⟨hbounds, texts, rfl, hspells⟩
      rw [array?, htake, hdrop, element?_eq_some_iff.2 ⟨hio, rfl⟩, hdimensions]
      dsimp only [Option.bind_eq_bind, Option.bind_some]
      split
      · next hnil => exact absurd hnil hne
      · rfl

/-! ### Types -/

/-- Sizes of no dimension are none. -/
theorem array?_keyword (p : Primitive) : array? p.keyword.toList = none := by
  have hnone : ∀ c ∈ ([] : Text).head?, ¬ c.isAlpha := nofun
  obtain ⟨-, hdrop⟩ := takeWhile_isAlpha_keyword p hnone
  rw [List.append_nil] at hdrop
  rw [array?, hdrop, dimensions?]
  cases element? (p.keyword.toList.takeWhile Char.isAlpha) <;> rfl

theorem tuple?_keyword (p : Primitive) (rest : Text) : tuple? (p.keyword.toList ++ rest) = none := by
  cases p <;> rfl

/-- The reader finds a type just where one that can be written is spelled. -/
theorem read?_eq_some_iff {type : ValueType} :
    read? t = some type ↔ type.IsWritable ∧ Spells t type := by
  rw [read?]
  constructor
  · intro h
    cases htuple : tuple? t with
    | some found =>
      rw [htuple] at h
      cases h
      exact tuple?_eq_some_iff.1 htuple
    | none =>
      cases harray : array? t with
      | some found =>
        rw [htuple, harray] at h
        cases h
        exact array?_eq_some_iff.1 harray
      | none =>
        rw [htuple, harray] at h
        obtain ⟨p, hp, rfl⟩ := Option.map_eq_some_iff.1 h
        rw [Primitive.ofKeyword?_eq_some_iff.1 hp]
        exact ⟨trivial, .primitive p⟩
  · rintro ⟨hw, h⟩
    cases type with
    | tuple type => rw [tuple?_eq_some_iff.2 ⟨hw, h⟩]; rfl
    | array type =>
      have hread := array?_eq_some_iff.2 ⟨hw, h⟩
      cases h
      rw [tuple?_keyword, hread]
      rfl
    | primitive p =>
      cases h
      have htuple := tuple?_keyword p []
      rw [List.append_nil] at htuple
      rw [htuple, array?_keyword, Primitive.ofKeyword?_eq_some_iff.2 rfl]
      rfl

/-! ### Written forms -/

theorem spells_written (type : ValueType) : Spells type.written type := by
  cases type with
  | primitive p => exact .primitive p
  | array type =>
    have hsizes : List.Forall₂ SpellsSize (type.dimensions.map fun n => '[' :: Text.ofNat n ++ [']'])
        type.dimensions :=
      List.forall₂_map_left_iff.2 (List.forall₂_same.2 fun n _ => ⟨0, rfl⟩)
    have hspells := Spells.array hsizes
    rw [← List.flatMap_def] at hspells
    exact hspells
  | tuple type =>
    obtain ⟨fields⟩ := type
    cases fields with
    | nil => exact @Spells.tuple ⟨[]⟩ [] .nil
    | cons first others =>
      have hothers : List.Forall₂ SpellsField
          ((others.map fun p => p.keyword.toList).map (' ' :: ·)) others := by
        rw [List.map_map]
        exact List.forall₂_map_left_iff.2 (List.forall₂_same.2 fun p _ =>
          ⟨[' '], [], by simp, by decide, nofun⟩)
      have hfirst : SpellsField first.keyword.toList first := ⟨[], [], by simp, nofun, nofun⟩
      have hspells := @Spells.tuple ⟨first :: others⟩ _ (.cons hfirst hothers)
      rw [← Text.intercalate_comma_space] at hspells
      exact hspells

/-- No blanks stand around a type. -/
theorem trim_written (type : ValueType) : type.written.trim = type.written := by
  have hkeyword (p : Primitive) : ∃ c word, p.keyword.toList = c :: word ∧ isBlank c = false := by
    cases p <;> exact ⟨_, _, rfl, by decide⟩
  have hend (p : Primitive) : Text.EndsVisibly p.keyword.toList := by
    cases p <;> exact .of_getLast? rfl
  cases type with
  | primitive p => cases p <;> rfl
  | tuple type => exact Text.trim_eq_self (by decide) (Text.EndsVisibly.last (by decide) ('(' :: _))
  | array type =>
    obtain ⟨base, dimensions⟩ := type
    have hends : Text.EndsVisibly (written (.array ⟨base, dimensions⟩)) := by
      rcases List.eq_nil_or_concat dimensions with rfl | ⟨sizes, n, rfl⟩
      · simpa [written, ArrayType.written, ArrayType.brackets] using hend base
      · rw [List.concat_eq_append, written, ArrayType.written, ArrayType.brackets,
          List.flatMap_append, List.flatMap_singleton]
        exact .append (.append (.last (by decide) _) _) _
    obtain ⟨c, word, hword, hc⟩ := hkeyword base
    rw [written, ArrayType.written, hword, List.cons_append] at hends ⊢
    exact Text.trim_eq_self hc hends

end ValueType

end StellaGo
