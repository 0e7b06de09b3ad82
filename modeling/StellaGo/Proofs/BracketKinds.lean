import StellaGo.Proofs.BracketGroups
import StellaGo.Proofs.Rendering

/-! Kinds of brackets in an accepted source. Defined here: the groups on a line whose ends the readers
find by counting brackets of all kinds together. Proved: in an accepted source the brackets outside
literals nest, and they close their own kind just if each of these groups ends with the bracket for
the one that it starts with. -/

namespace StellaGo

namespace Text

variable {t : Text}

/-! ### Words and types -/

theorem Matched.of_flat (h : t.isFlat) : t.Matched := Pairs.of_flat h

theorem Matched.group {inner : Text} (h : inner.Matched) (b : Bracket) :
    Matched (b.opener :: (inner ++ [b.closer])) :=
  (matched_iff (h.balanced.group b b)).2 ⟨h, closesInKind_iff.2 rfl⟩

theorem Matched.append {u : Text} (ht : t.Matched) (hu : u.Matched) : Matched (t ++ u) :=
  ht.append_same hu

theorem Matched.of_topLevelParts (h : ∀ part ∈ t.topLevelParts ',', part.Matched) : t.Matched :=
  (Pairs.of_topLevelParts h).congr (iff_of_true (fun _ _ => trivial) trivial)

end Text

namespace ValueType

open Text (Matched Pairs)

variable {t : Text}

theorem isFlat_of_ofKeyword? {p : Primitive} (h : Primitive.ofKeyword? t = some p) : t.isFlat := by
  have hkeyword := List.find?_some (p := fun other : Primitive => other.keyword.toList == t) h
  rw [← beq_iff_eq.1 hkeyword]
  cases p <;> decide

theorem isFlat_of_element? {p : Primitive} (h : element? t = some p) : t.isFlat :=
  isFlat_of_ofKeyword? (Option.filter_eq_some_iff.1 h).1

/-- A text is its trimmed text between spaces and tabs. -/
theorem matched_of_trimSpaces (h : (trimSpaces t).Matched) : t.Matched := by
  have hfront : Text.isFlat (t.takeWhile isSpace) :=
    Text.isFlat_of_space fun c hc => List.mem_takeWhile_imp hc
  have hbehind : Text.isFlat ((t.dropWhile isSpace).reverse.takeWhile isSpace).reverse :=
    Text.isFlat_of_space fun c hc => List.mem_takeWhile_imp (List.mem_reverse.1 hc)
  have hmatched := (h.before_flat hbehind).after_flat hfront
  rwa [trimSpaces, ← List.reverse_append, List.takeWhile_append_dropWhile, List.reverse_reverse,
    List.takeWhile_append_dropWhile] at hmatched

theorem exists_of_mapM_eq_some {α β : Type} {f : α → Option β} {xs : List α} {ys : List β}
    (h : xs.mapM f = some ys) : ∀ x ∈ xs, ∃ y, f x = some y := by
  induction xs generalizing ys with
  | nil => nofun
  | cons x rest ih =>
    rw [List.mapM_cons] at h
    obtain ⟨y, hy, h⟩ := Option.bind_eq_some_iff.1 h
    obtain ⟨others, hothers, -⟩ := Option.bind_eq_some_iff.1 h
    exact List.forall_mem_cons.2 ⟨⟨y, hy⟩, ih hothers⟩

theorem matched_of_tuple? {type : TupleType} (h : tuple? t = some type) : t.Matched := by
  unfold tuple? at h
  split at h
  · next rest =>
    obtain ⟨inner, hinner, h⟩ := Option.bind_eq_some_iff.1 h
    obtain ⟨fields, hfields, -⟩ := Option.bind_eq_some_iff.1 h
    obtain rfl := Text.before?_eq_some_iff.1 hinner
    have hall : ∀ field ∈ inner.splitOn ',', Pairs [] [] True field := by
      intro field hfield
      obtain ⟨type, htype⟩ := exists_of_mapM_eq_some hfields field hfield
      exact matched_of_trimSpaces (.of_flat (isFlat_of_element? htype))
    have hinner := Pairs.intercalate hall
    rw [List.intercalate_splitOn] at hinner
    exact Matched.group (hinner.congr (iff_of_true (fun _ _ => trivial) trivial)) .round
  · cases h

theorem matched_of_dimensions? {sizes : List Nat} (h : dimensions? t = some sizes) : t.Matched := by
  fun_induction dimensions? t generalizing sizes with
  | case1 => exact .nil
  | case2 rest more hmore ih =>
    obtain ⟨size, -, h⟩ := Option.bind_eq_some_iff.1 h
    obtain ⟨others, hothers, -⟩ := Option.bind_eq_some_iff.1 h
    have hdigits : Matched (rest.takeWhile Char.isDigit) :=
      .of_flat (Text.isFlat_of_forall (by decide) (fun b => by cases b <;> decide)
        fun c hc => List.mem_takeWhile_imp hc)
    have hgroup := (hdigits.group .square).append (ih hothers)
    rw [← List.takeWhile_append_dropWhile (p := Char.isDigit) (l := rest), hmore]
    rwa [List.cons_append, List.append_assoc] at hgroup
  | case3 => cases h
  | case4 => cases h

theorem matched_of_array? {type : ArrayType} (h : array? t = some type) : t.Matched := by
  obtain ⟨base, hbase, h⟩ := Option.bind_eq_some_iff.1 h
  obtain ⟨sizes, hsizes, -⟩ := Option.bind_eq_some_iff.1 h
  rw [← List.takeWhile_append_dropWhile (p := Char.isAlpha) (l := t)]
  exact (Matched.of_flat (isFlat_of_element? hbase)).append (matched_of_dimensions? hsizes)

/-- The text of a type. -/
theorem matched_of_read? {type : ValueType} (h : read? t = some type) : t.Matched := by
  cases htuple : tuple? t with
  | some => exact matched_of_tuple? htuple
  | none =>
    cases harray : array? t with
    | some => exact matched_of_array? harray
    | none =>
      rw [read?, htuple, harray] at h
      obtain ⟨p, hp, -⟩ := Option.map_eq_some_iff.1 h
      exact .of_flat (isFlat_of_ofKeyword? hp)

theorem matched_of_readType {r r' : Requirements} {type : ValueType}
    (h : r.readType t = (.ok type, r')) : t.Matched := by
  rw [Requirements.readType] at h
  split at h
  · next hread => exact (matched_of_read? hread).of_trim
  · cases h

end ValueType

namespace Expression

open Text (ClosesInKind Matched Pairs)

variable {symbols : Symbols} {text : Text}

/-! ### Values -/

theorem matched_of_expression {e : Expression} (h : expression symbols text = .ok e) :
    text.Matched := by
  obtain ⟨tokens, hscan, -⟩ := expression_eq_ok_iff.1 h
  exact .of_scan hscan

theorem exists_of_mem_left {α β : Type} {R : α → β → Prop} {xs : List α} {ys : List β} {x : α}
    (h : List.Forall₂ R xs ys) (hx : x ∈ xs) : ∃ y ∈ ys, R x y :=
  exists_of_mem_forall₂ h.flip hx

theorem exists_opener_of_startsWith {b : Bracket} (h : text.startsWith b.opener) :
    ∃ rest, text = b.opener :: rest := by
  cases text with
  | nil => cases h
  | cons c rest => exact ⟨rest, by rw [Option.some.inj (beq_iff_eq.1 h)]⟩

/-- An array literal without rows. -/
theorem pairs_of_elements {base : Primitive} {b : Bracket} {rest inner : Text} {items : List Item}
    (hi : Text.inside? (b.opener :: rest) 0 = some inner)
    (h : List.Forall₂ (fun part item =>
      ∃ e, item = .scalar e ∧ e.type = base ∧ expression symbols part = .ok e)
      (inner.topLevelParts ',') items) :
    Pairs [] [] (∀ g ∈ Text.groups (b.opener :: rest), g.ClosesInKind) (b.opener :: rest) := by
  refine .of_inside? hi fun part hpart => ?_
  obtain ⟨item, -, e, -, -, he⟩ := exists_of_mem_left h hpart
  exact (matched_of_expression he).pairs_groups

/-- An array literal, with its rows. -/
theorem pairs_of_readsItems {base : Primitive} :
    ∀ {sizes : List Nat} {text : Text} {items : List Item}, text.startsWith '[' →
      ReadsItems symbols base sizes text items →
      Pairs [] [] (∀ g ∈ text.groups, g.ClosesInKind) text
  | [], text, items, hs, h | [_], text, items, hs, h => by
    obtain ⟨rest, rfl⟩ := exists_opener_of_startsWith (b := .square) hs
    obtain ⟨inner, hi, -, hall⟩ := h
    exact pairs_of_elements hi hall
  | size :: next :: deeper, text, items, hs, h => by
    obtain ⟨rest, rfl⟩ := exists_opener_of_startsWith (b := .square) hs
    obtain ⟨inner, hi, -, hall⟩ := h
    refine .of_inside? hi fun part hpart => ?_
    obtain ⟨item, -, hrow, items, -, hitems⟩ := exists_of_mem_left hall hpart
    exact pairs_of_readsItems hrow hitems

theorem pairs_of_readsAggregate {expected : Aggregate} {v : Value}
    (h : ReadsAggregate symbols text expected v) :
    Pairs [] [] (∀ g ∈ text.trim.groups, g.ClosesInKind) text := by
  cases h with
  | items hs h => exact (pairs_of_readsItems hs h).of_trim
  | fields hs hi h ht =>
    obtain ⟨rest, hrest⟩ := exists_opener_of_startsWith (b := .round) hs
    refine Pairs.of_trim ?_
    rw [hrest] at hi ⊢
    refine .of_inside? hi fun part hpart => ?_
    obtain ⟨e, -, he⟩ := exists_of_mem_left h hpart
    exact (matched_of_expression he).pairs_groups
  | call hs | array hs | tuple hs =>
    have hmatched : text.trim.Matched := .of_scan hs
    exact Matched.pairs_groups_trim hmatched.of_trim

/-- The brackets in the text of a value close their own kind as far as the groups in it do. -/
theorem pairs_of_readsValue {type : ValueType} {v : Value}
    (h : ReadsValue symbols type text v) :
    Pairs [] [] (∀ g ∈ text.trim.groups, g.ClosesInKind) text := by
  cases type with
  | primitive type =>
    obtain ⟨e, -, -, he⟩ := h
    exact (matched_of_expression he).pairs_groups_trim
  | array type | tuple type => exact pairs_of_readsAggregate (readsAggregate_of_aggregate h)

end Expression

/-! ### Lines -/

namespace Text

/-- The groups on a line whose ends the readers find by counting: the brackets around the parameters
of a function or the argument of a call with `!`, the index brackets of an assignment, and the
brackets of array and tuple values. -/
def countedGroups (line : Text) : List Text :=
  match line.lineKind with
  | .function | .builtin => (firstGroup? (line.dropWhile (· != '('))).toList
  | .declaration => (LetHeader.read? line).elim [] fun header => header.value.trim.groups
  | .assignment => line.assignmentAt?.elim [] fun equals =>
    groupsInRow ((trim (line.take equals)).dropWhile (· != '[')) ++
      groups (trim (line.drop (equals + 1)))
  | .result => line.trim.groups
  | _ => []

/-- Each group on the line whose end is found by counting ends with the bracket for its first one. -/
def CountsInKind (line : Text) : Prop := ∀ g ∈ line.countedGroups, g.ClosesInKind

theorem Pairs.of_countedGroups_eq_nil {closed opened : List Bracket} {line : Text}
    (h : Pairs closed opened True line) (hnone : line.countedGroups = []) :
    Pairs closed opened line.CountsInKind line := by
  refine h.congr (iff_of_true trivial ?_)
  rw [CountsInKind, hnone]
  nofun

/-- In a flat text there is no bracket to stop at. -/
theorem dropWhile_append_of_isFlat {front : Text} (h : front.isFlat) (b : Bracket) (rest : Text) :
    (front ++ rest).dropWhile (· != b.opener) = rest.dropWhile (· != b.opener) := by
  refine List.dropWhile_append_of_pos fun c hc => bne_iff_ne.2 ?_
  rintro rfl
  have hflat := List.all_eq_true.1 h _ hc
  cases b <;> exact absurd hflat (by decide)

end Text

theorem Glyph.getElem?_of_loneEquals {depth : Int} {before : Option Char} {gs : List Glyph} {k : Nat}
    (h : loneEquals depth before gs = some k) : gs[k]? = some (.code '=') := by
  induction gs generalizing depth before k with
  | nil => cases h
  | cons g rest ih =>
    rw [loneEquals] at h
    split at h
    · next hg =>
      cases h
      simp only [Bool.and_eq_true, beq_iff_eq] at hg
      rw [List.getElem?_cons_zero, hg.1.1]
    · obtain ⟨i, hi, rfl⟩ := Option.map_eq_some_iff.1 h
      exact ih hi

theorem Text.getElem?_of_assignmentAt? {t : Text} {equals : Nat} (h : t.assignmentAt? = some equals) :
    t[equals]? = some '=' := by
  have hequals := congrArg (Option.map Glyph.char) (Glyph.getElem?_of_loneEquals h)
  rwa [← List.getElem?_map, Glyph.map_char_ofText] at hequals

theorem Text.eq_append_of_assignmentAt? {line : Text} {equals : Nat}
    (h : line.assignmentAt? = some equals) :
    line = line.take equals ++ '=' :: line.drop (equals + 1) := by
  obtain ⟨hlt, hget⟩ := List.getElem?_eq_some_iff.1 (Text.getElem?_of_assignmentAt? h)
  conv_lhs => rw [← List.take_append_drop equals line, List.drop_eq_getElem_cons hlt, hget]

namespace Statement

open Text (CountsInKind Matched Pairs)

variable {f after : Frame} {symbols : Symbols} {line : Text} {s : Statement}

theorem pairs_of_readDeclaration (hk : line.lineKind = .declaration)
    (h : readDeclaration f line = .ok (s, after)) : Pairs [] [] line.CountsInKind line := by
  obtain ⟨header, type, v, r, hheader, hname, htype, -, hv, -⟩ := readDeclaration_eq_ok h
  have hcounts : line.CountsInKind ↔ ∀ g ∈ header.value.trim.groups, g.ClosesInKind := by
    rw [CountsInKind, Text.countedGroups, hk, hheader]
    rfl
  obtain ⟨first, front, third, fourth, written, hline, hwritten, -, hspaces, hmarked, hplain⟩ :=
    LetHeader.read?_eq_some hheader
  have hblanks : Text.isFlat (first ++ third ++ fourth) := Text.isFlat_of_space hspaces
  simp only [Text.isFlat_append] at hblanks
  obtain ⟨⟨hfirst, hthird⟩, hfourth⟩ := hblanks
  have hfront : front.isFlat := by
    cases hm : header.isMutable with
    | false =>
      rw [hplain hm]
      rfl
    | true =>
      obtain ⟨second, rfl, -, hsecond⟩ := hmarked hm
      exact Text.isFlat_append.2 ⟨by decide, Text.isFlat_of_space hsecond⟩
  have htype : written.Matched := by
    have hmatched := ValueType.matched_of_readType htype
    rw [hwritten] at hmatched
    exact hmatched.of_trim
  have hvalue := (Expression.pairs_of_readsValue hv).congr hcounts.symm
  have hequals : Pairs [] [] line.CountsInKind ('=' :: header.value) :=
    hvalue.after_flat (u := ['=']) rfl
  have hwords : Text.isFlat ("let".toList ++ first ++ front ++ header.name ++ third ++
      ':' :: fourth) := by
    have hlet : Text.isFlat "let".toList := by decide
    have hcolon : Text.isFlat (':' :: fourth) := hfourth
    have hidentifier := Text.isFlat_of_word (Name.isWordChar_of_problem? hname)
    simp only [Text.isFlat_append]
    exact ⟨⟨⟨⟨⟨hlet, hfirst⟩, hfront⟩, hidentifier⟩, hthird⟩, hcolon⟩
  have hpairs := (htype.after_flat hwords).append_same hequals
  rwa [← hline] at hpairs

/-- A target with indices. -/
theorem pairs_of_target {target : Text} {i : Indexing} (hs : symbols.Identifies)
    (h : indexing symbols target = .ok i) :
    Pairs [] [] (∀ g ∈ Text.groupsInRow (target.dropWhile (· != '[')), g.ClosesInKind) target := by
  obtain ⟨texts, array, htexts, hlookup, -, -, hall, -⟩ := Expression.indexing_eq_ok h
  have hname : Text.isFlat (target.takeWhile (· != '[')) :=
    Text.isFlat_of_word (Name.isWordChar_of_problem? (hs _ _ hlookup).2)
  have hfront : Matched (target.takeWhile (· != '[')) := .of_flat hname
  have hinsides : Glyph.squareInsides? (Glyph.ofText (target.dropWhile (· != '['))) = some texts := by
    have hglyphs := hfront.ends (target.dropWhile (· != '['))
    rw [List.takeWhile_append_dropWhile] at hglyphs
    rwa [Text.indices?, hglyphs, ← Glyph.length_ofText, List.drop_left] at htexts
  have hindices := Pairs.of_squareInsides? hinsides fun text htext => by
    obtain ⟨e, -, he⟩ := Expression.exists_of_mem_left hall htext
    exact Expression.matched_of_expression he
  have htarget := hindices.after_flat hname
  rwa [List.takeWhile_append_dropWhile] at htarget

theorem pairs_of_readAssignment (hs : symbols.Identifies) (hk : line.lineKind = .assignment)
    (h : readAssignment symbols line = .ok s) : Pairs [] [] line.CountsInKind line := by
  have hassign {equals : Nat} (ha : line.assignmentAt? = some equals)
      (htarget : Pairs [] [] (∀ g ∈ Text.groupsInRow
        ((Text.trim (line.take equals)).dropWhile (· != '[')), g.ClosesInKind)
        (Text.trim (line.take equals)))
      (hvalue : Pairs [] [] (∀ g ∈ Text.groups (Text.trim (line.drop (equals + 1))),
        g.ClosesInKind) (line.drop (equals + 1))) : Pairs [] [] line.CountsInKind line := by
    have hequals := hvalue.after_flat (u := ['=']) rfl
    have hline := htarget.of_trim.append hequals
    rw [List.singleton_append, ← Text.eq_append_of_assignmentAt? ha] at hline
    refine hline.congr ?_
    rw [CountsInKind, Text.countedGroups, hk, ha]
    exact List.forall_mem_append.symm
  cases readAssignment_eq_ok h with
  | element ha hi _ he _ =>
    have hvalue := Matched.pairs_groups (Expression.matched_of_expression he)
    exact hassign ha (pairs_of_target hs hi) hvalue.of_trim
  | @whole equals b v ha hn _ _ hv =>
    have hname := Name.isWordChar_of_problem? hn
    have hflat := Text.isFlat_of_word hname
    have hbracket : (Text.trim (line.take equals)).dropWhile (· != '[') = [] := by
      have hdrop := Text.dropWhile_append_of_isFlat hflat .square []
      rwa [List.append_nil] at hdrop
    have htarget : Matched (Text.trim (line.take equals)) := .of_flat hflat
    have hvalue := Expression.pairs_of_readsValue hv
    rw [Text.trim_trim] at hvalue
    refine hassign ha (htarget.congr ?_) hvalue.of_trim
    rw [hbracket, Text.groupsInRow_eq_nil rfl]
    exact iff_of_true trivial nofun

theorem head?_of_readBuiltin {name rest : Text} (hname : Name.read? line = some (name, '!' :: rest))
    (h : readBuiltin f line = .ok (s, after)) : rest.head? = some '(' := by
  unfold readBuiltin at h
  split at h
  · next name' rest' hname' =>
    cases hname.symm.trans hname'
    split at h
    · dsimp only at h
      split at h
      · cases h
      next hbracket => exact not_not.1 hbracket
    · cases h
  · cases h

theorem pairs_of_readBuiltin (hk : line.lineKind = .builtin)
    (h : readBuiltin f line = .ok (s, after)) : Pairs [] [] line.CountsInKind line := by
  obtain ⟨name, rest, callee, inside, argument, hname, -, hinside, hargument, -⟩ :=
    readBuiltin_eq_ok h
  obtain ⟨more, rfl⟩ := List.head?_eq_some_iff.1 (head?_of_readBuiltin hname h)
  obtain ⟨hline, hword⟩ := Name.read?_eq_some hname
  have hopener : '(' :: more = Bracket.round.opener :: more := rfl
  have hwords : Text.isFlat (name ++ ['!']) :=
    Text.isFlat_append.2 ⟨Text.isFlat_of_word hword, rfl⟩
  have hcounts : line.CountsInKind ↔ Text.ClosesInKind ('(' :: more) := by
    have hdrop := Text.dropWhile_append_of_isFlat hwords .round ('(' :: more)
    rw [List.append_assoc, List.singleton_append, ← hline] at hdrop
    rw [CountsInKind, Text.countedGroups, hk]
    dsimp only
    rw [show line.dropWhile (· != '(') = '(' :: more from hdrop]
    rw [Text.firstGroup?_of_inside? (List.cons_ne_nil _ _) hinside]
    exact List.forall_mem_singleton
  rw [hopener] at hinside
  obtain ⟨c, rfl, hbalanced⟩ := Text.exists_closer_of_inside? hinside
  have hmatched : inside.Matched := (Expression.matched_of_expression hargument).of_trim
  have hgroup := (hbalanced.group .round c).congr
    ((and_iff_right hmatched).trans hcounts.symm)
  have hpairs := hgroup.after_flat hwords
  rwa [List.append_assoc, ← hopener, List.singleton_append, ← hline] at hpairs

theorem pairs_of_readResult {scope : Scope} (hk : line.lineKind = .result)
    (h : readResult scope line = .ok s) : Pairs [] [] line.CountsInKind line := by
  obtain ⟨type, v, -, -, hv⟩ := readResult_eq_ok h
  refine (Expression.pairs_of_readsValue hv).congr ?_
  rw [CountsInKind, Text.countedGroups, hk]

end Statement

namespace Program

open Text (CountsInKind Matched Pairs)

variable {f : Frame} {line : Text}

/-! ### Headers -/

theorem matched_of_readParameter {r r' : Requirements} {earlier : List Name} {text : Text}
    {p : Parameter} (h : readParameter r earlier text = .ok (p, r')) : text.Matched := by
  unfold readParameter at h
  split at h
  · cases h
  next name type hcut =>
  dsimp only at h
  split at h
  · cases h
  next hname =>
  split at h
  · cases h
  obtain ⟨t, htype, -⟩ := Check.bind_eq_ok_iff.1 h
  obtain ⟨rfl, -⟩ := Text.eq_append_of_cut? hcut
  have hproblem : Name.problem? name.trim = none := Option.eq_none_iff_forall_ne_some.2 hname
  have hidentifier : name.trim.Matched :=
    .of_flat (Text.isFlat_of_word (Name.isWordChar_of_problem? hproblem))
  have hwritten : type.Matched := ValueType.matched_of_readType
    (Prod.ext (Check.mapError_eq_ok_iff.1 htype) rfl)
  exact hidentifier.of_trim.append_same (hwritten.after_flat (u := [':']) rfl)

theorem matched_of_readParameters {r r' : Requirements} {earlier : List Name} {texts : List Text}
    {parameters : List Parameter} (h : readParameters r earlier texts = .ok (parameters, r')) :
    ∀ text ∈ texts, text.Matched := by
  induction texts generalizing r earlier parameters with
  | nil => nofun
  | cons text texts ih =>
    obtain ⟨⟨p, r₁⟩, hp, h⟩ := Check.bind_eq_ok_iff.1 h
    obtain ⟨⟨ps, r₂⟩, hps, h⟩ := Check.bind_eq_ok_iff.1 h
    cases h
    exact List.forall_mem_cons.2 ⟨matched_of_readParameter hp, ih hps⟩

/-- What stands behind the parameters opens the body. -/
theorem pairs_of_readReturns? {text returns : Text}
    (h : FunctionHeader.readReturns? text = some returns) (hreturns : returns.Matched) :
    Pairs [] [.curly] True text := by
  obtain ⟨first, second, written, third, fourth, rfl, rfl, hspaces⟩ :=
    FunctionHeader.readReturns?_eq_some h
  have hblanks : Text.isFlat (first ++ second ++ third ++ fourth) := Text.isFlat_of_space hspaces
  simp only [Text.isFlat_append] at hblanks
  obtain ⟨⟨⟨hfirst, hsecond⟩, hthird⟩, hfourth⟩ := hblanks
  have hbrace : Pairs [] [.curly] True ('{' :: fourth) := .opener (b := .curly) (.of_flat hfourth)
  have hequals : Text.isFlat (['='] ++ third) := Text.isFlat_append.2 ⟨rfl, hthird⟩
  have harrow : Text.isFlat (first ++ "->".toList ++ second) := by
    simp only [Text.isFlat_append]
    exact ⟨⟨hfirst, by decide⟩, hsecond⟩
  exact ((hreturns.of_trim.after_flat harrow).before_flat hequals).append_same hbrace

theorem pairs_of_readSignature {s : Signature} {r : Requirements} (hk : line.lineKind = .function)
    (h : readSignature f line = .ok (s, r)) : Pairs [] [.curly] line.CountsInKind line := by
  unfold readSignature at h
  split at h
  · cases h
  next header hheader =>
  dsimp only at h
  split at h
  · cases h
  next hname =>
  obtain ⟨⟨⟩, -, h⟩ := Check.bind_eq_ok_iff.1 h
  obtain ⟨⟨parameters, r'⟩, hparameters, h⟩ := Check.bind_eq_ok_iff.1 h
  obtain ⟨returns, hreturns, -⟩ := Check.bind_eq_ok_iff.1 h
  have hproblem : Name.problem? header.name = none := Option.eq_none_iff_forall_ne_some.2 hname
  obtain ⟨first, blanks, rest, close, hline, hfirst, hblanks, hclose, hinner, hbehind⟩ :=
    FunctionHeader.read?_eq_some hheader
  have hwords : Text.isFlat ("function".toList ++ first ++ header.name ++ blanks) := by
    have hidentifier := Text.isFlat_of_word (Name.isWordChar_of_problem? hproblem)
    simp only [Text.isFlat_append]
    exact ⟨⟨⟨by decide, Text.isFlat_of_space hfirst⟩, hidentifier⟩, Text.isFlat_of_blank hblanks⟩
  have hopener : '(' :: rest = Bracket.round.opener :: rest := rfl
  have hcounts : line.CountsInKind ↔ Text.ClosesInKind (('(' :: rest).take (close + 1)) := by
    have hdrop := Text.dropWhile_append_of_isFlat hwords .round ('(' :: rest)
    rw [← hline] at hdrop
    rw [CountsInKind, Text.countedGroups, hk]
    dsimp only
    rw [show line.dropWhile (· != '(') = '(' :: rest from hdrop, Text.firstGroup?, hclose]
    exact List.forall_mem_singleton
  rw [hopener] at hclose hinner hbehind hcounts
  obtain ⟨inner, c, behind, rfl, rfl, hbalanced⟩ := Text.exists_group_of_closerFrom? hclose
  rw [Text.take_group] at hcounts
  rw [Text.drop_group] at hbehind
  obtain rfl : header.parameters = inner := by
    rw [hinner, List.take_succ_cons, List.tail_cons, List.take_left]
  have hmatched := Matched.of_topLevelParts (matched_of_readParameters hparameters)
  have hgroup := (hbalanced.group .round c).congr ((and_iff_right hmatched).trans hcounts.symm)
  have hreturns : Pairs [] [.curly] True behind := pairs_of_readReturns? hbehind
    (ValueType.matched_of_readType (Prod.ext (Check.mapError_eq_ok_iff.1 hreturns) rfl))
  have hpairs := ((hgroup.append hreturns).congr (iff_of_eq (and_true _))).after_flat hwords
  rwa [List.cons_append, List.append_assoc header.parameters, List.singleton_append, ← hopener,
    ← hline] at hpairs

/-! ### Lines of a scope -/

/-- The glyphs on the lines, each line read by itself. -/
def glyphs (lines : List Line) : List Glyph := lines.flatMap fun line => Glyph.ofText line.text

/-- Each of the lines counts in kind. -/
def CountInKind (lines : List Line) : Prop := ∀ line ∈ lines, line.text.CountsInKind

theorem pairs_cons {closed opened next : List Bracket} {line : Line} {rest : List Line}
    (h : Pairs closed opened line.text.CountsInKind line.text)
    (hrest : Glyph.Pairs opened next (CountInKind rest) (glyphs rest)) :
    Glyph.Pairs closed next (CountInKind (line :: rest)) (glyphs (line :: rest)) := by
  rw [glyphs, List.flatMap_cons]
  refine (h.run.append hrest).congr ?_
  rw [CountInKind, CountInKind, List.forall_mem_cons]

theorem pairs_append {closed opened next : List Bracket} {xs ys : List Line}
    (hx : Glyph.Pairs closed opened (CountInKind xs) (glyphs xs))
    (hy : Glyph.Pairs opened next (CountInKind ys) (glyphs ys)) :
    Glyph.Pairs closed next (CountInKind (xs ++ ys)) (glyphs (xs ++ ys)) := by
  rw [glyphs, List.flatMap_append]
  refine (hx.append hy).congr ?_
  rw [CountInKind, CountInKind, CountInKind, List.forall_mem_append]

theorem pairs_of_empty {lines : List Line} (h : ∀ line ∈ lines, line.text = []) :
    Glyph.Pairs [] [] (CountInKind lines) (glyphs lines) := by
  induction lines with
  | nil => exact Glyph.Pairs.nil.congr (iff_of_true trivial nofun)
  | cons line rest ih =>
    obtain ⟨hline, hrest⟩ := List.forall_mem_cons.1 h
    have hnil : Pairs [] [] line.text.CountsInKind line.text := by
      rw [hline]
      exact Pairs.nil.of_countedGroups_eq_nil rfl
    exact pairs_cons hnil (ih hrest)

theorem pairs_of_readsLine {f next : Frame} {text : Text} {s : Statement}
    (hs : f.scope.symbols.Identifies) (h : ReadsLine f text s next) :
    Pairs [] [] text.CountsInKind text := by
  cases h with
  | declaration hk h => exact Statement.pairs_of_readDeclaration hk h
  | assignment hk h => exact Statement.pairs_of_readAssignment hs hk h
  | @jump jump _ hk h =>
    have hflat : text.isFlat := by
      rw [(Statement.readJump_eq_ok h).1]
      cases jump <;> decide
    exact (Pairs.of_flat hflat).of_countedGroups_eq_nil (by rw [Text.countedGroups, hk])
  | builtin hk h => exact Statement.pairs_of_readBuiltin hk h

/-- The header of a block with a condition. -/
theorem pairs_of_header {symbols : Symbols} {keyword : String} {inner : Text} {condition : Expression}
    (hk : Text.isFlat keyword.toList) (h : line.betweenKeywordAndBrace? keyword = some inner)
    (hcondition : Statement.readCondition symbols inner = .ok condition)
    (hnone : line.countedGroups = []) : Pairs [] [.curly] line.CountsInKind line :=
  (Pairs.of_header hk h (pairs_of_readCondition hcondition)).of_countedGroups_eq_nil hnone

/-- The lines in a block, the line that closes the block, and the lines behind it. -/
theorem pairs_block {opened next : List Bracket} {inside rest : List Line} {close : Line}
    (hinside : Glyph.Pairs [] [] (CountInKind inside) (glyphs inside))
    (hclose : Pairs [.curly] opened True close.text) (hs : close.text.startsWith '}')
    (hrest : Glyph.Pairs opened next (CountInKind rest) (glyphs rest)) :
    Glyph.Pairs [.curly] next (CountInKind (inside ++ close :: rest))
      (glyphs (inside ++ close :: rest)) := by
  obtain ⟨tail, htail, -⟩ := exists_tail_of_closer hs
  have hkind : close.text.lineKind = .closer := by rw [htail, Text.lineKind_of_closer]
  have hline := hclose.of_countedGroups_eq_nil (by rw [Text.countedGroups, hkind])
  exact pairs_append (hinside.keep [.curly]) (pairs_cons hline hrest)

/-- Lines that were read close the brackets that they open. Those of clauses close the brace of the
header of the first clause too. -/
def Reading.IsPaired : Reading → Prop
  | lines _ taken _ _ => Glyph.Pairs [] [] (CountInKind taken) (glyphs taken)
  | clauses _ _ taken _ _ => Glyph.Pairs [.curly] [] (CountInKind taken) (glyphs taken)

theorem Reads.isPaired {reading : Reading} (h : Reads reading)
    (hf : reading.before.scope.symbols.Identifies) : reading.IsPaired := by
  induction h with
  | nil => exact Glyph.Pairs.nil.congr (iff_of_true trivial nofun)
  | @blank f after line rest statements hk _ ih =>
    have hblank : Pairs [] [] True line.text.trim := by
      rw [Text.trim_eq_nil_of_lineKind hk]
      exact .nil
    exact pairs_cons (hblank.of_trim.of_countedGroups_eq_nil (by rw [Text.countedGroups, hk])) (ih hf)
  | line _ hline _ ih =>
    exact pairs_cons (pairs_of_readsLine hf hline) (ih (hline.spells.identifies hf))
  | result _ hk hresult hrest =>
    exact pairs_cons (Statement.pairs_of_readResult hk hresult) (pairs_of_empty hrest)
  | selection _ hk hheader hcondition hclauses _ ihclauses ihrest =>
    have hline := pairs_of_header (by decide) hheader hcondition (by rw [Text.countedGroups, hk])
    exact pairs_cons hline (pairs_append (ihclauses hf) (ihrest (hclauses.identifies hf)))
  | loop _ hk hheader hcondition _ _ hclose _ ihinside ihrest =>
    have hline := pairs_of_header (by decide) hheader hcondition (by rw [Text.countedGroups, hk])
    exact pairs_cons hline (pairs_block (ihinside hf) hclose.pairs hclose.1 (ihrest hf))
  | function _ hk hsignature henter _ _ hclose hdeclare _ ihinside ihrest =>
    have hentered := identifies_of_enterFunction hf hsignature henter
    have hnext := identifies_of_declare hdeclare hf (readSignature_eq_ok hsignature).1
    exact pairs_cons (pairs_of_readSignature hk hsignature)
      (pairs_block (ihinside hentered) hclose.pairs hclose.1 (ihrest hnext))
  | lastClause _ hclose ihinside =>
    exact pairs_block (ihinside hf) hclose.pairs hclose.1 (pairs_of_empty nofun)
  | nextClause _ hclose hnext _ ihinside ihclauses =>
    exact pairs_block (ihinside hf) (pairs_of_readNextHeader hclose hnext) hclose (ihclauses hf)

/-- In an accepted source the brackets outside literals nest, and they close their own kind just if
each group whose end is found by counting ends with the bracket for its first one. -/
theorem bracketKinds_of_read {source : Text} {p : Program} (h : Program.read source = .ok p) :
    ∃ pairs, Glyph.pairs? [] (glyphs source.numberedLines) = some (pairs, []) ∧
      ((∀ pair ∈ pairs, pair.1 = pair.2) ↔
        ∀ line ∈ source.numberedLines, line.text.CountsInKind) := by
  obtain ⟨after, hreads, -⟩ := reads_of_read h
  exact hreads.isPaired Symbols.identifies_empty

theorem bracketKinds_of_read_array :
    ∃ (source : Text) (p : Program),
      source = Text.block "function main() -> IO ="
        ["let a: int[2] = [1, 2]".toList, "println!(a[0])".toList] ∧
      Program.read source = .ok p ∧
      ∃ pairs, Glyph.pairs? [] (glyphs source.numberedLines) = some (pairs, []) ∧
        ((∀ pair ∈ pairs, pair.1 = pair.2) ↔
          ∀ line ∈ source.numberedLines, line.text.CountsInKind) := by
  have haccepted : (Program.read (Text.block "function main() -> IO ="
      ["let a: int[2] = [1, 2]".toList, "println!(a[0])".toList])).isOk := by decide +kernel
  obtain ⟨p, hp⟩ := Check.isOk_iff.1 haccepted
  exact ⟨_, p, rfl, hp, bracketKinds_of_read hp⟩

/-- The end of the argument of `println!` is found by counting, so that a `]` can close its `(`. -/
theorem bracketKinds_mixed :
    (Program.read (Text.block "function main() -> IO =" ["println!(1]".toList])).isOk ∧
      ¬ ∃ pairs, Glyph.pairs? [] (glyphs (Text.numberedLines
        (Text.block "function main() -> IO =" ["println!(1]".toList]))) = some (pairs, []) ∧
          ∀ pair ∈ pairs, pair.1 = pair.2 := by
  have hpairs : Glyph.pairs? [] (glyphs (Text.numberedLines
      (Text.block "function main() -> IO =" ["println!(1]".toList]))) =
        some ([(.round, .round), (.round, .square), (.curly, .curly)], []) := by decide +kernel
  refine ⟨by decide +kernel, fun ⟨pairs, hfound, hkinds⟩ => ?_⟩
  obtain rfl : [(.round, .round), (.round, .square), (.curly, .curly)] = pairs :=
    congrArg Prod.fst (Option.some.inj (hpairs.symm.trans hfound))
  exact absurd (hkinds (.round, .square) (by decide)) (by decide)

end Program

end StellaGo
