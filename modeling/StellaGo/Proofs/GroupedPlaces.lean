import StellaGo.Proofs.IndexBounds
import StellaGo.Proofs.Places
import StellaGo.Proofs.RoundTrip

/-! Brackets around an expression at each of its places. Defined here: what was made of an
expression and of it in brackets, and texts of which one has a pair of round brackets more. Proved: as
an argument, a field, an element at any depth or an index, a text in round or curly brackets is accepted
just if it is without them, and the Go text has a pair of round brackets more. Only an index that is a
constant outside its dimension is accepted in brackets and refused without them. -/

namespace StellaGo

open Text (Closes)
open Check (Alike)

variable {symbols : Symbols} {b : Bracket} {t : Text} {tokens : List Text}

namespace Expression

/-- The two were made of an expression that the text spells, the second one of it in brackets. -/
def MadeOf {α : Type} (symbols : Symbols) (b : Bracket) (t : Text) (make : Expression → α) (x y : α) :
    Prop :=
  ∃ e, expression symbols t = .ok e ∧ x = make e ∧ y = make (e.grouped b)

/-- The reader takes just the expressions of this type. -/
def TakesTyped {α : Type} (symbols : Symbols) (type : Primitive) (make : Expression → α)
    (read : Text → Check α) : Prop :=
  ∃ fault : Text → Expression → Fault, ∀ text, read text = expression symbols text >>= fun e =>
    if e.type ≠ type then .error (fault text e) else .ok (make e)

theorem takesTyped_argumentAt {function : Name} {p : Parameter} {type : Primitive} {position : Nat}
    (hp : p.type = .primitive type) :
    TakesTyped symbols type .scalar (argumentAt symbols function p position) := by
  obtain ⟨name, ptype⟩ := p
  obtain rfl : ptype = .primitive type := hp
  refine ⟨fun _ e => .argumentType position function name type e.type, fun text => ?_⟩
  simp only [ite_not]
  rfl

theorem takesTyped_fieldAt {type : TupleType} {expected : Primitive} {position : Nat} :
    TakesTyped symbols expected id (fieldAt symbols type expected position) :=
  ⟨fun _ e => .tupleField position type expected e.type, fun _ => rfl⟩

theorem takesTyped_itemAt {base : Primitive} :
    TakesTyped symbols base .scalar (itemAt symbols base []) :=
  ⟨fun text e => .arrayElement base text e.type, fun _ => rfl⟩

namespace TakesTyped

variable {α : Type} {type : Primitive} {make : Expression → α} {read : Text → Check α}

theorem alike (h : TakesTyped symbols type make read) (hb : b ≠ .square)
    (hscan : Token.scan t = .ok tokens) :
    Alike (MadeOf symbols b t make) (read t.trim) (read (b.wrap t)) := by
  obtain ⟨fault, hread⟩ := h
  rw [hread, hread, expression_trim hscan]
  refine Check.Rel.bind (alike_expression_wrap hb hscan) fun e _ he _ heq => ?_
  subst heq
  have htype : (e.grouped b).type = e.type := rfl
  rw [htype]
  split
  · exact .error trivial
  · exact .ok ⟨e, he, rfl, rfl⟩

/-- A blank text is no expression. -/
theorem exists_error (h : TakesTyped symbols type make read) (hblank : t.trim = []) :
    ∃ fault, read t.trim = .error fault := by
  obtain ⟨fault, hread⟩ := h
  rw [hblank, hread, expression_of_scan Token.Scans.nil.scanInside]
  exact ⟨_, rfl⟩

end TakesTyped

/-! ### Places -/

variable (hb : b ≠ .square) (hscan : Token.scan t = .ok tokens) (ht : Closes false [] t)

include hscan in
theorem closes_wrap_scanned : Closes false [] (b.wrap t) :=
  ((Token.scan_eq_ok_iff.1 hscan).closes).wrap b

theorem wrap_ne_nil (b : Bracket) (t : Text) : Text.trim (b.wrap t) ≠ [] := by
  rw [Text.trim_wrap]
  exact List.cons_ne_nil _ _

include hb hscan ht

/-- Of parts that are read beside the entries of a list, each with its number, one is in brackets. -/
theorem alike_readParts_zipIdx {α β : Type} {as : List α} {a : α} {type : Primitive}
    {make : Expression → β} {read : α → Nat → Text → Check β} (s : Slot false) (start : Nat)
    (fault : Nat → Fault) (ha : as[s.position]? = some a)
    (htakes : ∀ i, TakesTyped symbols type make (read a i)) :
    Alike (DiffersAt (MadeOf symbols b t make) s.position)
      ((s.fill t).readParts as.length fault fun texts =>
        ((as.zip texts).zipIdx start).mapM fun ((a, text), i) => read a i text)
      ((s.fill (b.wrap t)).readParts as.length fault fun texts =>
        ((as.zip texts).zipIdx start).mapM fun ((a, text), i) => read a i text) := by
  have hplace : as[(s.before.map Text.trim).length]? = some a := by rwa [List.length_map]
  obtain ⟨front, back, hlength, hzip⟩ := exists_zipIdx_eq hplace start (s.after.map Text.trim)
  have hposition : front.length = s.position := hlength.trans (List.length_map _)
  refine s.alike_readParts ht (closes_wrap_scanned hscan) (wrap_ne_nil b t)
    (List.getElem?_eq_some_iff.1 ha).1 ?_ fun hblank => ?_
  · rw [hzip, hzip, ← hposition]
    refine Check.alike_mapM ?_ front back
    rw [Text.trim_wrap]
    exact (htakes _).alike hb hscan
  · rw [hzip]
    refine Check.exists_error_of_mapM ?_ front back
    exact (htakes _).exists_error hblank

theorem alike_call {name : Name} {f : Signature} {p : Parameter} {type : Primitive} (s : Slot false)
    (hname : Name.isIdentifier name) (hlookup : symbols.lookup? name = some (.function f))
    (hp : f.parameters[s.position]? = some p) (htype : p.type = .primitive type) :
    Alike (fun c d => d.name = c.name ∧ d.returns = c.returns ∧
        DiffersAt (MadeOf symbols b t .scalar) s.position c.arguments d.arguments)
      (call symbols (name ++ Bracket.round.wrap (s.fill t)))
      (call symbols (name ++ Bracket.round.wrap (s.fill (b.wrap t)))) := by
  rw [call_wrap hname hlookup (s.closes_fill ht),
    call_wrap hname hlookup (s.closes_fill (closes_wrap_scanned hscan))]
  refine Alike.map ?_ fun _ _ h => ⟨rfl, rfl, h⟩
  exact alike_readParts_zipIdx hb hscan ht s 1 _ hp fun i => takesTyped_argumentAt htype

theorem alike_tuple {type : TupleType} (s : Slot false) (hsize : s.position < type.arity) :
    Alike (fun v w => ∃ es fs, v = .tupleLiteral type es ∧ w = .tupleLiteral type fs ∧
        DiffersAt (MadeOf symbols b t id) s.position es fs)
      (aggregate symbols (.tuple type) (Bracket.round.wrap (s.fill t)))
      (aggregate symbols (.tuple type) (Bracket.round.wrap (s.fill (b.wrap t)))) := by
  rw [tuple_wrap (s.closes_fill ht), tuple_wrap (s.closes_fill (closes_wrap_scanned hscan))]
  refine Alike.map ?_ fun _ _ h => ⟨_, _, rfl, rfl, h⟩
  exact alike_readParts_zipIdx hb hscan ht s 0 _ (List.getElem?_eq_getElem hsize) fun i =>
    takesTyped_fieldAt

omit hb hscan in
theorem closes_nest (frames : List (Slot false)) : Closes false [] (Slot.nest frames t) := by
  cases frames with
  | nil => exact ht
  | cons s frames => exact (s.closes_fill (closes_nest frames)).wrap .square

omit hb in
/-- Of the items of one level, one is in brackets at some depth. -/
theorem alike_readParts_itemAt {base : Primitive} {R : Item → Item → Prop} {size : Nat}
    {sizes : List Nat} (s : Slot false) (frames : List (Slot false)) (fault : Nat → Fault)
    (hsize : s.position < size)
    (hlengths : frames.length = sizes.length)
    (hitem : Alike R (itemAt symbols base sizes (Slot.nest frames t).trim)
      (itemAt symbols base sizes (Slot.nest frames (b.wrap t)).trim)) :
    Alike (DiffersAt R s.position)
      ((s.fill (Slot.nest frames t)).readParts size fault (·.mapM (itemAt symbols base sizes)))
      ((s.fill (Slot.nest frames (b.wrap t))).readParts size fault
        (·.mapM (itemAt symbols base sizes))) := by
  have hposition : (s.before.map Text.trim).length = s.position := List.length_map _
  have hvisible : Text.trim (Slot.nest frames (b.wrap t)) ≠ [] := by
    cases frames <;> exact wrap_ne_nil _ _
  refine s.alike_readParts (closes_nest ht frames) (closes_nest (closes_wrap_scanned hscan) frames)
    hvisible hsize ?_ fun hblank => ?_
  · rw [← hposition]
    exact Check.alike_mapM hitem _ _
  · refine Check.exists_error_of_mapM ?_ _ _
    cases frames with
    | cons => exact absurd hblank (wrap_ne_nil _ _)
    | nil =>
      obtain rfl := List.eq_nil_of_length_eq_zero hlengths.symm
      exact takesTyped_itemAt.exists_error hblank

theorem alike_itemAt {base : Primitive} {frames : List (Slot false)} {sizes : List Nat}
    (h : List.Forall₂ (fun s size => s.position < size) frames sizes) :
    Alike (Item.DiffersIn (MadeOf symbols b t .scalar) (frames.map Slot.position))
      (itemAt symbols base sizes (Slot.nest frames t).trim)
      (itemAt symbols base sizes (Slot.nest frames (b.wrap t)).trim) := by
  induction h with
  | nil =>
    rw [Slot.nest, Slot.nest, Text.trim_wrap]
    exact takesTyped_itemAt.alike hb hscan
  | @cons s size frames sizes hsize hrest ih =>
    have hinner {u : Text} (hu : Closes false [] u) : Closes true [] (s.fill (Slot.nest frames u)) :=
      s.closes_fill (closes_nest hu frames)
    rw [Slot.nest, Slot.nest, Text.trim_wrap, Text.trim_wrap, itemAt_wrap (hinner ht),
      itemAt_wrap (hinner (closes_wrap_scanned hscan))]
    refine Alike.map ?_ fun _ _ h => ⟨_, _, rfl, rfl, h⟩
    exact alike_readParts_itemAt hscan ht s frames _ hsize hrest.length_eq ih

theorem alike_array {type : ArrayType} {frames : List (Slot false)} (hne : frames ≠ [])
    (h : List.Forall₂ (fun s size => s.position < size) frames type.dimensions) :
    Alike (fun v w => ∃ is js, v = .arrayLiteral type is ∧ w = .arrayLiteral type js ∧
        Item.DiffersIn (MadeOf symbols b t .scalar) (frames.map Slot.position) (.row is) (.row js))
      (aggregate symbols (.array type) (Slot.nest frames t))
      (aggregate symbols (.array type) (Slot.nest frames (b.wrap t))) := by
  obtain ⟨s, frames, rfl⟩ := List.exists_cons_of_ne_nil hne
  obtain ⟨size, sizes, hsize, hrest, hsizes⟩ := List.forall₂_cons_left_iff.1 h
  have hinner {u : Text} (hu : Closes false [] u) : Closes true [] (s.fill (Slot.nest frames u)) :=
    s.closes_fill (closes_nest hu frames)
  rw [Slot.nest, Slot.nest, array_wrap hsizes (hinner ht),
    array_wrap hsizes (hinner (closes_wrap_scanned hscan))]
  refine Alike.map ?_ fun _ _ h => ⟨_, _, rfl, rfl, _, _, rfl, rfl, h⟩
  exact alike_readParts_itemAt hscan ht s frames _ hsize hrest.length_eq
    (alike_itemAt hb hscan ht hrest)

omit hb hscan ht

/-! ### Indices -/

theorem constant?_grouped (e : Expression) (b : Bracket) : (e.grouped b).constant? = none := by
  obtain ⟨ts, type⟩ := e
  cases ts <;> rfl

variable {array : Binding ArrayType} {size : Nat}

theorem indexAt_eq (symbols : Symbols) (array : Binding ArrayType) (size : Nat) (text : Text) :
    indexAt symbols array size text = expression symbols text >>= fun e =>
      if e.type ≠ .int then .error (.wrongType "an array index".toList .int e.type)
      else match e.constant? with
        | some v => if inRange v size then .ok e else .error (.indexRange v array.name array.type size)
        | none => .ok e := by
  change (expression symbols text >>= _) = _
  cases expression symbols text with
  | error fault => rfl
  | ok e =>
    change (if _ then _ else _) = (if _ then _ else _)
    split
    · rfl
    · cases e.constant? <;> rfl

/-- In brackets, a constant is not compared with its dimension. -/
theorem alike_indexAt (hb : b ≠ .square) (hscan : Token.scan t = .ok tokens)
    (hrange : ∀ v, SpellsConstant t v → inRange v size) :
    Alike (MadeOf symbols b t id) (indexAt symbols array size t)
      (indexAt symbols array size (b.wrap t)) := by
  rw [indexAt_eq, indexAt_eq]
  refine Check.Rel.bind (alike_expression_wrap hb hscan) fun e _ he _ heq => ?_
  subst heq
  by_cases htype : e.type = .int
  · have hbare : (match e.constant? with
        | some v => if inRange v size then .ok e
          else .error (.indexRange v array.name array.type size)
        | none => .ok e : Check Expression) = .ok e := by
      split
      · next v hv => exact if_pos (hrange v ((constant?_eq_some_iff he).1 hv))
      · rfl
    have htype' : (e.grouped b).type = .int := htype
    rw [if_neg (not_not.2 htype), if_neg (not_not.2 htype'), hbare, constant?_grouped]
    exact .ok ⟨e, he, rfl, rfl⟩
  · have htype' : (e.grouped b).type ≠ .int := htype
    rw [if_pos htype, if_pos htype']
    exact .error trivial

/-- Without brackets, a constant outside its dimension is refused. -/
theorem exists_error_of_indexAt (hout : ∃ v, SpellsConstant t v ∧ ¬ inRange v size) :
    ∃ fault, indexAt symbols array size t = .error fault := by
  obtain ⟨v, hv, hout⟩ := hout
  cases he : expression symbols t with
  | error fault =>
    rw [indexAt_eq, he]
    exact ⟨fault, rfl⟩
  | ok e =>
    by_cases htype : e.type = .int
    · rw [indexAt, index_of_read he htype, (constant?_eq_some_iff he).2 hv]
      exact ⟨_, if_neg hout⟩
    · rw [indexAt_eq, he]
      exact ⟨_, if_pos htype⟩

/-- The tokens of a text at a place are those of the text. -/
theorem scan_place {inside : Bool} (s : Slot inside) (h : Token.scan t = .ok tokens) :
    Token.scan (s.left ++ t ++ s.right) = .ok tokens := by
  obtain ⟨hleft, hright⟩ := List.forall_mem_append.1 s.blank
  rw [List.append_assoc, Token.scan_blanks_append hleft]
  exact Token.scan_append_blanks hright h

theorem indexAt_place {inside : Bool} (s : Slot inside) (h : Token.scan t = .ok tokens) :
    indexAt symbols array size (s.left ++ t ++ s.right) = indexAt symbols array size t := by
  rw [indexAt_eq, indexAt_eq, expression_of_scan (scan_place s h), expression_of_scan h]

section

variable {name : Name} {s : Slot true} (hname : Name.isIdentifier name)
  (hlookup : symbols.lookup? name = some (.array array))

include hname hlookup

theorem exists_error_of_length (h : Token.scan t = .ok tokens)
    (hne : (s.parts t).length ≠ array.type.dimensions.length) :
    ∃ fault, indexing symbols (name ++ Token.squareGroups (s.parts t)) = .error fault := by
  have hclosed := s.closes_of_mem_parts (Token.scan_eq_ok_iff.1 h).closes
  cases hi : indexing symbols (name ++ Token.squareGroups (s.parts t)) with
  | error fault => exact ⟨fault, rfl⟩
  | ok i => exact absurd (length_eq_of_indexing hname hlookup hclosed hi) hne

theorem alike_indexing (hb : b ≠ .square) (hscan : Token.scan t = .ok tokens)
    (hsize : array.type.dimensions[s.position]? = some size)
    (hrange : ∀ v, SpellsConstant t v → inRange v size) :
    Alike (fun i j => j.name = i.name ∧ j.type = i.type ∧
        DiffersAt (MadeOf symbols b t id) s.position i.indices j.indices)
      (indexing symbols (name ++ Token.squareGroups (s.parts t)))
      (indexing symbols (name ++ Token.squareGroups (s.parts (b.wrap t)))) := by
  have hwrap := Token.scan_wrap hb hscan
  have hlengths : (s.parts t).length = (s.parts (b.wrap t)).length := by simp [Slot.parts]
  by_cases hlength : (s.parts t).length = array.type.dimensions.length
  · have hclosed := s.closes_of_mem_parts (Token.scan_eq_ok_iff.1 hscan).closes
    have hclosed' := s.closes_of_mem_parts (Token.scan_eq_ok_iff.1 hwrap).closes
    obtain ⟨front, back, hposition, hzip⟩ := exists_zip_eq hsize s.after
    rw [indexing_squareGroups hname hlookup hclosed hlength,
      indexing_squareGroups hname hlookup hclosed' (hlengths.symm.trans hlength), Slot.parts,
      Slot.parts, hzip, hzip, Slot.position, ← hposition]
    refine Alike.map (Check.alike_mapM ?_ front back) fun _ _ h => ⟨rfl, rfl, h⟩
    simp only [indexAt_place s hscan, indexAt_place s hwrap]
    exact alike_indexAt hb hscan hrange
  · obtain ⟨fault, hfault⟩ := exists_error_of_length hname hlookup hscan hlength
    obtain ⟨other, hother⟩ := exists_error_of_length hname hlookup hwrap (hlengths ▸ hlength)
    rw [hfault, hother]
    exact .error trivial

theorem exists_error_of_indexing (hscan : Token.scan t = .ok tokens)
    (hsize : array.type.dimensions[s.position]? = some size)
    (hout : ∃ v, SpellsConstant t v ∧ ¬ inRange v size) :
    ∃ fault, indexing symbols (name ++ Token.squareGroups (s.parts t)) = .error fault := by
  by_cases hlength : (s.parts t).length = array.type.dimensions.length
  · have hclosed := s.closes_of_mem_parts (Token.scan_eq_ok_iff.1 hscan).closes
    obtain ⟨front, back, -, hzip⟩ := exists_zip_eq hsize s.after
    have hindex : ∃ fault, indexAt symbols array size (s.left ++ t ++ s.right) = .error fault := by
      rw [indexAt_place s hscan]
      exact exists_error_of_indexAt hout
    rw [indexing_squareGroups hname hlookup hclosed hlength, Slot.parts, hzip]
    refine Check.exists_error_map (Check.exists_error_of_mapM ?_ front back)
    exact hindex
  · exact exists_error_of_length hname hlookup hscan hlength

end

end Expression

/-! ### Go text -/

/-- The second text has a pair of round brackets more than the first one, around this text in it. -/
def Text.GainsBrackets (inside t u : Text) : Prop :=
  ∃ front back, t = front ++ inside ++ back ∧ u = front ++ Bracket.round.wrap inside ++ back

namespace Text.GainsBrackets

variable {inside : Text}

theorem self (inside : Text) : GainsBrackets inside inside (Bracket.round.wrap inside) :=
  ⟨[], [], by simp, by simp⟩

theorem around (h : GainsBrackets inside t u) (before after : Text) :
    GainsBrackets inside (before ++ t ++ after) (before ++ u ++ after) := by
  obtain ⟨front, back, rfl, rfl⟩ := h
  exact ⟨before ++ front, back ++ after, by simp, by simp⟩

theorem flatMap {α : Type} {R : α → α → Prop} {f : α → Text} {k : Nat} {xs ys : List α}
    (h : DiffersAt R k xs ys) (hf : ∀ x y, R x y → GainsBrackets inside (f x) (f y)) :
    GainsBrackets inside (xs.flatMap f) (ys.flatMap f) := by
  induction h with
  | @here x y rest hxy => simpa using (hf x y hxy).around [] (rest.flatMap f)
  | @later k x xs ys _ ih => simpa using ih.around (f x) []

theorem commas {k : Nat} {xs ys : List Text} (h : DiffersAt (GainsBrackets inside) k xs ys) :
    GainsBrackets inside (Go.commas xs) (Go.commas ys) := by
  cases h with
  | @here x y rest hxy =>
    rw [Go.commas, Go.commas, Text.intercalate_cons_eq, Text.intercalate_cons_eq]
    exact hxy.around [] _
  | @later k x xs ys h =>
    have hrest : GainsBrackets inside (xs.flatMap (", ".toList ++ ·))
        (ys.flatMap (", ".toList ++ ·)) :=
      flatMap h fun z w hzw => by simpa using hzw.around ", ".toList []
    rw [Go.commas, Go.commas, Text.intercalate_cons_eq, Text.intercalate_cons_eq]
    simpa using hrest.around x []

end Text.GainsBrackets

namespace Expression

open Text (GainsBrackets)

variable {e : Expression} {k : Nat}

theorem MadeOf.eq {α : Type} {make : Expression → α} {x y : α} (h : MadeOf symbols b t make x y)
    (he : expression symbols t = .ok e) : x = make e ∧ y = make (e.grouped b) := by
  obtain ⟨other, hother, rfl, rfl⟩ := h
  cases he.symm.trans hother
  exact ⟨rfl, rfl⟩

theorem gains_grouped (e : Expression) (b : Bracket) :
    GainsBrackets (Go.expression e) (Go.expression e) (Go.expression (e.grouped b)) := by
  rw [Go.expression_grouped]
  exact .self _

theorem gains_of_madeOf {x y : Expression} (he : expression symbols t = .ok e)
    (h : MadeOf symbols b t id x y) :
    GainsBrackets (Go.expression e) (Go.expression x) (Go.expression y) := by
  obtain ⟨hx, hy⟩ := h.eq he
  rw [hx, hy]
  exact gains_grouped e b

theorem gains_call {c d : Call} (he : expression symbols t = .ok e) (hname : d.name = c.name)
    (h : DiffersAt (MadeOf symbols b t .scalar) k c.arguments d.arguments) :
    GainsBrackets (Go.expression e) (Go.call c) (Go.call d) := by
  obtain ⟨name, vs, returns⟩ := c
  obtain ⟨other, ws, returns'⟩ := d
  obtain rfl : other = name := hname
  have hvalues :
      DiffersAt (GainsBrackets (Go.expression e)) k (vs.map Go.value) (ws.map Go.value) := by
    refine h.map fun v w hvw => ?_
    obtain ⟨rfl, rfl⟩ := hvw.eq he
    exact gains_grouped e b
  rw [Go.call, Go.call, Go.values_eq_map, Go.values_eq_map]
  simpa using (GainsBrackets.commas hvalues).around (other ++ ['(']) [')']

theorem gains_indexing {i j : Indexing} (he : expression symbols t = .ok e) (hname : j.name = i.name)
    (h : DiffersAt (MadeOf symbols b t id) k i.indices j.indices) :
    GainsBrackets (Go.expression e) (Go.indexing i) (Go.indexing j) := by
  obtain ⟨name, es, type⟩ := i
  obtain ⟨other, fs, type'⟩ := j
  obtain rfl : other = name := hname
  have hbrackets : GainsBrackets (Go.expression e) (Go.brackets es) (Go.brackets fs) := by
    rw [Piece.brackets_eq_squareGroups, Piece.brackets_eq_squareGroups, Token.squareGroups,
      Token.squareGroups, List.flatMap_map, List.flatMap_map]
    refine GainsBrackets.flatMap h fun x y hxy => ?_
    simpa using (gains_of_madeOf he hxy).around ['['] [']']
  rw [Go.indexing, Go.indexing]
  simpa using hbrackets.around other []

theorem gains_namedFields {es fs : List Expression} (he : expression symbols t = .ok e)
    (h : DiffersAt (MadeOf symbols b t id) k es fs) (start : Nat) :
    DiffersAt (GainsBrackets (Go.expression e)) k (Go.namedFields start es)
      (Go.namedFields start fs) := by
  induction h generalizing start with
  | here hxy =>
    rw [Go.namedFields, Go.namedFields]
    refine .here ?_
    simpa using (gains_of_madeOf he hxy).around ('v' :: Text.ofNat start ++ ": ".toList) []
  | later _ ih =>
    rw [Go.namedFields, Go.namedFields]
    exact .later (ih (start + 1))

theorem gains_item {path : List Nat} {i j : Item} (he : expression symbols t = .ok e)
    (h : Item.DiffersIn (MadeOf symbols b t .scalar) path i j) :
    GainsBrackets (Go.expression e) (Go.item i) (Go.item j) := by
  induction path generalizing i j with
  | nil =>
    obtain ⟨rfl, rfl⟩ := MadeOf.eq h he
    exact gains_grouped e b
  | cons k path ih =>
    obtain ⟨is, js, rfl, rfl, hitems⟩ := h
    have hcommas := GainsBrackets.commas (hitems.map fun _ _ => ih)
    rw [Go.item, Go.item, Go.rows_eq_map, Go.rows_eq_map]
    simpa using hcommas.around ['{'] ['}']

/-! ### All places -/

/-- The second Go text has a pair of round brackets more than the first one, around that of the
expression which the text spells. -/
def Regrouped (symbols : Symbols) (t go go' : Text) : Prop :=
  ∃ e, expression symbols t = .ok e ∧ GainsBrackets (Go.expression e) go go'

/-- At each place, the text is accepted in brackets just if it is without them. What is read of it is
of the same type then, and has a pair of round brackets more in Go text. An index that is a constant
outside its dimension is another matter: without brackets it is refused. -/
structure AlikeInBrackets (symbols : Symbols) (b : Bracket) (t : Text) : Prop where
  whole :
    Alike (fun x y => y = x.grouped b ∧ y.type = x.type ∧
        Go.expression y = Bracket.round.wrap (Go.expression x))
      (expression symbols t) (expression symbols (b.wrap t))
  argument {name : Name} {f : Signature} {p : Parameter} {type : Primitive} (s : Slot false)
    (hname : Name.isIdentifier name) (hlookup : symbols.lookup? name = some (.function f))
    (hp : f.parameters[s.position]? = some p) (htype : p.type = .primitive type) :
    Alike (fun c d => d.name = c.name ∧ d.returns = c.returns ∧
        DiffersAt (MadeOf symbols b t .scalar) s.position c.arguments d.arguments ∧
        Regrouped symbols t (Go.call c) (Go.call d))
      (call symbols (name ++ Bracket.round.wrap (s.fill t)))
      (call symbols (name ++ Bracket.round.wrap (s.fill (b.wrap t))))
  field {type : TupleType} (s : Slot false) (hsize : s.position < type.arity) :
    Alike (fun v w => ∃ es fs, v = .tupleLiteral type es ∧ w = .tupleLiteral type fs ∧
        DiffersAt (MadeOf symbols b t id) s.position es fs ∧
        Regrouped symbols t (Go.value v) (Go.value w))
      (aggregate symbols (.tuple type) (Bracket.round.wrap (s.fill t)))
      (aggregate symbols (.tuple type) (Bracket.round.wrap (s.fill (b.wrap t))))
  element {type : ArrayType} {frames : List (Slot false)} (hne : frames ≠ [])
    (hsizes : List.Forall₂ (fun s size => s.position < size) frames type.dimensions) :
    Alike (fun v w => ∃ is js, v = .arrayLiteral type is ∧ w = .arrayLiteral type js ∧
        Item.DiffersIn (MadeOf symbols b t .scalar) (frames.map Slot.position) (.row is) (.row js) ∧
        Regrouped symbols t (Go.value v) (Go.value w))
      (aggregate symbols (.array type) (Slot.nest frames t))
      (aggregate symbols (.array type) (Slot.nest frames (b.wrap t)))
  index {name : Name} {array : Binding ArrayType} {size : Nat} (s : Slot true)
    (hname : Name.isIdentifier name) (hlookup : symbols.lookup? name = some (.array array))
    (hsize : array.type.dimensions[s.position]? = some size)
    (hrange : ∀ v, SpellsConstant t v → inRange v size) :
    Alike (fun i j => j.name = i.name ∧ j.type = i.type ∧
        DiffersAt (MadeOf symbols b t id) s.position i.indices j.indices ∧
        Regrouped symbols t (Go.indexing i) (Go.indexing j))
      (indexing symbols (name ++ Token.squareGroups (s.parts t)))
      (indexing symbols (name ++ Token.squareGroups (s.parts (b.wrap t))))
  constant {name : Name} {array : Binding ArrayType} {size : Nat} (s : Slot true)
    (hname : Name.isIdentifier name) (hlookup : symbols.lookup? name = some (.array array))
    (hsize : array.type.dimensions[s.position]? = some size)
    (hout : ∃ v, SpellsConstant t v ∧ ¬ inRange v size) :
    ∃ fault, indexing symbols (name ++ Token.squareGroups (s.parts t)) = .error fault

/-- It is so for all texts that can be scanned and have no comma outside brackets and literals. -/
theorem alikeInBrackets_of_scan (hb : b ≠ .square) (hscan : Token.scan t = .ok tokens)
    (hcommas : t.HoldsCommas) : AlikeInBrackets symbols b t := by
  have ht := hcommas.closes hscan
  have hregrouped {go go' : Text} (hread : ∃ e, expression symbols t = .ok e)
      (h : ∀ e, expression symbols t = .ok e → GainsBrackets (Go.expression e) go go') :
      Regrouped symbols t go go' := by
    obtain ⟨e, he⟩ := hread
    exact ⟨e, he, h e he⟩
  have hread {α : Type} {make : Expression → α} (h : ∃ x y, MadeOf symbols b t make x y) :
      ∃ e, expression symbols t = .ok e := by
    obtain ⟨x, y, e, he, -⟩ := h
    exact ⟨e, he⟩
  refine ⟨?_, fun s hname hlookup hp htype => ?_, fun {type} s hsize => ?_,
    fun {type _} hne hsizes => ?_, fun s hname hlookup hsize hrange => ?_,
    fun s hname hlookup hsize hout => ?_⟩
  · refine (alike_expression_wrap hb hscan).imp fun x y hxy => ⟨hxy, ?_, ?_⟩
    · rw [hxy]
      rfl
    · rw [hxy, Go.expression_grouped]
  · refine (alike_call hb hscan ht s hname hlookup hp htype).imp ?_
    rintro c d ⟨hname, hreturns, hdiffers⟩
    exact ⟨hname, hreturns, hdiffers, hregrouped (hread hdiffers.exists_related) fun e he =>
      gains_call he hname hdiffers⟩
  · refine (alike_tuple hb hscan ht s hsize).imp ?_
    rintro v w ⟨es, fs, rfl, rfl, hdiffers⟩
    refine ⟨es, fs, rfl, rfl, hdiffers, hregrouped (hread hdiffers.exists_related) fun e he => ?_⟩
    have hcommas := GainsBrackets.commas (gains_namedFields he hdiffers 0)
    rw [Go.value, Go.value]
    simpa using hcommas.around (type.goName ++ ['{']) ['}']
  · refine (alike_array hb hscan ht hne hsizes).imp ?_
    rintro v w ⟨is, js, rfl, rfl, hdiffers⟩
    refine ⟨is, js, rfl, rfl, hdiffers, hregrouped (hread hdiffers.exists_related) fun e he => ?_⟩
    have hitem := gains_item he hdiffers
    rw [Go.value, Go.value]
    rw [Go.item, Go.item] at hitem
    simpa using hitem.around type.goName []
  · refine (alike_indexing hname hlookup hb hscan hsize hrange).imp ?_
    rintro i j ⟨hname, htype, hdiffers⟩
    exact ⟨hname, htype, hdiffers, hregrouped (hread hdiffers.exists_related) fun e he =>
      gains_indexing he hname hdiffers⟩
  · exact exists_error_of_indexing hname hlookup hscan hsize hout

theorem alikeInBrackets_sum :
    ∃ (known : Symbols) (array : Binding ArrayType) (s : Slot true),
      Token.scan "1 + 1".toList = .ok ["1".toList, "+".toList, "1".toList] ∧
        Text.HoldsCommas "1 + 1".toList ∧
        AlikeInBrackets known .curly "1 + 1".toList ∧
        known.lookup? "a".toList = some (.array array) ∧
        array.type.dimensions[s.position]? = some 3 ∧
        (∀ v, SpellsConstant "1 + 1".toList v → inRange v 3) ∧
        ∃ i j, indexing known "a[1 + 1]".toList = .ok i ∧
          indexing known ("a[".toList ++ '{' :: "1 + 1".toList ++ ['}', ']']) = .ok j ∧
          Regrouped known "1 + 1".toList (Go.indexing i) (Go.indexing j) := by
  let array : Binding ArrayType := ⟨"a".toList, ⟨.int, [3]⟩, false⟩
  let known := Symbols.empty.insert (.array array)
  let s : Slot true := ⟨[], [], [], [], by simp, by simp⟩
  have hscan : Token.scan "1 + 1".toList = .ok ["1".toList, "+".toList, "1".toList] := by
    decide +kernel
  have hcommas : Text.HoldsCommas "1 + 1".toList := .of_not_mem (by decide)
  have halike : AlikeInBrackets known .curly "1 + 1".toList :=
    alikeInBrackets_of_scan (by decide) hscan hcommas
  have hrange : ∀ v, SpellsConstant "1 + 1".toList v → inRange v 3 := by
    intro v hv
    cases hv with
    | literal hs => cases hscan.symm.trans hs
    | negated hs => cases hscan.symm.trans hs
  have hlookup : known.lookup? "a".toList = some (.array array) := by decide
  have hbare : ∃ i, indexing known "a[1 + 1]".toList = .ok i := ⟨_, by with_unfolding_all rfl⟩
  obtain ⟨i, hi⟩ := hbare
  have hindex : Alike _ (indexing known "a[1 + 1]".toList)
      (indexing known ("a[".toList ++ '{' :: "1 + 1".toList ++ ['}', ']'])) :=
    halike.index s (by decide) hlookup rfl hrange
  rw [hi] at hindex
  generalize hj : indexing known ("a[".toList ++ '{' :: "1 + 1".toList ++ ['}', ']']) = result
    at hindex
  cases hindex with
  | ok h =>
    exact ⟨known, array, s, hscan, hcommas, halike, hlookup, rfl, hrange, i, _, hi, hj, h.2.2.2⟩

/-- A constant outside its dimension is refused as an index, but not in brackets. -/
theorem grouped_constant_accepted :
    ∃ known : Symbols,
      Token.scan "5".toList = .ok ["5".toList] ∧ Text.HoldsCommas "5".toList ∧
        (∃ fault, indexing known "a[5]".toList = .error fault ∧ fault.kind = .indexOutOfBounds) ∧
        ∃ i, indexing known "a[(5)]".toList = .ok i := by
  let known := Symbols.empty.insert (.array ⟨"a".toList, ⟨.int, [3]⟩, false⟩)
  have hscan : Token.scan "5".toList = .ok ["5".toList] := by decide +kernel
  have hbare : indexing known "a[5]".toList =
      .error (.indexRange 5 "a".toList ⟨.int, [3]⟩ 3) := by with_unfolding_all rfl
  exact ⟨known, hscan, .of_not_mem (by decide), ⟨_, hbare, rfl⟩, _, by with_unfolding_all rfl⟩

end Expression

end StellaGo
