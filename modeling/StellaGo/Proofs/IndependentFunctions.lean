import StellaGo.Go.Program
import StellaGo.Proofs.FunctionBlocks

/-! Functions are compiled independently. Defined here: how far the reader of a file gets, and what it
knows there. Proved: two files that hold the same block of a function, in front of which functions
with the same signatures are known, give the same function or the same error for it. The bodies of
the functions before it, and everything behind it, count for nothing. -/

namespace StellaGo.Program

variable {start start' : Nat}

/-! ### Signatures -/

/-- The same was read; what the file needs may differ. -/
def SameReading {α : Type} (result result' : α × Requirements) : Prop := result.1 = result'.1

theorem readParameter_same (r r' : Requirements) (earlier : List Name) (text : Text) :
    Check.Rel Eq SameReading (readParameter r earlier text) (readParameter r' earlier text) := by
  unfold readParameter
  split
  · exact .error rfl
  dsimp only
  split
  · exact .error rfl
  split
  · exact .error rfl
  refine .bind (.of_eq (fun _ => rfl) (congrArg _ (Requirements.readType_fst r r' _)))
    fun type type' _ _ htype => ?_
  subst htype
  split
  · exact .error rfl
  · exact .ok rfl

theorem readParameters_same (r r' : Requirements) (earlier : List Name) (texts : List Text) :
    Check.Rel Eq SameReading (readParameters r earlier texts) (readParameters r' earlier texts) := by
  induction texts generalizing r r' earlier with
  | nil => exact .ok rfl
  | cons text texts ih =>
    refine .bind (readParameter_same r r' earlier text) fun ⟨p, r⟩ ⟨p', r'⟩ _ _ hp => ?_
    obtain rfl : p = p' := hp
    refine .bind (ih r r' _) fun ⟨ps, r⟩ ⟨ps', r'⟩ _ _ hps => ?_
    exact .ok (congrArg (p :: ·) hps)

variable {f f' : Frame}

theorem readSignature_same (h : f.Same f') (line : Text) :
    Check.Rel Eq SameReading (readSignature f line) (readSignature f' line) := by
  unfold readSignature
  split
  · exact .error rfl
  next header hheader =>
  dsimp only
  split
  · exact .error rfl
  rw [h.symbols.ensureFree_eq]
  refine .bind (.of_eq (fun _ => rfl) rfl) fun _ _ _ _ _ => ?_
  refine .bind (readParameters_same _ _ _ _) fun ⟨ps, r⟩ ⟨ps', r'⟩ _ _ hps => ?_
  obtain rfl : ps = ps' := hps
  refine .bind (.of_eq (fun _ => rfl) (congrArg _ (Requirements.readType_fst r r' _)))
    fun type type' _ _ htype => ?_
  subst htype
  refine .bind (.of_eq (fun _ => rfl) rfl) fun _ _ _ _ _ => ?_
  exact .ok rfl

theorem declareParameters_same (h : f.Same f') (parameters : List Parameter) :
    Check.Rel Eq Frame.Same (declareParameters f parameters) (declareParameters f' parameters) := by
  induction parameters generalizing f f' with
  | nil => exact .ok h
  | cons p rest ih => exact .bind (h.declare p.descriptor) fun _ _ _ _ hnext => ih hnext

theorem enterFunction_same (h : f.Same f') (s : Signature) :
    Check.Rel Eq Frame.Same (enterFunction f s) (enterFunction f' s) := by
  have hbody := (h.enter .function).with_returns (some s.returns)
  exact .bind (hbody.declare (.function s)) fun _ _ _ _ hknown =>
    declareParameters_same hknown s.parameters

/-! ### Functions -/

/-- The same function on as many lines, behind which the same functions are known. -/
structure Item.SameFunction (item item' : Item) : Prop where
  function : ∃ signature body, item.statements = [.function signature body] ∧
    item'.statements = [.function signature body]
  go : Go.statements item.statements = Go.statements item'.statements
  used : item.used = item'.used
  known : ∀ name, item.frame.scope.symbols.function? name = item'.frame.scope.symbols.function? name

/-- The block of a function is read in the lines from its header to the line that closes it. -/
theorem readFunction_same {n n' count : Nat} {line line' : Line} {rest rest' : List Line}
    {short : rest.length < n} {short' : rest'.length < n'} (hf : f.Same f')
    (hline : line.Shifted start start' line')
    (hlines : Alongside start start' rest rest' (count + 1))
    (hend : StellaGo.Block.closingLine 1 (rest.map Line.text) = some count) :
    Check.Rel (CompileError.Shifted start start') Item.SameFunction
      (readFunction (innerLines n) f line rest short)
      (readFunction (innerLines n') f' line' rest' short') := by
  have ih : ReadsSame start start' n n' := fun _ _ hin hf hcover hlines =>
    readLines_same hin hf hcover hlines
  unfold readFunction
  rw [← hline.text]
  refine .bind (onLine_same hline (readSignature_same hf _)) fun ⟨s, r⟩ ⟨s', r'⟩ _ _ hs => ?_
  obtain rfl : s = s' := hs
  refine .bind (onLine_same hline (enterFunction_same (hf.with_requirements r r') s))
    fun body body' hbody _ hsame => ?_
  have hin : body.scope.kind ≠ .global := by
    rw [Check.onLine_eq_ok_iff] at hbody
    rw [Scope.kind_eq_of_place_eq (place_of_enterFunction hbody)]
    nofun
  refine .bind (readBlock_same ih hlines hend (Nat.le_refl _) hin hsame)
    fun ⟨block, within⟩ ⟨block', within'⟩ _ _ hblock => ?_
  obtain ⟨hstatements, hframe, hindex, hclose⟩ := hblock
  dsimp only at hstatements hframe hindex hclose ⊢
  refine .bind (onLine_congr hclose (expectPlainClose_congr hclose.text.symm).symm) fun _ _ _ _ _ => ?_
  rw [← hstatements, ← hindex, hframe.body_eq]
  split
  · exact .error ⟨rfl, hclose.number⟩
  refine .bind (onLine_same hline (Frame.Same.declare hf.leave _)) fun after after' _ _ hafter => ?_
  exact .ok ⟨⟨s, _, rfl, rfl⟩, rfl, rfl, hafter.symbols.functions⟩

/-! ### The reader of a file -/

/-- In a file an item is blank or declares a function. -/
theorem scope_of_readItem {n count : Nat} {line : Line} {rest : List Line} {short : rest.length < n}
    {item : Item} (hin : f.scope.kind = .global)
    (h : readItem (innerLines n) f line rest short count = .ok item) :
    item.frame.scope = f.scope ∨
      ∃ s, item.frame.scope = { f.scope with symbols := f.scope.symbols.insert (.function s) } := by
  unfold readItem at h
  obtain ⟨⟨⟩, hplace, h⟩ := Check.bind_eq_ok_iff.1 h
  rw [Check.onLine_eq_ok_iff] at hplace
  have hkind : line.text.lineKind = .blank ∨ line.text.lineKind = .function ∨
      line.text.lineKind = .closer := by simpa using (checkPlace_eq_ok hplace).1 hin
  rcases hkind with hk | hk | hk
  · simp only [hk] at h
    cases h
    exact .inl rfl
  · simp only [hk] at h
    obtain ⟨⟨s, r⟩, -, h⟩ := Check.bind_eq_ok_iff.1 h
    obtain ⟨body, -, h⟩ := Check.bind_eq_ok_iff.1 h
    obtain ⟨⟨block, _⟩, -, h⟩ := Check.bind_eq_ok_iff.1 h
    obtain ⟨⟨⟩, -, h⟩ := Check.bind_eq_ok_iff.1 h
    dsimp only at h
    split at h
    · cases h
    obtain ⟨after, hafter, h⟩ := Check.bind_eq_ok_iff.1 h
    cases h
    rw [Check.onLine_eq_ok_iff] at hafter
    obtain ⟨-, rfl⟩ := Frame.declare_eq_ok_iff.1 hafter
    exact .inr ⟨s, rfl⟩
  · simp only [hk] at h
    cases h

/-- The reader of a file gets to the line of index `i`, and knows there what the frame says. -/
inductive Reaches (source : Text) : Nat → Frame → Prop
  | start : Reaches source 0 ⟨.global, .empty⟩
  | behind {i : Nat} {f : Frame} {line : Line} {rest : List Line} {item : Item}
      (h : Reaches source i f) (hlines : source.numberedLines.drop i = line :: rest)
      (hitem : readItem (innerLines (rest.length + 1)) f line rest (Nat.lt_succ_self _) rest.length =
        .ok item) :
      Reaches source (i + 1 + item.used) item.frame

namespace Reaches

variable {source : Text} {i : Nat}

theorem next {line : Line} {rest : List Line} {used : Nat} {after : Frame} (h : Reaches source i f)
    (hlines : source.numberedLines.drop i = line :: rest)
    (hread : (readItem (innerLines (rest.length + 1)) f line rest (Nat.lt_succ_self _) rest.length).map
      (fun item => (item.used, item.frame)) = .ok (used, after)) :
    Reaches source (i + 1 + used) after := by
  obtain ⟨item, hitem, hused⟩ := Check.map_eq_ok_iff.1 hread
  cases hused
  exact h.behind hlines hitem

/-- In a file nothing but functions is declared. -/
theorem scope_eq (h : Reaches source i f) :
    ∃ functions, f.scope = { Scope.global with symbols := ⟨[], [], [], functions⟩ } := by
  induction h with
  | start => exact ⟨[], rfl⟩
  | behind h hlines hitem ih =>
    obtain ⟨functions, hscope⟩ := ih
    rcases scope_of_readItem (congrArg Scope.kind hscope) hitem with hsame | ⟨s, hdeclared⟩
    · exact ⟨functions, hsame.trans hscope⟩
    · exact ⟨(s.name, s) :: functions, by rw [hdeclared, hscope]; rfl⟩

/-- Where the same functions are known, every name is. -/
theorem same {source' : Text} {i' : Nat} (h : Reaches source i f) (h' : Reaches source' i' f')
    (hknown : ∀ name, f.scope.symbols.function? name = f'.scope.symbols.function? name) :
    f.Same f' := by
  obtain ⟨functions, hscope⟩ := h.scope_eq
  obtain ⟨functions', hscope'⟩ := h'.scope_eq
  rw [hscope, hscope'] at hknown
  constructor
  · rw [hscope, hscope']
    rfl
  · rw [hscope, hscope']
    exact ⟨fun _ => rfl, fun _ => rfl, fun _ => rfl, hknown⟩

end Reaches

/-! ### Blocks of functions -/

/-- The lines of two sources that hold the same correspond. -/
theorem alongside_of_texts {source source' : Text} {i i' count : Nat}
    (h : ((source.numberedLines.map Line.text).drop i).take count =
      ((source'.numberedLines.map Line.text).drop i').take count) :
    Alongside i i' (source.numberedLines.drop i) (source'.numberedLines.drop i') count := by
  rw [← List.map_drop, ← List.map_take, ← List.map_drop, ← List.map_take] at h
  refine List.forall₂_iff_get.2 ⟨by simpa using congrArg List.length h, fun k hk hk' => ?_⟩
  constructor
  · have htext := congrArg (·[k]?) h
    rw [List.getElem?_map, List.getElem?_map, List.getElem?_eq_getElem hk,
      List.getElem?_eq_getElem hk'] at htext
    exact Option.some.inj htext
  · simp [Text.numberedLines]
    omega

/-- Two sources hold the same block of a function, from line `i` of the one and line `i'` of the other,
and the reader gets there with the same signatures of functions. Then it reads the same function in
both, or finds the same wrong with it, on a line as far behind the header. -/
theorem readFunction_of_same_block {source source' : Text} {i i' count : Nat} {f f' : Frame}
    {line line' : Line} {rest rest' : List Line}
    (hreaches : Reaches source i f) (hreaches' : Reaches source' i' f')
    (hknown : ∀ name, f.scope.symbols.function? name = f'.scope.symbols.function? name)
    (hlines : source.numberedLines.drop i = line :: rest)
    (hlines' : source'.numberedLines.drop i' = line' :: rest')
    (hend : StellaGo.Block.end? (source.numberedLines.map Line.text) i = some (i + count))
    (hblock : ((source.numberedLines.map Line.text).drop i).take (count + 1) =
      ((source'.numberedLines.map Line.text).drop i').take (count + 1)) :
    Check.Rel (CompileError.Shifted i i') Item.SameFunction
      (readFunction (innerLines (rest.length + 1)) f line rest (Nat.lt_succ_self _))
      (readFunction (innerLines (rest'.length + 1)) f' line' rest' (Nat.lt_succ_self _)) := by
  have halong := alongside_of_texts hblock
  rw [hlines, hlines'] at halong
  obtain ⟨_, _, ⟨⟩, hline, hrest⟩ := halong.cons
  rw [StellaGo.Block.end?, ← List.map_drop, ← List.drop_drop, hlines, List.drop_succ_cons,
    List.drop_zero] at hend
  obtain ⟨index, hindex, hcount⟩ := Option.map_eq_some_iff.1 hend
  obtain rfl : count = index + 1 := by omega
  exact readFunction_same (hreaches.same hreaches' hknown) hline hrest hindex

/-- Behind `one`, whatever its body, `two` is read alike. -/
theorem readFunction_of_same_block_behind_one :
    ∃ f line line' rest rest',
      Reaches (Text.block "function one() -> int =" [['1']] ++
        '\n' :: Text.block "function two() -> int =" ["one()".toList]) 3 f ∧
      Reaches (Text.block "function one() -> int =" [[], "2 - 1".toList] ++
        '\n' :: Text.block "function two() -> int =" ["one()".toList] ++ "\nelse".toList) 4 f ∧
      (readFunction (innerLines (rest.length + 1)) f line rest (Nat.lt_succ_self _)).isOk ∧
      Check.Rel (CompileError.Shifted 3 4) Item.SameFunction
        (readFunction (innerLines (rest.length + 1)) f line rest (Nat.lt_succ_self _))
        (readFunction (innerLines (rest'.length + 1)) f line' rest' (Nat.lt_succ_self _)) := by
  let one : Text := "function one() -> int = ".toList ++ ['{']
  let two : Text := "function two() -> int = ".toList ++ ['{']
  let signature : Signature := ⟨"one".toList, [], .primitive .int⟩
  let known : Frame :=
    ⟨{ Scope.global with symbols.functions := [("one".toList, signature)] }, .empty⟩
  let rest : List Line := [⟨5, "one()".toList⟩, ⟨6, ['}']⟩]
  let rest' : List Line := [⟨6, "one()".toList⟩, ⟨7, ['}']⟩, ⟨8, "else".toList⟩]
  let source : Text := Text.block "function one() -> int =" [['1']] ++
    '\n' :: Text.block "function two() -> int =" ["one()".toList]
  let source' : Text := Text.block "function one() -> int =" [[], "2 - 1".toList] ++
    '\n' :: Text.block "function two() -> int =" ["one()".toList] ++ "\nelse".toList
  have hlines : source.numberedLines =
      ⟨1, one⟩ :: ⟨2, ['1']⟩ :: ⟨3, ['}']⟩ :: ⟨4, two⟩ :: rest := by decide +kernel
  have hlines' : source'.numberedLines =
      ⟨1, one⟩ :: ⟨2, []⟩ :: ⟨3, "2 - 1".toList⟩ :: ⟨4, ['}']⟩ :: ⟨5, two⟩ :: rest' := by
    decide +kernel
  have hreaches : Reaches source (0 + 1 + 2) known := .next .start hlines (by decide +kernel)
  have hreaches' : Reaches source' (0 + 1 + 3) known := .next .start hlines' (by decide +kernel)
  have hend : StellaGo.Block.end? (source.numberedLines.map Line.text) 3 = some (3 + 2) := by
    decide +kernel
  exact ⟨known, ⟨4, two⟩, ⟨5, two⟩, rest, rest', hreaches, hreaches', by decide +kernel,
    readFunction_of_same_block hreaches hreaches' (fun _ => rfl) (congrArg (List.drop 3) hlines)
      (congrArg (List.drop 4) hlines') hend (by decide +kernel)⟩

end StellaGo.Program
