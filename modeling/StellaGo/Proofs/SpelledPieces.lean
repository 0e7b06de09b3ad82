import StellaGo.Proofs.Environment
import StellaGo.Proofs.Rendering

/-! Where the pieces of a tree come from. Defined here: the pieces that a statement holds, at any depth
of blocks. Proved: each of them was read off a part of one line of the file. -/

namespace StellaGo

/-- The piece stands in the statement, or in one of those inside it. -/
inductive Statement.Holds : Statement → Piece → Prop
  | here {s : Statement} {x : Piece} (h : x ∈ s.pieces) : Holds s x
  | clause {clause : Clause Statement} {clauses : List (Clause Statement)} {s : Statement} {x : Piece}
      (hc : clause ∈ clauses) (hs : s ∈ clause.body.statements) (h : Holds s x) :
      Holds (.selection clauses) x
  | loop {condition : Expression} {body : Body Statement} {s : Statement} {x : Piece}
      (hs : s ∈ body.statements) (h : Holds s x) : Holds (.loop condition body) x
  | function {signature : Signature} {body : Body Statement} {s : Statement} {x : Piece}
      (hs : s ∈ body.statements) (h : Holds s x) : Holds (.function signature body) x

/-- A part of the text spells the piece. -/
def Piece.IsSpelled (text : Text) (x : Piece) : Prop :=
  ∃ symbols part, part ⊆ text ∧ x.IsRead symbols part

/-- The condition of a clause is spelled by the line of its header. -/
def ClauseHeader.IsSpelled (text : Text) (header : ClauseHeader) : Prop :=
  ∀ condition ∈ header.condition?, (Piece.expression condition).IsSpelled text

namespace Program

variable {f next : Frame} {text : Text} {s : Statement}

/-- What a line holds is spelled by a part of the line. -/
theorem ReadsLine.isSpelled (h : ReadsLine f text s next) : ∀ x ∈ s.pieces, x.IsSpelled text := by
  have htrim (part : Text) (hpart : part ⊆ text) : Text.trim part ⊆ text :=
    List.Subset.trans (Text.trim_subset part) hpart
  cases h with
  | declaration _ h =>
    obtain ⟨header, type, v, r, hheader, -, -, -, hv, rfl, -⟩ := Statement.readDeclaration_eq_ok h
    exact List.forall_mem_singleton.2 ⟨_, _, LetHeader.value_subset hheader, _, hv⟩
  | assignment _ h =>
    cases Statement.readAssignment_eq_ok h with
    | element _ hi _ he _ =>
      refine List.forall_mem_cons.2 ⟨⟨_, _, htrim _ (List.take_subset _ _), hi⟩, ?_⟩
      exact List.forall_mem_singleton.2
        ⟨_, _, htrim _ (List.drop_subset _ _), .primitive _, _, rfl, rfl, he⟩
    | whole _ _ _ _ hv =>
      exact List.forall_mem_singleton.2 ⟨_, _, htrim _ (List.drop_subset _ _), _, hv⟩
  | jump _ h =>
    obtain ⟨-, -, rfl⟩ := Statement.readJump_eq_ok h
    exact List.forall_mem_nil _
  | builtin _ h =>
    obtain ⟨name, rest, callee, inside, argument, hread, -, hinside, hargument, -, rfl, -⟩ :=
      Statement.readBuiltin_eq_ok h
    have hsub : inside.trim ⊆ text := by
      refine List.Subset.trans (Text.trim_subset _) (List.Subset.trans ?_
        (Name.subset_of_read? hread))
      exact List.subset_cons_of_subset _ (Text.inside?_subset hinside)
    exact List.forall_mem_singleton.2 ⟨_, _, hsub, hargument⟩

theorem isSpelled_of_readCondition {symbols : Symbols} {keyword : String} {inner : Text}
    {condition : Expression} (hheader : text.betweenKeywordAndBrace? keyword = some inner)
    (h : Statement.readCondition symbols inner = .ok condition) :
    (Piece.expression condition).IsSpelled text :=
  ⟨symbols, inner, Text.subset_of_betweenKeywordAndBrace? hheader, (Statement.readCondition_eq_ok h).1⟩

theorem isSpelled_of_readNextHeader {symbols : Symbols} {last : Bool} {close : Line}
    {next : ClauseHeader} (hclose : close.text.startsWith '}')
    (h : readNextHeader symbols last (afterCloser close) = .ok next) :
    next.IsSpelled close.text := by
  obtain ⟨tail, htail, hafter⟩ := exists_tail_of_closer hclose
  obtain ⟨continuation, hrest, ⟨rfl, -⟩ | ⟨inner, condition, rfl, hinner, hcondition⟩⟩ :=
    readNextHeader_eq_ok h
  · nofun
  · intro c hc
    cases hc
    have hsub : inner ⊆ close.text := by
      have hcontinuation : continuation ⊆ Text.trim tail := by
        rw [← hafter, hrest]
        exact List.subset_append_right _ _
      rw [htail]
      refine List.subset_cons_of_subset _ (List.Subset.trans ?_ (Text.trim_subset tail))
      refine List.Subset.trans ?_ hcontinuation
      exact List.Subset.trans (Text.subset_of_betweenKeywordAndBrace? hinner) (Text.trim_subset _)
    exact ⟨symbols, inner, hsub, (Statement.readCondition_eq_ok hcondition).1⟩

/-- The pieces of the statements are spelled by the lines. -/
def AreSpelled (lines : List Line) (statements : List Statement) : Prop :=
  ∀ s ∈ statements, ∀ x, s.Holds x → ∃ line ∈ lines, x.IsSpelled line.text

namespace AreSpelled

variable {lines more : List Line} {statements others : List Statement}

theorem nil : AreSpelled lines [] := nofun

theorem mono (h : AreSpelled lines statements) (hsub : lines ⊆ more) : AreSpelled more statements := by
  intro s hs x hx
  obtain ⟨line, hline, hspelled⟩ := h s hs x hx
  exact ⟨line, hsub hline, hspelled⟩

theorem cons (hs : AreSpelled lines [s]) (h : AreSpelled lines statements) :
    AreSpelled lines (s :: statements) :=
  List.forall_mem_cons.2 ⟨hs s (List.mem_singleton_self s), h⟩

theorem append_closer (h : AreSpelled lines statements) : AreSpelled lines (statements ++ [.closer]) := by
  refine List.forall_mem_append.2 ⟨h, List.forall_mem_singleton.2 fun x hx => ?_⟩
  cases hx with
  | here h => cases h

/-- A statement on a line of its own. -/
theorem of_isLine {line : Line} (hs : s.isLine) (hline : line ∈ lines)
    (h : ∀ x ∈ s.pieces, x.IsSpelled line.text) : AreSpelled lines [s] := by
  refine List.forall_mem_singleton.2 fun x hx => ?_
  cases hx with
  | here hx => exact ⟨line, hline, h x hx⟩
  | clause | loop | function => cases hs

end AreSpelled

/-- What is read is spelled by the lines that it is read off, besides the header of the first clause of
a selection, which stands before them. -/
def Reading.IsSpelled : Reading → Prop
  | lines _ taken statements _ => AreSpelled taken statements
  | clauses _ header taken cs _ => ∀ clause ∈ cs, AreSpelled taken clause.body.statements ∧
      (clause.header = header ∨ ∃ line ∈ taken, clause.header.IsSpelled line.text)

theorem Reads.isSpelled {reading : Reading} (h : Reads reading) : reading.IsSpelled := by
  induction h with
  | nil => exact .nil
  | blank _ _ ih => exact ih.mono (List.subset_cons_self _ _)
  | line _ hline _ ih =>
    exact .cons (.of_isLine hline.spells.isLine List.mem_cons_self hline.isSpelled)
      (ih.mono (List.subset_cons_self _ _))
  | @result f line rest s _ _ hresult _ =>
    obtain ⟨type, v, -, rfl, hv⟩ := Statement.readResult_eq_ok hresult
    exact .of_isLine rfl List.mem_cons_self
      (List.forall_mem_singleton.2 ⟨_, _, List.Subset.refl _, _, hv⟩)
  | @selection f next after line taken rest text condition clauses statements _ _ hheader hcondition _
      _ ihclauses ihrest =>
    have htaken : taken ⊆ line :: (taken ++ rest) :=
      List.subset_cons_of_subset _ (List.subset_append_left _ _)
    refine .cons (List.forall_mem_singleton.2 fun x hx => ?_)
      (ihrest.mono (List.subset_cons_of_subset _ (List.subset_append_right _ _)))
    cases hx with
    | here hx =>
      obtain ⟨clause, hclause, hx⟩ := List.mem_filterMap.1 hx
      obtain ⟨c, hc, rfl⟩ := Option.map_eq_some_iff.1 hx
      rcases (ihclauses clause hclause).2 with heq | ⟨other, hother, hspelled⟩
      · rw [heq] at hc
        cases hc
        exact ⟨line, List.mem_cons_self, isSpelled_of_readCondition hheader hcondition⟩
      · exact ⟨other, htaken hother, hspelled c hc⟩
    | clause hclause hs hx => exact ((ihclauses _ hclause).1.mono htaken) _ hs _ hx
  | @loop f inner after line close inside rest text condition body statements _ _ hheader hcondition _
      _ _ _ ihinside ihrest =>
    refine .cons (List.forall_mem_singleton.2 fun x hx => ?_)
      (ihrest.mono (List.subset_cons_of_subset _ (List.subset_append_of_subset_right _
        (List.subset_cons_self _ _))))
    cases hx with
    | here hx =>
      obtain rfl := List.mem_singleton.1 hx
      exact ⟨line, List.mem_cons_self, isSpelled_of_readCondition hheader hcondition⟩
    | loop hs hx =>
      exact (ihinside.append_closer.mono (List.subset_cons_of_subset _ (List.subset_append_left _ _)))
        _ hs _ hx
  | @function f entered inner next after line close inside rest signature r body statements _ _ _ _ _
      _ _ _ _ ihinside ihrest =>
    refine .cons (List.forall_mem_singleton.2 fun x hx => ?_)
      (ihrest.mono (List.subset_cons_of_subset _ (List.subset_append_of_subset_right _
        (List.subset_cons_self _ _))))
    cases hx with
    | here hx => cases hx
    | function hs hx =>
      exact (ihinside.append_closer.mono (List.subset_cons_of_subset _ (List.subset_append_left _ _)))
        _ hs _ hx
  | lastClause _ _ ihinside =>
    exact List.forall_mem_singleton.2
      ⟨ihinside.append_closer.mono (List.subset_append_left _ _), .inl rfl⟩
  | @nextClause f inner after header next close inside taken body clauses _ hclose hnext _ ihinside
      ihclauses =>
    have htaken : taken ⊆ inside ++ close :: taken :=
      List.subset_append_of_subset_right _ (List.subset_cons_self _ _)
    refine List.forall_mem_cons.2
      ⟨⟨ihinside.mono (List.subset_append_left _ _), .inl rfl⟩, fun clause hclause => ?_⟩
    obtain ⟨hbody, hheader⟩ := ihclauses clause hclause
    refine ⟨hbody.mono htaken, .inr ?_⟩
    rcases hheader with heq | ⟨line, hline, hspelled⟩
    · exact ⟨close, List.mem_append_right _ List.mem_cons_self,
        heq ▸ isSpelled_of_readNextHeader hclose hnext⟩
    · exact ⟨line, htaken hline, hspelled⟩

/-- Each piece of an accepted file was read off a part of one of its lines. -/
theorem isSpelled_of_read {source : Text} {p : Program} (h : Program.read source = .ok p) :
    AreSpelled source.numberedLines p.body.statements := by
  obtain ⟨after, hreads, -⟩ := reads_of_read h
  exact hreads.isSpelled

end Program

end StellaGo
