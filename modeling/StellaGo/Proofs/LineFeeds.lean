import StellaGo.Go.Program
import StellaGo.Proofs.GoText

/-! Line feeds in generated text. Proved: the Go text of a piece that was read off a text without
line feeds, with identifiers as names, has no line feeds, so that it stays on its line. -/

namespace StellaGo

/-- The text has no line feed. -/
def Text.IsOneLine (t : Text) : Prop := '\n' ∉ t

instance (t : Text) : Decidable t.IsOneLine := inferInstanceAs (Decidable ('\n' ∉ t))

namespace Text.IsOneLine

variable {t u : Text}

theorem append (ht : t.IsOneLine) (hu : u.IsOneLine) : Text.IsOneLine (t ++ u) := by
  intro h
  rcases List.mem_append.1 h with h | h
  · exact ht h
  · exact hu h

theorem cons {c : Char} (hc : c ≠ '\n') (ht : t.IsOneLine) : Text.IsOneLine (c :: t) := by
  intro h
  rcases List.mem_cons.1 h with h | h
  · exact hc h.symm
  · exact ht h

theorem of_subset (h : t ⊆ u) (hu : u.IsOneLine) : t.IsOneLine := fun ht => hu (h ht)

/-- Generated text is put together from texts of one line. -/
theorem respects : Go.Respects Text.IsOneLine where
  bare t h hm := by
    have hc := List.all_eq_true.1 h '\n' hm
    exact absurd hc (by decide)
  append _ _ := append
  braced _ h := .append (.cons (by decide) h) (by decide)

theorem commas_map {α : Type} {f : α → Text} {xs : List α} (h : ∀ x ∈ xs, (f x).IsOneLine) :
    Text.IsOneLine (Go.commas (xs.map f)) := respects.commas_map h

theorem ofNat (n : Nat) : (Text.ofNat n).IsOneLine := respects.ofNat n

/-- A name that may be declared. -/
theorem of_problem? (h : Name.problem? t = none) : t.IsOneLine := respects.of_problem? h

/-- A literal has no other characters than the text. -/
theorem hasLiterals (h : t.IsOneLine) : t.HasLiterals Text.IsOneLine := by
  intro part tokens hpart hscan token htoken type _
  exact .of_subset (List.Subset.trans (Token.subset_of_mem_scanInside hscan token htoken) hpart) h

end Text.IsOneLine

theorem ValueType.isOneLine_goName (type : ValueType) : type.goName.IsOneLine :=
  Text.IsOneLine.respects.type type

theorem isOneLine_carrierName (arity : Nat) : (carrierName arity).IsOneLine :=
  Text.IsOneLine.respects.carrierName arity

namespace Piece

variable {symbols : Symbols} {text : Text}

theorem isOneLine_name (hs : symbols.Identifies) {name : Name} {d : Descriptor}
    (h : symbols.lookup? name = some d) : d.name.IsOneLine := Text.IsOneLine.respects.name hs h

/-- The Go text of what was read off one line is one line. -/
theorem isOneLine_go (hs : symbols.Identifies) (x : Piece) (ht : text.IsOneLine)
    (hx : IsRead symbols text x) : x.go.IsOneLine :=
  Text.IsOneLine.respects.go hs x ht.hasLiterals hx

end Piece

end StellaGo
