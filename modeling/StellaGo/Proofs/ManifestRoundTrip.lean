import StellaGo.Manifest
import StellaGo.Proofs.TomlDocuments

/-! A manifest written to TOML and read back, for every library that writes documents in the forms and
reads the documents of the grammar. Proved: the sections of a manifest make a plain document without
equal keys; a table that holds them is read as the manifest, and so the text of every manifest whose
columns a signed word holds is the manifest again, whatever its three strings hold. -/

namespace StellaGo.Manifest

open Toml

variable {manifest : Manifest}

theorem isPlainDocument_sections (h : manifest.tabSize < 2 ^ 63) :
    IsPlainDocument manifest.sections := by
  have hkey : ∀ key ∈ ["package", "name", "entry", "build", "out_dir", "tab_size"],
      IsBareKey key.toList := by
    decide
  simp only [List.forall_mem_cons] at hkey
  obtain ⟨hpackage, hname, hentry, hbuild, houtDir, htabSize, -⟩ := hkey
  have hcolumns : Value.IsFlat (.integer manifest.tabSize) :=
    ⟨Int.natCast_nonneg _, by exact_mod_cast h⟩
  refine List.forall_mem_cons.2 ⟨⟨hpackage, ?_⟩, List.forall_mem_singleton.2 ⟨hbuild, ?_⟩⟩
  · exact List.forall_mem_cons.2 ⟨⟨hname, trivial⟩, List.forall_mem_singleton.2 ⟨hentry, trivial⟩⟩
  · exact List.forall_mem_cons.2 ⟨⟨houtDir, trivial⟩, List.forall_mem_singleton.2 ⟨htabSize, hcolumns⟩⟩

theorem distinctKeys_sections (manifest : Manifest) : DistinctKeys manifest.sections := by
  have hsections : ["package".toList, "build".toList].Nodup := by decide
  have hpackage : ["name".toList, "entry".toList].Nodup := by decide
  have hbuild : ["out_dir".toList, "tab_size".toList].Nodup := by decide
  exact ⟨hsections, List.forall_mem_cons.2 ⟨hpackage, List.forall_mem_singleton.2 hbuild⟩⟩

theorem ofEntries?_of_holds {root : Entries} (h : root.Holds manifest.sections) :
    ofEntries? root = some manifest := by
  obtain ⟨hfirst, hsecond⟩ := List.forall_mem_cons.1 h
  obtain ⟨packageOrigin, package, hpackage, hpairs⟩ := hfirst
  obtain ⟨buildOrigin, build, hbuild, hpairs'⟩ := List.forall_mem_singleton.1 hsecond
  obtain ⟨hname, hentry⟩ := List.forall_mem_cons.1 hpairs
  obtain ⟨houtDir, htabSize⟩ := List.forall_mem_cons.1 hpairs'
  rw [List.forall_mem_singleton] at hentry htabSize
  simp only at hpackage hbuild hname hentry houtDir htabSize
  rw [ofEntries?, hpackage, hbuild]
  simp only [Option.bind_eq_bind, Option.bind_some, Value.fields?, field?, hname, hentry, houtDir,
    htabSize]
  rfl

/-- A manifest whose columns are at most `2 ^ 63 - 1` is written, and its text is read as the same
manifest: whatever its strings hold, the reader undoes the form of quotes that they take. -/
theorem ofToml?_of_toToml? [Library] (hwrites : WritesForms) (hreads : ReadsDocuments)
    (manifest : Manifest) (h : manifest.tabSize ≤ 9223372036854775807) :
    ∃ text, manifest.toToml? = some text ∧ ofToml? text = some manifest := by
  have hplain := isPlainDocument_sections (Nat.lt_succ_of_le h)
  have hkeys := distinctKeys_sections manifest
  obtain ⟨text, htext, hforms⟩ := hwrites _ hplain hkeys
  have hspells := hforms.spells fun part hpart =>
    ⟨(hplain part hpart).1, fun pair hpair => ((hplain part hpart).2 pair hpair).1⟩
  obtain ⟨root, hroot, hholds⟩ := hreads text _ hspells hkeys
  refine ⟨text, htext, ?_⟩
  rw [ofToml?, hroot]
  exact ofEntries?_of_holds hholds

/-- Three of the forms of quotes, and the last number that a signed word holds. -/
theorem ofToml?_of_toToml?_quotes :
    WritesForms ∧ ReadsDocuments ∧
    ∃ text,
      toToml? ⟨"a'\"\\".toList, "\x07\t'''".toList, "\n\"\"".toList, 9223372036854775807⟩ =
        some text ∧
      ofToml? text =
        some ⟨"a'\"\\".toList, "\x07\t'''".toList, "\n\"\"".toList, 9223372036854775807⟩ :=
  ⟨writesForms, readsDocuments, ofToml?_of_toToml? writesForms readsDocuments
    ⟨"a'\"\\".toList, "\x07\t'''".toList, "\n\"\"".toList, 9223372036854775807⟩ (Nat.le_refl _)⟩

end StellaGo.Manifest
