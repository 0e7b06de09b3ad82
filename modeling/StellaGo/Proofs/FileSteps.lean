import StellaGo.Command
import StellaGo.Proofs.FilePlaces

/-! Steps of a command on a machine with a tree of files. Defined here: an action that touches some
files only, and what a step gives. Proved: making directories touches the paths above a file only; a
file is written after those directories are made; compiling a file and loading a manifest change
nothing, and they give what the files hold. -/

namespace StellaGo

/-! ### Actions on a machine -/

namespace Machine

theorem run_onFiles (change : FileTree → Except FileFault FileTree) (machine : Machine) :
    (onFiles change).run machine = match change machine.files with
      | .ok files => (.ok (), { machine with files })
      | .error fault => (.error fault, machine) := rfl

/-- On every machine, an action touches the files of some outputs only. -/
def Touching {α : Type} (outputs made : List Text) (action : StateM Machine α) : Prop :=
  ∀ machine : Machine, FileTree.Touches outputs made machine.files (action.run machine).2.files

namespace Touching

variable {α β : Type} {outputs outputs' made made' : List Text} {action : StateM Machine α}

theorem of_files_eq (h : ∀ machine : Machine, (action.run machine).2.files = machine.files) :
    Touching outputs made action := fun machine => by
  rw [h]
  exact .refl _ _ _

theorem bind {next : α → StateM Machine β} (h : Touching outputs made action)
    (hnext : ∀ a, Touching outputs made (next a)) : Touching outputs made (action >>= next) :=
  fun machine => (h machine).trans (hnext _ (action.run machine).2)

theorem mono (h : Touching outputs made action) (houtputs : outputs ⊆ outputs')
    (hmade : made ⊆ made') : Touching outputs' made' action :=
  fun machine => (h machine).mono houtputs hmade

theorem bind_step {ε : Type} {step : ExceptT ε (StateM Machine) α}
    {next : α → ExceptT ε (StateM Machine) β} (h : Touching outputs made step.run)
    (hnext : ∀ a, Touching outputs made (next a).run) :
    Touching outputs made (step >>= next).run := by
  rw [ExceptT.run_bind]
  exact h.bind fun
    | .ok a => hnext a
    | .error _ => .of_files_eq fun _ => rfl

end Touching

theorem touching_makeDirectory (path : Text) :
    Touching [] [path] (onFiles (·.makeDirectory path)) := by
  intro machine
  rw [run_onFiles]
  cases h : machine.files.makeDirectory path with
  | ok files => exact FileTree.touches_of_makeDirectory h
  | error fault => exact .refl _ _ _

/-- The `go` tool leaves the files as they are. -/
theorem files_runGo (action : GoAction) (directory : Text) (machine : Machine) :
    ((runGo action directory).run machine).2.files = machine.files := by
  change (runGo action directory machine).2.files = machine.files
  rw [runGo]
  split <;> rfl

end Machine

namespace Command

open Machine

/-! ### Directories -/

theorem touching_ensureDirectory (path : Text) :
    Touching [] [path] (ensureDirectory (m := StateM Machine) path) :=
  .bind (touching_makeDirectory path) fun
    | .ok () => .of_files_eq fun _ => rfl
    | .error _ => .of_files_eq fun _ => rfl

/-- Directories are made at a path and at those above it only. -/
theorem touching_ensureDirectories (path : Text) :
    Touching [] (path :: Path.ancestors path) (ensureDirectories (m := StateM Machine) path) := by
  induction hlength : path.length using Nat.strongRecOn generalizing path with
  | ind n ih =>
  have hdirectory : Touching [] (path :: Path.ancestors path)
      (ensureDirectory (m := StateM Machine) path) :=
    (touching_ensureDirectory path).mono (List.Subset.refl _)
      (List.cons_subset_cons _ (List.nil_subset _))
  rw [ensureDirectories]
  split
  · exact .of_files_eq fun _ => rfl
  refine hdirectory.bind fun result => ?_
  split
  · split
    · exact .of_files_eq fun _ => rfl
    · next above habove =>
      have hlt : above.length < n := hlength ▸ Path.length_parent?_lt habove
      have hancestors := Path.ancestors_of_parent? habove
      have habove : Touching [] (path :: Path.ancestors path)
          (ensureDirectories (m := StateM Machine) above) := by
        refine (ih _ hlt above rfl).mono (List.Subset.refl _) ?_
        rw [hancestors]
        exact List.subset_cons_self _ _
      refine habove.bind fun result => ?_
      cases result with
      | ok => exact hdirectory
      | error fault => exact .of_files_eq fun _ => rfl
  · exact .of_files_eq fun _ => rfl

/-! ### Steps -/

/-- A step of a command on a machine. -/
abbrev Step (α : Type) := ExceptT CommandFault (StateM Machine) α

namespace Step

/-- What a step gives, and the machine that it leaves. -/
def on {α : Type} (step : Step α) (machine : Machine) : Except CommandFault α × Machine :=
  step.run.run machine

section

variable {α β : Type} {step : Step α} {next : α → Step β} {machine after : Machine}

theorem on_bind_of_ok {a : α} (h : step.on machine = (.ok a, after)) :
    (step >>= next).on machine = (next a).on after := by
  rw [on] at h
  rw [on, ExceptT.run_bind, StateT.run_bind, h]
  rfl

theorem on_bind_of_error {fault : CommandFault} (h : step.on machine = (.error fault, after)) :
    (step >>= next).on machine = (.error fault, after) := by
  rw [on] at h
  rw [on, ExceptT.run_bind, StateT.run_bind, h]
  rfl

theorem on_accessing (path : Text) (action : StateM Machine (Except FileFault α))
    (machine : Machine) :
    on (accessing path action) machine =
      ((action.run machine).1.mapError (CommandFault.access path), (action.run machine).2) := rfl

end

end Step

/-- The exit status for what a command gives. -/
def status {α : Type} : Except CommandFault α → Nat
  | .ok _ => 0
  | .error _ => 1

/-- A file is written after the directories above it are made, if nothing fails before. -/
theorem on_writeOutput (path text : Text) (machine : Machine) :
    ∃ middle : Machine,
      FileTree.Touches [] (Path.ancestors path) machine.files middle.files ∧
        ((∃ fault, Step.on (writeOutput path text) machine = (.error fault, middle)) ∨
          ∃ files, middle.files.write path text = .ok files ∧
            Step.on (writeOutput path text) machine = (.ok (), { middle with files })) := by
  have hwrite (middle : Machine) :
      (∃ fault, Step.on (accessing path (Host.write path text)) middle = (.error fault, middle)) ∨
        ∃ files, middle.files.write path text = .ok files ∧
          Step.on (accessing path (Host.write path text)) middle =
            (.ok (), { middle with files }) := by
    have hhost : Host.write path text = Machine.onFiles (·.write path text) := rfl
    rw [hhost, Step.on_accessing, run_onFiles]
    cases h : middle.files.write path text with
    | ok files => exact .inr ⟨files, rfl, rfl⟩
    | error fault => exact .inl ⟨_, rfl⟩
  rw [writeOutput]
  cases hparent : Path.parent? path with
  | none => exact ⟨machine, .refl _ _ _, hwrite machine⟩
  | some directory =>
    have hmade := touching_ensureDirectories directory machine
    rw [← Path.ancestors_of_parent? hparent] at hmade
    have hstep := Step.on_accessing directory (ensureDirectories directory) machine
    refine ⟨_, hmade, ?_⟩
    cases hresult : ((ensureDirectories (m := StateM Machine) directory).run machine).1 with
    | error fault =>
      rw [hresult] at hstep
      exact .inl ⟨_, Step.on_bind_of_error hstep⟩
    | ok =>
      rw [hresult] at hstep
      rw [Step.on_bind_of_ok hstep]
      exact hwrite _

theorem writeOutput_frame (path text : Text) (machine : Machine) :
    ∃ result after, Step.on (writeOutput path text) machine = (result, after) ∧
      FileTree.Touches [path] (Path.ancestors path) machine.files after.files ∧
      (status result = 0 →
        after.files.node? (machine.files.place path) = some (.file (some text))) := by
  obtain ⟨middle, hmade, ⟨fault, hon⟩ | ⟨files, hwrite, hon⟩⟩ := on_writeOutput path text machine
  · exact ⟨_, _, hon, hmade.mono (List.nil_subset _) (List.Subset.refl _), nofun⟩
  · refine ⟨_, _, hon, ?_, fun _ => ?_⟩
    · exact (hmade.mono (List.nil_subset _) (List.Subset.refl _)).trans
        (FileTree.touches_of_write _ hwrite)
    · rw [← hmade.place_eq]
      exact FileTree.node?_of_write hwrite

theorem touching_writeOutput (path text : Text) :
    Touching [path] (Path.ancestors path) (ExceptT.run (writeOutput path text)) := by
  intro machine
  obtain ⟨result, after, hon, htouches, -⟩ := writeOutput_frame path text machine
  rw [Step.on] at hon
  rw [hon]
  exact htouches

/-! ### Reading -/

/-- A file of a tree is compiled to this code. -/
def Compiles (tree : FileTree) (file : Text) (tabSize : Nat) (code : Text) : Prop :=
  ∃ source, tree.read file = .ok source ∧ compile source tabSize = .ok code

/-- A directory of a tree holds this manifest. -/
def Holds [Toml.Library] (tree : FileTree) (directory : Text) (manifest : Manifest) : Prop :=
  tree.kind? (Path.join directory Manifest.fileName) = some .file ∧
    ∃ text, tree.read (Path.join directory Manifest.fileName) = .ok text ∧
      Manifest.ofToml? text = some manifest

theorem on_compileFile (file : Text) (tabSize : Nat) (machine : Machine) :
    ∃ result, Step.on (compileFile file tabSize) machine = (result, machine) ∧
      ∀ code, result = .ok code → Compiles machine.files file tabSize code := by
  have hread : Step.on (accessing file (Host.read file)) machine =
      ((machine.files.read file).mapError (CommandFault.access file), machine) := rfl
  rw [compileFile]
  cases h : machine.files.read file with
  | error fault =>
    rw [h] at hread
    exact ⟨_, Step.on_bind_of_error hread, nofun⟩
  | ok source =>
    rw [h] at hread
    rw [Step.on_bind_of_ok hread]
    cases hcode : compile source tabSize with
    | error error => exact ⟨_, rfl, nofun⟩
    | ok code =>
      refine ⟨.ok code, rfl, fun _ heq => ?_⟩
      cases heq
      exact ⟨source, h, hcode⟩

theorem on_loadManifest [Toml.Library] (directory : Text) (machine : Machine) :
    ∃ result, Step.on (loadManifest directory) machine = (result, machine) ∧
      ∀ manifest, result = .ok manifest → Holds machine.files directory manifest := by
  have hkind : Step.on (Host.kind? (Path.join directory Manifest.fileName)) machine =
      (.ok (machine.files.kind? (Path.join directory Manifest.fileName)), machine) := rfl
  have hread : Step.on (Host.read (Path.join directory Manifest.fileName)) machine =
      (.ok (machine.files.read (Path.join directory Manifest.fileName)), machine) := rfl
  rw [loadManifest, Step.on_bind_of_ok hkind]
  split
  · exact ⟨_, rfl, nofun⟩
  · next hfile =>
    rw [Step.on_bind_of_ok hread]
    cases htext : machine.files.read (Path.join directory Manifest.fileName) with
    | error fault => exact ⟨_, rfl, nofun⟩
    | ok text =>
      simp only
      cases hmanifest : Manifest.ofToml? text with
      | none => exact ⟨_, rfl, nofun⟩
      | some manifest =>
        refine ⟨.ok manifest, rfl, fun _ heq => ?_⟩
        cases heq
        exact ⟨not_not.1 hfile, text, htext, hmanifest⟩

/-! ### The tool for Go -/

theorem files_runGo (directory : Text) (action : GoAction) (machine : Machine) :
    (Step.on (runGo directory action) machine).2.files = machine.files := by
  have hfiles := Machine.files_runGo action directory machine
  have hgo : Step.on (Host.go action directory) machine =
    (.ok ((Machine.runGo action directory).run machine).1,
      ((Machine.runGo action directory).run machine).2) := rfl
  rw [runGo, Step.on_bind_of_ok hgo]
  cases h : ((Machine.runGo action directory).run machine).1 with
  | error fault => exact hfiles
  | ok status =>
    simp only
    split <;> exact hfiles

end Command

end StellaGo
