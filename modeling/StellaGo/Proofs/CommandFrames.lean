import StellaGo.CommandLine
import StellaGo.Proofs.FileSteps

/-! What the commands change. Defined here: for each command the files that a run of it may touch,
when it may touch them, and what it leaves in them. Proved: every run of the command line keeps to
that, whatever its arguments and files are. The declaration of a Go module that is found is never
touched; one that stands behind a missing directory and a step up is overlooked, and written
over. -/

namespace StellaGo

namespace Command

open Machine

/-! ### The Go module -/

/-- The file of the code in the directory of a Go module. -/
def mainPath (directory : Text) : Text := Path.join directory "main.go".toList

/-- The file that declares the Go module in its directory. -/
def goModPath (directory : Text) : Text := Path.join directory "go.mod".toList

theorem isName_main : Path.IsName "main.go".toList := ⟨by decide, by decide, by decide⟩

theorem isName_goMod : Path.IsName "go.mod".toList := ⟨by decide, by decide, by decide⟩

theorem place_goMod_ne_place_main (tree : FileTree) (directory : Text) :
    tree.place (goModPath directory) ≠ tree.place (mainPath directory) := by
  rw [goModPath, mainPath, FileTree.place_join isName_goMod, FileTree.place_join isName_main]
  exact fun h => absurd (List.cons.inj h).1 (by decide)

/-- A declaration is overlooked when the way to it leads through a missing directory. Where
everything stands in a directory, the way must then lead up again. -/
def Overlooks (tree : FileTree) (directory : Text) : Prop :=
  tree.target (goModPath directory) = .error .notFound ∧
    (tree.Closed → ['.', '.'] ∈ Path.names directory)

/-- The declaration of a tree stays in another one, unless it is overlooked. -/
def KeepsDeclaration (before after : FileTree) (directory : Text) : Prop :=
  ∀ node, before.node? (before.place (goModPath directory)) = some node →
    after.node? (before.place (goModPath directory)) = some node ∨ Overlooks before directory

/-- What making the Go module of a directory may change. -/
structure ModuleFrame (before after : FileTree) (directory : Text) : Prop where
  touches : FileTree.Touches [goModPath directory, mainPath directory]
    (Path.ancestors (goModPath directory) ++ Path.ancestors (mainPath directory)) before after
  /-- A declaration that is found stays. -/
  found : (before.kind? (goModPath directory)).isSome →
    after.node? (before.place (goModPath directory)) =
      before.node? (before.place (goModPath directory))
  kept : KeepsDeclaration before after directory

section

variable {before after : FileTree} {directory : Text}

/-- A declaration that is there is found if the way to it is. -/
theorem kind?_goModPath {t : FileTree.Target} (h : before.target (goModPath directory) = .ok t) :
    before.kind? (goModPath directory) =
      (before.node? (before.place (goModPath directory))).map Node.kind :=
  FileTree.kind?_join isName_goMod (by decide) h

theorem KeepsDeclaration.found (h : KeepsDeclaration before after directory)
    (hfound : (before.kind? (goModPath directory)).isSome) :
    after.node? (before.place (goModPath directory)) =
      before.node? (before.place (goModPath directory)) := by
  cases htarget : before.target (goModPath directory) with
  | error fault =>
    rw [FileTree.kind?, FileTree.find, htarget] at hfound
    cases hfound
  | ok t =>
    rw [kind?_goModPath htarget, Option.isSome_map] at hfound
    obtain ⟨node, hnode⟩ := Option.isSome_iff_exists.1 hfound
    rcases h node hnode with hsame | ⟨herror, -⟩
    · rw [hsame, hnode]
    · rw [htarget] at herror
      cases herror

/-- A declaration that is not found is written over only if it is overlooked: the way to it is found
once the missing directories are made. -/
theorem keepsDeclaration_of_writeOutput {text : Text} {machine after : Machine}
    {result : Except CommandFault Unit}
    (hon : Step.on (writeOutput (goModPath directory) text) machine = (result, after))
    (hunseen : machine.files.kind? (goModPath directory) = none) :
    KeepsDeclaration machine.files after.files directory := by
  intro node hnode
  obtain ⟨middle, hmade, ⟨fault, hon'⟩ | ⟨files, hwrite, -⟩⟩ :=
    on_writeOutput (goModPath directory) text machine
  · rw [hon] at hon'
    cases hon'
    exact .inl (hmade.node?_eq_some List.not_mem_nil hnode)
  · obtain ⟨t, hway, -⟩ := Check.bind_eq_ok_iff.1 hwrite
    cases htarget : machine.files.target (goModPath directory) with
    | ok t =>
      rw [kind?_goModPath htarget, hnode] at hunseen
      cases hunseen
    | error fault =>
      have hkept (place : Place) (node : Node) (h : machine.files.node? place = some node) :
          middle.files.node? place = some node := hmade.node?_eq_some List.not_mem_nil h
      obtain rfl :=
        FileTree.eq_notFound_of_target_join isName_goMod hmade.here_eq hkept htarget hway
      refine .inr ⟨htarget, fun hclosed => by_contra fun hup => ?_⟩
      have hnone := FileTree.node?_eq_none_of_target_join hclosed isName_goMod hup htarget
      rw [← goModPath, hnode] at hnone
      cases hnone

/-- The code is written after the declaration is seen to. -/
theorem moduleFrame_of_main {machine : Machine} (code : Text)
    (htouches : FileTree.Touches [goModPath directory] (Path.ancestors (goModPath directory))
      before machine.files)
    (hkeeps : KeepsDeclaration before machine.files directory) :
    ∃ result after,
      Step.on (do
        writeOutput (mainPath directory) code
        return directory) machine = (result, after) ∧
      ModuleFrame before after.files directory ∧
      (status result = 0 →
        after.files.node? (before.place (mainPath directory)) = some (.file (some code))) := by
  obtain ⟨result, after, hon, hmain, hwritten⟩ :=
    writeOutput_frame (mainPath directory) code machine
  rw [htouches.place_eq] at hwritten
  have hboth : FileTree.Touches [goModPath directory, mainPath directory]
      (Path.ancestors (goModPath directory) ++ Path.ancestors (mainPath directory))
      before after.files :=
    (htouches.mono (by simp) (List.subset_append_left _ _)).trans
      (hmain.mono (by simp) (List.subset_append_right _ _))
  have hafter : KeepsDeclaration before after.files directory := fun node hnode => by
    refine (hkeeps node hnode).imp_left (hmain.node?_eq_some ?_)
    rw [htouches.place_eq]
    simpa using place_goMod_ne_place_main before directory
  cases result with
  | error fault => exact ⟨_, _, Step.on_bind_of_error hon, ⟨hboth, hafter.found, hafter⟩, nofun⟩
  | ok => exact ⟨_, _, Step.on_bind_of_ok hon, ⟨hboth, hafter.found, hafter⟩, hwritten⟩

end

/-- A Go module is declared unless a declaration is found, and then its code is written. -/
theorem moduleFrame_of_make (directory name code : Text) (machine : Machine) :
    ∃ result after,
      Step.on (do
        if (← Host.kind? (goModPath directory)).isNone then
          writeOutput (goModPath directory) (Manifest.goMod name)
        writeOutput (mainPath directory) code
        return directory) machine = (result, after) ∧
      ModuleFrame machine.files after.files directory ∧
      (status result = 0 →
        after.files.node? (machine.files.place (mainPath directory)) =
          some (.file (some code))) := by
  have hkind : Step.on (Host.kind? (goModPath directory)) machine =
      (.ok (machine.files.kind? (goModPath directory)), machine) := rfl
  rw [Step.on_bind_of_ok hkind]
  simp only
  split
  · next hnone =>
    obtain ⟨result, middle, hon, htouches, -⟩ :=
      writeOutput_frame (goModPath directory) (Manifest.goMod name) machine
    have hkeeps := keepsDeclaration_of_writeOutput hon (Option.isNone_iff_eq_none.1 hnone)
    cases result with
    | error fault =>
      have hboth : FileTree.Touches [goModPath directory, mainPath directory]
          (Path.ancestors (goModPath directory) ++ Path.ancestors (mainPath directory))
          machine.files middle.files :=
        htouches.mono (by simp) (List.subset_append_left _ _)
      exact ⟨_, _, Step.on_bind_of_error hon, ⟨hboth, hkeeps.found, hkeeps⟩, nofun⟩
    | ok =>
      rw [Step.on_bind_of_ok hon]
      exact moduleFrame_of_main code htouches hkeeps
  · exact moduleFrame_of_main code (.refl _ _ _) fun _ hnode => .inl hnode

/-! ### What each command may change -/

/-- Compiling a file changes nothing unless the file compiles; and then it may write the code to its
output, which holds the code if the command succeeds. -/
def TranspileFrame (before after : FileTree) (status : Nat) (file : Text) (output? : Option Text)
    (tabSize : Nat) : Prop :=
  after = before ∧ status ≠ 0 ∨
    ∃ code, Compiles before file tabSize code ∧
      if output? = some ['-'] then after = before
      else
        FileTree.Touches [output?.getD (defaultOutput file)]
          (Path.ancestors (output?.getD (defaultOutput file))) before after ∧
        (status = 0 → after.node? (before.place (output?.getD (defaultOutput file))) =
          some (.file (some code)))

/-- The files of a new package. -/
def packageFiles (name : Text) : List Text :=
  let manifest : Manifest := { name }
  let root := Path.join ['.'] name
  [Path.join root Manifest.fileName, manifest.entryPath root, goModPath (manifest.outPath root)]

/-- Creating a package changes nothing if its name is bad or taken. -/
def CreateFrame (before after : FileTree) (name : Text) : Prop :=
  if isPackageName name ∧ before.kind? (Path.join ['.'] name) = none then
    FileTree.Touches (packageFiles name) ((packageFiles name).flatMap Path.ancestors) before after
  else after = before

section

variable [Toml.Library]

/-- Building or running a package changes nothing unless its manifest is read and its entry
compiles; and then it may make the Go module, which holds the code if the command succeeds. -/
def PackageFrame (before after : FileTree) (status : Nat) (root : Text) (tabSize? : Option Nat) :
    Prop :=
  after = before ∧ status ≠ 0 ∨
    ∃ manifest code, Holds before root manifest ∧
      Compiles before (manifest.entryPath root) (tabSize?.getD manifest.tabSize) code ∧
      ModuleFrame before after (manifest.outPath root) ∧
      (status = 0 → after.node? (before.place (mainPath (manifest.outPath root))) =
        some (.file (some code)))

/-- What a command may change, by its exit status. -/
def Frame (before after : FileTree) (status : Nat) : Command → Prop
  | transpile file output? tabSize => TranspileFrame before after status file output? tabSize
  | check _ => after = before
  | create name => CreateFrame before after name
  | build root tabSize? => PackageFrame before after status root tabSize?
  | run root => PackageFrame before after status root none

/-! ### What each command changes -/

/-- The code goes to a file unless a hyphen stands for the output. -/
theorem execute_transpile {output? : Option Text} (h : output? ≠ some ['-']) (file : Text)
    (tabSize : Nat) :
    execute (.transpile file output? tabSize) = (do
      let code ← compileFile file tabSize
      writeOutput (output?.getD (defaultOutput file)) code : Step Unit) := by
  rw [execute]
  refine bind_congr fun code => ?_
  split
  · exact absurd rfl h
  · rfl
  · rfl

theorem frame_of_transpile (file : Text) (output? : Option Text) (tabSize : Nat)
    (machine : Machine) :
    let (result, after) := Step.on (execute (.transpile file output? tabSize)) machine
    TranspileFrame machine.files after.files (status result) file output? tabSize := by
  obtain ⟨compiled, hcompile, hcompiles⟩ := on_compileFile file tabSize machine
  cases compiled with
  | error fault =>
    rw [execute, Step.on_bind_of_error hcompile]
    exact .inl ⟨rfl, Nat.one_ne_zero⟩
  | ok code =>
    by_cases hdash : output? = some ['-']
    · subst hdash
      rw [execute, Step.on_bind_of_ok hcompile]
      exact .inr ⟨code, hcompiles code rfl, (if_pos rfl).mpr rfl⟩
    · obtain ⟨result, after, hon, hframe⟩ :=
        writeOutput_frame (output?.getD (defaultOutput file)) code machine
      rw [execute_transpile hdash, Step.on_bind_of_ok hcompile, hon]
      refine .inr ⟨code, hcompiles code rfl, ?_⟩
      rwa [if_neg hdash]

theorem frame_of_transpilePackage (root : Text) (tabSize? : Option Nat) (machine : Machine) :
    let (result, after) := Step.on (transpilePackage root tabSize?) machine
    PackageFrame machine.files after.files (status result) root tabSize? := by
  obtain ⟨loaded, hload, hholds⟩ := on_loadManifest root machine
  rw [transpilePackage]
  cases loaded with
  | error fault =>
    rw [Step.on_bind_of_error hload]
    exact .inl ⟨rfl, Nat.one_ne_zero⟩
  | ok manifest =>
    rw [Step.on_bind_of_ok hload]
    obtain ⟨compiled, hcompile, hcompiles⟩ :=
      on_compileFile (manifest.entryPath root) (tabSize?.getD manifest.tabSize) machine
    cases compiled with
    | error fault =>
      rw [Step.on_bind_of_error hcompile]
      exact .inl ⟨rfl, Nat.one_ne_zero⟩
    | ok code =>
      obtain ⟨result, after, hon, hframe, hwritten⟩ :=
        moduleFrame_of_make (manifest.outPath root) manifest.name code machine
      rw [Step.on_bind_of_ok hcompile]
      rw [goModPath, mainPath] at hon
      rw [hon]
      exact .inr ⟨manifest, code, hholds _ rfl, hcompiles _ rfl, hframe, hwritten⟩

/-- The `go` tool may fail, but it changes nothing. -/
theorem frame_of_goStep (root : Text) (tabSize? : Option Nat) (action : GoAction)
    (machine : Machine) :
    let (result, after) := Step.on (do
      let path ← transpilePackage root tabSize?
      runGo path action) machine
    PackageFrame machine.files after.files (status result) root tabSize? := by
  have hframe := frame_of_transpilePackage root tabSize? machine
  rcases hon : Step.on (transpilePackage root tabSize?) machine with ⟨fault | directory, middle⟩
  · rw [hon] at hframe
    rw [Step.on_bind_of_error hon]
    exact hframe
  · rw [hon] at hframe
    rw [Step.on_bind_of_ok hon]
    change PackageFrame machine.files (Step.on (runGo directory action) middle).2.files _ root
      tabSize?
    rw [files_runGo]
    rcases hframe with ⟨-, hne⟩ | ⟨manifest, code, hholds, hcompiles, hmodule, hwritten⟩
    · exact absurd rfl hne
    · exact .inr ⟨manifest, code, hholds, hcompiles, hmodule, fun _ => hwritten rfl⟩

theorem frame_of_createPackage (name : Text) (machine : Machine) :
    CreateFrame machine.files (Step.on (createPackage name) machine).2.files name := by
  have hwrite {path : Text} (text : Text) (hpath : path ∈ packageFiles name) :
      Touching (packageFiles name) ((packageFiles name).flatMap Path.ancestors)
        (ExceptT.run (writeOutput path text)) :=
    (touching_writeOutput path text).mono (by simpa using hpath)
      fun above habove => List.mem_flatMap.2 ⟨path, hpath, habove⟩
  have hkind : Step.on (Host.kind? (Path.join ['.'] name)) machine =
    (.ok (machine.files.kind? (Path.join ['.'] name)), machine) := rfl
  rw [createPackage, CreateFrame]
  cases hname : isPackageName name with
  | false => rfl
  | true =>
    simp only [Bool.not_true, Bool.false_eq_true, if_false, true_and]
    rw [Step.on_bind_of_ok hkind]
    cases hfree : machine.files.kind? (Path.join ['.'] name) with
    | some kind => rfl
    | none =>
      simp only [Option.isSome_none, Bool.false_eq_true, if_false, if_true]
      have hmanifest : Path.join (Path.join ['.'] name) Manifest.fileName ∈ packageFiles name :=
        List.mem_cons_self
      have hentry : Manifest.entryPath { name } (Path.join ['.'] name) ∈ packageFiles name :=
        List.mem_cons_of_mem _ List.mem_cons_self
      have hmodule : Path.join (Manifest.outPath { name } (Path.join ['.'] name)) "go.mod".toList ∈
          packageFiles name :=
        List.mem_cons_of_mem _ (List.mem_cons_of_mem _ List.mem_cons_self)
      cases Manifest.toToml? { name } with
      | none => exact .refl _ _ _
      | some declared =>
        exact Touching.bind_step (hwrite declared hmanifest)
          (fun _ => .bind_step (hwrite _ hentry)
            fun _ => .bind_step (hwrite _ hmodule) fun _ => .of_files_eq fun _ => rfl) machine

theorem frame_of_execute (command : Command) (machine : Machine) :
    let (result, after) := Step.on (execute command) machine
    command.Frame machine.files after.files (status result) := by
  cases command with
  | transpile file output? tabSize => exact frame_of_transpile file output? tabSize machine
  | check file =>
    obtain ⟨compiled, hcompile, -⟩ := on_compileFile file defaultTabSize machine
    rw [execute]
    cases compiled with
    | error fault =>
      rw [Step.on_bind_of_error hcompile]
      rfl
    | ok code =>
      rw [Step.on_bind_of_ok hcompile]
      rfl
  | create name =>
    have hcreate := frame_of_createPackage name machine
    rw [execute]
    rcases hon : Step.on (createPackage name) machine with ⟨_ | root, after⟩
    · rw [Step.on_bind_of_error hon]
      rwa [hon] at hcreate
    · rw [Step.on_bind_of_ok hon]
      rwa [hon] at hcreate
  | build root tabSize? => exact frame_of_goStep root tabSize? .build machine
  | run root => exact frame_of_goStep root none .run machine

/-- A fault is reported, which changes no files. -/
theorem frame_of_perform (command : Command) (machine : Machine) :
    let (status, after) := (perform (m := StateM Machine) command).run machine
    command.Frame machine.files after.files status := by
  have hframe := frame_of_execute command machine
  rw [perform, StateT.run_bind]
  rcases hon : Step.on (execute command) machine with ⟨fault | _, after⟩
  all_goals
    rw [hon] at hframe
    rw [Step.on] at hon
    rw [hon]
    exact hframe

end

end Command

/-! ### The command line -/

namespace CommandLine

/-- The exit status of a run with some arguments, and the machine that it leaves. -/
def ran [Parser] [Toml.Library] (args : List Text) (machine : Machine) : Nat × Machine :=
  (run (m := StateM Machine) args).run machine

/-- A run changes what its command may change, and without a command it changes nothing, whatever the
parser of the arguments and the library for manifests do. -/
theorem frame_of_run [Parser] [Toml.Library] (args : List Text) (machine : Machine) :
    match Parser.read args with
    | .ok command => command.Frame machine.files (ran args machine).2.files (ran args machine).1
    | .error _ => (ran args machine).2.files = machine.files := by
  rw [ran, run]
  cases Parser.read args with
  | ok command => exact Command.frame_of_perform command machine
  | error stop => cases stop <;> rfl

/-- A package whose Go module is to be made in `gen/..`, which leads through a missing directory
back to the package, where a declaration stands. -/
def roundabout : FileTree where
  nodes :=
    [(["work".toList], .directory),
      (["stella.toml".toList, "work".toList], .file (some
        "[package]\nname = \"demo\"\n[build]\nout_dir = \"gen/..\"\n".toList)),
      (["src".toList, "work".toList], .directory),
      (["main.stella".toList, "src".toList, "work".toList], .file (some
        (Text.block "function main() -> IO =" [] ++ ['\n']))),
      (["go.mod".toList, "work".toList], .file (some "module mine\n".toList))]
  here := ["work".toList]

/-- The declaration of the package is overlooked, and another one is written over it. -/
theorem declaration_overwritten :
    read ["build".toList] = .ok (.build ['.'] none) ∧
      roundabout.Closed ∧
      roundabout.place (Command.goModPath "./gen/..".toList) = ["go.mod".toList, "work".toList] ∧
      roundabout.node? ["go.mod".toList, "work".toList] =
        some (.file (some "module mine\n".toList)) ∧
      (ran ["build".toList] { files := roundabout }).2.files.node?
          ["go.mod".toList, "work".toList] =
        some (.file (some (Manifest.goMod "demo".toList))) :=
  ⟨by decide, by decide, by decide, by decide, by decide +kernel⟩

end CommandLine

end StellaGo
