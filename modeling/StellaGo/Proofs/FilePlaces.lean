import Mathlib.Data.List.Basic
import StellaGo.Check
import StellaGo.FileTree
import StellaGo.Path

/-! Where a path leads, and what an operation on files does there. Defined here: the place that the
names of a path spell, and the changes of a tree that touch some paths only. Proved: an operation
that succeeds works at the place of its path; a path that comes to lead somewhere when directories
are made had led through a missing one; and in a tree where everything stands in a directory nothing
stands behind a missing one, unless the path goes up again. -/

namespace StellaGo

/-! ### Places -/

/-- The place that names spell from another one, as if each of them named a directory. -/
def Place.follow : Place → List Text → Place
  | place, [] => place
  | place, name :: names =>
    if name = ['.'] then Place.follow place names
    else if name = ['.', '.'] then Place.follow place.tail names
    else Place.follow (name :: place) names

theorem Place.follow_append (place : Place) (front rest : List Text) :
    place.follow (front ++ rest) = (place.follow front).follow rest := by
  fun_induction Place.follow place front with
  | case1 => rfl
  | case2 place front ih => rw [List.cons_append, follow, if_pos rfl, ih]
  | case3 place front hdot ih => rw [List.cons_append, follow, if_neg hdot, if_pos rfl, ih]
  | case4 place name front hdot hdots ih =>
    rw [List.cons_append, follow, if_neg hdot, if_neg hdots, ih]

/-- Without a step up, names lead further down. -/
theorem Place.exists_follow_eq_append (place : Place) {names : List Text}
    (h : ['.', '.'] ∉ names) : ∃ below : Place, place.follow names = below ++ place := by
  fun_induction Place.follow place names with
  | case1 place => exact ⟨[], rfl⟩
  | case2 place names ih => exact ih (List.not_mem_of_not_mem_cons h)
  | case3 => exact absurd List.mem_cons_self h
  | case4 place name names hdot hdots ih =>
    obtain ⟨below, hbelow⟩ := ih (List.not_mem_of_not_mem_cons h)
    exact ⟨below ++ [name], by rw [hbelow, List.append_assoc]; rfl⟩

namespace Path

/-- The paths above a path, the nearest first. -/
def ancestors (path : Text) : List Text :=
  match _h : parent? path with
  | none => []
  | some above => above :: ancestors above
termination_by path.length
decreasing_by exact length_parent?_lt _h

theorem ancestors_of_parent? {path above : Text} (h : parent? path = some above) :
    ancestors path = above :: ancestors above := by
  rw [ancestors]
  split <;> simp_all

/-- The names between the slashes of a path. -/
def names (path : Text) : List Text := (path.splitOn '/').filter (· ≠ [])

theorem names_append_slash (front rest : Text) :
    names (front ++ '/' :: rest) = names front ++ names rest := by
  rw [names, List.splitOn_append_cons_self, List.filter_append]
  rfl

theorem names_join {root path : Text} (h : isAbsolute path = false) :
    names (join root path) = names root ++ names path := by
  have hnil : names [] = [] := rfl
  rw [join, if_neg (Bool.eq_false_iff.1 h)]
  split
  · next hroot =>
    rcases hroot with rfl | hslash
    · rw [hnil, List.nil_append, List.nil_append]
    · obtain ⟨front, rfl⟩ : ∃ front, root = front ++ ['/'] :=
        List.getLast?_eq_some_iff.1 (beq_iff_eq.1 hslash)
      rw [List.append_assoc, List.singleton_append, names_append_slash, names_append_slash, hnil,
        List.append_nil]
  · exact names_append_slash root path

theorem isAbsolute_join {root path : Text} (h : isAbsolute path = false) :
    isAbsolute (join root path) = isAbsolute root := by
  rw [join, if_neg (Bool.eq_false_iff.1 h)]
  cases root with
  | nil => exact h
  | cons c root => split <;> rfl

/-- A text that names what stands right in a directory. -/
structure IsName (name : Text) : Prop where
  ne_nil : name ≠ []
  slash_notMem : '/' ∉ name
  not_dots : ¬ (name = ['.'] ∨ name = ['.', '.'])

namespace IsName

variable {name : Text}

theorem names_eq (h : IsName name) : names name = [name] := by
  rw [names, List.splitOn_eq_singleton h.slash_notMem]
  exact List.filter_cons_of_pos (decide_eq_true h.ne_nil)

theorem isAbsolute_eq (h : IsName name) : isAbsolute name = false := by
  refine Bool.eq_false_iff.2 fun habsolute => h.slash_notMem ?_
  exact List.mem_of_mem_head? (beq_iff_eq.1 habsolute)

theorem endsWith_join (h : IsName name) (root : Text) : (join root name).endsWith '/' = false := by
  refine Bool.eq_false_iff.2 fun hends => h.slash_notMem (List.mem_of_getLast? ?_)
  have hlast : (join root name).getLast? = some '/' := beq_iff_eq.1 hends
  rw [join, if_neg (Bool.eq_false_iff.1 h.isAbsolute_eq)] at hlast
  split at hlast
  · rwa [List.getLast?_append_of_ne_nil _ h.ne_nil] at hlast
  · rwa [List.getLast?_append_cons, List.getLast?_cons_of_ne_nil h.ne_nil] at hlast

end IsName

end Path

namespace FileTree

/-- The directory from which the names of a path start. -/
def start (tree : FileTree) (path : Text) : Place := if Path.isAbsolute path then [] else tree.here

/-- The place that a path spells. -/
def place (tree : FileTree) (path : Text) : Place := (tree.start path).follow (Path.names path)

variable {tree before after : FileTree} {path text : Text}

theorem start_join {root name : Text} (h : Path.IsName name) :
    tree.start (Path.join root name) = tree.start root := by
  rw [start, start, Path.isAbsolute_join h.isAbsolute_eq]

/-- A name in a directory stands right below it. -/
theorem place_join {root name : Text} (h : Path.IsName name) :
    tree.place (Path.join root name) = name :: tree.place root := by
  obtain ⟨hdot, hdots⟩ := not_or.1 h.not_dots
  rw [place, start_join h, Path.names_join h.isAbsolute_eq, h.names_eq, Place.follow_append,
    Place.follow, if_neg hdot, if_neg hdots]
  rfl

/-! ### Resolving a path -/

theorem checkName_eq (name : Text) :
    checkName name = .ok () ∨ checkName name = .error .nameTooLong := by
  rw [checkName]
  split
  · exact .inr rfl
  · exact .inl rfl

/-- Whatever stands somewhere stands in a directory. -/
def Closed (tree : FileTree) : Prop :=
  ∀ name above node, tree.node? (name :: above) = some node → tree.node? above = some .directory

theorem closed_iff :
    tree.Closed ↔ ∀ entry ∈ tree.nodes, tree.node? entry.1.tail = some .directory := by
  have hlookup (name : Text) (above : Place) :
      tree.node? (name :: above) = tree.nodes.lookup (name :: above) :=
    if_neg (List.cons_ne_nil name above)
  constructor
  · rintro hclosed ⟨_ | ⟨name, above⟩, node⟩ hentry
    · exact if_pos rfl
    · obtain ⟨found, hfound⟩ := Option.isSome_iff_exists.1
        (List.lookup_isSome_iff.2 ⟨_, hentry, beq_self_eq_true (name :: above)⟩)
      exact hclosed name above found ((hlookup name above).trans hfound)
  · intro h name above node hnode
    rw [hlookup] at hnode
    obtain ⟨front, rest, hnodes, -⟩ := List.lookup_eq_some_iff.1 hnode
    exact h (name :: above, node) (hnodes ▸ List.mem_append_right _ List.mem_cons_self)

instance : DecidablePred Closed := fun _ => decidable_of_iff' _ closed_iff

/-- Nothing stands below a place where nothing stands. -/
theorem Closed.node?_append_eq_none {above : Place} (hclosed : tree.Closed)
    (h : tree.node? above = none) (below : Place) : tree.node? (below ++ above) = none := by
  induction below with
  | nil => exact h
  | cons name below ih =>
    refine Option.eq_none_iff_forall_ne_some.2 fun node hnode => ?_
    rw [hclosed name (below ++ above) node hnode] at ih
    cases ih

section

variable {place reached : Place} {name : Text} {names : List Text}

/-- A name leads on if it is that of a directory. Else the way ends there, and the fault says
why. -/
theorem walk_name (tree : FileTree) (hdot : name ≠ ['.']) (hdots : name ≠ ['.', '.']) :
    checkName name = .ok () ∧ tree.node? (name :: place) = some .directory ∧
        tree.walk place (name :: names) = tree.walk (name :: place) names ∨
      ∃ fault, tree.walk place (name :: names) = .error fault ∧
        (checkName name = .error fault ∨
          tree.node? (name :: place) = none ∧ fault = .notFound ∨
          ∃ text?, tree.node? (name :: place) = some (.file text?) ∧ fault = .notDirectory) := by
  rw [walk, if_neg hdot, if_neg hdots]
  rcases checkName_eq name with hname | hname
  · rw [hname]
    rcases hnode : tree.node? (name :: place) with _ | _ | text?
    · exact .inr ⟨.notFound, rfl, .inr (.inl ⟨rfl, rfl⟩)⟩
    · exact .inl ⟨rfl, rfl, rfl⟩
    · exact .inr ⟨.notDirectory, rfl, .inr (.inr ⟨text?, rfl, rfl⟩)⟩
  · rw [hname]
    exact .inr ⟨.nameTooLong, rfl, .inl rfl⟩

theorem eq_follow_of_walk (h : tree.walk place names = .ok reached) :
    reached = place.follow names := by
  fun_induction Place.follow place names with
  | case1 place => exact (Except.ok.inj h).symm
  | case2 place names ih =>
    rw [walk, if_pos rfl] at h
    exact ih h
  | case3 place names hdot ih =>
    rw [walk, if_neg hdot, if_pos rfl] at h
    exact ih h
  | case4 place name names hdot hdots ih =>
    rcases tree.walk_name hdot hdots with ⟨-, -, heq⟩ | ⟨fault, heq, -⟩
    · exact ih (heq ▸ h)
    · rw [heq] at h
      cases h

/-- If names come to lead somewhere while what stood stays, then one of them had been missing. -/
theorem eq_notFound_of_walk {fault : FileFault}
    (hkept : ∀ place node, before.node? place = some node → after.node? place = some node)
    (h : before.walk place names = .error fault) (hafter : after.walk place names = .ok reached) :
    fault = .notFound := by
  fun_induction Place.follow place names with
  | case1 place => cases h
  | case2 place names ih =>
    rw [walk, if_pos rfl] at h hafter
    exact ih h hafter
  | case3 place names hdot ih =>
    rw [walk, if_neg hdot, if_pos rfl] at h hafter
    exact ih h hafter
  | case4 place name names hdot hdots ih =>
    rcases after.walk_name hdot hdots with ⟨hname, hnode, heq'⟩ | ⟨fault, heq', -⟩
    case inr =>
      rw [heq'] at hafter
      cases hafter
    rcases before.walk_name hdot hdots with ⟨-, -, heq⟩ | ⟨other, heq, hwhy⟩
    · exact ih (heq ▸ h) (heq' ▸ hafter)
    · obtain rfl : other = fault := Except.error.inj (heq.symm.trans h)
      rcases hwhy with herror | ⟨-, hfault⟩ | ⟨text?, hfile, -⟩
      · rw [hname] at herror
        cases herror
      · exact hfault
      · rw [hkept _ _ hfile] at hnode
        cases hnode

/-- Nothing stands where names lead through a missing directory and not up again. -/
theorem node?_follow_eq_none (hclosed : tree.Closed) (hup : ['.', '.'] ∉ names)
    (h : tree.walk place names = .error .notFound) (below : Place) :
    tree.node? (below ++ place.follow names) = none := by
  fun_induction Place.follow place names with
  | case1 place => cases h
  | case2 place names ih =>
    rw [walk, if_pos rfl] at h
    exact ih (List.not_mem_of_not_mem_cons hup) h
  | case3 => exact absurd List.mem_cons_self hup
  | case4 place name names hdot hdots ih =>
    have hrest := List.not_mem_of_not_mem_cons hup
    rcases tree.walk_name hdot hdots with ⟨-, -, heq⟩ | ⟨fault, heq, hwhy⟩
    · exact ih hrest (heq ▸ h)
    · obtain rfl : fault = .notFound := Except.error.inj (heq.symm.trans h)
      rcases hwhy with herror | ⟨hnone, -⟩ | ⟨_, -, hfault⟩
      · rcases checkName_eq name with hname | hname <;> rw [hname] at herror <;> cases herror
      · obtain ⟨further, hfurther⟩ := Place.exists_follow_eq_append (name :: place) hrest
        rw [hfurther, ← List.append_assoc]
        exact hclosed.node?_append_eq_none hnone (below ++ further)
      · cases hfault

end

/-! ### What a path names -/

/-- The place that a target stands for. -/
def Target.place : Target → Place
  | .directory place => place
  | .name last above _ => last :: above

/-- A path is resolved up to its last name, unless that is a step up or no step. -/
theorem target_of_names (tree : FileTree) {front : List Text} {last : Text}
    (hnames : Path.names path = front ++ [last]) :
    tree.target path =
      if path.contains '\x00' then .error .nulInName
      else if pathLimit ≤ Text.byteSize path then .error .nameTooLong
      else if last = ['.'] ∨ last = ['.', '.'] then
        .directory <$> tree.walk (tree.start path) (front ++ [last])
      else (.name last · (path.endsWith '/')) <$> tree.walk (tree.start path) front := by
  have hne : path ≠ [] := by
    rintro rfl
    exact absurd hnames.symm (by simp [Path.names])
  have hstart : (if path.startsWith '/' then [] else tree.here) = tree.start path := rfl
  rw [Path.names] at hnames
  rw [target, if_neg hne, hstart]
  simp only [hnames, List.getLast?_concat, List.dropLast_concat]

/-- A path names the place that it spells. -/
theorem place_of_target {t : Target} (h : tree.target path = .ok t) :
    t.place = tree.place path := by
  rcases List.eq_nil_or_concat' (Path.names path) with hnames | ⟨front, last, hnames⟩
  · have hplace : tree.place path = tree.start path := by rw [place, hnames, Place.follow]
    rw [Path.names] at hnames
    rw [target] at h
    simp only [hnames] at h
    split at h
    · cases h
    split at h
    · cases h
    split at h
    · cases h
    cases h
    exact hplace.symm
  · rw [tree.target_of_names hnames] at h
    split at h
    · cases h
    split at h
    · cases h
    rw [place, hnames]
    split at h
    · obtain ⟨reached, hwalk, rfl⟩ := Check.map_eq_ok_iff.1 h
      exact eq_follow_of_walk hwalk
    · next hdots =>
      obtain ⟨hdot, hdots⟩ := not_or.1 hdots
      obtain ⟨reached, hwalk, rfl⟩ := Check.map_eq_ok_iff.1 h
      rw [Place.follow_append, ← eq_follow_of_walk hwalk, Place.follow, if_neg hdot, if_neg hdots,
        Place.follow]
      rfl

section

variable {root name : Text}

/-- A path that ends in a name is refused as it is written, or the way to the name decides. -/
theorem target_join (root : Text) (h : Path.IsName name) :
    (∃ fault, fault ≠ .notFound ∧
        ∀ tree : FileTree, tree.target (Path.join root name) = .error fault) ∨
      ∀ tree : FileTree, tree.target (Path.join root name) =
        (.name name · false) <$> tree.walk (tree.start root) (Path.names root) := by
  have hnames : Path.names (Path.join root name) = Path.names root ++ [name] := by
    rw [Path.names_join h.isAbsolute_eq, h.names_eq]
  have htarget (tree : FileTree) := tree.target_of_names hnames
  simp only [if_neg h.not_dots, h.endsWith_join, start_join h] at htarget
  split at htarget
  · exact .inl ⟨.nulInName, by decide, htarget⟩
  split at htarget
  · exact .inl ⟨.nameTooLong, by decide, htarget⟩
  · exact .inr htarget

/-- What stands under a name is found if the way there is. -/
theorem kind?_join {t : Target} (h : Path.IsName name) (hname : checkName name = .ok ())
    (htarget : tree.target (Path.join root name) = .ok t) :
    tree.kind? (Path.join root name) =
      (tree.node? (tree.place (Path.join root name))).map Node.kind := by
  rw [← place_of_target htarget]
  rcases target_join root h with ⟨fault, -, herror⟩ | hway
  · rw [herror] at htarget
    cases htarget
  · obtain ⟨above, -, rfl⟩ := Check.map_eq_ok_iff.1 ((hway tree).symm.trans htarget)
    rw [kind?, find, htarget, Target.place]
    simp only [bind, Except.bind, hname]
    rcases tree.node? (name :: above) with _ | _ | _ <;> rfl

/-- If the way to a name comes to be found while what stood stays, then a directory had been
missing. -/
theorem eq_notFound_of_target_join {fault : FileFault} {t : Target} (h : Path.IsName name)
    (hhere : after.here = before.here)
    (hkept : ∀ place node, before.node? place = some node → after.node? place = some node)
    (hbefore : before.target (Path.join root name) = .error fault)
    (hafter : after.target (Path.join root name) = .ok t) : fault = .notFound := by
  have hstart : after.start root = before.start root := by rw [start, start, hhere]
  rcases target_join root h with ⟨fault, -, herror⟩ | hway
  · rw [herror] at hafter
    cases hafter
  · obtain ⟨above, hwalk, -⟩ := Check.map_eq_ok_iff.1 ((hway after).symm.trans hafter)
    rw [hstart] at hwalk
    rw [hway] at hbefore
    cases hwalk' : before.walk (before.start root) (Path.names root) with
    | ok place =>
      rw [hwalk'] at hbefore
      cases hbefore
    | error other =>
      rw [hwalk'] at hbefore
      cases hbefore
      exact eq_notFound_of_walk hkept hwalk' hwalk

/-- In a tree where everything stands in a directory, nothing stands behind a missing directory,
unless the way goes up again. -/
theorem node?_eq_none_of_target_join (hclosed : tree.Closed) (h : Path.IsName name)
    (hup : ['.', '.'] ∉ Path.names root)
    (htarget : tree.target (Path.join root name) = .error .notFound) :
    tree.node? (tree.place (Path.join root name)) = none := by
  rw [place_join h]
  rcases target_join root h with ⟨fault, hne, herror⟩ | hway
  · exact absurd (Except.error.inj ((herror tree).symm.trans htarget)) hne
  · rw [hway] at htarget
    cases hwalk : tree.walk (tree.start root) (Path.names root) with
    | ok place =>
      rw [hwalk] at htarget
      cases htarget
    | error fault =>
      rw [hwalk] at htarget
      cases htarget
      exact node?_follow_eq_none hclosed hup hwalk [name]

end

/-! ### What an operation does -/

theorem eq_put_of_write (h : tree.write path text = .ok after) :
    tree.place path ≠ [] ∧ after = tree.put (tree.place path) (.file (some text)) := by
  obtain ⟨t, htarget, h⟩ := Check.bind_eq_ok_iff.1 h
  rw [← place_of_target htarget]
  cases t with
  | directory place => cases h
  | name last above slash =>
    cases slash with
    | true => cases h
    | false =>
      obtain ⟨_, _, h⟩ := Check.bind_eq_ok_iff.1 h
      split at h
      · cases h
      · exact ⟨List.cons_ne_nil _ _, (Except.ok.inj h).symm⟩

theorem eq_put_of_makeDirectory (h : tree.makeDirectory path = .ok after) :
    tree.place path ≠ [] ∧ tree.node? (tree.place path) = none ∧
      after = tree.put (tree.place path) .directory := by
  obtain ⟨t, htarget, h⟩ := Check.bind_eq_ok_iff.1 h
  rw [← place_of_target htarget]
  cases t with
  | directory place => cases h
  | name last above slash =>
    obtain ⟨_, _, h⟩ := Check.bind_eq_ok_iff.1 h
    split at h
    · cases h
    · next hnone =>
      exact ⟨List.cons_ne_nil _ _, Option.not_isSome_iff_eq_none.1 hnone, (Except.ok.inj h).symm⟩

/-! ### Changes -/

/-- From one tree to the next nothing changes but at the places of some outputs, and at the places
of other paths directories are made where nothing stood. -/
structure Touches (outputs made : List Text) (before after : FileTree) : Prop where
  here_eq : after.here = before.here
  node?_eq : ∀ place, place ∉ outputs.map before.place → after.node? place = before.node? place ∨
    place ∈ made.map before.place ∧ before.node? place = none ∧ after.node? place = some .directory

namespace Touches

variable {outputs outputs' made made' : List Text} {middle : FileTree}

theorem refl (outputs made : List Text) (tree : FileTree) : Touches outputs made tree tree :=
  ⟨rfl, fun _ _ => .inl rfl⟩

theorem place_eq (h : Touches outputs made before after) : after.place = before.place := by
  funext path
  rw [place, place, start, start, h.here_eq]

/-- What stands at a place other than the outputs stays. -/
theorem node?_eq_some {place : Place} {node : Node} (h : Touches outputs made before after)
    (hplace : place ∉ outputs.map before.place) (hnode : before.node? place = some node) :
    after.node? place = some node := by
  rcases h.node?_eq place hplace with heq | ⟨_, hnone, _⟩
  · rw [heq, hnode]
  · rw [hnode] at hnone
    cases hnone

theorem trans (h : Touches outputs made before middle) (h' : Touches outputs made middle after) :
    Touches outputs made before after where
  here_eq := h'.here_eq.trans h.here_eq
  node?_eq place hplace := by
    have hlater := h'.node?_eq place (by rwa [h.place_eq])
    rw [h.place_eq] at hlater
    rcases h.node?_eq place hplace with heq | ⟨hmade, hnone, hdirectory⟩
    · rwa [heq] at hlater
    · rcases hlater with heq | ⟨_, hmiddle, _⟩
      · exact .inr ⟨hmade, hnone, heq.trans hdirectory⟩
      · rw [hdirectory] at hmiddle
        cases hmiddle

theorem mono (h : Touches outputs made before after) (houtputs : outputs ⊆ outputs')
    (hmade : made ⊆ made') : Touches outputs' made' before after where
  here_eq := h.here_eq
  node?_eq place hplace :=
    (h.node?_eq place fun hmem => hplace (List.map_subset _ houtputs hmem)).imp_right
      fun ⟨hmem, hnodes⟩ => ⟨List.map_subset _ hmade hmem, hnodes⟩

end Touches

theorem touches_of_write (made : List Text) (h : tree.write path text = .ok after) :
    Touches [path] made tree after := by
  obtain ⟨_, rfl⟩ := eq_put_of_write h
  refine ⟨rfl, fun place hplace => .inl (node?_put_of_ne _ fun heq => hplace ?_)⟩
  rw [heq]
  exact List.mem_singleton_self _

theorem node?_of_write (h : tree.write path text = .ok after) :
    after.node? (tree.place path) = some (.file (some text)) := by
  obtain ⟨hne, rfl⟩ := eq_put_of_write h
  exact node?_put_self _ hne

theorem touches_of_makeDirectory (h : tree.makeDirectory path = .ok after) :
    Touches [] [path] tree after := by
  obtain ⟨hne, hnone, rfl⟩ := eq_put_of_makeDirectory h
  refine ⟨rfl, fun place _ => ?_⟩
  by_cases heq : place = tree.place path
  · subst heq
    exact .inr ⟨List.mem_singleton_self _, hnone, node?_put_self _ hne⟩
  · exact .inl (node?_put_of_ne _ heq)

end FileTree

end StellaGo
