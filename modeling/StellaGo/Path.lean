import StellaGo.Text

/-! Paths of files as text. Defined here: joining two paths, the last component and what precedes it,
and the change of an extension. Slashes and the component `.` at the end of a path do not count. -/

namespace StellaGo.Path

def isAbsolute (path : Text) : Bool := path.startsWith '/'

/-- The second path, seen from the first. An absolute one is taken as it is, and an empty one leaves a
slash at the end. -/
def join (root path : Text) : Text :=
  if isAbsolute path then path
  else if root = [] ∨ root.endsWith '/' then root ++ path
  else root ++ '/' :: path

/-! ### From the end

A path is taken apart from its end, so the texts of this section are reversed. -/

/-- Drops what does not count at the end, but not the slash of the root. -/
def dropTail : Text → Text
  | ['/'] => ['/']
  | '/' :: rest => dropTail rest
  | ['.', '/'] => ['/']
  | '.' :: '/' :: rest => dropTail rest
  | t => t

theorem length_dropTail_le (t : Text) : (dropTail t).length ≤ t.length := by
  fun_induction dropTail t <;> simp_all <;> omega

/-- A slash that is left is the root. -/
theorem dropTail_eq_root {t rest : Text} (h : dropTail t = '/' :: rest) : rest = [] := by
  fun_induction dropTail t with
  | case1 => cases h; rfl
  | case2 _ _ ih => exact ih h
  | case3 => cases h; rfl
  | case4 _ _ ih => exact ih h
  | case5 t h1 h2 _ _ =>
    subst h
    cases rest with
    | nil => rfl
    | cons c r => exact absurd rfl (h2 (c :: r))

/-- The path without its last component; the root and the empty path have none. -/
def parent? (path : Text) : Option Text :=
  let t := dropTail path.reverse
  if t = [] ∨ t = ['/'] then none else some (dropTail (t.dropWhile (· != '/'))).reverse

/-- The last component, unless it is the root, `.` or `..`. -/
def fileName? (path : Text) : Option Text :=
  let name := ((dropTail path.reverse).takeWhile (· != '/')).reverse
  if name ∈ [[], ['.'], ['.', '.']] then none else some name

/-- A file name without its extension. A point at the start belongs to no extension. -/
def stem (name : Text) : Text :=
  match (name.reverse.dropWhile (· != '.')).drop 1 with
  | [] => name
  | rest => rest.reverse

/-- What follows the stem of a file name and its point. -/
def extension (name : Text) : Text := name.drop ((stem name).length + 1)

/-- The path without as many characters at its end as its extension has. The point before the
extension stays, so `..a` is cut to `..`, which names no file. -/
def cutExtension (path : Text) : Text :=
  path.take (path.length - (((fileName? path).map extension).getD []).length)

/-- Gives the last component an extension in place of the one that it may have. A path that names no
file once the old one is cut off takes none. -/
def withExtension (added path : Text) : Text :=
  let cut := cutExtension path
  match fileName? cut with
  | none => cut
  | some name =>
    let before := ((dropTail cut.reverse).dropWhile (· != '/')).reverse
    before ++ stem name ++ '.' :: added

/-- A parent is shorter, which lets a recursion climb to the root. -/
theorem length_parent?_lt {path above : Text} (h : parent? path = some above) :
    above.length < path.length := by
  simp only [parent?] at h
  split at h
  · cases h
  · rename_i hne
    cases h
    have h1 := length_dropTail_le path.reverse
    have h2 := length_dropTail_le ((dropTail path.reverse).dropWhile (· != '/'))
    rw [List.length_reverse] at h1 ⊢
    cases ht : dropTail path.reverse with
    | nil => exact absurd (Or.inl ht) hne
    | cons c rest =>
      rw [ht] at h1 h2 hne
      by_cases hc : c = '/'
      · subst hc
        exact absurd (Or.inr (by rw [dropTail_eq_root ht])) hne
      · have h3 := (List.dropWhile_suffix (l := rest) (· != '/')).length_le
        rw [List.dropWhile_cons_of_pos (by simpa using hc)] at h2 ⊢
        rw [List.length_cons] at h1
        omega

end StellaGo.Path
