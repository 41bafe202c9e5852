/-
Where settings are found.

The search goes through one list of candidates (`candidates`): the names
of settings files in the start directory, in those it lies in from the
innermost outward, and at last in the home directory.  It answers with the
first candidate that is there (`find_eq`, `firstPresent`), so the nearest
directory wins, and in it the first of the names (`nearest_settings_win`).

The root is in no start directory's list, so settings that lie there are
never found; and a candidate that is too long to be asked about ends the
search with a failure, although there may be settings further out
(`settings_passed_over`).
-/
import Mathlib.Data.List.Infix
import Mathlib.Data.String.Basic
import SymbolicHeap.Proofs.FileTree
import SymbolicHeap.Settings.File

namespace SymbolicHeap

namespace Settings

variable {tree : FileTree}

-- ============================================================== candidates

/-- The directories that lie between the root and a directory, the
innermost first: the directory itself is one of them, the root is not. -/
def above (directory : Path) : List Path := directory.inits.tail.reverse

/-- The paths that a search from a directory looks at, in order. -/
def candidates (place : Place) (directory : Path) : List Path :=
  (above directory).flatMap (fun near => fileNames.map fun name => near ++ [name])
    ++ homeFileNames.map fun name => place.home ++ [name]

theorem above_concat (directory : Path) (name : String) :
    above (directory ++ [name]) = (directory ++ [name]) :: above directory := by
  have nonempty : directory.inits ≠ [] :=
    List.ne_nil_of_mem ((List.mem_inits _ _).2 List.nil_prefix)
  rw [above, List.inits_append, List.tail_append_of_ne_nil nonempty]
  simp [above]

theorem mem_above {directory near : Path} (h : near ∈ above directory) :
    ∃ below, directory = near ++ below := by
  obtain ⟨below, rfl⟩ := (List.mem_inits _ _).1 (List.mem_of_mem_tail (List.mem_reverse.1 h))
  exact ⟨below, rfl⟩

/-- The first of some paths that is there. -/
def firstPresent (tree : FileTree) : List Path → Except FileTree.Fault (Option Path)
  | [] => .ok none
  | path :: rest => do
      if ← tree.contains path then return some path else firstPresent tree rest

theorem firstPresent_append (paths more : List Path) :
    firstPresent tree (paths ++ more) = (do
      match ← firstPresent tree paths with
      | some path => return some path
      | none => firstPresent tree more) := by
  induction paths with
  | nil => rfl
  | cons path rest ih =>
      rw [List.cons_append, firstPresent, firstPresent, ih]
      cases tree.contains path with
      | error fault => rfl
      | ok there =>
          cases there with
          | true => rfl
          | false => rfl

theorem firstIn_eq (directory : Path) (names : List String) :
    firstIn tree directory names
      = firstPresent tree (names.map fun name => directory ++ [name]) := by
  induction names with
  | nil => rfl
  | cons name rest ih => rw [List.map_cons, firstPresent, firstIn, ih]

theorem nearest_eq (names : List String) :
    nearest tree names = firstPresent tree
      ((above names.reverse).flatMap fun near => fileNames.map fun name => near ++ [name]) := by
  induction names with
  | nil => rfl
  | cons name outer ih =>
      rw [List.reverse_cons, above_concat, List.flatMap_cons, firstPresent_append, ← ih,
        ← firstIn_eq, ← List.reverse_cons]
      rfl

/-- The search is for the first candidate that is there. -/
theorem find_eq (place : Place) {start : Option Path}
    (whole : (start.getD place.workingDirectory).isCut = false) :
    find place start = firstPresent place.tree
      (candidates place (start.getD place.workingDirectory).resolve) := by
  rw [candidates, firstPresent_append]
  unfold find
  dsimp only
  rw [whole, nearest_eq, List.reverse_reverse]
  simp only [firstIn_eq]
  rfl

-- ======================================================= the first of some

/-- Something is present, and nothing that comes before it. -/
def FirstOf {α : Type} (present : α → Prop) (items : List α) (item : α) : Prop :=
  present item ∧ ∃ before after, items = before ++ item :: after ∧
    ∀ other ∈ before, ¬ present other

/-- Paths that are not there are gone past. -/
theorem firstPresent_of_absent {paths : List Path}
    (absent : ∀ path ∈ paths, tree.contains path = .ok false) (more : List Path) :
    firstPresent tree (paths ++ more) = firstPresent tree more := by
  induction paths with
  | nil => rfl
  | cons path paths ih =>
      obtain ⟨here, rest⟩ := List.forall_mem_cons.1 absent
      rw [List.cons_append, firstPresent, here]
      exact ih rest

theorem firstPresent_of_present {path : Path} (there : tree.contains path = .ok true)
    (rest : List Path) : firstPresent tree (path :: rest) = .ok (some path) := by
  rw [firstPresent, there]
  rfl

/-- A search that fails does so at one of its candidates. -/
theorem contains_of_firstPresent_eq_error {paths : List Path} {fault : FileTree.Fault}
    (h : firstPresent tree paths = .error fault) :
    ∃ path ∈ paths, tree.contains path = .error fault := by
  induction paths with
  | nil => cases h
  | cons path rest ih =>
      rcases bind_eq_error.1 h with here | ⟨found, -, h⟩
      · exact ⟨path, List.mem_cons_self, here⟩
      · split at h
        next => cases h
        next =>
          obtain ⟨path, hmem, failed⟩ := ih h
          exact ⟨path, List.mem_cons_of_mem _ hmem, failed⟩

/-- Names that a directory can be asked about. -/
def Askable (directory : Path) (names : List String) : Prop :=
  ∀ name ∈ names, IsEntryName name ∧ Path.Short (directory ++ [name])

section

variable {directory : Path} {names : List String}

/-- What a directory does not hold is not there. -/
theorem names_absent (askable : Askable directory names)
    (absent : ∀ name ∈ names, ¬ tree.Holds directory name) :
    ∀ path ∈ names.map fun name => directory ++ [name], tree.contains path = .ok false := by
  intro path hpath
  obtain ⟨name, hname, rfl⟩ := List.mem_map.1 hpath
  obtain ⟨entry, short⟩ := askable name hname
  obtain ⟨found, h⟩ := tree.contains_of_short short
  cases found with
  | true => exact absurd ((FileTree.contains_iff_holds entry short).1 h) (absent name hname)
  | false => exact h

/-- The first of the names that a directory holds is what is found there. -/
theorem firstPresent_names {name : String} (askable : Askable directory names)
    (first : FirstOf (tree.Holds directory) names name) (more : List Path) :
    firstPresent tree ((names.map fun name => directory ++ [name]) ++ more)
      = .ok (some (directory ++ [name])) := by
  obtain ⟨held, before, after, rfl, absent⟩ := first
  obtain ⟨earlier, later⟩ := List.forall_mem_append.1 askable
  obtain ⟨⟨entry, short⟩, -⟩ := List.forall_mem_cons.1 later
  rw [List.map_append, List.append_assoc, firstPresent_of_absent (names_absent earlier absent),
    List.map_cons, List.cons_append]
  exact firstPresent_of_present ((FileTree.contains_iff_holds entry short).2 held) _

end

/-- All names of settings files are names that lead down, and no longer
than the longest of them. -/
theorem fileNames_entries : ∀ name ∈ fileNames, IsEntryName name ∧
    name.utf8ByteSize ≤ "pyproject.toml".utf8ByteSize := by
  simp only [fileNames, List.forall_mem_cons]
  exact ⟨⟨⟨by decide, by decide, by decide⟩, by decide⟩,
    ⟨⟨by decide, by decide, by decide⟩, by decide⟩,
    ⟨⟨by decide, by decide, by decide⟩, by decide⟩, List.forall_mem_nil _⟩

theorem homeFileNames_entries : ∀ name ∈ homeFileNames, IsEntryName name ∧
    name.utf8ByteSize ≤ ".symir.toml".utf8ByteSize := by
  simp only [homeFileNames, List.forall_mem_cons]
  exact ⟨⟨⟨by decide, by decide, by decide⟩, by decide⟩,
    ⟨⟨by decide, by decide, by decide⟩, by decide⟩, List.forall_mem_nil _⟩

-- ============================================================== the result

section

variable {place : Place} {directory : Path}

/-- What lies above a directory can be asked about if the longest path
that is looked at is not too long. -/
theorem askable_of_mem_above (short : (directory ++ ["pyproject.toml"]).Short) {near : Path}
    (h : near ∈ above directory) : Askable near fileNames := by
  intro name hname
  obtain ⟨below, rfl⟩ := mem_above h
  obtain ⟨entry, shorter⟩ := fileNames_entries name hname
  exact ⟨entry, Path.Short.sibling short shorter⟩

theorem askable_home (short : (directory ++ [".symir.toml"]).Short) :
    Askable directory homeFileNames := by
  intro name hname
  obtain ⟨entry, shorter⟩ := homeFileNames_entries name hname
  have short : (directory ++ [] ++ [".symir.toml"]).Short := by simpa using short
  exact ⟨entry, short.sibling shorter⟩

/-- Where directories hold no settings, no candidate in them is there. -/
theorem candidates_absent (short : (directory ++ ["pyproject.toml"]).Short) {nearer : List Path}
    (inside : ∀ near ∈ nearer, near ∈ above directory)
    (bare : ∀ near ∈ nearer, ¬ ∃ name ∈ fileNames, tree.Holds near name) :
    ∀ path ∈ nearer.flatMap (fun near => fileNames.map fun name => near ++ [name]),
      tree.contains path = .ok false := by
  intro path hpath
  obtain ⟨near, hnear, hpath⟩ := List.mem_flatMap.1 hpath
  exact names_absent (askable_of_mem_above short (inside near hnear))
    (fun name hname held => bare near hnear ⟨name, hname, held⟩) path hpath

end

/-- Whatever the tree and the start directory: as long as no path that is
looked at is too long, the search answers with the first of the names in
the nearest directory that holds a settings file, the start directory or
one that it lies in other than the root, and else with the first of the
names in the home directory, if it holds one.  It fails only over a path
that is too long. -/
theorem nearest_settings_win (place : Place) (start : Option Path)
    (whole : (start.getD place.workingDirectory).isCut = false) :
    let directory := (start.getD place.workingDirectory).resolve
    let holding near := ∃ name ∈ fileNames, place.tree.Holds near name
    ((directory ++ ["pyproject.toml"]).Short → (place.home ++ [".symir.toml"]).Short →
      (∀ near name, FirstOf holding (above directory) near →
        FirstOf (place.tree.Holds near) fileNames name →
        find place start = .ok (some (near ++ [name]))) ∧
      ((∀ near ∈ above directory, ¬ holding near) →
        (∀ name, FirstOf (place.tree.Holds place.home) homeFileNames name →
          find place start = .ok (some (place.home ++ [name]))) ∧
        ((∀ name ∈ homeFileNames, ¬ place.tree.Holds place.home name) →
          find place start = .ok none))) ∧
    ∀ fault, find place start = .error fault →
      fault = .tooLong ∧ ∃ path ∈ candidates place directory, ¬ path.Short := by
  intro directory holding
  rw [find_eq place whole]
  refine ⟨fun short homeShort => ⟨?_, fun bare => ?_⟩, ?_⟩
  · rintro near name ⟨-, nearer, further, dirs, bare⟩ first
    have inside : ∀ other ∈ nearer, other ∈ above directory := by
      intro other hother
      rw [dirs]
      exact List.mem_append_left _ hother
    rw [candidates, dirs, List.flatMap_append, List.append_assoc,
      firstPresent_of_absent (candidates_absent short inside bare), List.flatMap_cons,
      List.append_assoc]
    exact firstPresent_names (askable_of_mem_above short (by simp [dirs])) first _
  · have home := askable_home homeShort
    rw [candidates,
      firstPresent_of_absent (candidates_absent short (fun _ hnear => hnear) bare),
      ← List.append_nil (homeFileNames.map _)]
    refine ⟨fun name first => firstPresent_names home first _, fun homeless => ?_⟩
    exact firstPresent_of_absent (names_absent home homeless) []
  · intro fault failed
    obtain ⟨path, hmem, failed⟩ := contains_of_firstPresent_eq_error failed
    refine ⟨FileTree.eq_tooLong_of_contains failed, path, hmem, fun short => ?_⟩
    obtain ⟨found, h⟩ := FileTree.contains_of_short short
    rw [failed] at h
    cases h

/-- A directory below one that holds two settings files, both of which
come before the one that lies further out. -/
theorem nearest_settings_win_below :
    let tree : FileTree := ⟨⟨[(["w"], .directory), (["w", "symir.toml"], .file ⟨#[]⟩),
      (["w", "a"], .directory), (["w", "a", "pyproject.toml"], .file ⟨#[]⟩),
      (["w", "a", ".symir.toml"], .file ⟨#[]⟩), (["w", "a", "b"], .directory)]⟩⟩
    find ⟨tree, ["home"], ["w"]⟩ (some ["w", "a", "b"])
      = .ok (some ["w", "a", ".symir.toml"]) := by
  intro tree
  have short : Path.Short (["w", "a", "b"] ++ ["pyproject.toml"]) := ⟨by decide, by decide⟩
  have homeShort : Path.Short (["home"] ++ [".symir.toml"]) := ⟨by decide, by decide⟩
  have holds : tree.Holds ["w", "a"] ".symir.toml" := ⟨["w", "a"], rfl, rfl⟩
  have bare : ∀ name ∈ fileNames, ¬ tree.Holds ["w", "a", "b"] name := by
    rintro name hname ⟨_, ⟨⟩, present⟩
    revert name
    decide
  have first : ¬ tree.Holds ["w", "a"] "symir.toml" := by
    rintro ⟨_, ⟨⟩, present⟩
    revert present
    decide
  obtain ⟨search, -⟩ :=
    nearest_settings_win ⟨tree, ["home"], ["w"]⟩ (some ["w", "a", "b"]) rfl
  refine (search short homeShort).1 ["w", "a"] ".symir.toml" ?_ ?_
  · refine ⟨⟨".symir.toml", by decide, holds⟩, [["w", "a", "b"]], [["w"]], rfl, ?_⟩
    rintro near hnear ⟨name, hname, held⟩
    rw [List.mem_singleton.1 hnear] at held
    exact bare name hname held
  · refine ⟨holds, ["symir.toml"], ["pyproject.toml"], rfl, ?_⟩
    rintro other hother
    rw [List.mem_singleton.1 hother]
    exact first

/-- Settings in the root are not found from below; and settings further
out are not found from a directory with too long a name. -/
theorem settings_passed_over :
    let atRoot : FileTree := ⟨⟨[(["symir.toml"], .file ⟨#[]⟩), (["w"], .directory)]⟩⟩
    let below : FileTree := ⟨⟨[(["w"], .directory), (["w", "symir.toml"], .file ⟨#[]⟩)]⟩⟩
    let long := String.ofList (List.replicate 256 'n')
    (atRoot.Holds [] "symir.toml" ∧
      find ⟨atRoot, ["home"], ["w"]⟩ (some ["w"]) = .ok none) ∧
    (below.Holds ["w"] "symir.toml" ∧
      find ⟨below, ["home"], ["w"]⟩ (some ["w", long]) = .error .tooLong) := by
  intro atRoot below long
  refine ⟨⟨⟨[], rfl, rfl⟩, rfl⟩, ⟨["w"], rfl, rfl⟩, ?_⟩
  have size : Path.nameBound < long.utf8ByteSize := by
    rw [String.utf8ByteSize_ofList]
    decide +kernel
  have whole : '\x00' ∉ long.toList := by
    simp only [long, String.toList_ofList, List.mem_replicate]
    decide
  clear_value long
  have down : long ≠ ".." := by
    rintro rfl
    exact absurd size (by decide)
  have resolved : Path.resolve ["w", long] = ["w", long] := by simp [Path.resolve, down]
  have first : below.contains (["w"] ++ long :: ["symir.toml"]) = .error .tooLong :=
    FileTree.contains_of_long rfl size (by simp [Path.isCut, whole])
  rw [find_eq _ (by simp [Path.isCut, whole])]
  show firstPresent below (candidates _ (Path.resolve ["w", long])) = _
  rw [resolved]
  show firstPresent below ((["w"] ++ long :: ["symir.toml"]) :: _) = _
  rw [firstPresent, first]
  rfl

end Settings

end SymbolicHeap
