/-
Paths followed in a tree.

A path is followed in two parts as it is in one (`follow_append`), so that
whether something stands in a directory is a question about the place of
that directory and one name (`contains_iff_holds`).  This is so for paths
that are not too long (`Path.Short`), and those can always be asked about
(`contains_of_short`); behind a name that is too long nothing can
(`contains_of_long`).

What has been written is read again (`read_of_write`): a file takes no
directory away that a path leads through.
-/
import Mathlib.Algebra.GroupWithZero.Nat
import SymbolicHeap.FileTree
import SymbolicHeap.Proofs.Outcome

namespace SymbolicHeap

namespace Path

-- ================================================================ lengths

/-- Every name takes its own length and that of the bar in front. -/
theorem size_render {path : Path} (nonempty : path ≠ []) :
    path.render.utf8ByteSize = (path.map fun name => 1 + name.utf8ByteSize).sum := by
  have bar : "/".utf8ByteSize = 1 := by decide
  unfold render
  rw [String.utf8ByteSize_append, bar]
  induction path with
  | nil => exact absurd rfl nonempty
  | cons name rest ih =>
      cases rest with
      | nil => simp
      | cons next rest =>
          have tail := ih (List.cons_ne_nil _ _)
          rw [String.intercalate_cons_of_ne_nil (List.cons_ne_nil _ _),
            String.utf8ByteSize_append, String.utf8ByteSize_append, bar, List.map_cons,
            List.sum_cons, ← tail]
          omega

/-- A path is no longer than one that goes on from it. -/
theorem size_render_le_append (path more : Path) :
    path.render.utf8ByteSize ≤ (path ++ more).render.utf8ByteSize := by
  by_cases empty : path = []
  · rw [empty]
    unfold render
    rw [String.utf8ByteSize_append, String.utf8ByteSize_append, String.intercalate_nil]
    simp
  · rw [size_render empty, size_render (List.append_ne_nil_of_left_ne_nil empty _), List.map_append,
      List.sum_append]
    exact Nat.le_add_right _ _

/-- Neither the path nor any of its names is too long. -/
structure Short (path : Path) : Prop where
  size : path.render.utf8ByteSize ≤ bound
  names : ∀ name ∈ path, name.utf8ByteSize ≤ nameBound

theorem Short.of_append {path more : Path} (short : (path ++ more).Short) : path.Short where
  size := Nat.le_trans (size_render_le_append path more) short.size
  names name hname := short.names name (List.mem_append_left _ hname)

/-- A name in a directory is no further off than a longer one further
down. -/
theorem Short.sibling {directory below : Path} {name other : String}
    (short : (directory ++ below ++ [other]).Short)
    (shorter : name.utf8ByteSize ≤ other.utf8ByteSize) : (directory ++ [name]).Short where
  size := by
    refine Nat.le_trans ?_ short.size
    rw [size_render (by simp), size_render (by simp)]
    simp only [List.map_append, List.sum_append, List.map_singleton, List.sum_singleton]
    omega
  names held hheld := by
    rcases List.mem_append.1 hheld with hheld | hheld
    · exact short.names held (by simp [hheld])
    · rw [List.mem_singleton.1 hheld]
      exact Nat.le_trans shorter (short.names other (by simp))

end Path

/-- A name that leads down, and does not end a path. -/
structure IsEntryName (name : String) : Prop where
  down : name ≠ ".."
  whole : '\x00' ∉ name.toList
  short : name.utf8ByteSize ≤ Path.nameBound

namespace FileTree

variable (tree : FileTree)

-- ============================================================== following

theorem follow_append (place path more : Path) :
    tree.follow place (path ++ more) = tree.follow place path >>= (tree.follow · more) := by
  induction path generalizing place with
  | nil => rfl
  | cons name rest ih =>
      rw [List.cons_append, follow, follow]
      cases tree.node? place with
      | none => rfl
      | some node =>
          cases node with
          | file content => rfl
          | directory =>
              dsimp only
              split
              next => exact ih _
              next =>
                split
                next => rfl
                next => exact ih _

/-- One name more leads from a directory to what is in it. -/
theorem follow_entry {name : String} (entry : IsEntryName name) (place : Path) :
    tree.follow place [name] =
      match tree.node? place with
      | some .directory => .ok (place ++ [name])
      | some (.file _) => .error .passesThroughFile
      | none => .error .missing := by
  rw [follow]
  cases tree.node? place with
  | none => rfl
  | some node =>
      cases node with
      | file content => rfl
      | directory =>
          dsimp only
          rw [if_neg entry.down, if_neg (Nat.not_lt.2 entry.short)]
          rfl

/-- Where all names are short, none that is reached is too long. -/
theorem follow_ne_tooLong {path : Path} (short : ∀ name ∈ path, name.utf8ByteSize ≤ Path.nameBound)
    (place : Path) : tree.follow place path ≠ .error .tooLong := by
  induction path generalizing place with
  | nil => exact nofun
  | cons name rest ih =>
      obtain ⟨here, below⟩ := List.forall_mem_cons.1 short
      rw [follow]
      cases tree.node? place with
      | none => exact nofun
      | some node =>
          cases node with
          | file content => exact nofun
          | directory =>
              dsimp only
              split
              next => exact ih below _
              next =>
                rw [if_neg (Nat.not_lt.2 here)]
                exact ih below _

-- ============================================================= what there is

/-- A directory is there, and something of a name in it. -/
def Holds (directory : Path) (name : String) : Prop :=
  ∃ place, tree.directory directory = .ok place ∧ (tree.node? (place ++ [name])).isSome

variable {tree}

theorem contains_eq_true_iff {path : Path} :
    tree.contains path = .ok true ↔ ∃ node, tree.lookUp path = .ok node := by
  unfold contains
  split
  next node found => simp [found]
  next failed => simp [failed]
  next failed => simp [failed]

/-- The one thing that keeps a path from being asked about. -/
theorem eq_tooLong_of_contains {path : Path} {fault : Fault}
    (h : tree.contains path = .error fault) : fault = .tooLong := by
  unfold contains at h
  split at h
  next => cases h
  next =>
    cases h
    rfl
  next => cases h

/-- A path that is not too long can be asked about. -/
theorem contains_of_short {path : Path} (short : path.Short) :
    ∃ found, tree.contains path = .ok found := by
  have reached : tree.lookUp path ≠ .error .tooLong := by
    intro failed
    rcases bind_eq_error.1 failed with hplace | ⟨place, -, hnode⟩
    · unfold placeOf at hplace
      split at hplace
      next => cases hplace
      next =>
        rw [if_neg (Nat.not_lt.2 short.size)] at hplace
        exact tree.follow_ne_tooLong short.names [] hplace
    · split at hnode
      next => cases hnode
      next => cases hnode
  unfold contains
  split
  next => exact ⟨true, rfl⟩
  next failed => exact absurd failed reached
  next => exact ⟨false, rfl⟩

/-- A name that is too long keeps all that would be below it from being
asked about, if the directory that it would be in is there. -/
theorem contains_of_long {directory below place : Path} {name : String}
    (there : tree.directory directory = .ok place) (long : Path.nameBound < name.utf8ByteSize)
    (whole : Path.isCut (directory ++ name :: below) = false) :
    tree.contains (directory ++ name :: below) = .error .tooLong := by
  obtain ⟨reached, hreached, there⟩ := bind_eq_ok.1 there
  have down : name ≠ ".." := by
    rintro rfl
    exact absurd long (by decide)
  have failed : tree.follow reached (name :: below) = .error .tooLong := by
    split at there
    next here =>
      rw [follow, here]
      dsimp only
      rw [if_neg down, if_pos long]
    next => cases there
    next => cases there
  have leads : tree.placeOf (directory ++ name :: below) = .error .tooLong := by
    unfold placeOf at hreached ⊢
    rw [whole, if_neg Bool.false_ne_true]
    split
    next => rfl
    next =>
      split at hreached
      next => cases hreached
      next =>
        split at hreached
        next => cases hreached
        next => exact (follow_append tree [] directory _).trans (by rw [hreached]; exact failed)
  unfold contains lookUp
  rw [leads]
  rfl

/-- Whether something is there is whether its directory holds it. -/
theorem contains_iff_holds {directory : Path} {name : String} (entry : IsEntryName name)
    (short : (directory ++ [name]).Short) :
    tree.contains (directory ++ [name]) = .ok true ↔ tree.Holds directory name := by
  have cut : Path.isCut (directory ++ [name]) = directory.isCut := by
    simp [Path.isCut, entry.whole]
  have place : tree.placeOf (directory ++ [name])
      = tree.placeOf directory >>= (tree.follow · [name]) := by
    unfold placeOf
    rw [cut, if_neg (Nat.not_lt.2 short.size), if_neg (Nat.not_lt.2 short.of_append.size)]
    split
    next => rfl
    next => exact tree.follow_append [] directory [name]
  rw [contains_eq_true_iff]
  constructor
  · rintro ⟨node, found⟩
    obtain ⟨reached, hreached, found⟩ := bind_eq_ok.1 found
    rw [place] at hreached
    obtain ⟨outer, houter, hreached⟩ := bind_eq_ok.1 hreached
    rw [tree.follow_entry entry] at hreached
    split at hreached
    next here =>
      cases hreached
      refine ⟨outer, bind_eq_ok.2 ⟨outer, houter, ?_⟩, ?_⟩
      · rw [here]
      · split at found
        next there => rw [there]; rfl
        next => cases found
    next => cases hreached
    next => cases hreached
  · rintro ⟨outer, hdirectory, present⟩
    obtain ⟨reached, houter, hdirectory⟩ := bind_eq_ok.1 hdirectory
    split at hdirectory
    next here =>
      cases hdirectory
      obtain ⟨node, there⟩ := Option.isSome_iff_exists.1 present
      refine ⟨node, bind_eq_ok.2 ⟨outer ++ [name], ?_, ?_⟩⟩
      · rw [place]
        refine bind_eq_ok.2 ⟨outer, houter, ?_⟩
        rw [tree.follow_entry entry, here]
      · rw [there]
    next => cases hdirectory
    next => cases hdirectory

-- =============================================================== writing

/-- A file that takes no directory's place stands in no path's way. -/
theorem follow_set {target : Path} (node : FileNode) (free : tree.node? target ≠ some .directory)
    {place reached : Path} {path : Path} (h : tree.follow place path = .ok reached) :
    FileTree.follow ⟨tree.nodes.set target node⟩ place path = .ok reached := by
  induction path generalizing place with
  | nil => exact h
  | cons name rest ih =>
      rw [follow] at h ⊢
      split at h
      next here =>
        have elsewhere : place ≠ target := fun same => free (same ▸ here)
        have kept : FileTree.node? ⟨tree.nodes.set target node⟩ place = some .directory := by
          rw [← here, node?, node?, Table.find?_set_of_ne _ _ elsewhere]
        rw [kept]
        dsimp only at h ⊢
        split at h
        next up =>
          rw [if_pos up]
          exact ih h
        next down =>
          rw [if_neg down]
          split at h
          next => cases h
          next short =>
            rw [if_neg short]
            exact ih h
      next => cases h
      next => cases h

/-- What has been written is found again. -/
theorem lookUp_of_write {after : FileTree} {path : Path} {content : ByteArray}
    (h : tree.write path content = .ok after) : after.lookUp path = .ok (.file content) := by
  obtain ⟨place, hplace, h⟩ := bind_eq_ok.1 h
  have written : tree.node? place ≠ some .directory ∧
      after = ⟨tree.nodes.set place (.file content)⟩ := by
    split at h
    next => cases h
    next free =>
      cases h
      exact ⟨free, rfl⟩
  obtain ⟨free, rfl⟩ := written
  refine bind_eq_ok.2 ⟨place, ?_, ?_⟩
  · unfold placeOf at hplace ⊢
    split at hplace
    next => cases hplace
    next whole =>
      rw [if_neg whole]
      split at hplace
      next => cases hplace
      next short =>
        rw [if_neg short]
        exact follow_set _ free hplace
  · -- the root is a directory, so that is not where the file is
    have below : place ≠ [] := fun root => free (by rw [root]; rfl)
    rw [node?, if_neg below, Table.find?_set_self]

theorem read_of_write {after : FileTree} {path : Path} {content : ByteArray}
    (h : tree.write path content = .ok after) : after.read path = .ok content :=
  bind_eq_ok.2 ⟨.file content, lookUp_of_write h, rfl⟩

/-- A file that can be read is there. -/
theorem contains_of_read {path : Path} {content : ByteArray}
    (h : tree.read path = .ok content) : tree.contains path = .ok true := by
  obtain ⟨node, found, -⟩ := bind_eq_ok.1 h
  exact contains_eq_true_iff.2 ⟨node, found⟩

end FileTree

end SymbolicHeap
