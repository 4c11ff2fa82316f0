import SdkUpgrade.Files.Tree

/-!
# What operations on files change

Making directories changes no file, even if it fails halfway: `sameFiles_ensureDirectories`.
Writing a file changes no other file, and its path leads to it afterwards:
`exists_of_write`. A file is only put where no directory stands, so every directory stays
and a path still leads where it led.
-/

namespace SdkUpgrade

namespace FileTree

/-- The contents of the file at a place, if a file stands there. -/
def contents? (tree : FileTree) (location : Location) : Option Utf8.Bytes :=
  match tree.find? location with
  | some (.file bytes) => some bytes
  | _ => none

/-- The same files stand in both trees, with the same contents. -/
def SameFiles (before after : FileTree) : Prop :=
  ∀ location, after.contents? location = before.contents? location

variable {tree next : FileTree} {location other : Location} {node : FileNode}

/-! ## Putting a node at a place -/

theorem lookup_filter_of_ne {nodes : List (Location × FileNode)} (h : other ≠ location) :
    (nodes.filter fun entry => decide (entry.1 ≠ location)).lookup other =
      nodes.lookup other := by
  induction nodes with
  | nil => rfl
  | cons entry nodes ih =>
      obtain ⟨place, node⟩ := entry
      by_cases hplace : place = location
      · subst hplace
        have hne : (other == place) = false := beq_false_of_ne h
        rw [List.filter_cons_of_neg (by simp), ih, List.lookup_cons, hne]
      · rw [List.filter_cons_of_pos (by simpa using hplace), List.lookup_cons,
          List.lookup_cons, ih]

theorem lookup_put_self (tree : FileTree) (location : Location) (node : FileNode) :
    (tree.put location node).nodes.lookup location = some node :=
  List.lookup_cons_self

theorem lookup_put_of_ne (h : other ≠ location) :
    (tree.put location node).nodes.lookup other = tree.nodes.lookup other := by
  have hne : (other == location) = false := beq_false_of_ne h
  show List.lookup other (_ :: _) = _
  rw [List.lookup_cons, hne]
  exact lookup_filter_of_ne h

theorem find?_put_self (tree : FileTree) (location : Location) (node : FileNode) :
    (tree.put location node).find? location = some node := by
  simp only [find?, lookup_put_self]

/-- Where no file is recorded, none stands. -/
theorem contents?_eq (tree : FileTree) (location : Location) :
    tree.contents? location =
      match tree.nodes.lookup location with
      | some (.file bytes) => some bytes
      | _ => none := by
  unfold contents? find?
  cases tree.nodes.lookup location with
  | some node => rfl
  | none =>
      by_cases hway : (location.isPrefixOf tree.working ||
          tree.nodes.any (location.isPrefixOf ·.1)) = true
      · simp only [if_pos hway]
      · simp only [if_neg hway]

/-- Putting a node at a place leaves the files at other places as they are. -/
theorem contents?_put_of_ne (h : other ≠ location) :
    (tree.put location node).contents? other = tree.contents? other := by
  rw [contents?_eq, contents?_eq, lookup_put_of_ne h]

/-- A new directory at a free place is no file. -/
theorem sameFiles_put_directory (h : tree.find? location = none) :
    tree.SameFiles (tree.put location .directory) := by
  intro other
  by_cases hother : other = location
  · subst hother
    simp only [contents?, find?_put_self, h]
  · exact contents?_put_of_ne hother

/-! ## Directories stay -/

/-- The second tree has the working directory and all directories of the first. -/
structure KeepsDirectories (before after : FileTree) : Prop where
  working : after.working = before.working
  directories : ∀ location, before.find? location = some .directory →
    after.find? location = some .directory

/-- The way to a node still leads to one when a node is put somewhere. -/
theorem any_prefix_put (h : tree.nodes.any (other.isPrefixOf ·.1) = true) :
    (tree.put location node).nodes.any (other.isPrefixOf ·.1) = true := by
  obtain ⟨entry, hmem, hprefix⟩ := List.any_eq_true.1 h
  by_cases hentry : entry.1 = location
  · exact List.any_eq_true.2 ⟨(location, node), List.mem_cons_self, hentry ▸ hprefix⟩
  · refine List.any_eq_true.2 ⟨entry, List.mem_cons_of_mem _ ?_, hprefix⟩
    exact List.mem_filter.2 ⟨hmem, by simpa using hentry⟩

/-- A node that is put where no directory stands takes no directory away. -/
theorem keepsDirectories_put (h : tree.find? location ≠ some .directory) :
    tree.KeepsDirectories (tree.put location node) where
  working := rfl
  directories := by
    intro other hother
    have hne : other ≠ location := by
      rintro rfl
      exact h hother
    unfold find? at hother ⊢
    rw [lookup_put_of_ne hne]
    cases hlookup : tree.nodes.lookup other with
    | some found =>
        rw [hlookup] at hother
        exact hother
    | none =>
        simp only [hlookup, Option.ite_none_right_eq_some, Bool.or_eq_true, and_true] at hother ⊢
        exact hother.imp id any_prefix_put

/-- Names lead where they led as long as no directory is taken away. -/
theorem KeepsDirectories.follow (h : tree.KeepsDirectories next) {start : Location}
    {names : List Text} (hfollow : tree.follow start names = .ok location) :
    next.follow start names = .ok location := by
  induction names generalizing start with
  | nil => exact hfollow
  | cons name names ih =>
      unfold FileTree.follow at hfollow ⊢
      cases hfind : tree.find? start with
      | none => exact absurd hfollow (by simp [hfind])
      | some node =>
          cases node with
          | file bytes => exact absurd hfollow (by simp [hfind])
          | directory =>
              rw [h.directories start hfind]
              simp only [hfind] at hfollow ⊢
              split at hfollow
              · exact absurd hfollow (by simp)
              · rename_i hlimit
                rw [if_neg hlimit]
                split at hfollow
                · rename_i hup
                  rw [if_pos hup]
                  exact ih hfollow
                · rename_i hdown
                  rw [if_neg hdown]
                  exact ih hfollow

theorem KeepsDirectories.resolve (h : tree.KeepsDirectories next) {path : Path}
    (hresolve : tree.resolve path = .ok location) : next.resolve path = .ok location := by
  unfold FileTree.resolve at hresolve ⊢
  rw [h.working]
  simp only at hresolve ⊢
  split at hresolve
  · exact absurd hresolve (by simp)
  · rename_i hlimit
    rw [if_neg hlimit]
    split at hresolve
    · rename_i found hfollow
      rw [h.follow hfollow]
      exact hresolve
    · exact absurd hresolve (by simp)

/-! ## Reading, writing and making directories -/

variable {path : Path} {bytes : Utf8.Bytes}

/-- Reading gives the contents of the file that the path leads to. -/
theorem read_eq_ok_iff : tree.read path = .ok bytes ↔
    ∃ location, tree.resolve path = .ok location ∧ tree.find? location = some (.file bytes) := by
  unfold read
  cases tree.resolve path with
  | error error => simp [bind, Except.bind]
  | ok location =>
      simp only [bind, Except.bind, Except.ok.injEq, exists_eq_left']
      split <;> simp_all [pure, Except.pure, throw, throwThe, MonadExceptOf.throw]

/-- Writing succeeds exactly where no directory stands, and puts a file there. -/
theorem write_eq_ok_iff : tree.write path bytes = .ok next ↔
    ∃ location, tree.resolve path = .ok location ∧ tree.find? location ≠ some .directory ∧
      tree.put location (.file bytes) = next := by
  unfold write
  cases tree.resolve path with
  | error error => simp [bind, Except.bind]
  | ok location =>
      simp only [bind, Except.bind, Except.ok.injEq, exists_eq_left']
      split <;> simp_all [pure, Except.pure, throw, throwThe, MonadExceptOf.throw]

theorem exists_of_makeDirectory (h : tree.makeDirectory path = .ok next) :
    ∃ location, tree.find? location = none ∧ tree.put location .directory = next := by
  unfold makeDirectory at h
  cases hresolve : tree.resolve path with
  | error error => simp [hresolve, bind, Except.bind] at h
  | ok location =>
      simp only [hresolve, bind, Except.bind] at h
      split at h
      · simp [throw, throwThe, MonadExceptOf.throw] at h
      · rename_i hnone
        exact ⟨location, hnone, Except.ok.inj h⟩

theorem SameFiles.refl (tree : FileTree) : tree.SameFiles tree := fun _ => rfl

theorem SameFiles.trans {first second third : FileTree} (h : first.SameFiles second)
    (h' : second.SameFiles third) : first.SameFiles third :=
  fun location => (h' location).trans (h location)

/-- Making a directory, or finding it there, changes no file. -/
theorem sameFiles_ensureDirectory (h : tree.ensureDirectory path = .ok next) :
    tree.SameFiles next := by
  unfold ensureDirectory at h
  split at h
  · rename_i made hmade
    obtain rfl := Except.ok.inj h
    obtain ⟨location, hnone, rfl⟩ := exists_of_makeDirectory hmade
    exact sameFiles_put_directory hnone
  · split at h
    · obtain rfl := Except.ok.inj h
      exact .refl tree
    · exact absurd h (by simp)

/-- Making directories changes no file, even if the last one fails. -/
theorem sameFiles_ensureDirectoriesTo (root : PathRoot) (names : List Text) (tree : FileTree) :
    tree.SameFiles (ensureDirectoriesTo root names tree).1 := by
  induction names generalizing tree with
  | nil =>
      unfold ensureDirectoriesTo
      split
      · rename_i next hnext
        exact sameFiles_ensureDirectory hnext
      · exact .refl tree
  | cons name above ih =>
      unfold ensureDirectoriesTo
      simp only
      split
      · rename_i next hnext
        exact sameFiles_ensureDirectory hnext
      · -- Something on the way is missing. The names above are made first, then this one again.
        split
        · have habove := ih tree
          split
          · rename_i next error heq
            rw [heq] at habove
            exact habove
          · rename_i next heq
            rw [heq] at habove
            split
            · rename_i last hlast
              exact habove.trans (sameFiles_ensureDirectory hlast)
            · exact habove
        · exact .refl tree

theorem sameFiles_ensureDirectories (tree : FileTree) (path : Path) :
    tree.SameFiles (tree.ensureDirectories path).1 :=
  sameFiles_ensureDirectoriesTo path.root path.parts.reverse tree

/-- After a file was written its path leads to it, and all other files are as before. -/
theorem exists_of_write (h : tree.write path bytes = .ok next) :
    ∃ location, next.resolve path = .ok location ∧ next.find? location = some (.file bytes) ∧
      ∀ other, other ≠ location → next.contents? other = tree.contents? other := by
  obtain ⟨location, hresolve, hfree, rfl⟩ := write_eq_ok_iff.1 h
  exact ⟨location, (keepsDirectories_put hfree).resolve hresolve, find?_put_self tree location _,
    fun other hother => contents?_put_of_ne hother⟩

/-- A text is read from a file exactly if its bytes can be read and stand for the text. -/
theorem readText_eq_ok_iff {text : Text} :
    tree.readText path = .ok text ↔
      ∃ bytes, tree.read path = .ok bytes ∧ textOfBytes bytes = .ok text := by
  unfold readText
  cases tree.read path with
  | error error => simp
  | ok bytes => cases hbytes : textOfBytes bytes <;> simp [hbytes]

end FileTree

end SdkUpgrade
