import WireShape.Command.FileTree
import WireShape.Proofs.Keys

/-!
# Files that are written

Nothing is below a file. In a tree of which that holds, a file that has been written is there: its
place holds it and directories are above it, however the path leads to that place. Whether a path
holds something and what is read from it depends on its place and on those above it, so a file reads
back in every tree that agrees with this one there.

* `FileTree.Grounded`: trees in which nothing is below a file.
* `FileTree.AgreeAlong`: trees that agree at a place and above it.
* `FileTree.holds_write`: a path that has been written is held.
* `FileTree.isFileFault_of_write`: the operations fail only as the operating system does.
-/

namespace WireShape

/-- A failure of the operating system. -/
def Fault.IsFileFault (fault : Fault) : Prop := ∃ code reason shown, fault = .fileFault code reason shown

/-! ## Places above a place -/

namespace TreePath

variable {place q : List String} {part : String} {p : TreePath}

/-- What is above a place after a step is where the step began, or above that. -/
theorem above_walk (h : q ∈ FileTree.above (walk place part)) :
    q = place ∨ q ∈ FileTree.above place := by
  unfold walk at h
  split at h
  · split at h
    · rcases List.mem_singleton.mp h with rfl
      exact .inl rfl
    · exact List.mem_cons.mp h
    · exact .inr h
    · exact .inr (List.mem_cons_of_mem _ h)
  · exact List.mem_cons.mp h

/-- What is above the place of a path is the place of its parent, or above that. -/
theorem above_place (h : q ∈ FileTree.above p.place) :
    q = p.parent.place ∨ q ∈ FileTree.above p.parent.place := by
  rcases List.eq_nil_or_concat p.parts with hnil | ⟨parts, part, hparts⟩
  · have hparent : p.parent.place = p.place := by
      unfold place parent
      rw [hnil]
      rfl
    rw [hparent]
    exact .inr h
  · have hplace : p.place = walk p.parent.place part := by
      unfold place parent
      rw [hparts, List.concat_eq_append, List.dropLast_concat, List.foldl_append]
      rfl
    exact above_walk (hplace ▸ h)

end TreePath

namespace FileTree

variable {t t' : FileTree} {place q : List String} {p : TreePath} {text : String}

theorem length_lt_of_mem_above (h : q ∈ above place) : q.length < place.length := by
  induction place with
  | nil => cases h
  | cons part rest ih =>
    rcases List.mem_cons.mp h with rfl | hmem
    · exact Nat.lt_succ_self _
    · exact (ih hmem).trans (Nat.lt_succ_self _)

/-! ## Entries after a write -/

/-- Where directories have been added, files are files that were there before. -/
theorem at?_addAbove (h : (t.addAbove place).at? q = some (.file text)) :
    t.at? q = some (.file text) := by
  unfold addAbove at h
  generalize (above place).reverse = places at h
  induction places generalizing t with
  | nil => exact h
  | cons r places ih =>
    rw [List.foldl_cons] at h
    have hstep := ih h
    split at hstep
    · exact hstep
    · unfold at? at hstep ⊢
      split at hstep
      · cases hstep
      · rename_i hgiven
        rw [if_neg hgiven]
        rw [OrderedMap.get?_insert] at hstep
        split at hstep
        · cases hstep
        · exact hstep

/-- What is found after an entry has been added. -/
theorem at?_add {entry : TreeEntry} : (t.add place entry).at? q =
    if isGiven q then some .directory else if place = q then some entry
    else (t.addAbove place).at? q := by
  unfold add at?
  dsimp only
  rw [OrderedMap.get?_insert]
  split
  · rfl
  · simp only [beq_iff_eq]

theorem isBlocked_eq_false_iff :
    t.isBlocked place = false ↔ ∀ q ∈ above place, ∀ text, t.at? q ≠ some (.file text) := by
  unfold isBlocked
  rw [List.any_eq_false]
  refine forall₂_congr fun q _ => ?_
  split
  · rename_i text hfile
    refine iff_of_false (fun h => h rfl) fun h => h text hfile
  · rename_i hfile
    exact iff_of_true Bool.false_ne_true fun text h => hfile text h

/-! ## Trees with nothing below a file -/

/-- Nothing is below a file. -/
def Grounded (t : FileTree) : Prop :=
  ∀ place, (t.at? place).isSome = true → t.isBlocked place = false

/-- After a directory has been made, no file is above it. -/
theorem makeDirectory_isBlocked (ht : t.Grounded) (h : t.makeDirectory p = .ok t') :
    t'.at? p.place = some .directory ∧ t'.isBlocked p.place = false := by
  unfold makeDirectory at h
  split at h
  · rename_i hat
    cases h
    exact ⟨hat, ht p.place (Option.isSome_iff_exists.mpr ⟨_, hat⟩)⟩
  · cases h
  · rename_i hat
    split at h
    · cases h
    · rename_i hblocked
      cases h
      rw [Bool.not_eq_true, isBlocked_eq_false_iff] at hblocked
      refine ⟨?_, isBlocked_eq_false_iff.mpr fun q hq text hfile => ?_⟩
      · rw [at?_add, if_pos rfl, ite_self]
      · rw [at?_add] at hfile
        split at hfile
        · cases hfile
        · split at hfile
          · cases hfile
          · exact hblocked q hq text (at?_addAbove hfile)

/-- A path that has been written holds a file. -/
theorem holds_write (ht : t.Grounded) (h : t.write p text = .ok t') : t'.holds p = true := by
  unfold write at h
  cases hmake : t.makeDirectory p.parent with
  | error => simp [hmake, bind, Except.bind] at h
  | ok t₁ =>
    obtain ⟨hparent, hblocked⟩ := makeDirectory_isBlocked ht hmake
    rw [isBlocked_eq_false_iff] at hblocked
    simp only [hmake, bind, Except.bind] at h
    split at h
    · cases h
    · rename_i hfile
      cases h
      unfold holds
      rw [Bool.and_eq_true, Bool.not_eq_true', isBlocked_eq_false_iff]
      refine ⟨?_, fun q hq text hat => ?_⟩
      · rw [at?_add, if_pos rfl]
        split <;> rfl
      · have hne : p.place ≠ q := by
          intro heq
          exact absurd (length_lt_of_mem_above hq) (by rw [heq]; exact Nat.lt_irrefl _)
        rw [at?_add, if_neg hne] at hat
        split at hat
        · cases hat
        · have hold := at?_addAbove hat
          rcases TreePath.above_place hq with rfl | habove
          · rw [hparent] at hold
            cases hold
          · exact hblocked q habove text hold

/-! ## What can go wrong -/

section Faults

variable {fault : Fault}

theorem isFileFault_of_makeDirectory (h : t.makeDirectory p = .error fault) : fault.IsFileFault := by
  unfold makeDirectory at h
  split at h
  · cases h
  · cases h
    exact ⟨_, _, _, rfl⟩
  · split at h <;> cases h
    exact ⟨_, _, _, rfl⟩

theorem isFileFault_of_write (h : t.write p text = .error fault) : fault.IsFileFault := by
  unfold write at h
  cases hmake : t.makeDirectory p.parent with
  | error =>
    simp only [hmake, bind, Except.bind] at h
    cases h
    exact isFileFault_of_makeDirectory hmake
  | ok t₁ =>
    simp only [hmake, bind, Except.bind] at h
    split at h <;> cases h
    exact ⟨_, _, _, rfl⟩

theorem isFileFault_of_read (h : t.read p = .error fault) : fault.IsFileFault := by
  unfold read at h
  split at h <;> cases h
  · exact ⟨_, _, _, rfl⟩
  · exact ⟨_, _, _, rfl⟩

end Faults

/-! ## Trees that agree -/

/-- The trees have the same at a place and above it. -/
def AgreeAlong (place : List String) (t t' : FileTree) : Prop :=
  ∀ q ∈ place :: above place, t.at? q = t'.at? q

theorem AgreeAlong.isBlocked (h : AgreeAlong place t t') : t.isBlocked place = t'.isBlocked place := by
  unfold FileTree.isBlocked
  rw [Bool.eq_iff_iff, List.any_eq_true, List.any_eq_true]
  refine exists_congr fun q => and_congr_right fun hq => ?_
  rw [h q (List.mem_cons_of_mem _ hq)]

theorem AgreeAlong.holds (h : AgreeAlong p.place t t') : t.holds p = t'.holds p := by
  unfold FileTree.holds
  rw [h p.place List.mem_cons_self, h.isBlocked]

theorem AgreeAlong.read (h : AgreeAlong p.place t t') : t.read p = t'.read p := by
  unfold FileTree.read
  rw [h p.place List.mem_cons_self]

end FileTree

end WireShape
