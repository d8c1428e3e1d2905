import SlotTemplates.Render.Component

/-!
# Places in a tree

The names that lead from a tree to everything in it are its places, and there are as many as
`Tree.size` says (`Tree.length_places`). A walk of plain names from a tree ends at one of its
places (`Tree.mem_places`). Walks through `..` lead to trees that are not larger than the one at
the top (`Tree.follow_size`), so the places below any directory are bounded by the whole tree.
-/

namespace SlotTemplates

namespace Tree

/-! ## Places -/

mutual

/-- The names that lead from a tree to the files and directories in it, itself included. -/
def places : Tree → List (List String)
  | .file _ => [[]]
  | .dir entries => [] :: placesOf entries

/-- The names that lead from a directory to what is in its entries. -/
def placesOf : List (String × Tree) → List (List String)
  | [] => []
  | (name, t) :: rest => (places t).map (name :: ·) ++ placesOf rest

end

mutual

theorem length_places : ∀ t : Tree, t.places.length = t.size
  | .file _ => rfl
  | .dir entries => by rw [places, size, List.length_cons, length_placesOf entries, Nat.add_comm]

theorem length_placesOf : ∀ entries, (placesOf entries).length = sizeEntries entries
  | [] => rfl
  | (name, t) :: rest => by
    rw [placesOf, sizeEntries, List.length_append, List.length_map, length_places t,
      length_placesOf rest]

end

variable {entries : List (String × Tree)} {part : String} {t : Tree}

/-- A place in what a name leads to is a place in the directory. -/
theorem mem_placesOf (h : Entries.get? part entries = some t) {place : List String}
    (hp : place ∈ t.places) : part :: place ∈ placesOf entries := by
  induction entries with
  | nil => cases h
  | cons entry rest ih =>
    obtain ⟨key, old⟩ := entry
    rw [Entries.get?_cons] at h
    rw [placesOf]
    split at h
    · next heq =>
      cases h
      exact List.mem_append_left _ (List.mem_map.2 ⟨place, hp, by rw [heq]⟩)
    · exact List.mem_append_right _ (ih h)

/-- What a name leads to is not larger than the entries. -/
theorem size_le_sizeEntries (h : Entries.get? part entries = some t) :
    t.size ≤ sizeEntries entries := by
  induction entries with
  | nil => cases h
  | cons entry rest ih =>
    obtain ⟨key, old⟩ := entry
    rw [Entries.get?_cons] at h
    rw [sizeEntries]
    split at h
    · cases h
      exact Nat.le_add_right _ _
    · exact Nat.le_trans (ih h) (Nat.le_add_left _ _)

/-! ## Walks -/

/-- Where parts of a path lead: the directories around the place, the nearest first, and the tree
at the place. -/
def follow (above : List Tree) : Tree → List String → Option (List Tree × Tree)
  | t, [] => some (above, t)
  | .file _, _ :: _ => none
  | .dir entries, part :: parts =>
    if part = "" ∨ part = "." then follow above (.dir entries) parts
    else if part = ".." then
      match above with
      | [] => none
      | t :: above => follow above t parts
    else
      match Entries.get? part entries with
      | some t => follow (.dir entries :: above) t parts
      | none => none

/-- A walk goes on from where its first parts lead. -/
theorem walk_append {above : List Tree} {t u : Tree} {ps qs : List String}
    (h : walk above t (ps ++ qs) = .ok u) :
    ∃ above' t', follow above t ps = some (above', t') ∧ walk above' t' qs = .ok u := by
  induction ps generalizing above t with
  | nil => exact ⟨above, t, by cases t <;> rfl, h⟩
  | cons part ps ih =>
    cases t with
    | file content => cases h
    | dir entries =>
      rw [List.cons_append, walk.eq_def] at h
      rw [follow.eq_def]
      dsimp only at h ⊢
      split
      · next hidle => exact ih (by rwa [if_pos hidle] at h)
      next hidle =>
      rw [if_neg hidle] at h
      split
      · next hup =>
        rw [if_pos hup] at h
        cases above with
        | nil => cases h
        | cons t above => exact ih h
      next hup =>
      rw [if_neg hup] at h
      cases hget : Entries.get? part entries with
      | none => rw [hget] at h; cases h
      | some t => rw [hget] at h; exact ih h

/-- The walk along the path of a file leads to it. -/
theorem walk_of_isFile {t : Tree} {path : Path} (h : t.isFile path = true) :
    ∃ u, walk [] t path.parts = .ok u := by
  unfold isFile locate at h
  split at h
  · next heq =>
    split at heq
    · cases heq
    split at heq
    · cases heq
    exact ⟨_, heq⟩
  · cases h

/-- A walk leads to no larger trees than those that it starts among. -/
theorem follow_size {above above' : List Tree} {t t' : Tree} {parts : List String} {n : Nat}
    (h : follow above t parts = some (above', t')) (habove : ∀ a ∈ above, a.size ≤ n)
    (ht : t.size ≤ n) : t'.size ≤ n := by
  induction parts generalizing above t with
  | nil =>
    obtain ⟨rfl, rfl⟩ : above = above' ∧ t = t' := by cases t <;> simpa [follow] using h
    exact ht
  | cons part parts ih =>
    cases t with
    | file content => cases h
    | dir entries =>
      rw [follow.eq_def] at h
      dsimp only at h
      split at h
      · exact ih h habove ht
      split at h
      · cases above with
        | nil => cases h
        | cons t above =>
          exact ih h (fun a ha => habove a (List.mem_cons_of_mem _ ha))
            (habove t List.mem_cons_self)
      cases hget : Entries.get? part entries with
      | none => rw [hget] at h; cases h
      | some t =>
        rw [hget] at h
        have hsize : (Tree.dir entries).size = 1 + sizeEntries entries := rfl
        have := size_le_sizeEntries hget
        refine ih h (fun a ha => ?_) (by omega)
        rcases List.mem_cons.1 ha with rfl | ha
        · exact ht
        · exact habove a ha

/-- A part of a path that leads into the entry of its name. -/
def IsPlain (part : String) : Prop := part ≠ "" ∧ part ≠ "." ∧ part ≠ ".."

/-- Plain parts that lead somewhere are a place. -/
theorem mem_places {above above' : List Tree} {t t' : Tree} {parts : List String}
    (h : follow above t parts = some (above', t')) (hplain : ∀ part ∈ parts, IsPlain part) :
    parts ∈ t.places := by
  induction parts generalizing above t with
  | nil => cases t <;> exact List.mem_cons_self
  | cons part parts ih =>
    obtain ⟨hempty, hdot, hup⟩ := hplain part List.mem_cons_self
    cases t with
    | file content => cases h
    | dir entries =>
      rw [follow.eq_def] at h
      dsimp only at h
      rw [if_neg (by simp [hempty, hdot]), if_neg hup] at h
      cases hget : Entries.get? part entries with
      | none => rw [hget] at h; cases h
      | some t =>
        rw [hget] at h
        exact List.mem_cons_of_mem _
          (mem_placesOf hget (ih h fun p hp => hplain p (List.mem_cons_of_mem _ hp)))

end Tree

end SlotTemplates
