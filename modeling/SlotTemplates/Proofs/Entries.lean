import Mathlib.Data.List.Induction
import Mathlib.Data.List.Nodup
import Mathlib.Data.String.Basic
import SlotTemplates.Entries

/-!
# Entries that are inserted

Entries that are inserted by name stand in the order of names, each name once
(`Entries.Ordered.insertSorted`), and inserting all entries of an ordered map one after the other
gives the map again (`Entries.Ordered.sorted_eq`). Sorting any entries gives an ordered map of the
same names (`Entries.ordered_sorted`, `Entries.mem_keys_sorted`).

Entries that are inserted one after the other, each at the end if its name is new, stand in the
order in which the names are mentioned first (`Entries.keys_ofList`), each with the value that it is
mentioned with last (`Entries.get?_ofList`).
-/

namespace SlotTemplates

namespace Entries

variable {α : Type} {m : Entries α}

/-- The names are in strictly increasing order. -/
def Ordered (m : Entries α) : Prop := m.Pairwise fun a b => a.1 < b.1

theorem ordered_nil : Ordered ([] : Entries α) := List.Pairwise.nil

theorem mem_insertSorted {name : String} {value : α} {entry : String × α}
    (h : entry ∈ m.insertSorted name value) : entry = (name, value) ∨ entry ∈ m := by
  induction m with
  | nil => exact .inl (List.mem_singleton.1 h)
  | cons first m ih =>
    obtain ⟨key, old⟩ := first
    unfold insertSorted at h
    split at h
    · next heq =>
      subst heq
      exact (List.mem_cons.1 h).imp_right (List.mem_cons_of_mem _)
    · split at h
      · exact List.mem_cons.1 h
      · rcases List.mem_cons.1 h with rfl | h
        · exact .inr List.mem_cons_self
        · exact (ih h).imp_right (List.mem_cons_of_mem _)

/-- An entry that is inserted by its name keeps the order. -/
theorem Ordered.insertSorted (h : m.Ordered) (name : String) (value : α) :
    (m.insertSorted name value).Ordered := by
  induction m with
  | nil => exact List.pairwise_singleton _ _
  | cons first m ih =>
    obtain ⟨key, old⟩ := first
    obtain ⟨hfirst, hrest⟩ := List.pairwise_cons.1 h
    unfold Entries.insertSorted
    split
    · exact List.pairwise_cons.2 ⟨hfirst, hrest⟩
    · next hne =>
      split
      · next hlt =>
        refine List.pairwise_cons.2 ⟨fun entry hentry => ?_, h⟩
        rcases List.mem_cons.1 hentry with rfl | hentry
        · exact hlt
        · exact hlt.trans (hfirst entry hentry)
      · next hge =>
        refine List.pairwise_cons.2 ⟨fun entry hentry => ?_, ih hrest⟩
        rcases mem_insertSorted hentry with rfl | hentry
        · exact lt_of_le_of_ne (not_lt.1 hge) hne
        · exact hfirst entry hentry

/-- Inserting what a name has already changes nothing. -/
theorem Ordered.insertSorted_eq_self (h : m.Ordered) {name : String} {value : α}
    (hget : m.get? name = some value) : m.insertSorted name value = m := by
  induction m with
  | nil => cases hget
  | cons first m ih =>
    obtain ⟨key, old⟩ := first
    obtain ⟨hfirst, hrest⟩ := List.pairwise_cons.1 h
    rw [get?_cons] at hget
    unfold Entries.insertSorted
    split at hget
    · next heq =>
      cases hget
      rw [if_pos heq, heq]
    · next hne =>
      have hlt : key < name := hfirst _ (mem_of_get? hget)
      rw [if_neg hne, if_neg hlt.not_gt, ih hrest hget]

/-- A name behind all others is inserted at the end. -/
theorem insertSorted_of_lt {name : String} {value : α} (h : ∀ entry ∈ m, entry.1 < name) :
    m.insertSorted name value = m ++ [(name, value)] := by
  induction m with
  | nil => rfl
  | cons first m ih =>
    obtain ⟨key, old⟩ := first
    have hlt : key < name := h _ List.mem_cons_self
    rw [insertSorted, if_neg hlt.ne, if_neg hlt.not_gt,
      ih fun entry hentry => h entry (List.mem_cons_of_mem _ hentry)]
    rfl

/-- Entries that are in order are so after sorting them. -/
theorem Ordered.sorted_eq (h : m.Ordered) : sorted m = m := by
  have build : ∀ done rest : Entries α, Ordered (done ++ rest) →
      rest.foldl (fun acc entry => acc.insertSorted entry.1 entry.2) done = done ++ rest := by
    intro done rest
    induction rest generalizing done with
    | nil => intro _; exact (List.append_nil done).symm
    | cons entry rest ih =>
      intro hall
      have hbefore : ∀ other ∈ done, other.1 < entry.1 := fun other hother =>
        (List.pairwise_append.1 hall).2.2 other hother entry List.mem_cons_self
      rw [List.foldl_cons, insertSorted_of_lt hbefore, ih]
      · simp
      · simpa using hall
  simpa [sorted] using build [] m h

/-- What sorting gives is in order. -/
theorem ordered_sorted (entries : List (String × α)) : Ordered (sorted entries) := by
  have build : ∀ m : Entries α, m.Ordered →
      Ordered (entries.foldl (fun acc entry => acc.insertSorted entry.1 entry.2) m) := by
    induction entries with
    | nil => exact fun _ h => h
    | cons entry entries ih => exact fun m h => ih _ (h.insertSorted _ _)
  exact build [] ordered_nil

/-! ## Names -/

theorem mem_keys_iff {name : String} : name ∈ m.keys ↔ ∃ value, m.get? name = some value := by
  constructor
  · intro h
    obtain ⟨entry, hentry, rfl⟩ := List.mem_map.1 h
    exact get?_of_mem hentry
  · rintro ⟨value, h⟩
    exact List.mem_map.2 ⟨_, mem_of_get? h, rfl⟩

theorem get?_eq_none_of_not_mem {name : String} (h : name ∉ m.keys) : m.get? name = none :=
  Option.eq_none_iff_forall_ne_some.2 fun value hvalue => h (mem_keys_iff.2 ⟨value, hvalue⟩)

theorem mem_keys_insertSorted {name other : String} {value : α} :
    other ∈ (m.insertSorted name value).keys ↔ name = other ∨ other ∈ m.keys := by
  rw [mem_keys_iff, mem_keys_iff, get?_insertSorted]
  by_cases h : name = other <;> simp [h]

/-- Sorting keeps the names. -/
theorem mem_keys_sorted {entries : List (String × α)} {name : String} :
    name ∈ (sorted entries).keys ↔ name ∈ entries.map Prod.fst := by
  have build : ∀ m : Entries α,
      name ∈ (entries.foldl (fun acc entry => acc.insertSorted entry.1 entry.2) m).keys ↔
        name ∈ m.keys ∨ name ∈ entries.map Prod.fst := by
    induction entries with
    | nil => simp
    | cons entry entries ih =>
      intro m
      rw [List.foldl_cons, ih, mem_keys_insertSorted, List.map_cons, List.mem_cons]
      constructor
      · rintro ((heq | hm) | hrest)
        · exact .inr (.inl heq.symm)
        · exact .inl hm
        · exact .inr (.inr hrest)
      · rintro (hm | heq | hrest)
        · exact .inl (.inr hm)
        · exact .inl (.inl heq.symm)
        · exact .inr hrest
  simpa [sorted, keys] using build []

theorem get?_append (m other : Entries α) (name : String) :
    (m ++ other).get? name = (m.get? name).or (other.get? name) := by
  induction m with
  | nil => rfl
  | cons entry m ih =>
    obtain ⟨key, value⟩ := entry
    rw [List.cons_append, get?_cons, get?_cons, ih]
    split <;> rfl

/-- Where no name stands twice, every entry is seen. -/
theorem get?_of_nodup (hnodup : m.keys.Nodup) {entry : String × α} (h : entry ∈ m) :
    m.get? entry.1 = some entry.2 := by
  induction m with
  | nil => cases h
  | cons first m ih =>
    obtain ⟨hfirst, hnodup⟩ := List.nodup_cons.1 hnodup
    rw [get?_cons]
    rcases List.mem_cons.1 h with rfl | h
    · rw [if_pos rfl]
    · have hne : first.1 ≠ entry.1 := fun heq => hfirst (heq ▸ List.mem_map_of_mem h)
      rw [if_neg hne, ih hnodup h]

/-- An entry with a name that has none yet is put behind the others. -/
theorem insert_of_free {name : String} (h : m.get? name = none) (value : α) :
    m.insert name value = m ++ [(name, value)] := by
  induction m with
  | nil => rfl
  | cons entry m ih =>
    obtain ⟨key, old⟩ := entry
    rw [get?_cons] at h
    split at h
    · cases h
    · next hne =>
      rw [insert, if_neg hne, ih h]
      rfl

theorem keys_insert_of_free {name : String} (h : m.get? name = none) (value : α) :
    (m.insert name value).keys = m.keys ++ [name] := by
  rw [insert_of_free h]
  exact List.map_append

/-- Where no name stands twice, inserting entries one after the other appends them. -/
theorem extend_of_nodup {other : Entries α} (h : (m ++ other).keys.Nodup) :
    m.extend other = m ++ other := by
  induction other generalizing m with
  | nil => exact (List.append_nil m).symm
  | cons entry other ih =>
    obtain ⟨name, value⟩ := entry
    have hparts : m ++ (name, value) :: other = (m ++ [(name, value)]) ++ other := by simp
    have hfree : m.get? name = none := by
      refine Option.eq_none_iff_forall_ne_some.2 fun old hold => ?_
      have hmem : name ∈ m.keys := mem_keys_iff.2 ⟨old, hold⟩
      rw [keys, List.map_append] at h
      exact (List.nodup_append.1 h).2.2 name hmem name List.mem_cons_self rfl
    calc m.extend ((name, value) :: other)
        = (m ++ [(name, value)]).extend other :=
          congrArg (extend · other) (insert_of_free hfree value)
      _ = (m ++ [(name, value)]) ++ other := ih (hparts ▸ h)
      _ = m ++ (name, value) :: other := hparts.symm

/-! ## Entries inserted one after the other -/

theorem extend_append (m a b : Entries α) : m.extend (a ++ b) = (m.extend a).extend b :=
  List.foldl_append

/-- A name that is inserted again stays where it is. -/
theorem keys_insert_of_mem {m : Entries α} {name : String} (h : name ∈ m.keys) (value : α) :
    (m.insert name value).keys = m.keys := by
  induction m with
  | nil => cases h
  | cons entry m ih =>
    obtain ⟨key, old⟩ := entry
    rw [insert]
    split
    · rfl
    next hne =>
    have hrest : name ∈ keys m := (List.mem_cons.1 h).resolve_left (Ne.symm hne)
    exact congrArg (key :: ·) (ih hrest)

theorem ofList_append_singleton (entries : List (String × α)) (entry : String × α) :
    ofList (entries ++ [entry]) = (ofList entries).insert entry.1 entry.2 :=
  extend_append [] entries [entry]

/-- The names stand in the order in which they are mentioned first. -/
theorem keys_ofList (entries : List (String × α)) :
    (ofList entries).keys = (keys entries).eraseDups := by
  induction entries using List.reverseRecOn with
  | nil => rfl
  | append_singleton entries entry ih =>
    have hnames : keys (entries ++ [entry]) = keys entries ++ [entry.1] := List.map_append
    rw [ofList_append_singleton, hnames, List.eraseDups_append]
    by_cases h : entry.1 ∈ keys entries
    · rw [keys_insert_of_mem (by rwa [ih, List.mem_eraseDups]), ih]
      simp [List.removeAll, h]
    · have hfree : (ofList entries).get? entry.1 = none :=
        get?_eq_none_of_not_mem (by rwa [ih, List.mem_eraseDups])
      rw [keys_insert_of_free hfree, ih]
      simp [List.removeAll, h, List.eraseDups_cons]

/-- No name stands twice. -/
theorem nodup_keys_ofList (entries : List (String × α)) : (ofList entries).keys.Nodup := by
  induction entries using List.reverseRecOn with
  | nil => exact List.nodup_nil
  | append_singleton entries entry ih =>
    rw [ofList_append_singleton]
    by_cases h : entry.1 ∈ (ofList entries).keys
    · rwa [keys_insert_of_mem h]
    · rw [keys_insert_of_free (get?_eq_none_of_not_mem h)]
      rw [← List.concat_eq_append]
      exact ih.concat h

/-- A name has the value that it is mentioned with last. -/
theorem get?_ofList (entries : List (String × α)) (name : String) :
    (ofList entries).get? name = get? name entries.reverse := by
  induction entries using List.reverseRecOn with
  | nil => rfl
  | append_singleton entries entry ih =>
    rw [ofList_append_singleton, get?_insert, ih, List.reverse_append]
    rfl

end Entries

end SlotTemplates
