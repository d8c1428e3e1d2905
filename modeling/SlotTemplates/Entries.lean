/-!
# Ordered entries

A map from names to values as the list of its entries. `Entries.insert` keeps a name at the
place where it was first mentioned and replaces its value, so the entries stand in order of
first mention; `Entries.insertSorted` keeps them sorted by name instead. `get?` is the view
through which both are used.
-/

namespace SlotTemplates

/-- Names with values, in an order that matters. -/
abbrev Entries (α : Type) := List (String × α)

namespace Entries

variable {α : Type}

/-- The value of a name. -/
def get? (name : String) : Entries α → Option α
  | [] => none
  | (key, value) :: rest => if key = name then some value else get? name rest

/-- Whether a name has an entry. -/
def has (name : String) (m : Entries α) : Bool := (get? name m).isSome

/-- The names, in order. -/
def keys (m : Entries α) : List String := m.map Prod.fst

/-- The map with a name bound: in its old place if it has one, else at the end. -/
def insert (m : Entries α) (name : String) (value : α) : Entries α :=
  match m with
  | [] => [(name, value)]
  | (key, old) :: rest =>
    if key = name then (key, value) :: rest else (key, old) :: insert rest name value

/-- The map with all entries of another one inserted, in their order. -/
def extend (m other : Entries α) : Entries α :=
  other.foldl (fun acc entry => acc.insert entry.1 entry.2) m

/-- The map that a list of entries gives when they are inserted one after the other. -/
def ofList (entries : List (String × α)) : Entries α := extend [] entries

/-- The map without a name. -/
def erase (m : Entries α) (name : String) : Entries α := m.filter fun entry => entry.1 ≠ name

/-- The map with a name bound, in the order of names. -/
def insertSorted (m : Entries α) (name : String) (value : α) : Entries α :=
  match m with
  | [] => [(name, value)]
  | (key, old) :: rest =>
    if key = name then (key, value) :: rest
    else if name < key then (name, value) :: (key, old) :: rest
    else (key, old) :: insertSorted rest name value

/-- The entries in the order of names; of two with one name the later stays. -/
def sorted (entries : List (String × α)) : Entries α :=
  entries.foldl (fun acc entry => acc.insertSorted entry.1 entry.2) []

/-- The map with `f` applied to every value. -/
def mapValues {β : Type} (f : α → β) (m : Entries α) : Entries β :=
  m.map fun entry => (entry.1, f entry.2)

/-! ### What the operations do to the view -/

@[simp] theorem get?_nil (name : String) : get? name ([] : Entries α) = none := rfl

@[simp] theorem get?_cons (name key : String) (value : α) (m : Entries α) :
    get? name ((key, value) :: m) = if key = name then some value else get? name m := rfl

theorem get?_insert (m : Entries α) (name other : String) (value : α) :
    (m.insert name value).get? other = if name = other then some value else m.get? other := by
  induction m with
  | nil => simp [insert]
  | cons entry m ih =>
    obtain ⟨key, old⟩ := entry
    by_cases h : key = name
    · subst h
      by_cases ho : key = other <;> simp [insert, ho]
    · by_cases ho : key = other
      · subst ho
        simp [insert, h, Ne.symm h]
      · simp [insert, h, ho, ih]

theorem get?_erase (m : Entries α) (name other : String) :
    (m.erase name).get? other = if name = other then none else m.get? other := by
  induction m with
  | nil => simp [erase]
  | cons entry m ih =>
    obtain ⟨key, value⟩ := entry
    unfold erase at ih ⊢
    by_cases h : key = name
    · rw [List.filter_cons_of_neg (by simp [h]), ih, h]
      by_cases ho : name = other <;> simp [ho]
    · rw [List.filter_cons_of_pos (by simp [h]), get?_cons, get?_cons, ih]
      by_cases ho : key = other
      · subst ho
        simp [Ne.symm h]
      · simp [ho]

theorem mem_of_get? {m : Entries α} {name : String} {value : α} (h : m.get? name = some value) :
    (name, value) ∈ m := by
  induction m with
  | nil => cases h
  | cons entry m ih =>
    rw [get?_cons] at h
    split at h
    · next heq =>
      cases h
      rw [← heq]
      exact List.mem_cons_self
    · exact List.mem_cons_of_mem _ (ih h)

theorem get?_of_mem {m : Entries α} {entry : String × α} (h : entry ∈ m) :
    ∃ value, m.get? entry.1 = some value := by
  induction m with
  | nil => cases h
  | cons first m ih =>
    rw [get?_cons]
    split
    · exact ⟨_, rfl⟩
    · next hne =>
      rcases List.mem_cons.1 h with rfl | h
      · exact absurd rfl hne
      · exact ih h

theorem get?_extend_cases {m other : Entries α} {name : String} {value : α}
    (h : (m.extend other).get? name = some value) :
    m.get? name = some value ∨ (name, value) ∈ other := by
  unfold extend at h
  induction other generalizing m with
  | nil => exact .inl h
  | cons entry other ih =>
    rw [List.foldl_cons] at h
    rcases ih h with h | h
    · rw [get?_insert] at h
      split at h
      · next heq =>
        cases h
        exact .inr (by rw [← heq]; exact List.mem_cons_self)
      · exact .inl h
    · exact .inr (List.mem_cons_of_mem _ h)

theorem get?_insertSorted (m : Entries α) (name other : String) (value : α) :
    (m.insertSorted name value).get? other =
      if name = other then some value else m.get? other := by
  induction m with
  | nil => simp [insertSorted]
  | cons entry m ih =>
    obtain ⟨key, old⟩ := entry
    by_cases h : key = name
    · subst h
      by_cases ho : key = other <;> simp [insertSorted, ho]
    · by_cases hlt : name < key
      · simp [insertSorted, h, hlt]
      · by_cases ho : key = other
        · subst ho
          simp [insertSorted, h, hlt, Ne.symm h]
        · simp [insertSorted, h, hlt, ho, ih]

end Entries

end SlotTemplates
