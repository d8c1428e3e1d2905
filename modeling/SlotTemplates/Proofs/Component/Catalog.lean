import SlotTemplates.Component.Catalog
import SlotTemplates.Proofs.Component.Name

/-!
# The cache and the files

A cache is *faithful* to a catalog if it holds under each name what the name means now, that is,
what would be loaded if nothing were held (`Catalog.Faithful`). A lookup in a faithful cache gives
what the files give (`Catalog.lookup_of_faithful`), and leaves the cache faithful, as does every
other operation on it. So do lookups that fail: they leave the cache as it is.
-/

namespace SlotTemplates

/-! ## Errors with a cause -/

section
variable {ε ε' α β : Type} {x : Except ε α} {f : ε → ε'} {g : α → Except ε' β}

/-- A step whose error is given a context goes on with its result. -/
theorem mapError_bind_ok {a : α} (h : x = .ok a) : (x.mapError f >>= g) = g a := by
  rw [h]
  rfl

/-- An error is that of a step, in its context, or comes from what follows on its result. -/
theorem error_of_mapError_bind {e : ε'} (h : (x.mapError f >>= g) = .error e) :
    (∃ cause, x = .error cause ∧ e = f cause) ∨ ∃ a, x = .ok a ∧ g a = .error e := by
  cases x with
  | error cause => cases h; exact .inl ⟨cause, rfl, rfl⟩
  | ok a => exact .inr ⟨a, rfl, h⟩

end

namespace Catalog

variable {catalog : Catalog} {cache : Cache} {name canonical : String}

/-! ## Lookups -/

/-- What a name means according to the files. -/
def find (catalog : Catalog) (name : String) : Except ComponentError (Option Definition) :=
  match canonicalName? name with
  | none => .ok none
  | some canonical => catalog.fetch canonical

/-- A component that can be loaded has a file. -/
theorem resolve_of_fetch {definition : Definition}
    (h : catalog.fetch canonical = .ok (some definition)) :
    (catalog.resolve canonical).isSome := by
  unfold fetch at h
  split at h
  · next hp => rw [hp]; rfl
  · cases h

/-- A file that can be read and compiled is loaded. -/
theorem load_eq {path : Path} {source : String} {declaration : Declaration} {template : Template}
    (hsource : catalog.files.read path = .ok source)
    (hdeclaration : Declaration.ofSource source.toList = .ok declaration)
    (htemplate : Template.compile catalog.tags path source = .ok template) :
    catalog.load name path = .ok { name, path, declaration, template } := by
  rw [load, mapError_bind_ok hsource, mapError_bind_ok hdeclaration, mapError_bind_ok htemplate]
  rfl

/-- So is the component that has the file. -/
theorem fetch_eq {path : Path} {source : String} {declaration : Declaration} {template : Template}
    (hpath : catalog.resolve canonical = some path) (hsource : catalog.files.read path = .ok source)
    (hdeclaration : Declaration.ofSource source.toList = .ok declaration)
    (htemplate : Template.compile catalog.tags path source = .ok template) :
    catalog.fetch canonical = .ok (some { name := canonical, path, declaration, template }) := by
  rw [fetch, hpath]
  dsimp only
  rw [load_eq hsource hdeclaration htemplate]
  rfl

/-- The three outcomes of a lookup: the name is held, it is loaded and held from then on, or the
cache stays as it is and nothing is found in the files, or no file that can be loaded. -/
theorem lookup_cases (catalog : Catalog) (cache : Cache) (name : String) :
    (∃ canonical definition, canonicalName? name = some canonical ∧
      Entries.get? canonical cache = some definition ∧
      catalog.lookup cache name = (.ok (some definition), cache)) ∨
    (∃ canonical definition, canonicalName? name = some canonical ∧
      Entries.get? canonical cache = none ∧ catalog.fetch canonical = .ok (some definition) ∧
      catalog.lookup cache name =
        (.ok (some definition), Entries.insert cache canonical definition)) ∨
    ((∀ definition, catalog.find name ≠ .ok (some definition)) ∧
      catalog.lookup cache name = (catalog.find name, cache)) := by
  unfold lookup find
  cases canonicalName? name with
  | none => exact .inr (.inr ⟨by simp, rfl⟩)
  | some canonical =>
    cases hheld : Entries.get? canonical cache with
    | some definition => exact .inl ⟨canonical, definition, rfl, hheld, by simp [hheld]⟩
    | none =>
      cases hfetch : catalog.fetch canonical with
      | error e => exact .inr (.inr ⟨by simp [hfetch], by simp [hheld, hfetch]⟩)
      | ok found =>
        cases found with
        | none => exact .inr (.inr ⟨by simp [hfetch], by simp [hheld, hfetch]⟩)
        | some definition =>
          exact .inr (.inl ⟨canonical, definition, rfl, hheld, hfetch, by simp [hheld, hfetch]⟩)

/-- Loading never says that a component is being rendered. -/
theorem load_ne_circular {path : Path} {e : ComponentError} (h : catalog.load name path = .error e)
    (chain : List String) : e ≠ .circular chain := by
  rintro rfl
  unfold load at h
  rcases error_of_mapError_bind h with ⟨_, -, he⟩ | ⟨source, -, h⟩
  · cases he
  rcases error_of_mapError_bind h with ⟨_, -, he⟩ | ⟨declaration, -, h⟩
  · cases he
  rcases error_of_mapError_bind h with ⟨_, -, he⟩ | ⟨template, -, h⟩
  · cases he
  · cases h

/-- Neither does a lookup. -/
theorem lookup_ne_circular {e : ComponentError} (h : (catalog.lookup cache name).1 = .error e)
    (chain : List String) : e ≠ .circular chain := by
  rcases lookup_cases catalog cache name with
    ⟨_, _, _, _, hl⟩ | ⟨_, _, _, _, _, hl⟩ | ⟨_, hl⟩ <;> rw [hl] at h
  · cases h
  · cases h
  · unfold find at h
    split at h
    · cases h
    unfold fetch at h
    split at h
    · next path _ =>
      cases hload : catalog.load _ path with
      | ok definition => rw [hload] at h; cases h
      | error e' => rw [hload] at h; cases h; exact load_ne_circular hload chain
    · cases h

/-- What a lookup finds does not depend on what was looked up before. -/
theorem lookup_lookup (catalog : Catalog) (cache : Cache) (name other : String) :
    (catalog.lookup (catalog.lookup cache name).2 other).1 = (catalog.lookup cache other).1 := by
  rcases lookup_cases catalog cache name with
    ⟨_, _, _, _, hl⟩ | ⟨canonical, definition, _, hfree, hfetch, hl⟩ | ⟨_, hl⟩ <;> rw [hl]
  unfold lookup
  cases canonicalName? other with
  | none => rfl
  | some canonical' =>
    dsimp only
    rw [Entries.get?_insert]
    by_cases heq : canonical = canonical'
    · rw [if_pos heq, ← heq, hfree, hfetch]
    · rw [if_neg heq]
      cases Entries.get? canonical' cache with
      | some held => rfl
      | none => rcases catalog.fetch canonical' with _ | _ | _ <;> rfl

/-- A cache with which lookups find what `finds` says. -/
def Finds (catalog : Catalog) (finds : String → Except ComponentError (Option Definition))
    (cache : Cache) : Prop :=
  ∀ name, (catalog.lookup cache name).1 = finds name

theorem Finds.lookup {finds : String → Except ComponentError (Option Definition)}
    (h : catalog.Finds finds cache) (name : String) :
    catalog.Finds finds (catalog.lookup cache name).2 :=
  fun other => (lookup_lookup catalog cache name other).trans (h other)

/-! ## Faithful caches -/

/-- Every component that is held is what its name means now. -/
def Faithful (catalog : Catalog) (cache : Cache) : Prop :=
  ∀ canonical definition, Entries.get? canonical cache = some definition →
    catalog.fetch canonical = .ok (some definition)

theorem faithful_nil (catalog : Catalog) : catalog.Faithful [] := by
  intro canonical definition h
  cases h

theorem Faithful.insert {definition : Definition} (h : catalog.Faithful cache)
    (hd : catalog.fetch canonical = .ok (some definition)) :
    catalog.Faithful (Entries.insert cache canonical definition) := by
  intro other found hf
  rw [Entries.get?_insert] at hf
  split at hf
  · next heq => cases hf; rw [← heq, hd]
  · exact h other found hf

/-- A lookup in a faithful cache gives what the files give, and the cache stays faithful. -/
theorem lookup_of_faithful (h : catalog.Faithful cache) (name : String) :
    (catalog.lookup cache name).1 = catalog.find name ∧
      catalog.Faithful (catalog.lookup cache name).2 := by
  rcases lookup_cases catalog cache name with
    ⟨canonical, definition, hn, hheld, hl⟩ | ⟨canonical, definition, hn, -, hf, hl⟩ | ⟨-, hl⟩
  · rw [hl, find, hn]
    exact ⟨(h canonical definition hheld).symm, h⟩
  · rw [hl, find, hn]
    exact ⟨hf.symm, h.insert hf⟩
  · rw [hl]
    exact ⟨rfl, h⟩

/-- A faithful cache finds what the files give. -/
theorem Faithful.finds (h : catalog.Faithful cache) : catalog.Finds catalog.find cache :=
  fun name => (lookup_of_faithful h name).1

/-- Two results with caches behind them: the results are equal and the first cache is faithful. -/
def SameAnswer {α : Type} (catalog : Catalog) (x y : α × Cache) : Prop :=
  x.1 = y.1 ∧ catalog.Faithful x.2

section
variable {cache' : Cache} (h : catalog.Faithful cache) (h' : catalog.Faithful cache')
include h h'

theorem lookup_same (name : String) :
    catalog.SameAnswer (catalog.lookup cache name) (catalog.lookup cache' name) := by
  obtain ⟨hfound, hcache⟩ := lookup_of_faithful h name
  exact ⟨hfound.trans (lookup_of_faithful h' name).1.symm, hcache⟩

theorem has_same (name : String) :
    catalog.SameAnswer (catalog.has cache name) (catalog.has cache' name) := by
  obtain ⟨hfound, hcache⟩ := lookup_same h h' name
  unfold has
  generalize catalog.lookup cache name = x at hfound hcache
  generalize catalog.lookup cache' name = y at hfound
  obtain ⟨x, _⟩ := x
  obtain ⟨y, _⟩ := y
  cases hfound
  rcases x with _ | _ | _ <;> exact ⟨rfl, hcache⟩

/-- Looking up names one after the other, which ends with the first that cannot be loaded. -/
theorem lookupAll_same (names : List String) :
    catalog.SameAnswer (catalog.lookupAll names cache) (catalog.lookupAll names cache') := by
  induction names generalizing cache cache' with
  | nil => exact ⟨rfl, h⟩
  | cons name names ih =>
    obtain ⟨hfound, hcache⟩ := lookup_same h h' name
    have hcache' := (lookup_of_faithful h' name).2
    unfold lookupAll
    generalize catalog.lookup cache name = x at hfound hcache
    generalize catalog.lookup cache' name = y at hfound hcache'
    obtain ⟨x, cache⟩ := x
    obtain ⟨y, cache'⟩ := y
    cases hfound
    cases x with
    | ok found => exact ih hcache hcache'
    | error e => exact ⟨rfl, hcache⟩

theorem preload_same : catalog.SameAnswer (catalog.preload cache) (catalog.preload cache') := by
  obtain ⟨hall, hcache⟩ := lookupAll_same h h' catalog.names
  unfold preload
  generalize catalog.lookupAll catalog.names cache = x at hall hcache
  generalize catalog.lookupAll catalog.names cache' = y at hall
  obtain ⟨x, _⟩ := x
  obtain ⟨y, _⟩ := y
  cases hall
  cases x <;> exact ⟨rfl, hcache⟩

end

/-- What is left of a faithful cache is faithful. -/
theorem Faithful.invalidate (h : catalog.Faithful cache) (name : String) :
    catalog.Faithful (cache.invalidate name) := by
  unfold Cache.invalidate
  split
  · intro other definition hd
    rw [Entries.get?_erase] at hd
    split at hd
    · cases hd
    · exact h other definition hd
  · exact h

end Catalog

end SlotTemplates
