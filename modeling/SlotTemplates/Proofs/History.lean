import Mathlib.Data.Set.Card
import SlotTemplates.Proofs.Component.Discovery
import SlotTemplates.Proofs.Render.Lookups
import SlotTemplates.Session

/-!
# The history of a session

In a session components are looked up and dropped, and the files change, in any order. Its history
is the list of what happens, with every single lookup that queries make: those of renders and of
loading all components among them (`Query.lookups`). What a lookup answers can be read off from the
history before it, without the cache (`Catalog.Answers`): if some spelling of the name was found
since it was dropped last, then the component that the files gave when it was found first; and else
what the files give now.

The cache is the record of the history (`Catalog.Records`): it holds the components that were found
and not dropped since. One event after another keeps it so (`Catalog.Records.step`), and therefore
every session does (`Session.records`). `Session.cache_semantics` puts together what follows.
-/

namespace SlotTemplates

/-- What can happen to a cache of components and to the files behind it. -/
inductive Event where
  | looked (lookup : Lookup)
  | invalidated (name : String)
  | cleared
  | edited (files : Tree)

namespace Event

variable {canonical : String} {event : Event}

/-- A component is dropped, under some spelling of its name or with all others. -/
def Drops (canonical : String) : Event → Prop
  | .invalidated name => canonicalName? name = some canonical
  | .cleared => True
  | _ => False

/-- A component is found, under some spelling of its name. -/
def Finds (canonical : String) : Event → Prop
  | .looked lookup => canonicalName? lookup.name = some canonical ∧
      ∃ definition, lookup.found = .ok (some definition)
  | _ => False

theorem Drops.not_finds (h : event.Drops canonical) : ¬ event.Finds canonical := by
  cases event with
  | looked => exact h.elim
  | invalidated | cleared | edited => exact id

end Event

/-! ## What was loaded when -/

namespace History

variable {history front back before : List Event} {event last : Event} {canonical : String}

/-- Whatever found a component is followed by something that drops it. -/
def Unloaded (history : List Event) (canonical : String) : Prop :=
  ∀ front event back, history = front ++ event :: back → event.Finds canonical →
    ∃ later ∈ back, later.Drops canonical

/-- A component is found right after `before`, for the first time since it was dropped last, and not
dropped any more. -/
def LoadedAfter (history before : List Event) (canonical : String) : Prop :=
  Unloaded before canonical ∧ ∃ event after, history = before ++ event :: after ∧
    event.Finds canonical ∧ ∀ later ∈ after, ¬ later.Drops canonical

/-- The files after a history. -/
def files (start : Tree) (history : List Event) : Tree :=
  history.foldl (fun files event => match event with
    | .edited new => new
    | _ => files) start

theorem snoc_eq_append_cons (h : history ++ [last] = front ++ event :: back) :
    (back = [] ∧ history = front ∧ last = event) ∨
      ∃ rest, back = rest ++ [last] ∧ history = front ++ event :: rest := by
  rcases List.eq_nil_or_concat back with rfl | ⟨rest, other, rfl⟩
  · obtain ⟨hfront, hlast⟩ := List.append_inj' h rfl
    exact .inl ⟨rfl, hfront, List.singleton_inj.1 hlast⟩
  · rw [List.concat_eq_append, ← List.cons_append, ← List.append_assoc] at h
    obtain ⟨hfront, hlast⟩ := List.append_inj' h rfl
    obtain rfl : last = other := List.singleton_inj.1 hlast
    exact .inr ⟨rest, by rw [List.concat_eq_append], hfront⟩

theorem unloaded_nil (canonical : String) : Unloaded [] canonical := by
  intro front event back h
  cases front <;> cases h

/-- After it was dropped, a component is not loaded. -/
theorem unloaded_of_drops (h : last.Drops canonical) : Unloaded (history ++ [last]) canonical := by
  intro front event back hsplit hfinds
  rcases snoc_eq_append_cons hsplit with ⟨-, -, rfl⟩ | ⟨rest, rfl, -⟩
  · exact absurd hfinds h.not_finds
  · exact ⟨last, List.mem_append_right _ (List.mem_singleton_self last), h⟩

/-- It stays so until it is found. -/
theorem Unloaded.snoc (h : Unloaded history canonical) (hlast : ¬ last.Finds canonical) :
    Unloaded (history ++ [last]) canonical := by
  intro front event back hsplit hfinds
  rcases snoc_eq_append_cons hsplit with ⟨-, -, rfl⟩ | ⟨rest, rfl, hrest⟩
  · exact absurd hfinds hlast
  · obtain ⟨later, hlater, hdrops⟩ := h front event rest hrest hfinds
    exact ⟨later, List.mem_append_left _ hlater, hdrops⟩

/-- What finds it then loads it. -/
theorem Unloaded.loadedAfter (h : Unloaded history canonical) (hlast : last.Finds canonical) :
    LoadedAfter (history ++ [last]) history canonical :=
  ⟨h, last, [], rfl, hlast, nofun⟩

/-- A loaded component stays so until it is dropped. -/
theorem LoadedAfter.snoc (h : LoadedAfter history before canonical)
    (hlast : ¬ last.Drops canonical) : LoadedAfter (history ++ [last]) before canonical := by
  obtain ⟨hbefore, event, after, rfl, hfinds, hafter⟩ := h
  refine ⟨hbefore, event, after ++ [last], by simp, hfinds, fun later hlater => ?_⟩
  rcases List.mem_append.1 hlater with hlater | hlater
  · exact hafter later hlater
  · rw [List.mem_singleton.1 hlater]
    exact hlast

theorem LoadedAfter.not_unloaded (h : LoadedAfter history before canonical) :
    ¬ Unloaded history canonical := by
  obtain ⟨-, event, after, hsplit, hfinds, hafter⟩ := h
  intro hunloaded
  obtain ⟨later, hlater, hdrops⟩ := hunloaded before event after hsplit hfinds
  exact hafter later hlater hdrops

/-- There is one time at which a component that is loaded was loaded. -/
theorem LoadedAfter.unique {other : List Event} (h : LoadedAfter history before canonical)
    (h' : LoadedAfter history other canonical) : before = other := by
  -- a component that was found between the two times would have been dropped before the later one
  have apart : ∀ {before other : List Event}, LoadedAfter history before canonical →
      LoadedAfter history other canonical → ∀ between, other = before ++ between →
      between = [] := by
    rintro before other ⟨-, event, after, hsplit, hfinds, hafter⟩
      ⟨hother, event', after', hsplit', -, -⟩ between rfl
    rw [hsplit, List.append_assoc] at hsplit'
    have hrest := List.append_cancel_left hsplit'
    cases between with
    | nil => rfl
    | cons first between =>
      obtain ⟨rfl, rfl⟩ := List.cons.inj hrest
      obtain ⟨later, hlater, hdrops⟩ := hother before event between rfl hfinds
      exact absurd hdrops (hafter later (List.mem_append_left _ hlater))
  have hsplit : ∃ after after', before ++ after = other ++ after' := by
    obtain ⟨-, event, after, hsplit, -⟩ := h
    obtain ⟨-, event', after', hsplit', -⟩ := h'
    exact ⟨_, _, hsplit.symm.trans hsplit'⟩
  obtain ⟨after, after', hsplit⟩ := hsplit
  rcases List.append_eq_append_iff.1 hsplit with ⟨between, heq, -⟩ | ⟨between, heq, -⟩
  · rw [heq, apart h h' between heq, List.append_nil]
  · rw [heq, apart h' h between heq, List.append_nil]

end History

open History

namespace Catalog

variable {catalog : Catalog} {history : List Event} {cache cache' : Cache} {event : Event}
  {name canonical : String}

/-- The catalog of the files after a history. -/
def after (catalog : Catalog) (history : List Event) : Catalog :=
  { catalog with files := History.files catalog.files history }

@[simp] theorem after_nil (catalog : Catalog) : catalog.after [] = catalog := rfl

@[simp] theorem after_edited (catalog : Catalog) (history : List Event) (files : Tree) :
    catalog.after (history ++ [.edited files]) = { catalog with files } := by
  simp [after, History.files]

@[simp] theorem after_looked (catalog : Catalog) (history : List Event) (lookups : List Lookup) :
    catalog.after (history ++ lookups.map .looked) = catalog.after history := by
  induction lookups generalizing history with
  | nil => simp
  | cons lookup lookups ih =>
    have hone : catalog.after (history ++ [.looked lookup]) = catalog.after history := by
      simp [after, History.files]
    rw [List.map_cons, List.append_cons, ih, hone]

@[simp] theorem after_invalidated (catalog : Catalog) (history : List Event) (name : String) :
    catalog.after (history ++ [.invalidated name]) = catalog.after history := by
  simp [after, History.files]

@[simp] theorem after_cleared (catalog : Catalog) (history : List Event) :
    catalog.after (history ++ [.cleared]) = catalog.after history := by
  simp [after, History.files]

/-! ## What a lookup answers -/

/-- What the lookup of a name answers after a history: nothing for a name that cannot resolve; the
component that the files gave when it was loaded, if it is; and else what the files give. -/
inductive Answers (catalog : Catalog) (history : List Event) (name : String) :
    Except ComponentError (Option Definition) → Prop where
  | unnamed (hname : canonicalName? name = none) : Answers catalog history name (.ok none)
  | loaded {canonical : String} {before : List Event} {definition : Definition}
    (hname : canonicalName? name = some canonical)
    (hloaded : LoadedAfter history before canonical)
    (hfetch : (catalog.after before).fetch canonical = .ok (some definition)) :
    Answers catalog history name (.ok (some definition))
  | current {canonical : String} (hname : canonicalName? name = some canonical)
    (hunloaded : Unloaded history canonical) :
    Answers catalog history name ((catalog.after history).fetch canonical)

/-- There is one answer. -/
theorem Answers.unique {found found' : Except ComponentError (Option Definition)}
    (h : catalog.Answers history name found) (h' : catalog.Answers history name found') :
    found = found' := by
  cases h with
  | unnamed hname =>
    cases h' with
    | unnamed => rfl
    | loaded hname' | current hname' => cases hname.symm.trans hname'
  | loaded hname hloaded hfetch =>
    cases h' with
    | unnamed hname' => cases hname.symm.trans hname'
    | loaded hname' hloaded' hfetch' =>
      cases hname.symm.trans hname'
      cases hloaded.unique hloaded'
      exact hfetch.symm.trans hfetch'
    | current hname' hunloaded =>
      cases hname.symm.trans hname'
      exact absurd hunloaded hloaded.not_unloaded
  | current hname hunloaded =>
    cases h' with
    | unnamed hname' => cases hname.symm.trans hname'
    | loaded hname' hloaded =>
      cases hname.symm.trans hname'
      exact absurd hunloaded hloaded.not_unloaded
    | current hname' =>
      cases hname.symm.trans hname'
      rfl

/-! ## The cache as the record of a history -/

/-- A component has the name under which it is fetched. -/
theorem name_of_fetch {definition : Definition}
    (h : catalog.fetch canonical = .ok (some definition)) : definition.name = canonical := by
  unfold fetch load at h
  split at h
  · next path _ =>
    cases hsource : catalog.files.read path with
    | error fault => rw [hsource] at h; cases h
    | ok source =>
    cases hdeclaration : Declaration.ofSource source.toList with
    | error e => rw [mapError_bind_ok hsource, hdeclaration] at h; cases h
    | ok declaration =>
    cases htemplate : Template.compile catalog.tags path source with
    | error e =>
      rw [mapError_bind_ok hsource, mapError_bind_ok hdeclaration, htemplate] at h
      cases h
    | ok template =>
      rw [mapError_bind_ok hsource, mapError_bind_ok hdeclaration, mapError_bind_ok htemplate] at h
      cases h
      rfl
  · cases h

/-- A cache holds what a history loaded, each component once and under its name, and every lookup in
the history was answered by what was before it. -/
structure Records (catalog : Catalog) (history : List Event) (cache : Cache) : Prop where
  unloaded : ∀ canonical, cache.get? canonical = none → Unloaded history canonical
  loaded : ∀ canonical definition, cache.get? canonical = some definition →
    canonicalName? canonical = some canonical ∧ ∃ before, LoadedAfter history before canonical ∧
      (catalog.after before).fetch canonical = .ok (some definition)
  nodup : cache.keys.Nodup
  answered : ∀ front lookup back, history = front ++ .looked lookup :: back →
    catalog.Answers front lookup.name lookup.found

theorem records_nil (catalog : Catalog) : catalog.Records [] [] where
  unloaded canonical _ := unloaded_nil canonical
  loaded _ _ h := nomatch h
  nodup := List.nodup_nil
  answered front _ _ h := by cases front <;> cases h

namespace Records

/-- With the record of a history, a lookup answers what the history says. -/
theorem answers (h : catalog.Records history cache) (name : String) :
    catalog.Answers history name ((catalog.after history).lookup cache name).1 := by
  unfold Catalog.lookup
  cases hname : canonicalName? name with
  | none => exact .unnamed hname
  | some canonical =>
    dsimp only
    cases hheld : Entries.get? canonical cache with
    | some definition =>
      obtain ⟨-, before, hloaded, hfetch⟩ := h.loaded canonical definition hheld
      exact .loaded hname hloaded hfetch
    | none =>
      have hcurrent : catalog.Answers history name ((catalog.after history).fetch canonical) :=
        .current hname (h.unloaded canonical hheld)
      cases hfetch : (catalog.after history).fetch canonical with
      | error e => rwa [hfetch] at hcurrent
      | ok found => cases found <;> rwa [hfetch] at hcurrent

/-- One more event is recorded if what is not held any more was dropped, and what is held from then
on was found. -/
theorem step (h : catalog.Records history cache)
    (hunloaded : ∀ canonical, cache'.get? canonical = none →
      event.Drops canonical ∨ cache.get? canonical = none ∧ ¬ event.Finds canonical)
    (hloaded : ∀ canonical definition, cache'.get? canonical = some definition →
      cache.get? canonical = some definition ∧ ¬ event.Drops canonical ∨
      cache.get? canonical = none ∧ event.Finds canonical ∧
        canonicalName? canonical = some canonical ∧
        (catalog.after history).fetch canonical = .ok (some definition))
    (hnodup : cache'.keys.Nodup)
    (hanswer : ∀ lookup, event = .looked lookup →
      catalog.Answers history lookup.name lookup.found) :
    catalog.Records (history ++ [event]) cache' where
  unloaded canonical hnone := by
    rcases hunloaded canonical hnone with hdrops | ⟨hfree, hfinds⟩
    · exact unloaded_of_drops hdrops
    · exact (h.unloaded canonical hfree).snoc hfinds
  loaded canonical definition hsome := by
    rcases hloaded canonical definition hsome with ⟨hheld, hdrops⟩ | ⟨hfree, hfinds, hname, hfetch⟩
    · obtain ⟨hname, before, hbefore, hfetch⟩ := h.loaded canonical definition hheld
      exact ⟨hname, before, hbefore.snoc hdrops, hfetch⟩
    · exact ⟨hname, history, (h.unloaded canonical hfree).loadedAfter hfinds, hfetch⟩
  nodup := hnodup
  answered front lookup back hsplit := by
    rcases snoc_eq_append_cons hsplit with ⟨-, rfl, rfl⟩ | ⟨rest, -, hrest⟩
    · exact hanswer lookup rfl
    · exact h.answered front lookup rest hrest

/-- A lookup is recorded: it holds what it loads. -/
theorem looked (h : catalog.Records history cache) (name : String) :
    let catalog' := catalog.after history
    catalog.Records (history ++ [.looked (catalog'.asked cache name)])
      (catalog'.lookup cache name).2 := by
  intro catalog'
  have hanswer : ∀ lookup, Event.looked (catalog'.asked cache name) = .looked lookup →
      catalog.Answers history lookup.name lookup.found := by
    intro lookup heq
    rw [← Event.looked.inj heq]
    exact h.answers name
  rcases catalog'.lookup_cases cache name with
    ⟨canonical, definition, hname, hheld, hl⟩ |
    ⟨canonical, definition, hname, hfree, hfetch, hl⟩ | ⟨hnothing, hl⟩
  · rw [hl]
    refine h.step (fun other hnone => .inr ⟨hnone, ?_⟩)
      (fun other held hother => .inl ⟨hother, id⟩) h.nodup hanswer
    rintro ⟨hother, -⟩
    cases hname.symm.trans hother
    cases hheld.symm.trans hnone
  · rw [hl]
    have hfound : (catalog'.asked cache name).found = .ok (some definition) := by
      rw [asked, hl]
    refine h.step (fun other hnone => .inr ?_) (fun other held hother => ?_) ?_ hanswer
    · rw [Entries.get?_insert] at hnone
      split at hnone
      · cases hnone
      · next hne =>
        refine ⟨hnone, fun hfinds => hne ?_⟩
        exact Option.some.inj (hname.symm.trans hfinds.1)
    · rw [Entries.get?_insert] at hother
      split at hother
      · next heq =>
        subst heq
        cases hother
        exact .inr ⟨hfree, ⟨hname, definition, hfound⟩, canonicalName?_canonical hname, hfetch⟩
      · exact .inl ⟨hother, id⟩
    · have hnew : canonical ∉ cache.keys := by
        rw [Entries.mem_keys_iff]
        rintro ⟨held, hheld⟩
        cases hfree.symm.trans hheld
      rw [Entries.keys_insert_of_free hfree]
      simpa [List.nodup_append] using ⟨h.nodup, fun key hkey heq => hnew (heq ▸ hkey)⟩
  · rw [hl]
    refine h.step (fun other hnone => .inr ⟨hnone, ?_⟩)
      (fun other held hother => .inl ⟨hother, id⟩) h.nodup hanswer
    rintro ⟨-, definition, hfound⟩
    rw [asked, hl] at hfound
    exact hnothing definition hfound

/-- So are lookups one after the other. -/
theorem leads (h : catalog.Records history cache) {lookups : List Lookup}
    (hleads : (catalog.after history).Leads cache lookups cache') :
    catalog.Records (history ++ lookups.map .looked) cache' := by
  generalize hcurrent : catalog.after history = current at hleads
  induction hleads generalizing history with
  | nil => simpa using h
  | @cons cache cache' name lookups hleads ih =>
    subst hcurrent
    have hsame := catalog.after_looked history [(catalog.after history).asked cache name]
    simpa using ih (h.looked name) hsame

/-- Dropping a component is recorded. -/
theorem invalidated (h : catalog.Records history cache) (name : String) :
    catalog.Records (history ++ [.invalidated name]) (cache.invalidate name) := by
  unfold Cache.invalidate
  cases hname : canonicalName? name with
  | none =>
    refine h.step (fun other hnone => .inr ⟨hnone, id⟩) (fun other held hother => .inl ⟨hother, ?_⟩)
      h.nodup nofun
    intro hdrops
    cases hname.symm.trans hdrops
  | some canonical =>
    refine h.step (fun other hnone => ?_) (fun other held hother => .inl ?_) ?_ nofun
    · rw [Entries.get?_erase] at hnone
      split at hnone
      · next heq => exact .inl (heq ▸ hname)
      · exact .inr ⟨hnone, id⟩
    · rw [Entries.get?_erase] at hother
      split at hother
      · cases hother
      · next hne =>
        exact ⟨hother, fun hdrops => hne (Option.some.inj (hname.symm.trans hdrops))⟩
    · exact h.nodup.sublist (List.filter_sublist.map Prod.fst)

theorem cleared (h : catalog.Records history cache) :
    catalog.Records (history ++ [.cleared]) [] :=
  h.step (fun _ _ => .inl trivial) (fun _ _ hother => nomatch hother) List.nodup_nil nofun

theorem edited (h : catalog.Records history cache) (files : Tree) :
    catalog.Records (history ++ [.edited files]) cache :=
  h.step (fun _ hnone => .inr ⟨hnone, id⟩) (fun _ _ hother => .inl ⟨hother, id⟩) h.nodup nofun

/-- There are as many entries as names that are loaded. -/
theorem length_eq (h : catalog.Records history cache) :
    cache.length = {canonical | ∃ before, LoadedAfter history before canonical}.ncard := by
  have hkeys : {canonical | ∃ before, LoadedAfter history before canonical} =
      ((Entries.keys cache).toFinset : Set String) := by
    ext canonical
    rw [List.coe_toFinset, Set.mem_ofPred_eq, Set.mem_ofPred_eq, Entries.mem_keys_iff]
    constructor
    · rintro ⟨before, hbefore⟩
      cases hheld : Entries.get? canonical cache with
      | none => exact absurd (h.unloaded canonical hheld) hbefore.not_unloaded
      | some definition => exact ⟨definition, rfl⟩
    · rintro ⟨definition, hheld⟩
      obtain ⟨-, before, hbefore, -⟩ := h.loaded canonical definition hheld
      exact ⟨before, hbefore⟩
  rw [hkeys, Set.ncard_coe_finset, List.toFinset_card_of_nodup h.nodup, Entries.keys,
    List.length_map]

/-- Every entry has a canonical key, and its component that name. -/
theorem canonical_of_mem (h : catalog.Records history cache) {entry : String × Definition}
    (hentry : entry ∈ cache) :
    canonicalName? entry.1 = some entry.1 ∧ entry.2.name = entry.1 := by
  have hheld : cache.get? entry.1 = some entry.2 := Entries.get?_of_nodup h.nodup hentry
  obtain ⟨hname, before, -, hfetch⟩ := h.loaded entry.1 entry.2 hheld
  exact ⟨hname, name_of_fetch hfetch⟩

end Records

/-- A lookup that finds no component leaves the cache as it is. -/
theorem lookup_of_not_found (h : ∀ definition, (catalog.lookup cache name).1 ≠ .ok (some definition)) :
    (catalog.lookup cache name).2 = cache := by
  rcases lookup_cases catalog cache name with
    ⟨_, _, _, _, hl⟩ | ⟨_, definition, _, _, _, hl⟩ | ⟨_, hl⟩
  · rw [hl]
  · rw [hl] at h
    exact absurd rfl (h definition)
  · rw [hl]

end Catalog

/-- Dropping a component takes away the entries of its name and no others. -/
theorem Cache.invalidate_eq (cache : Cache) (name : String) :
    cache.invalidate name = cache.filter fun entry => canonicalName? name ≠ some entry.1 := by
  unfold Cache.invalidate
  cases canonicalName? name with
  | none => simp
  | some canonical =>
    refine List.filter_congr fun entry _ => ?_
    simp [eq_comm]

theorem Cache.holds_iff (cache : Cache) (name : String) :
    cache.holds name = true ↔ ∃ entry ∈ cache, canonicalName? name = some entry.1 := by
  unfold Cache.holds Entries.has
  cases canonicalName? name with
  | none => simp
  | some canonical =>
    constructor
    · intro h
      obtain ⟨definition, hheld⟩ := Option.isSome_iff_exists.1 h
      exact ⟨_, Entries.mem_of_get? hheld, rfl⟩
    · rintro ⟨entry, hentry, heq⟩
      obtain ⟨definition, hheld⟩ := Entries.get?_of_mem hentry
      cases heq
      exact Option.isSome_iff_exists.2 ⟨definition, hheld⟩

/-! ## Sessions -/

/-- Lookups of names one after the other, up to the first error. -/
def Catalog.lookupsAll (catalog : Catalog) : List String → Cache → List Lookup
  | [], _ => []
  | name :: names, cache =>
    catalog.asked cache name ::
      match catalog.lookup cache name with
      | (.ok _, cache) => catalog.lookupsAll names cache
      | (.error _, _) => []

/-- The lookups of a template that is compiled under a name and rendered. -/
def Environment.sourceLookups (env : Environment) (name source : String) (vars : Entries Value)
    (cache : Cache) : List Lookup :=
  match env.compile name source with
  | .ok template =>
    env.lookups (renderNodes env template.nodes) (.start (env.globals.extend vars) cache)
  | .error _ => []

/-- The lookups of a template in a file. -/
def Environment.fileLookups (env : Environment) (path : Path) (vars : Entries Value)
    (cache : Cache) : List Lookup :=
  match env.files.read path with
  | .ok source => env.sourceLookups path source vars cache
  | .error _ => []

/-- The lookups that a query makes. -/
def Query.lookups (env : Environment) (cache : Cache) : Query → List Lookup
  | .component name => [env.catalog.asked cache name]
  | .hasComponent name => [env.catalog.asked cache name]
  | .props name => [env.catalog.asked cache name]
  | .slots name => [env.catalog.asked cache name]
  | .preload => env.catalog.lookupsAll env.catalog.names cache
  | .compile _ _ => []
  | .render invocation => env.lookups (Render.invoke invocation) (.start [] cache)
  | .renderText source vars => env.sourceLookups Environment.textName source vars cache
  | .renderFile path vars => env.fileLookups path vars cache

theorem Catalog.leads_lookupAll (catalog : Catalog) (names : List String) (cache : Cache) :
    catalog.Leads cache (catalog.lookupsAll names cache) (catalog.lookupAll names cache).2 := by
  induction names generalizing cache with
  | nil => exact .nil
  | cons name names ih =>
    unfold lookupsAll lookupAll
    refine .cons ?_
    generalize catalog.lookup cache name = outcome
    obtain ⟨e | found, cache'⟩ := outcome
    · exact .nil
    · exact ih cache'

theorem Environment.leads_renderSource (env : Environment) (name source : String)
    (vars : Entries Value) (cache : Cache) :
    env.catalog.Leads cache (env.sourceLookups name source vars cache)
      (env.renderSource name source vars cache).2 := by
  unfold sourceLookups renderSource
  cases env.compile name source with
  | ok template => exact env.leads_runAlone _ _ _
  | error e => exact .nil

theorem Environment.leads_renderFile (env : Environment) (path : Path) (vars : Entries Value)
    (cache : Cache) :
    env.catalog.Leads cache (env.fileLookups path vars cache) (env.renderFile path vars cache).2 := by
  unfold fileLookups renderFile
  cases env.files.read path with
  | ok source => exact env.leads_renderSource _ _ _ _
  | error fault => exact .nil

/-- The lookups of a query lead to the cache that it leaves. -/
theorem Query.leads (env : Environment) (cache : Cache) (query : Query) :
    env.catalog.Leads cache (query.lookups env cache) (query.answer env cache).2 := by
  cases query with
  | component name | props name | slots name => exact .single _ _ _
  | hasComponent name =>
    have hsingle := Catalog.Leads.single env.catalog cache name
    change env.catalog.Leads cache _ (env.catalog.has cache name).2
    unfold Catalog.has
    generalize env.catalog.lookup cache name = outcome at hsingle ⊢
    obtain ⟨e | _ | definition, cache'⟩ := outcome <;> exact hsingle
  | preload =>
    have hall := env.catalog.leads_lookupAll env.catalog.names cache
    change env.catalog.Leads cache _ (env.catalog.preload cache).2
    unfold Catalog.preload
    generalize env.catalog.lookupAll env.catalog.names cache = outcome at hall
    obtain ⟨e | _, cache'⟩ := outcome <;> exact hall
  | compile name source => exact .nil
  | render invocation => exact env.leads_runAlone (Render.invoke invocation) [] cache
  | renderText source vars => exact env.leads_renderSource Environment.textName source vars cache
  | renderFile path vars => exact env.leads_renderFile path vars cache

/-- An environment whose files can change, and what is cached in it. -/
structure Session where
  env : Environment
  cache : Cache

namespace Session

/-- An operation, or a change of the files. -/
inductive Step where
  | perform (operation : Operation)
  | edit (files : Tree)

/-- The session after a step. -/
def next (session : Session) : Step → Session
  | .perform operation =>
    { session with cache := (operation.perform session.env session.cache).2 }
  | .edit files => { session with env := { session.env with files } }

/-- What happens in a step. -/
def events (session : Session) : Step → List Event
  | .perform (.query query) => (query.lookups session.env session.cache).map .looked
  | .perform (.invalidate name) => [.invalidated name]
  | .perform .clear => [.cleared]
  | .edit files => [.edited files]

/-- The session after steps. -/
def after (session : Session) (steps : List Step) : Session := steps.foldl next session

/-- What happens in steps one after the other. -/
def history (session : Session) : List Step → List Event
  | [] => []
  | step :: steps => session.events step ++ history (session.next step) steps

/-- A session in which nothing has been done yet. -/
def start (env : Environment) : Session := ⟨env, []⟩

section
variable {catalog : Catalog} {past : List Event} {session : Session}

/-- A step is recorded in the cache. -/
theorem records_next (hcatalog : session.env.catalog = catalog.after past)
    (h : catalog.Records past session.cache) (step : Step) :
    (session.next step).env.catalog = catalog.after (past ++ session.events step) ∧
      catalog.Records (past ++ session.events step) (session.next step).cache := by
  cases step with
  | perform operation =>
    cases operation with
    | query query =>
      have hleads := query.leads session.env session.cache
      rw [hcatalog] at hleads
      exact ⟨hcatalog.trans (catalog.after_looked past _).symm, h.leads hleads⟩
    | invalidate name =>
      exact ⟨hcatalog.trans (catalog.after_invalidated past name).symm, h.invalidated name⟩
    | clear => exact ⟨hcatalog.trans (catalog.after_cleared past).symm, h.cleared⟩
  | edit files =>
    have hfiles : (session.next (.edit files)).env.catalog =
        { session.env.catalog with files } := rfl
    refine ⟨?_, h.edited files⟩
    rw [hfiles, hcatalog, events, Catalog.after_edited, Catalog.after]

/-- So are all steps of a session. -/
theorem records_after (hcatalog : session.env.catalog = catalog.after past)
    (h : catalog.Records past session.cache) (steps : List Step) :
    (session.after steps).env.catalog = catalog.after (past ++ session.history steps) ∧
      catalog.Records (past ++ session.history steps) (session.after steps).cache := by
  induction steps generalizing session past with
  | nil =>
    rw [history, List.append_nil]
    exact ⟨hcatalog, h⟩
  | cons step steps ih =>
    obtain ⟨hcatalog, h⟩ := records_next hcatalog h step
    rw [history, ← List.append_assoc]
    exact ih hcatalog h

end

/-- What the cache of a session means, whatever was looked up, rendered, dropped and changed in the
files before. The lookups of a query are all that it does to the cache. A lookup that was made, by
itself or in a render, and the next one of any name answer what the history before them says; one
that finds no component leaves the cache as it is. Dropping a component takes away the entry of its
name alone, and tells whether there was one. There are as many entries as components that are
loaded, each under its canonical name. -/
theorem cache_semantics (env : Environment) (steps : List Step) :
    let session := (start env).after steps
    let catalog := session.env.catalog
    let past := (start env).history steps
    (∀ query : Query, catalog.Leads session.cache (query.lookups session.env session.cache)
      (query.answer session.env session.cache).2) ∧
    (∀ front lookup back, past = front ++ .looked lookup :: back →
      ∀ found, lookup.found = found ↔ env.catalog.Answers front lookup.name found) ∧
    (∀ name found, (catalog.lookup session.cache name).1 = found ↔
      env.catalog.Answers past name found) ∧
    (∀ cache name, (∀ definition, (catalog.lookup cache name).1 ≠ .ok (some definition)) →
      (catalog.lookup cache name).2 = cache) ∧
    (∀ name, ∃ held, Operation.perform session.env session.cache (.invalidate name) =
        (.flag held, session.cache.filter fun entry => canonicalName? name ≠ some entry.1) ∧
      (held = true ↔ ∃ entry ∈ session.cache, canonicalName? name = some entry.1)) ∧
    (session.cache.keys.Nodup ∧
      session.cache.length = {canonical | ∃ before, LoadedAfter past before canonical}.ncard) ∧
    ∀ entry ∈ session.cache, canonicalName? entry.1 = some entry.1 ∧ entry.2.name = entry.1 := by
  intro session catalog past
  obtain ⟨hcatalog, hrecords⟩ : catalog = env.catalog.after past ∧
      env.catalog.Records past session.cache := by
    have hstart : (start env).env.catalog = env.catalog.after [] := rfl
    exact records_after hstart (Catalog.records_nil _) steps
  refine ⟨fun query => query.leads _ _, fun front lookup back hpast found => ?_,
    fun name found => ?_, fun cache name => Catalog.lookup_of_not_found, fun name => ?_,
    ⟨hrecords.nodup, hrecords.length_eq⟩, fun entry => hrecords.canonical_of_mem⟩
  · have hanswered := hrecords.answered front lookup back hpast
    exact ⟨fun h => h ▸ hanswered, hanswered.unique⟩
  · have hanswers := hrecords.answers name
    rw [← hcatalog] at hanswers
    exact ⟨fun h => h ▸ hanswers, hanswers.unique⟩
  · refine ⟨session.cache.holds name, ?_, session.cache.holds_iff name⟩
    rw [Operation.perform, Cache.invalidate_eq]

/-- The files of one component, a card that is a text. -/
def cardFiles (text : String) : Tree := .ofFiles [("components/card.tpl", .file (.text text))]

/-- An environment with a card and the settings as they are by default. -/
def cards (text : String) : Environment where
  config := {}
  tags := Environment.componentTags {}
  functions := Entries.ofList (TemplateFunction.builtIns {})
  globals := []
  files := cardFiles text

theorem fetch_oldCard : (cards "old").catalog.fetch "card" =
    .ok (some (Catalog.textDefinition "card" "components/card.tpl" "old")) :=
  Catalog.fetch_eq (by decide +kernel) rfl (by cbv) (by cbv)

theorem fetch_newCard : (cards "new").catalog.fetch "card" =
    .ok (some (Catalog.textDefinition "card" "components/card.tpl" "new")) :=
  Catalog.fetch_eq (by decide +kernel) rfl (by cbv) (by cbv)

/-- A card that was looked up before its file changed is found as it was, under another spelling as
well, and as it is once it is dropped. -/
theorem cache_semantics_card :
    let steps := [.perform (.query (.component "card")), .edit (cardFiles "new")]
    let edited := (start (cards "old")).after steps
    let dropped := (start (cards "old")).after (steps ++ [.perform (.invalidate " card ")])
    (edited.env.catalog.lookup edited.cache " card ").1 =
        .ok (some (Catalog.textDefinition "card" "components/card.tpl" "old")) ∧
      (dropped.env.catalog.lookup dropped.cache "card").1 =
        .ok (some (Catalog.textDefinition "card" "components/card.tpl" "new")) := by
  intro steps edited dropped
  have hcard : canonicalName? "card" = some "card" := by decide
  have hspaced : canonicalName? " card " = some "card" := by decide
  have hasked : (cards "old").catalog.asked [] "card" =
      ⟨"card", .ok (some (Catalog.textDefinition "card" "components/card.tpl" "old"))⟩ := by
    simp [Catalog.asked, Catalog.lookup, hcard, fetch_oldCard]
  have hpast : (start (cards "old")).history steps =
      [.looked ((cards "old").catalog.asked [] "card"), .edited (cardFiles "new")] := rfl
  obtain ⟨-, -, hanswers, -⟩ := cache_semantics (cards "old") steps
  obtain ⟨-, -, hanswersNow, -⟩ :=
    cache_semantics (cards "old") (steps ++ [.perform (.invalidate " card ")])
  refine ⟨(hanswers " card " _).2 ?_, (hanswersNow "card" _).2 ?_⟩
  · have hloaded : LoadedAfter ((start (cards "old")).history steps) [] "card" := by
      refine ⟨unloaded_nil _, _, _, hpast, ?_, ?_⟩
      · rw [hasked]
        exact ⟨hcard, _, rfl⟩
      · intro later hlater
        rw [List.mem_singleton.1 hlater]
        exact id
    exact .loaded hspaced hloaded fetch_oldCard
  · let past := (start (cards "old")).history steps ++ [.invalidated " card "]
    have hunloaded : Unloaded past "card" := unloaded_of_drops hspaced
    have hcurrent : (cards "old").catalog.Answers past "card"
        (((cards "old").catalog.after past).fetch "card") := .current hcard hunloaded
    have hfetch : ((cards "old").catalog.after past).fetch "card" = _ := fetch_newCard
    rwa [hfetch] at hcurrent

end Session

end SlotTemplates
