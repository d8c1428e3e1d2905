import SlotTemplates.Proofs.Except
import SlotTemplates.Proofs.Toml.Numeral
import SlotTemplates.Component.Header

/-!
# Keys of tables

No table of a document names a key twice (`Toml.readDocument_distinct`), so the props and the slots
of a declaration have distinct names (`Declaration.ofToml_distinct`).

Keys are bound where they are missing, which the functions that build tables check at the end of a
path. The one exception is the table of the header that was read last: it is put back into the place
that was made for it when the header was read. `Table.descend_descend` says that this comes to one
change of the document, which makes the place and fills it (`Draft.Sound`).
-/

namespace SlotTemplates.Toml

/-- The names of the keys of a table. -/
def keyNames (entries : List (Key × Item)) : List String := entries.map fun entry => entry.1.name

/-- No table in an item names a key twice. -/
inductive Item.Distinct : Item → Prop where
  | scalar {span value} : Distinct (.scalar span value)
  | array {span items} (h : ∀ item ∈ items, Distinct item) : Distinct (.array span items)
  | table {info entries} (hkeys : (keyNames entries).Nodup)
      (h : ∀ entry ∈ entries, Distinct entry.2) : Distinct (.table info entries)
  | tables {ts} (hkeys : ∀ t ∈ ts, (keyNames t.2).Nodup)
      (h : ∀ t ∈ ts, ∀ entry ∈ t.2, Distinct entry.2) : Distinct (.tables ts)

/-- Entries with a key each, and no table in them that names a key twice. -/
structure DistinctEntries (entries : List (Key × Item)) : Prop where
  keys : (keyNames entries).Nodup
  items : ∀ entry ∈ entries, entry.2.Distinct

/-! ## Entries -/

section
variable {entries : List (Key × Item)} {name : String} {key : Key} {item old : Item}

theorem findItem?_eq_none_iff : findItem? name entries = none ↔ name ∉ keyNames entries := by
  induction entries with
  | nil => simp [findItem?, keyNames]
  | cons entry entries ih =>
    obtain ⟨key, item⟩ := entry
    by_cases hkey : key.name = name
    · simp [findItem?, keyNames, hkey]
    · have hne : name ≠ key.name := fun heq => hkey heq.symm
      simp only [keyNames] at ih
      simp [findItem?, keyNames, hkey, hne, ih]

theorem mem_of_findItem? (h : findItem? name entries = some item) :
    ∃ entry ∈ entries, entry.2 = item := by
  induction entries with
  | nil => cases h
  | cons entry entries ih =>
    obtain ⟨key, first⟩ := entry
    rw [findItem?] at h
    split at h
    · cases h
      exact ⟨_, List.mem_cons_self, rfl⟩
    · obtain ⟨entry, hmem, heq⟩ := ih h
      exact ⟨entry, List.mem_cons_of_mem _ hmem, heq⟩

theorem findItem?_append (h : findItem? key.name entries = none) :
    findItem? key.name (entries ++ [(key, item)]) = some item := by
  induction entries with
  | nil => simp [findItem?]
  | cons entry entries ih =>
    obtain ⟨other, first⟩ := entry
    rw [findItem?] at h
    split at h
    · cases h
    · next hkey =>
      rw [List.cons_append, findItem?, if_neg hkey]
      exact ih h

theorem findItem?_replaceItem (h : findItem? name entries = some old) :
    findItem? name (replaceItem name item entries) = some item := by
  induction entries with
  | nil => cases h
  | cons entry entries ih =>
    obtain ⟨key, first⟩ := entry
    rw [findItem?] at h
    rw [replaceItem]
    split at h
    · next hkey => rw [if_pos hkey, findItem?, if_pos hkey]
    · next hkey =>
      rw [if_neg hkey, findItem?, if_neg hkey]
      exact ih h

theorem replaceItem_append (h : findItem? key.name entries = none) :
    replaceItem key.name item (entries ++ [(key, old)]) = entries ++ [(key, item)] := by
  induction entries with
  | nil => simp [replaceItem]
  | cons entry entries ih =>
    obtain ⟨other, first⟩ := entry
    rw [findItem?] at h
    split at h
    · cases h
    · next hkey => rw [List.cons_append, replaceItem, if_neg hkey, ih h, List.cons_append]

theorem replaceItem_replaceItem :
    replaceItem name item (replaceItem name old entries) = replaceItem name item entries := by
  induction entries with
  | nil => rfl
  | cons entry entries ih =>
    obtain ⟨key, first⟩ := entry
    rw [replaceItem]
    split
    · next hkey => rw [replaceItem, if_pos hkey, replaceItem, if_pos hkey]
    · next hkey => rw [replaceItem, if_neg hkey, ih, replaceItem, if_neg hkey]

theorem keyNames_replaceItem : keyNames (replaceItem name item entries) = keyNames entries := by
  induction entries with
  | nil => rfl
  | cons entry entries ih =>
    obtain ⟨key, first⟩ := entry
    unfold keyNames at ih ⊢
    rw [replaceItem]
    split
    · rfl
    · rw [List.map_cons, List.map_cons, ih]

theorem mem_replaceItem {entry : Key × Item} (h : entry ∈ replaceItem name item entries) :
    entry ∈ entries ∨ entry.2 = item := by
  induction entries with
  | nil => cases h
  | cons first entries ih =>
    obtain ⟨key, other⟩ := first
    rw [replaceItem] at h
    split at h
    · rcases List.mem_cons.1 h with rfl | h
      · exact .inr rfl
      · exact .inl (List.mem_cons_of_mem _ h)
    · rcases List.mem_cons.1 h with rfl | h
      · exact .inl List.mem_cons_self
      · exact (ih h).imp_left (List.mem_cons_of_mem _)

namespace DistinctEntries

theorem nil : DistinctEntries [] := ⟨.nil, nofun⟩

theorem find (h : DistinctEntries entries) (hfind : findItem? name entries = some item) :
    item.Distinct := by
  obtain ⟨entry, hmem, rfl⟩ := mem_of_findItem? hfind
  exact h.items entry hmem

theorem append (h : DistinctEntries entries) (hfind : findItem? key.name entries = none)
    (hitem : item.Distinct) : DistinctEntries (entries ++ [(key, item)]) where
  keys := by
    have hnew : ∀ name ∈ keyNames entries, name ≠ key.name := by
      rintro name hmem rfl
      exact findItem?_eq_none_iff.1 hfind hmem
    unfold keyNames at hnew ⊢
    rw [List.map_append]
    exact List.nodup_append.2 ⟨h.keys, List.nodup_singleton _, by simpa using hnew⟩
  items := List.forall_mem_append.2 ⟨h.items, List.forall_mem_singleton.2 hitem⟩

theorem replace (h : DistinctEntries entries) (hitem : item.Distinct) :
    DistinctEntries (replaceItem name item entries) where
  keys := by
    rw [keyNames_replaceItem]
    exact h.keys
  items := by
    intro entry hmem
    rcases mem_replaceItem hmem with hmem | heq
    · exact h.items entry hmem
    · rw [heq]
      exact hitem

theorem remove (h : DistinctEntries entries) : DistinctEntries (removeItem name entries) where
  keys := h.keys.sublist (List.filter_sublist.map _)
  items := fun entry hmem => h.items entry (List.mem_filter.1 hmem).1

theorem table (h : DistinctEntries entries) (info : TableInfo) : (Item.table info entries).Distinct :=
  .table h.keys h.items

end DistinctEntries

theorem findItem?_removeItem : findItem? name (removeItem name entries) = none := by
  rw [findItem?_eq_none_iff]
  intro hmem
  obtain ⟨entry, hentry, heq⟩ := List.mem_map.1 hmem
  simpa [heq] using (List.mem_filter.1 hentry).2

theorem Item.Distinct.of_table {info : TableInfo} (h : (Item.table info entries).Distinct) :
    DistinctEntries entries := by
  cases h with
  | table hkeys hitems => exact ⟨hkeys, hitems⟩

theorem Item.Distinct.of_mem_tables {ts : List Table} {t : Table} (h : (Item.tables ts).Distinct)
    (ht : t ∈ ts) : DistinctEntries t.2 := by
  cases h with
  | tables hkeys hitems => exact ⟨hkeys t ht, hitems t ht⟩

theorem distinct_tables {ts : List Table} (h : ∀ t ∈ ts, DistinctEntries t.2) :
    (Item.tables ts).Distinct :=
  .tables (fun t ht => (h t ht).keys) fun t ht => (h t ht).items

end

/-! ## Paths -/

namespace Table

variable {dotted : Bool} {f g : Table → Option Table} {path : List Key} {t t' : Table}

/-- What is changed at the end of a path leaves the tables on the way as they came to be. -/
theorem descend_info (hf : ∀ u u', f u = some u' → u'.1 = u.1)
    (h : descend dotted f path t = some t') : t'.1 = t.1 := by
  cases path with
  | nil => exact hf t t' h
  | cons key path =>
    obtain ⟨info, entries⟩ := t
    rw [descend] at h
    split at h
    · obtain ⟨⟨i, es⟩, -, heq⟩ := Option.bind_eq_some_iff.1 h
      cases heq
      rfl
    · split at h
      · cases h
      · obtain ⟨⟨i, es⟩, -, heq⟩ := Option.bind_eq_some_iff.1 h
        cases heq
        rfl
    · split at h
      · cases h
      · obtain ⟨u, -, heq⟩ := Option.bind_eq_some_iff.1 h
        cases heq
        rfl
    · cases h

/-- A table that names no key twice is changed into one if the one at the end of the path is. -/
theorem descend_distinct
    (hf : ∀ u u', DistinctEntries u.2 → f u = some u' → DistinctEntries u'.2)
    (ht : DistinctEntries t.2) (h : descend dotted f path t = some t') :
    DistinctEntries t'.2 := by
  induction path generalizing t t' with
  | nil => exact hf t t' ht h
  | cons key path ih =>
    obtain ⟨info, entries⟩ := t
    rw [descend] at h
    split at h
    · next hfind =>
      obtain ⟨⟨i, es⟩, hdescend, heq⟩ := Option.bind_eq_some_iff.1 h
      cases heq
      exact ht.append hfind ((ih .nil hdescend).table i)
    · next i es hfind =>
      split at h
      · cases h
      · obtain ⟨⟨i', es'⟩, hdescend, heq⟩ := Option.bind_eq_some_iff.1 h
        cases heq
        exact ht.replace ((ih (ht.find hfind).of_table hdescend).table i')
    · next ts hfind =>
      split at h
      · cases h
      · next last hlast =>
        obtain ⟨u, hdescend, heq⟩ := Option.bind_eq_some_iff.1 h
        cases heq
        have htables := ht.find hfind
        have hu := ih (htables.of_mem_tables (List.mem_of_getLast? hlast)) hdescend
        refine ht.replace (distinct_tables (List.forall_mem_append.2 ⟨fun v hv => ?_, ?_⟩))
        · exact htables.of_mem_tables (List.dropLast_subset _ hv)
        · exact List.forall_mem_singleton.2 hu
    · cases h

/-- Two changes one after the other at the end of a path are one. -/
theorem descend_descend (hf : ∀ u u', f u = some u' → u'.1 = u.1)
    (h : descend false f path t = some t') :
    descend false g path t' = descend false (fun u => f u >>= g) path t := by
  induction path generalizing t t' with
  | nil =>
    simp only [descend] at h ⊢
    rw [h]
    rfl
  | cons key path ih =>
    obtain ⟨info, entries⟩ := t
    rw [descend] at h
    split at h
    · next hfind =>
      obtain ⟨⟨i, es⟩, hdescend, heq⟩ := Option.bind_eq_some_iff.1 h
      cases heq
      obtain rfl : i = _ := descend_info hf hdescend
      have hnext := ih hdescend
      simp only [implied] at hnext
      rw [descend, descend, findItem?_append hfind, hfind]
      simp [hnext, implied, replaceItem_append hfind]
    · next i es hfind =>
      split at h
      · cases h
      next hbraces =>
      obtain ⟨⟨i', es'⟩, hdescend, heq⟩ := Option.bind_eq_some_iff.1 h
      cases heq
      obtain rfl : i' = i := descend_info hf hdescend
      rw [descend, descend, findItem?_replaceItem hfind, hfind]
      simp [ih hdescend, replaceItem_replaceItem]
    · next ts hfind =>
      split at h
      · cases h
      next last hlast =>
      obtain ⟨u, hdescend, heq⟩ := Option.bind_eq_some_iff.1 h
      cases heq
      rw [descend, descend, findItem?_replaceItem hfind, hfind]
      simp [hlast, ih hdescend, replaceItem_replaceItem]
    · cases h

end Table

section
variable {path : List Key} {key : Key} {value : Item} {t t' : Table}

theorem Table.bind_distinct (ht : DistinctEntries t.2) (hvalue : value.Distinct)
    (h : Table.bind path key value t = some t') : DistinctEntries t'.2 := by
  refine Table.descend_distinct (fun u u' hu hu' => ?_) ht h
  obtain ⟨info, entries⟩ := u
  dsimp only at hu'
  split at hu'
  · cases hu'
  · next hfree =>
    cases hu'
    simp only [not_or, Option.not_isSome_iff_eq_none] at hfree
    exact hu.append hfree.2 hvalue

theorem Table.ofBraces_distinct {span : Span} {entries : List (List Key × Key × Item)}
    (hentries : ∀ entry ∈ entries, entry.2.2.Distinct)
    (h : Table.ofBraces span entries = some t) : DistinctEntries t.2 := by
  unfold Table.ofBraces at h
  have hfirst : DistinctEntries ((⟨some span, true, false, false⟩, []) : Table).2 := .nil
  generalize ((⟨some span, true, false, false⟩, []) : Table) = first at hfirst h
  induction entries generalizing first with
  | nil =>
    cases h
    exact hfirst
  | cons entry entries ih =>
    obtain ⟨hentry, hrest⟩ := List.forall_mem_cons.1 hentries
    rw [List.foldlM_cons] at h
    obtain ⟨next, hnext, h⟩ := Option.bind_eq_some_iff.1 h
    exact ih hrest next (Table.bind_distinct hfirst hentry hnext) h

/-! ## Values -/

/-- Everything that is read as a value, within any number of steps, is distinct. -/
theorem readValue_distinct (total steps : Nat) :
    (∀ {depth s item rest}, readValue total depth steps s = .ok (item, rest) → item.Distinct) ∧
    (∀ {depth s items rest}, readItems total depth steps s = .ok (items, rest) →
      ∀ item ∈ items, item.Distinct) ∧
    ∀ {depth comma s entries rest}, readEntries total depth steps comma s = .ok (entries, rest) →
      ∀ entry ∈ entries, entry.2.2.Distinct := by
  induction steps with
  | zero => exact ⟨nofun, nofun, nofun⟩
  | succ steps ih =>
    obtain ⟨ihvalue, ihitems, ihentries⟩ := ih
    refine ⟨fun {depth s item rest} h => ?_, fun {depth s items rest} h => ?_,
      fun {depth comma s entries rest} h => ?_⟩
    · rw [readValue.eq_def] at h
      dsimp only at h
      split at h
      · split at h
        · cases h
        split at h
        · cases h
        · next hitems =>
          cases h
          exact .array (ihitems hitems)
      · split at h
        · cases h
        split at h
        · cases h
        next hentries =>
        split at h
        · next hbraces =>
          cases h
          exact (Table.ofBraces_distinct (ihentries hentries) hbraces).table _
        · cases h
      · split at h
        · cases h
        · cases h
          exact .scalar
    · rw [readItems.eq_def] at h
      dsimp only at h
      split at h
      · cases h
        exact nofun
      split at h
      · cases h
      next hvalue =>
      have hitem := ihvalue (must_eq_ok_iff.1 hvalue)
      split at h
      · split at h
        · cases h
        · next hitems =>
          cases h
          exact List.forall_mem_cons.2 ⟨hitem, ihitems hitems⟩
      · cases h
        exact List.forall_mem_singleton.2 hitem
      · cases h
    · rw [readEntries.eq_def] at h
      dsimp only at h
      split at h
      · cases h
      · split at h
        · cases h
        · cases h
          exact nofun
        · cases h
      split at h
      · split at h
        · cases h
        next hvalue =>
        have hitem := ihvalue (must_eq_ok_iff.1 hvalue)
        split at h
        · split at h
          · cases h
          · next hentries =>
            cases h
            exact List.forall_mem_cons.2 ⟨hitem, ihentries hentries⟩
        · cases h
          exact List.forall_mem_singleton.2 hitem
        · cases h
      · cases h

end

/-! ## Documents -/

namespace Draft

/-- A document that names no key twice so far, nor when its current table is put in its place,
whatever is bound in that before. -/
structure Sound (d : Draft) : Prop where
  current : DistinctEntries d.current.2
  closes : ∀ current t, DistinctEntries current.2 → { d with current }.close = some t →
    DistinctEntries t.2

variable {d d' : Draft} {path : List Key} {key : Key} {value : Item} {span : Span} {t : Table}

theorem Sound.closed (h : d.Sound) (hclose : d.close = some t) : DistinctEntries t.2 :=
  h.closes d.current t h.current hclose

theorem sound_empty : empty.Sound where
  current := .nil
  closes := by
    intro current t hcurrent h
    cases h
    exact hcurrent

theorem Sound.bind (h : d.Sound) (hvalue : value.Distinct)
    (hbind : d.bind path key value = some d') : d'.Sound := by
  obtain ⟨current, hcurrent, heq⟩ := Option.bind_eq_some_iff.1 hbind
  cases heq
  refine ⟨?_, h.closes⟩
  refine Table.bind_distinct ?_ hvalue hcurrent
  exact h.current

/-- The table at the end of a path is one of a document. -/
theorem itemAt_distinct {entries found : List (Key × Item)} (h : DistinctEntries entries)
    (hfound : openTable.itemAt path entries = some found) : DistinctEntries found := by
  induction path generalizing entries with
  | nil =>
    cases hfound
    exact h
  | cons key path ih =>
    rw [openTable.itemAt] at hfound
    split at hfound
    · next hfind => exact ih (h.find hfind).of_table hfound
    · next ts hfind =>
      obtain ⟨last, hlast, hfound⟩ := Option.bind_eq_some_iff.1 hfound
      exact ih ((h.find hfind).of_mem_tables (List.mem_of_getLast? hlast)) hfound
    · cases hfound

/-- The table of a header takes a place in which there is no table. -/
theorem Sound.openTable (h : d.Sound) (hopen : d.openTable path key span = some d') :
    d'.Sound := by
  obtain ⟨closed, hclosed, hopen⟩ := Option.bind_eq_some_iff.1 hopen
  obtain ⟨root, hroot, heq⟩ := Option.bind_eq_some_iff.1 hopen
  cases heq
  have hdistinct := h.closed hclosed
  refine ⟨?_, fun current t hcurrent hclose => ?_⟩
  · show DistinctEntries ((openTable.itemAt (path ++ [key]) closed.2).getD [])
    cases hkept : openTable.itemAt (path ++ [key]) closed.2 with
    | none => exact .nil
    | some kept => exact itemAt_distinct hdistinct hkept
  · rw [close, List.getLast?_concat, List.dropLast_concat] at hclose
    dsimp only at hclose
    -- making the place and filling it is one change, and nothing else has the name in between
    rw [Table.descend_descend (fun u u' hu => ?_) hroot] at hclose
    · refine Table.descend_distinct (fun u u' hu hu' => ?_) hdistinct hclose
      obtain ⟨info, entries⟩ := u
      obtain ⟨⟨i, free⟩, hfree, hfill⟩ := Option.bind_eq_some_iff.1 hu'
      cases hfill
      dsimp only at hfree
      split at hfree
      · next hfind =>
        cases hfree
        exact hu.append hfind (hcurrent.table _)
      · split at hfree
        · cases hfree
          exact hu.remove.append findItem?_removeItem (hcurrent.table _)
        · cases hfree
      · cases hfree
    · obtain ⟨info, entries⟩ := u
      dsimp only at hu
      split at hu
      · cases hu
        rfl
      · split at hu
        · cases hu
          rfl
        · cases hu
      · cases hu

/-- The list of a header has its tables at the place of the header. -/
theorem Sound.openListed (h : d.Sound) (hopen : d.openListed path key span = some d') :
    d'.Sound := by
  obtain ⟨closed, hclosed, hopen⟩ := Option.bind_eq_some_iff.1 hopen
  obtain ⟨root, hroot, heq⟩ := Option.bind_eq_some_iff.1 hopen
  cases heq
  have hdistinct : DistinctEntries root.2 := by
    refine Table.descend_distinct (fun u u' hu hu' => ?_) (h.closed hclosed) hroot
    obtain ⟨info, entries⟩ := u
    dsimp only at hu'
    split at hu'
    · next hfind =>
      cases hu'
      exact hu.append hfind (distinct_tables nofun)
    · cases hu'
      exact hu
    · cases hu'
  refine ⟨.nil, fun current t hcurrent hclose => ?_⟩
  rw [close, List.getLast?_concat, List.dropLast_concat] at hclose
  refine Table.descend_distinct (fun u u' hu hu' => ?_) hdistinct hclose
  obtain ⟨info, entries⟩ := u
  simp only [if_true] at hu'
  split at hu'
  · next ts hfind =>
    cases hu'
    refine hu.replace (distinct_tables (List.forall_mem_append.2 ⟨fun v hv => ?_, ?_⟩))
    · exact (hu.find hfind).of_mem_tables hv
    · exact List.forall_mem_singleton.2 hcurrent
  · cases hu'

end Draft

section
variable {total : Nat} {d d' : Draft} {s rest : List Char}

theorem readHeader_sound (hd : d.Sound) (h : readHeader total d s = .ok (d', rest)) :
    d'.Sound := by
  unfold readHeader at h
  dsimp only at h
  split at h
  · split at h
    · cases h
    split at h
    · split at h
      · cases h
      split at h
      · next hopened =>
        cases h
        exact hd.openListed hopened
      · cases h
    · cases h
  · split at h
    · cases h
    split at h
    · split at h
      · cases h
      split at h
      · next hopened =>
        cases h
        exact hd.openTable hopened
      · cases h
    · cases h
  · cases h

theorem readBinding_sound (hd : d.Sound) (h : readBinding total d s = .ok (d', rest)) :
    d'.Sound := by
  unfold readBinding at h
  split at h
  · cases h
  split at h
  · split at h
    · cases h
    next hvalue =>
    split at h
    · cases h
    split at h
    · next hbind =>
      cases h
      have hitem := (readValue_distinct total _).1 (must_eq_ok_iff.1 hvalue)
      exact hd.bind hitem hbind
    · cases h
  · cases h

theorem readLines_sound {steps : Nat} (hd : d.Sound) (h : readLines total steps d s = .ok d') :
    d'.Sound := by
  induction steps generalizing d s with
  | zero => cases h
  | succ steps ih =>
    rw [readLines] at h
    split at h
    · cases h
      exact hd
    dsimp only at h
    split at h
    · split at h
      · cases h
      · exact ih hd h
    split at h
    · split at h
      · exact ih hd h
      · cases h
    split at h
    · cases h
    next d'' rest hline =>
    refine ih ?_ h
    split at hline
    · exact readHeader_sound hd hline
    · exact readBinding_sound hd hline

/-- No table of a document names a key twice. -/
theorem readDocument_distinct {source : List Char} {t : Table}
    (h : readDocument source = .ok t) : DistinctEntries t.2 := by
  unfold readDocument at h
  dsimp only at h
  split at h
  · cases h
  next d hlines =>
  split at h
  · next hclose =>
    cases h
    exact (readLines_sound Draft.sound_empty hlines).closed hclose
  · cases h

end

/-! ## Declarations -/

theorem map_fst_dataEntries (entries : List (Key × Item)) :
    (Item.dataEntries entries).map Prod.fst = keyNames entries := by
  induction entries with
  | nil => rfl
  | cons entry entries ih =>
    obtain ⟨key, item⟩ := entry
    simpa [Item.dataEntries, keyNames] using ih

/-- What is read as the entries of a table has distinct names. -/
theorem Item.Distinct.nodup_members {item : Item} {entries : List (String × Data)}
    (h : item.Distinct) (hmembers : item.members = .ok entries) :
    (entries.map Prod.fst).Nodup := by
  unfold Item.members at hmembers
  split at hmembers
  · cases hmembers
    rw [map_fst_dataEntries]
    exact h.of_table.keys
  · cases hmembers
    exact List.nodup_singleton _
  · cases hmembers

/-- What holds of a structure without fields, and stays as one is set, holds of what a table
writes. -/
theorem Fields.ofTable_invariant {δ ε α : Type} {fields : Fields δ ε α} {p : α → Prop}
    {entries : List (String × Option Span × δ)} {a : α} (hblank : p fields.blank)
    (hset : ∀ entry ∈ entries, ∀ a b, p a → fields.set a entry.1 entry.2.2 = .ok b → p b)
    (h : fields.ofTable entries = .ok a) : p a := by
  unfold ofTable at h
  generalize fields.blank = first at hblank h
  induction entries generalizing first with
  | nil =>
    cases h
    exact hblank
  | cons entry entries ih =>
    obtain ⟨hentry, hrest⟩ := List.forall_mem_cons.1 hset
    rw [List.foldlM_cons] at h
    obtain ⟨next, hnext, h⟩ := bind_eq_ok_iff.1 h
    dsimp only at hnext
    split at hnext
    · exact ih hrest next (hentry first next hblank hnext) h
    · cases hnext

end SlotTemplates.Toml

namespace SlotTemplates

/-- No two props of a header have one name, and no two slots. -/
structure HeaderShape.Distinct (shape : HeaderShape) : Prop where
  props : (shape.props.map Prod.fst).Nodup
  slots : (shape.slots.map Prod.fst).Nodup

theorem HeaderShape.distinct_of_fields {entries : List (Toml.Key × Toml.Item)}
    {shape : HeaderShape} (hentries : Toml.DistinctEntries entries)
    (h : Toml.Table.fields HeaderShape.fields entries = .ok shape) : shape.Distinct := by
  have hblank : fields.blank.Distinct := ⟨.nil, .nil⟩
  refine Toml.Fields.ofTable_invariant hblank ?_ h
  rintro entry hentry before after ⟨hprops, hslots⟩ hset
  obtain ⟨⟨key, item⟩, hmem, rfl⟩ := List.mem_map.1 hentry
  have hitem := hentries.items _ hmem
  unfold fields at hset
  dsimp only at hset
  split at hset
  · obtain ⟨_, -, rfl⟩ := map_eq_ok_iff.1 hset
    exact ⟨hprops, hslots⟩
  · obtain ⟨_, -, rfl⟩ := map_eq_ok_iff.1 hset
    exact ⟨hprops, hslots⟩
  · obtain ⟨members, hmembers, rfl⟩ := map_eq_ok_iff.1 hset
    exact ⟨hitem.nodup_members hmembers, hslots⟩
  · obtain ⟨members, hmembers, rfl⟩ := map_eq_ok_iff.1 hset
    exact ⟨hprops, hitem.nodup_members hmembers⟩

/-- What is made of the elements of a list has their names. -/
theorem map_name_of_mapM {ε α β : Type} {f : α → Except ε β} {key : α → String}
    {name : β → String} (hf : ∀ a b, f a = .ok b → name b = key a) {as : List α} {bs : List β}
    (h : as.mapM f = .ok bs) : bs.map name = as.map key := by
  induction as generalizing bs with
  | nil =>
    cases h
    rfl
  | cons a as ih =>
    rw [List.mapM_cons] at h
    obtain ⟨b, hb, h⟩ := bind_eq_ok_iff.1 h
    obtain ⟨rest, hrest, h⟩ := bind_eq_ok_iff.1 h
    cases h
    rw [List.map_cons, List.map_cons, hf a b hb, ih hrest]

/-- A prop that is read from data has what the shape of the data has, and its default passes. -/
theorem PropDef.ofData_eq_ok {name : String} {d : Toml.Data} {p : PropDef}
    (h : ofData name d = .ok p) :
    ∃ shape type, d.fields PropShape.fields = .ok shape ∧
      PropType.ofWritten shape.type = .ok type ∧
      p = { name, type, required := shape.required,
            default := shape.default.map Toml.Data.toValue,
            values := shape.values.map fun ds => ds.map Toml.Data.toValue,
            description := shape.description } ∧
      ∀ value, p.default = some value → p.check value = .ok () := by
  obtain ⟨shape, hshape, h⟩ := SlotTemplates.bind_eq_ok_iff.1 h
  obtain ⟨type, htype, h⟩ := SlotTemplates.bind_eq_ok_iff.1 h
  refine ⟨shape, type, mapError_eq_ok_iff.1 hshape, htype, ?_⟩
  dsimp only at h
  split at h
  · next hnone =>
    cases h
    refine ⟨rfl, fun value hvalue => ?_⟩
    cases hnone.symm.trans hvalue
  · next hsome =>
    obtain ⟨_, hchecked, rfl⟩ := map_eq_ok_iff.1 h
    refine ⟨rfl, fun value hvalue => ?_⟩
    cases hsome.symm.trans hvalue
    exact mapError_eq_ok_iff.1 hchecked

theorem PropDef.name_of_ofData {name : String} {d : Toml.Data} {p : PropDef}
    (h : ofData name d = .ok p) : p.name = name := by
  obtain ⟨shape, type, -, -, rfl, -⟩ := ofData_eq_ok h
  rfl

theorem SlotDef.name_of_ofData {name : String} {d : Toml.Data} {slot : SlotDef}
    (h : ofData name d = .ok slot) : slot.name = name := by
  obtain ⟨shape, -, rfl⟩ := map_eq_ok_iff.1 h
  rfl

/-- What a declaration that is read from a header is made of. -/
theorem Declaration.ofToml_eq_ok {header : List Char} {declaration : Declaration}
    (h : ofToml header = .ok declaration) :
    ∃ info entries shape, Toml.readDocument header = .ok (info, entries) ∧
      Toml.Table.fields HeaderShape.fields entries = .ok shape ∧
      (shape.props.mapM fun (name, d) =>
        (PropDef.ofData name d).mapError (DeclarationError.prop name)) = .ok declaration.props ∧
      (shape.slots.mapM fun (name, d) =>
        (SlotDef.ofData name d).mapError (DeclarationError.slot name)) = .ok declaration.slots := by
  unfold ofToml at h
  split at h
  · cases h
  next info entries hread =>
  obtain ⟨shape, hshape, h⟩ := bind_eq_ok_iff.1 h
  obtain ⟨props, hprops, h⟩ := bind_eq_ok_iff.1 h
  obtain ⟨slots, hslots, h⟩ := bind_eq_ok_iff.1 h
  cases h
  exact ⟨info, entries, shape, hread, mapError_eq_ok_iff.1 hshape, hprops, hslots⟩

/-- The declared props and the declared slots have distinct names. -/
theorem Declaration.ofToml_distinct {header : List Char} {declaration : Declaration}
    (h : ofToml header = .ok declaration) :
    (declaration.props.map PropDef.name).Nodup ∧ (declaration.slots.map SlotDef.name).Nodup := by
  obtain ⟨info, entries, shape, hread, hshape, hprops, hslots⟩ := ofToml_eq_ok h
  have hdistinct := HeaderShape.distinct_of_fields (Toml.readDocument_distinct hread) hshape
  have hpropsMap : declaration.props.map PropDef.name = shape.props.map Prod.fst :=
    map_name_of_mapM (fun _ _ h => PropDef.name_of_ofData (mapError_eq_ok_iff.1 h)) hprops
  have hslotsMap : declaration.slots.map SlotDef.name = shape.slots.map Prod.fst :=
    map_name_of_mapM (fun _ _ h => SlotDef.name_of_ofData (mapError_eq_ok_iff.1 h)) hslots
  rw [hpropsMap, hslotsMap]
  exact ⟨hdistinct.props, hdistinct.slots⟩

end SlotTemplates
