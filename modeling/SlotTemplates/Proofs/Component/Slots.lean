import SlotTemplates.Component.Binding
import SlotTemplates.Proofs.Entries

/-!
# What a component's slots are bound to

A slot is filled by the text that is supplied under its name, or else by the default content if it
stands for that; a blank text fills nothing (`fillingOf`). `bindSlots` goes through the declared
slots and writes into the map that it reads from, but what it writes for one of them is no news for
any: the filling of every slot stays what it was (`fillingOf_insertSorted`). So which slot is
refused and what the others are bound to can be told from what was supplied
(`bindSlots_eq_error_iff`, `get?_bindSlots`), and what is bound already is bound to the same again
(`bindSlots_bindSlots`). `bindSlots_contract` puts this together.
-/

namespace SlotTemplates

/-- The text that fills a slot, which is not blank. -/
def fillingOf (isDefault : String → Bool) (content : Option String) (supplied : Entries String)
    (slot : String) : Option String :=
  (suppliedFor supplied slot).or (contentFor isDefault content slot)

/-- Nothing fills a slot: what is supplied under its name is blank, and so is the default content
if the slot stands for it, as far as there are any. -/
structure Unfilled (isDefault : String → Bool) (content : Option String) (supplied : Entries String)
    (slot : String) : Prop where
  supplied : ∀ text, supplied.get? slot = some text → isBlankText text = true
  content : isDefault slot = true → ∀ text, content = some text → isBlankText text = true

/-- A declared slot is required and nothing fills it. -/
structure SlotDef.Lacks (isDefault : String → Bool) (content : Option String)
    (supplied : Entries String) (slot : SlotDef) : Prop where
  required : slot.required = true
  unfilled : Unfilled isDefault content supplied slot.name

/-- The text that a declared slot of a name is to be bound to. -/
inductive SlotText (isDefault : String → Bool) (content : Option String)
    (supplied : Entries String) (slot : String) : String → Prop where
  /-- The supplied text, unless it is blank. -/
  | supplied {text : String} (hsupplied : supplied.get? slot = some text)
    (htext : isBlankText text = false) : SlotText isDefault content supplied slot text
  /-- Else the default content if the slot stands for it, unless it is blank. -/
  | content {text : String}
    (hblank : ∀ text, supplied.get? slot = some text → isBlankText text = true)
    (hdefault : isDefault slot = true) (hcontent : content = some text)
    (htext : isBlankText text = false) : SlotText isDefault content supplied slot text
  /-- Else the empty text. -/
  | empty (h : Unfilled isDefault content supplied slot) :
    SlotText isDefault content supplied slot ""

section
variable {isDefault : String → Bool} {content : Option String} {slots : List SlotDef}
  {supplied bound : Entries String}

/-! ## Fillings -/

theorem suppliedFor_eq_some {slot text : String} :
    suppliedFor supplied slot = some text ↔
      supplied.get? slot = some text ∧ isBlankText text = false := by
  simp [suppliedFor, Option.filter_eq_some_iff]

theorem suppliedFor_eq_none {slot : String} :
    suppliedFor supplied slot = none ↔
      ∀ text, supplied.get? slot = some text → isBlankText text = true := by
  simp [suppliedFor, Option.filter_eq_none_iff]

theorem contentFor_eq_some {slot text : String} :
    contentFor isDefault content slot = some text ↔
      isDefault slot = true ∧ content = some text ∧ isBlankText text = false := by
  unfold contentFor
  cases isDefault slot <;> simp [Option.filter_eq_some_iff]

theorem contentFor_eq_none {slot : String} :
    contentFor isDefault content slot = none ↔
      (isDefault slot = true → ∀ text, content = some text → isBlankText text = true) := by
  unfold contentFor
  cases isDefault slot <;> simp [Option.filter_eq_none_iff]

theorem fillingOf_eq_none_iff {slot : String} :
    fillingOf isDefault content supplied slot = none ↔
      Unfilled isDefault content supplied slot := by
  rw [fillingOf, Option.or_eq_none_iff, suppliedFor_eq_none, contentFor_eq_none]
  exact ⟨fun ⟨hsupplied, hcontent⟩ => ⟨hsupplied, hcontent⟩, fun h => ⟨h.supplied, h.content⟩⟩

theorem not_blank_of_fillingOf {slot text : String}
    (h : fillingOf isDefault content supplied slot = some text) : isBlankText text = false := by
  rcases Option.or_eq_some_iff.1 h with hsupplied | ⟨-, hcontent⟩
  · exact (suppliedFor_eq_some.1 hsupplied).2
  · exact (contentFor_eq_some.1 hcontent).2.2

/-- The text of a slot is its filling, or empty. -/
theorem slotText_fillingOf (slot : String) :
    SlotText isDefault content supplied slot
      ((fillingOf isDefault content supplied slot).getD "") := by
  cases hfilling : fillingOf isDefault content supplied slot with
  | none => exact .empty (fillingOf_eq_none_iff.1 hfilling)
  | some text =>
    rcases Option.or_eq_some_iff.1 hfilling with hsupplied | ⟨hnone, hcontent⟩
    · obtain ⟨hsupplied, htext⟩ := suppliedFor_eq_some.1 hsupplied
      exact .supplied hsupplied htext
    · obtain ⟨hdefault, hcontent, htext⟩ := contentFor_eq_some.1 hcontent
      exact .content (suppliedFor_eq_none.1 hnone) hdefault hcontent htext

theorem SlotDef.lacks_iff {slot : SlotDef} :
    slot.Lacks isDefault content supplied ↔
      slot.required = true ∧ fillingOf isDefault content supplied slot.name = none := by
  rw [fillingOf_eq_none_iff]
  exact ⟨fun h => ⟨h.required, h.unfilled⟩, fun ⟨hrequired, hunfilled⟩ => ⟨hrequired, hunfilled⟩⟩

/-! ## One slot -/

/-- A slot whose filling is inserted has it as its supplied text; nothing counts as blank. -/
theorem suppliedFor_insertSorted_fillingOf (slot : String) :
    suppliedFor (supplied.insertSorted slot
      ((fillingOf isDefault content supplied slot).getD "")) slot =
        fillingOf isDefault content supplied slot := by
  rw [suppliedFor, Entries.get?_insertSorted, if_pos rfl]
  cases h : fillingOf isDefault content supplied slot with
  | none => rfl
  | some text => simp [Option.filter, not_blank_of_fillingOf h]

/-- Inserting the filling of one slot changes the filling of none. -/
theorem fillingOf_insertSorted (slot other : String) :
    fillingOf isDefault content (supplied.insertSorted slot
      ((fillingOf isDefault content supplied slot).getD "")) other =
        fillingOf isDefault content supplied other := by
  by_cases heq : slot = other
  · subst heq
    rw [fillingOf, suppliedFor_insertSorted_fillingOf]
    simp [fillingOf, Option.or_assoc]
  · rw [fillingOf, suppliedFor, Entries.get?_insertSorted, if_neg heq]
    rfl

theorem SlotDef.lacks_insertSorted (slot : String) {other : SlotDef} :
    other.Lacks isDefault content (supplied.insertSorted slot
      ((fillingOf isDefault content supplied slot).getD "")) ↔
        other.Lacks isDefault content supplied := by
  rw [lacks_iff, lacks_iff, fillingOf_insertSorted]

theorem bindSlots_of_lacks {slot : SlotDef} (h : slot.Lacks isDefault content supplied) :
    bindSlots isDefault content (slot :: slots) supplied = .error (.missingSlot slot.name) := by
  obtain ⟨hrequired, hnone⟩ := SlotDef.lacks_iff.1 h
  rw [bindSlots, ← fillingOf, hrequired, hnone]
  rfl

/-- One declared slot is bound to its filling, if it has one or needs none. -/
theorem bindSlots_of_not_lacks {slot : SlotDef} (h : ¬ slot.Lacks isDefault content supplied) :
    bindSlots isDefault content (slot :: slots) supplied =
      bindSlots isDefault content slots (supplied.insertSorted slot.name
        ((fillingOf isDefault content supplied slot.name).getD "")) := by
  rw [bindSlots, ← fillingOf, if_neg]
  simpa [SlotDef.lacks_iff] using h

/-! ## All slots -/

/-- The fault is that of the first slot that is required and has no filling. -/
theorem bindSlots_eq_error_iff {fault : BindingFault} :
    bindSlots isDefault content slots supplied = .error fault ↔
      ∃ front slot back, slots = front ++ slot :: back ∧
        (∀ other ∈ front, ¬ other.Lacks isDefault content supplied) ∧
        slot.Lacks isDefault content supplied ∧ fault = .missingSlot slot.name := by
  induction slots generalizing supplied with
  | nil =>
    refine ⟨nofun, ?_⟩
    rintro ⟨front, slot, back, hslots, -⟩
    simp at hslots
  | cons first slots ih =>
    by_cases hfirst : first.Lacks isDefault content supplied
    · rw [bindSlots_of_lacks hfirst]
      constructor
      · intro h
        cases h
        exact ⟨[], first, slots, rfl, nofun, hfirst, rfl⟩
      · rintro ⟨front, slot, back, hslots, hfront, -, rfl⟩
        cases front with
        | nil =>
          obtain ⟨rfl, rfl⟩ := List.cons.inj hslots
          rfl
        | cons other front =>
          obtain ⟨rfl, rfl⟩ := List.cons.inj hslots
          exact absurd hfirst (hfront first List.mem_cons_self)
    · rw [bindSlots_of_not_lacks hfirst, ih]
      simp only [SlotDef.lacks_insertSorted]
      constructor
      · rintro ⟨front, slot, back, rfl, hfront, hslot, hfault⟩
        exact ⟨first :: front, slot, back, rfl, List.forall_mem_cons.2 ⟨hfirst, hfront⟩, hslot,
          hfault⟩
      · rintro ⟨front, slot, back, hslots, hfront, hslot, hfault⟩
        cases front with
        | nil =>
          obtain ⟨rfl, rfl⟩ := List.cons.inj hslots
          exact absurd hslot hfirst
        | cons other front =>
          obtain ⟨rfl, rfl⟩ := List.cons.inj hslots
          exact ⟨front, slot, back, rfl, (List.forall_mem_cons.1 hfront).2, hslot, hfault⟩

theorem exists_bindSlots (h : ∀ slot ∈ slots, ¬ slot.Lacks isDefault content supplied) :
    ∃ bound, bindSlots isDefault content slots supplied = .ok bound := by
  cases hbind : bindSlots isDefault content slots supplied with
  | ok bound => exact ⟨bound, rfl⟩
  | error fault =>
    obtain ⟨front, slot, back, rfl, -, hslot, -⟩ := bindSlots_eq_error_iff.1 hbind
    exact absurd hslot (h slot (by simp))

theorem not_lacks_of_bindSlots (h : bindSlots isDefault content slots supplied = .ok bound) :
    ∀ slot ∈ slots, ¬ slot.Lacks isDefault content supplied := by
  induction slots generalizing supplied with
  | nil => exact nofun
  | cons first slots ih =>
    by_cases hfirst : first.Lacks isDefault content supplied
    · rw [bindSlots_of_lacks hfirst] at h
      cases h
    · rw [bindSlots_of_not_lacks hfirst] at h
      refine List.forall_mem_cons.2 ⟨hfirst, fun slot hslot => ?_⟩
      exact mt (SlotDef.lacks_insertSorted first.name).2 (ih h slot hslot)

/-- A required slot that passes has a filling. -/
theorem fillingOf_required (h : bindSlots isDefault content slots supplied = .ok bound)
    {slot : SlotDef} (hmem : slot ∈ slots) (hrequired : slot.required = true) :
    ∃ text, fillingOf isDefault content supplied slot.name = some text := by
  have hnot := not_lacks_of_bindSlots h slot hmem
  rw [SlotDef.lacks_iff, not_and] at hnot
  exact Option.ne_none_iff_exists'.1 (hnot hrequired)

/-- A step of an induction over the declared slots: one more slot has its filling, and the others
are bound in the map with it. -/
theorem bindSlots_cons {slot : SlotDef}
    (h : bindSlots isDefault content (slot :: slots) supplied = .ok bound) :
    bindSlots isDefault content slots (supplied.insertSorted slot.name
      ((fillingOf isDefault content supplied slot.name).getD "")) = .ok bound := by
  rwa [← bindSlots_of_not_lacks (not_lacks_of_bindSlots h slot List.mem_cons_self)]

/-- Binding changes the filling of no slot. -/
theorem fillingOf_bindSlots (h : bindSlots isDefault content slots supplied = .ok bound)
    (slot : String) :
    fillingOf isDefault content bound slot = fillingOf isDefault content supplied slot := by
  induction slots generalizing supplied with
  | nil => cases h; rfl
  | cons first slots ih =>
    rw [ih (bindSlots_cons h)]
    exact fillingOf_insertSorted first.name slot

/-- A text that a slot is bound to is its filling. -/
theorem fillingOf_of_bound (h : bindSlots isDefault content slots supplied = .ok bound)
    {slot text : String} (hbound : bound.get? slot = some text) (htext : isBlankText text = false) :
    fillingOf isDefault content supplied slot = some text := by
  rw [← fillingOf_bindSlots h slot, fillingOf, suppliedFor_eq_some.2 ⟨hbound, htext⟩]
  rfl

/-- Declared slots have their filling or nothing, and the others what is supplied for them. -/
theorem get?_bindSlots (h : bindSlots isDefault content slots supplied = .ok bound)
    (name : String) :
    bound.get? name =
      if name ∈ slots.map SlotDef.name then
        some ((fillingOf isDefault content supplied name).getD "")
      else supplied.get? name := by
  induction slots generalizing supplied with
  | nil =>
    cases h
    rfl
  | cons first slots ih =>
    rw [ih (bindSlots_cons h), fillingOf_insertSorted, Entries.get?_insertSorted, List.map_cons]
    by_cases hfirst : first.name = name
    · subst hfirst
      simp
    · simp [hfirst, Ne.symm hfirst]

theorem ordered_bindSlots (hsupplied : supplied.Ordered)
    (h : bindSlots isDefault content slots supplied = .ok bound) : bound.Ordered := by
  induction slots generalizing supplied with
  | nil =>
    cases h
    exact hsupplied
  | cons first slots ih => exact ih (hsupplied.insertSorted _ _) (bindSlots_cons h)

theorem mem_keys_bindSlots (h : bindSlots isDefault content slots supplied = .ok bound)
    {name : String} :
    name ∈ bound.keys ↔ name ∈ supplied.keys ∨ name ∈ slots.map SlotDef.name := by
  rw [Entries.mem_keys_iff, Entries.mem_keys_iff, get?_bindSlots h]
  split <;> simp [*]

/-- Slots that have their texts already are bound to these. -/
theorem bindSlots_eq_self (hordered : supplied.Ordered)
    (hlacks : ∀ slot ∈ slots, ¬ slot.Lacks isDefault content supplied)
    (htexts : ∀ slot ∈ slots, supplied.get? slot.name =
      some ((fillingOf isDefault content supplied slot.name).getD "")) :
    bindSlots isDefault content slots supplied = .ok supplied := by
  induction slots with
  | nil => rfl
  | cons first slots ih =>
    obtain ⟨hfirst, hlacks⟩ := List.forall_mem_cons.1 hlacks
    obtain ⟨htext, htexts⟩ := List.forall_mem_cons.1 htexts
    rw [bindSlots_of_not_lacks hfirst, hordered.insertSorted_eq_self htext]
    exact ih hlacks htexts

/-- Binding a second time changes nothing. -/
theorem bindSlots_bindSlots (hsupplied : supplied.Ordered)
    (h : bindSlots isDefault content slots supplied = .ok bound) :
    bindSlots isDefault content slots bound = .ok bound := by
  refine bindSlots_eq_self (ordered_bindSlots hsupplied h) (fun slot hslot => ?_)
    fun slot hslot => ?_
  · rw [SlotDef.lacks_iff, fillingOf_bindSlots h, ← SlotDef.lacks_iff]
    exact not_lacks_of_bindSlots h slot hslot
  · rw [get?_bindSlots h, if_pos (List.mem_map_of_mem hslot), fillingOf_bindSlots h]

/-- What binding slots comes to. The fault is that of the first declared slot that is required and
has neither a supplied text nor stands for the default content, where blank texts do not count. If
there is none, the supplied and the declared names are bound, in the order of names: the undeclared
ones unchanged, and the declared ones to the supplied text, or else to the default content if they
stand for it, or else to the empty text; a required one to a text that is not blank. Binding the
result again with the same content gives it again. -/
theorem bindSlots_contract (isDefault : String → Bool) (content : Option String)
    (slots : List SlotDef) (hsupplied : supplied.Ordered) :
    (∀ fault, bindSlots isDefault content slots supplied = .error fault ↔
      ∃ front slot back, slots = front ++ slot :: back ∧
        (∀ other ∈ front, ¬ other.Lacks isDefault content supplied) ∧
        slot.Lacks isDefault content supplied ∧ fault = .missingSlot slot.name) ∧
    ((∀ slot ∈ slots, ¬ slot.Lacks isDefault content supplied) →
      ∃ bound, bindSlots isDefault content slots supplied = .ok bound ∧ bound.Ordered ∧
        (∀ name, name ∈ bound.keys ↔ name ∈ supplied.keys ∨ name ∈ slots.map SlotDef.name) ∧
        (∀ name, name ∉ slots.map SlotDef.name → bound.get? name = supplied.get? name) ∧
        (∀ slot ∈ slots, ∃ text, bound.get? slot.name = some text ∧
          SlotText isDefault content supplied slot.name text ∧
          (slot.required = true → isBlankText text = false)) ∧
        bindSlots isDefault content slots bound = .ok bound) := by
  refine ⟨fun fault => bindSlots_eq_error_iff, fun hlacks => ?_⟩
  obtain ⟨bound, hbound⟩ := exists_bindSlots hlacks
  refine ⟨bound, hbound, ordered_bindSlots hsupplied hbound, fun name => mem_keys_bindSlots hbound,
    fun name hname => ?_, fun slot hslot => ?_, bindSlots_bindSlots hsupplied hbound⟩
  · rw [get?_bindSlots hbound, if_neg hname]
  · have htext := get?_bindSlots hbound slot.name
    rw [if_pos (List.mem_map_of_mem hslot)] at htext
    refine ⟨_, htext, slotText_fillingOf slot.name, fun hrequired => ?_⟩
    obtain ⟨text, hfilling⟩ := fillingOf_required hbound hslot hrequired
    rw [hfilling]
    exact not_blank_of_fillingOf hfilling

end

/-- A required slot, one that is required and stands for the default content, and one that needs no
text. -/
def pageSlots : List SlotDef :=
  [{ name := "footer", required := true }, { name := "content", required := true },
    { name := "side" }]

/-- A supplied slot, the default content, a blank text that counts as none, and a slot that is not
declared; and the first required slot with a blank text. -/
theorem bindSlots_contract_page :
    let isDefault : String → Bool := fun slot => slot == "content"
    let supplied : Entries String := [("extra", " "), ("footer", "Bye"), ("side", "\n")]
    let bound : Entries String :=
      [("content", "Hello"), ("extra", " "), ("footer", "Bye"), ("side", "")]
    let blank : Entries String := [("footer", " ")]
    supplied.Ordered ∧ blank.Ordered ∧
      bindSlots isDefault (some "Hello") pageSlots supplied = .ok bound ∧
      (∀ slot ∈ pageSlots, ∃ text, bound.get? slot.name = some text ∧
        SlotText isDefault (some "Hello") supplied slot.name text) ∧
      bindSlots isDefault (some "Hello") pageSlots bound = .ok bound ∧
      bindSlots isDefault (some "Hello") pageSlots blank = .error (.missingSlot "footer") := by
  intro isDefault supplied bound blank
  have hsupplied : supplied.Ordered := by
    unfold Entries.Ordered
    decide
  have hblank : blank.Ordered := List.pairwise_singleton _ _
  have hlacks : ∀ slot ∈ pageSlots, ¬ slot.Lacks isDefault (some "Hello") supplied := by
    simp only [SlotDef.lacks_iff]
    decide
  have hfooter : SlotDef.Lacks isDefault (some "Hello") blank
      { name := "footer", required := true } := by
    rw [SlotDef.lacks_iff]
    decide
  obtain ⟨-, hbinds⟩ := bindSlots_contract isDefault (some "Hello") pageSlots hsupplied
  obtain ⟨hfails, -⟩ := bindSlots_contract isDefault (some "Hello") pageSlots hblank
  obtain ⟨found, hfound, -, -, -, htexts, hagain⟩ := hbinds hlacks
  obtain rfl : found = bound := Except.ok.inj (hfound.symm.trans rfl)
  refine ⟨hsupplied, hblank, hfound, fun slot hslot => ?_, hagain,
    (hfails _).2 ⟨[], _, _, rfl, nofun, hfooter, rfl⟩⟩
  obtain ⟨text, htext, hshows, -⟩ := htexts slot hslot
  exact ⟨text, htext, hshows⟩

end SlotTemplates
