import SlotTemplates.Component.Binding
import SlotTemplates.Proofs.Entries
import SlotTemplates.Proofs.Except

/-!
# What a component binds

A declared prop *refuses* what is supplied if the value for it does not pass its check, or if there
is none and it needs one (`PropDef.Refuses`). Props are bound if and only if none of them refuses,
and the error is that of the first one that does (`bindDeclared_eq_error_iff`,
`bindDeclared_eq_ok_iff`); a strict component looks for a name that no prop declares before that.
`bindProps_contract` puts together which error there is and what is bound without one.
-/

namespace SlotTemplates

/-- A declared prop refuses what is supplied, with a fault. -/
inductive PropDef.Refuses (supplied : Entries Value) (p : PropDef) : BindingFault → Prop where
  /-- A value is supplied, and does not pass. -/
  | invalid {value : Value} {fault : ValueFault} (hsupplied : supplied.get? p.name = some value)
    (hcheck : p.check value = .error fault) : Refuses supplied p (.invalidProp p.name fault)
  /-- No value is supplied for a prop that is required and has no default. -/
  | missing (hsupplied : supplied.get? p.name = none) (hrequired : p.required = true)
    (hdefault : p.default = none) : Refuses supplied p (.missingProp p.name)

/-- The value of a declared prop: the supplied one, which can be `null`, or else its default, or
else `null`. -/
def PropDef.valueFrom (supplied : Entries Value) (p : PropDef) : Value :=
  ((supplied.get? p.name).or p.default).getD .null

/-- The supplied names that no prop declares, in the order in which they are supplied. -/
def unknownNames (props : List PropDef) (supplied : Entries Value) : List String :=
  supplied.keys.filter fun name => name ∉ props.map PropDef.name

section
variable {props : List PropDef} {p : PropDef} {supplied bound : Entries Value} {name : String}
  {fault : BindingFault}

/-! ## One prop -/

theorem PropDef.bind_eq_error_iff : p.bind supplied = .error fault ↔ p.Refuses supplied fault := by
  unfold bind
  constructor
  · intro h
    split at h
    · next value hsupplied =>
      split at h
      · cases h
      · next fault hcheck =>
        cases h
        exact .invalid hsupplied hcheck
    · next hsupplied =>
      split at h
      · cases h
      · next hdefault =>
        split at h
        · next hrequired =>
          cases h
          exact .missing hsupplied hrequired hdefault
        · cases h
  · intro h
    cases h with
    | invalid hsupplied hcheck => simp only [hsupplied, hcheck]
    | missing hsupplied hrequired hdefault => simp only [hsupplied, hdefault, hrequired, if_true]

/-- What is bound for a prop is its value. -/
theorem PropDef.eq_valueFrom_of_bind {value : Value} (h : p.bind supplied = .ok value) :
    value = p.valueFrom supplied := by
  unfold bind at h
  unfold valueFrom
  split at h
  · next hsupplied =>
    split at h
    · cases h
      rw [hsupplied]
      rfl
    · cases h
  · next hsupplied =>
    split at h
    · next hdefault =>
      cases h
      rw [hsupplied, hdefault]
      rfl
    · next hdefault =>
      split at h
      · cases h
      · cases h
        rw [hsupplied, hdefault]
        rfl

/-- A prop that does not refuse what is supplied has its value. -/
theorem PropDef.bind_eq_ok_iff {value : Value} :
    p.bind supplied = .ok value ↔
      (∀ fault, ¬ p.Refuses supplied fault) ∧ value = p.valueFrom supplied := by
  cases hbind : p.bind supplied with
  | error fault =>
    have hrefuses : p.Refuses supplied fault := bind_eq_error_iff.1 hbind
    exact ⟨nofun, fun h => absurd hrefuses (h.1 fault)⟩
  | ok bound =>
    have hnot : ∀ fault, ¬ p.Refuses supplied fault := by
      intro fault hrefuses
      cases hbind.symm.trans (bind_eq_error_iff.2 hrefuses)
    rw [← eq_valueFrom_of_bind hbind, Except.ok.injEq, eq_comm]
    exact ⟨fun heq => ⟨hnot, heq⟩, And.right⟩

/-! ## All declared props -/

/-- The error is that of the first prop that refuses what is supplied. -/
theorem bindDeclared_eq_error_iff :
    bindDeclared supplied props = .error fault ↔
      ∃ front p back, props = front ++ p :: back ∧
        (∀ other ∈ front, ∀ fault, ¬ other.Refuses supplied fault) ∧ p.Refuses supplied fault := by
  induction props with
  | nil =>
    refine ⟨nofun, ?_⟩
    rintro ⟨front, p, back, hprops, -⟩
    simp at hprops
  | cons first props ih =>
    rw [bindDeclared, bind_eq_error_iff]
    constructor
    · rintro (h | ⟨value, hfirst, h⟩)
      · exact ⟨[], first, props, rfl, nofun, PropDef.bind_eq_error_iff.1 h⟩
      · rcases bind_eq_error_iff.1 h with h | ⟨rest, -, h⟩
        · obtain ⟨front, p, back, rfl, hfront, hp⟩ := ih.1 h
          have hnot := (PropDef.bind_eq_ok_iff.1 hfirst).1
          exact ⟨first :: front, p, back, rfl, List.forall_mem_cons.2 ⟨hnot, hfront⟩, hp⟩
        · cases h
    · rintro ⟨front, p, back, hprops, hfront, hp⟩
      cases front with
      | nil =>
        obtain ⟨rfl, rfl⟩ := List.cons.inj hprops
        exact .inl (PropDef.bind_eq_error_iff.2 hp)
      | cons other front =>
        obtain ⟨rfl, rfl⟩ := List.cons.inj hprops
        obtain ⟨hnot, hfront⟩ := List.forall_mem_cons.1 hfront
        have hrest := ih.2 ⟨front, p, back, rfl, hfront, hp⟩
        exact .inr ⟨_, PropDef.bind_eq_ok_iff.2 ⟨hnot, rfl⟩, bind_eq_error_iff.2 (.inl hrest)⟩

/-- Props that do not refuse what is supplied have their values, in their order. -/
theorem bindDeclared_eq_ok_iff :
    bindDeclared supplied props = .ok bound ↔
      (∀ p ∈ props, ∀ fault, ¬ p.Refuses supplied fault) ∧
        bound = props.map fun p => (p.name, p.valueFrom supplied) := by
  induction props generalizing bound with
  | nil => simp [bindDeclared, eq_comm]
  | cons first props ih =>
    rw [bindDeclared, bind_eq_ok_iff]
    constructor
    · rintro ⟨value, hfirst, h⟩
      obtain ⟨rest, hrest, h⟩ := bind_eq_ok_iff.1 h
      cases h
      obtain ⟨hnot, rfl⟩ := PropDef.bind_eq_ok_iff.1 hfirst
      obtain ⟨hnone, rfl⟩ := ih.1 hrest
      exact ⟨List.forall_mem_cons.2 ⟨hnot, hnone⟩, rfl⟩
    · rintro ⟨hnone, rfl⟩
      obtain ⟨hnot, hnone⟩ := List.forall_mem_cons.1 hnone
      have hrest := ih.2 ⟨hnone, rfl⟩
      exact ⟨_, PropDef.bind_eq_ok_iff.2 ⟨hnot, rfl⟩, bind_eq_ok_iff.2 ⟨_, hrest, rfl⟩⟩

/-! ## Undeclared props -/

theorem not_declaresProp_iff :
    declaresProp props name = false ↔ name ∉ props.map PropDef.name := by
  simp [declaresProp]

/-- The undeclared entries have the unknown names. -/
theorem keys_undeclared (props : List PropDef) (supplied : Entries Value) :
    (undeclared props supplied).keys = unknownNames props supplied := by
  unfold undeclared unknownNames Entries.keys
  rw [List.filter_map]
  congr 1
  refine List.filter_congr fun entry _ => ?_
  rw [Bool.eq_iff_iff, Bool.not_eq_true', not_declaresProp_iff]
  exact decide_eq_true_iff.symm

theorem mem_unknownNames :
    name ∈ unknownNames props supplied ↔ name ∈ supplied.keys ∧ name ∉ props.map PropDef.name := by
  simp [unknownNames]

/-- An unknown name keeps its value. -/
theorem get?_undeclared (h : name ∉ props.map PropDef.name) :
    (undeclared props supplied).get? name = supplied.get? name := by
  induction supplied with
  | nil => rfl
  | cons entry supplied ih =>
    obtain ⟨key, value⟩ := entry
    unfold undeclared at ih ⊢
    by_cases hkey : key = name
    · subst hkey
      have hnot : declaresProp props key = false := not_declaresProp_iff.2 h
      rw [List.filter_cons_of_pos (by simp [hnot])]
      simp
    · rw [List.filter_cons, Entries.get?_cons, if_neg hkey, ← ih]
      split
      · rw [Entries.get?_cons, if_neg hkey]
      · rfl

end

/-! ## All props -/

section
variable {props : List PropDef} {supplied bound : Entries Value} {strict : Bool} {name : String}
  {fault : BindingFault}

/-- A strict component refuses the first unknown name, before anything else. -/
theorem bindProps_eq_unknown (hstrict : strict = true)
    (hname : (unknownNames props supplied).head? = some name) :
    bindProps props strict supplied = .error (.unknownProp name) := by
  rw [← keys_undeclared] at hname
  unfold bindProps
  cases hextra : undeclared props supplied with
  | nil => simp [hextra, Entries.keys] at hname
  | cons entry extra =>
    obtain rfl : entry.1 = name := by simpa [hextra, Entries.keys] using hname
    subst hstrict
    rfl

/-- Without one, the declared props are bound in front of the unknown ones. -/
theorem bindProps_eq (h : strict = false ∨ unknownNames props supplied = []) :
    bindProps props strict supplied =
      (bindDeclared supplied props).map (· ++ undeclared props supplied) := by
  unfold bindProps
  rcases h with rfl | hnone
  · rfl
  · rw [← keys_undeclared] at hnone
    have hextra : undeclared props supplied = [] := List.map_eq_nil_iff.1 hnone
    rw [hextra]
    cases strict <;> rfl

/-- Props are bound if the component is not strict or knows all names, and no declared prop refuses
what is supplied. -/
theorem bindProps_eq_ok_iff :
    bindProps props strict supplied = .ok bound ↔
      (strict = false ∨ unknownNames props supplied = []) ∧
        (∀ p ∈ props, ∀ fault, ¬ p.Refuses supplied fault) ∧
        bound = (props.map fun p => (p.name, p.valueFrom supplied)) ++
          undeclared props supplied := by
  by_cases hknown : strict = false ∨ unknownNames props supplied = []
  · rw [bindProps_eq hknown, map_eq_ok_iff]
    constructor
    · rintro ⟨declared, hdeclared, rfl⟩
      obtain ⟨hnone, rfl⟩ := bindDeclared_eq_ok_iff.1 hdeclared
      exact ⟨hknown, hnone, rfl⟩
    · rintro ⟨-, hnone, rfl⟩
      exact ⟨_, bindDeclared_eq_ok_iff.2 ⟨hnone, rfl⟩, rfl⟩
  · refine ⟨fun h => ?_, fun h => absurd h.1 hknown⟩
    simp only [not_or, Bool.not_eq_false] at hknown
    obtain ⟨hstrict, hne⟩ := hknown
    have hname := List.head?_eq_some_head hne
    rw [bindProps_eq_unknown hstrict hname] at h
    cases h

/-- A declared prop is bound to its value. -/
theorem get?_bindProps (hprops : (props.map PropDef.name).Nodup)
    (h : bindProps props strict supplied = .ok bound) {p : PropDef} (hp : p ∈ props) :
    bound.get? p.name = some (p.valueFrom supplied) := by
  obtain ⟨-, -, rfl⟩ := bindProps_eq_ok_iff.1 h
  let declared : Entries Value := props.map fun p => (p.name, p.valueFrom supplied)
  have hkeys : declared.keys = props.map PropDef.name := List.map_map
  have hvalue : declared.get? p.name = some (p.valueFrom supplied) :=
    Entries.get?_of_nodup (hkeys ▸ hprops) (List.mem_map.2 ⟨p, hp, rfl⟩)
  rw [Entries.get?_append, hvalue]
  rfl

/-- What is bound keeps the undeclared names in their order, behind the declared ones, and their
values. -/
theorem bindProps_undeclared {declared : List PropDef} {strict : Bool}
    {supplied bound : Entries Value} (h : bindProps declared strict supplied = .ok bound) :
    bound.keys = declared.map PropDef.name ++ unknownNames declared supplied ∧
      ∀ name ∈ unknownNames declared supplied, bound.get? name = supplied.get? name := by
  obtain ⟨-, -, rfl⟩ := bindProps_eq_ok_iff.1 h
  have hdeclared : Entries.keys (declared.map fun p => (p.name, p.valueFrom supplied)) =
      declared.map PropDef.name := List.map_map
  refine ⟨?_, fun name hname => ?_⟩
  · rw [Entries.keys, List.map_append, ← keys_undeclared, ← hdeclared]
    rfl
  · obtain ⟨-, hunknown⟩ := mem_unknownNames.1 hname
    rw [Entries.get?_append, get?_undeclared hunknown,
      Entries.get?_eq_none_of_not_mem (hdeclared ▸ hunknown), Option.none_or]

/-- The entries that are bound, if names do not stand twice: one for every declared and every
unknown name, with its value. -/
theorem bound_entries (hprops : (props.map PropDef.name).Nodup) (hsupplied : supplied.keys.Nodup)
    (hbound : bound = (props.map fun p => (p.name, p.valueFrom supplied)) ++
      undeclared props supplied) :
    bound.keys = props.map PropDef.name ++ unknownNames props supplied ∧ bound.keys.Nodup ∧
      (∀ p ∈ props, bound.get? p.name = some (p.valueFrom supplied)) ∧
      ∀ name ∈ unknownNames props supplied, bound.get? name = supplied.get? name := by
  have hkeys : bound.keys = props.map PropDef.name ++ unknownNames props supplied := by
    rw [hbound, Entries.keys, List.map_append, List.map_map, ← keys_undeclared]
    rfl
  have hnodup : bound.keys.Nodup := by
    rw [hkeys]
    refine List.nodup_append.2 ⟨hprops, hsupplied.filter _, ?_⟩
    rintro name hdeclared _ hunknown rfl
    exact (mem_unknownNames.1 hunknown).2 hdeclared
  refine ⟨hkeys, hnodup, fun p hp => ?_, fun name hname => ?_⟩
  · have hmem : (p.name, p.valueFrom supplied) ∈ bound := by
      rw [hbound]
      exact List.mem_append_left _ (List.mem_map.2 ⟨p, hp, rfl⟩)
    exact Entries.get?_of_nodup hnodup hmem
  · obtain ⟨hname, hunknown⟩ := mem_unknownNames.1 hname
    obtain ⟨value, hvalue⟩ := Entries.mem_keys_iff.1 hname
    have hmem : (name, value) ∈ bound := by
      rw [hbound]
      have hextra := (get?_undeclared hunknown).trans hvalue
      exact List.mem_append_right _ (Entries.mem_of_get? hextra)
    rw [hvalue]
    exact Entries.get?_of_nodup hnodup hmem

/-- What binding props comes to, for distinct names. A strict component refuses the first unknown
name, if there is one, and nothing else then. Otherwise the first declared prop that refuses what is
supplied is the error, and if there is none, the declared names are bound in their order, and the
unknown ones behind them, in theirs: each once, with the supplied value, or else the default, or
else `null`. -/
theorem bindProps_contract (hprops : (props.map PropDef.name).Nodup)
    (hsupplied : supplied.keys.Nodup) (strict : Bool) :
    (∀ name, bindProps props strict supplied = .error (.unknownProp name) ↔
      strict = true ∧ (unknownNames props supplied).head? = some name) ∧
    (strict = false ∨ unknownNames props supplied = [] →
      (∀ fault, bindProps props strict supplied = .error fault ↔
        ∃ front p back, props = front ++ p :: back ∧
          (∀ other ∈ front, ∀ fault, ¬ other.Refuses supplied fault) ∧ p.Refuses supplied fault) ∧
      ((∀ p ∈ props, ∀ fault, ¬ p.Refuses supplied fault) →
        ∃ bound, bindProps props strict supplied = .ok bound ∧
          bound.keys = props.map PropDef.name ++ unknownNames props supplied ∧ bound.keys.Nodup ∧
          (∀ p ∈ props, bound.get? p.name =
            some (((supplied.get? p.name).or p.default).getD .null)) ∧
          ∀ name ∈ unknownNames props supplied, bound.get? name = supplied.get? name)) := by
  refine ⟨fun name => ⟨fun h => ?_, fun ⟨hstrict, hname⟩ => bindProps_eq_unknown hstrict hname⟩,
    fun hknown => ⟨fun fault => ?_, fun hnone => ?_⟩⟩
  · by_cases hknown : strict = false ∨ unknownNames props supplied = []
    · -- a declared prop does not refuse with this fault
      rw [bindProps_eq hknown, map_eq_error_iff] at h
      obtain ⟨_, p, _, -, -, hp⟩ := bindDeclared_eq_error_iff.1 h
      cases hp
    · simp only [not_or, Bool.not_eq_false] at hknown
      obtain ⟨hstrict, hne⟩ := hknown
      obtain ⟨first, rest, hfirst⟩ := List.exists_cons_of_ne_nil hne
      have hhead : (unknownNames props supplied).head? = some first := by rw [hfirst]; rfl
      cases (bindProps_eq_unknown hstrict hhead).symm.trans h
      exact ⟨hstrict, hhead⟩
  · rw [bindProps_eq hknown, map_eq_error_iff, bindDeclared_eq_error_iff]
  · have hdeclared := bindDeclared_eq_ok_iff.2 ⟨hnone, rfl⟩
    rw [bindProps_eq hknown, hdeclared]
    exact ⟨_, rfl, bound_entries hprops hsupplied rfl⟩

end

/-- A prop with a default, one that is required, and one of a type. -/
def alertProps : List PropDef :=
  [{ name := "kind", default := some (.string "info") }, { name := "message", required := true },
    { name := "count", type := .number }]

/-- A supplied `null` counts for a required prop, and what is not declared comes last; a value of
another type is refused, but an unknown name before it if the component is strict. -/
theorem bindProps_contract_alert :
    let supplied : Entries Value := [("id", .bool true), ("message", .null)]
    let wrong : Entries Value := [("id", .bool true), ("message", .null), ("count", .string "2")]
    (alertProps.map PropDef.name).Nodup ∧ supplied.keys.Nodup ∧ wrong.keys.Nodup ∧
      (∃ bound, bindProps alertProps false supplied = .ok bound ∧
        bound.keys = ["kind", "message", "count", "id"] ∧
        bound.get? "kind" = some (.string "info")) ∧
      bindProps alertProps false wrong =
        .error (.invalidProp "count" (.wrongType .number (.string "2"))) ∧
      bindProps alertProps true wrong = .error (.unknownProp "id") := by
  intro supplied wrong
  have hprops : (alertProps.map PropDef.name).Nodup := by decide
  have hsupplied : supplied.keys.Nodup := by decide
  have hwrong : wrong.keys.Nodup := by decide
  have hnone : ∀ p ∈ alertProps, ∀ fault, ¬ p.Refuses supplied fault := by
    intro p hp fault hrefuses
    have hbind := PropDef.bind_eq_error_iff.2 hrefuses
    simp only [alertProps, List.mem_cons, List.not_mem_nil, or_false] at hp
    rcases hp with rfl | rfl | rfl <;> cases hbind
  obtain ⟨-, hlax⟩ := bindProps_contract hprops hsupplied false
  obtain ⟨bound, hbound, hkeys, -, hvalues, -⟩ := (hlax (.inl rfl)).2 hnone
  obtain ⟨-, hlaxWrong⟩ := bindProps_contract hprops hwrong false
  obtain ⟨hunknown, -⟩ := bindProps_contract hprops hwrong true
  refine ⟨hprops, hsupplied, hwrong, ⟨bound, hbound, hkeys, ?_⟩, ?_, ?_⟩
  · exact hvalues _ List.mem_cons_self
  · refine ((hlaxWrong (.inl rfl)).1 _).2 ⟨alertProps.take 2, _, [], rfl, ?_, .invalid rfl rfl⟩
    intro p hp fault hrefuses
    have hbind := PropDef.bind_eq_error_iff.2 hrefuses
    simp only [alertProps, List.take_succ_cons, List.take_zero, List.mem_cons, List.not_mem_nil,
      or_false] at hp
    rcases hp with rfl | rfl <;> cases hbind
  · exact (hunknown "id").2 ⟨rfl, rfl⟩

end SlotTemplates
