import SlotTemplates.Proofs.Component.Binding
import SlotTemplates.Proofs.Toml.Distinct

/-!
# Declared defaults

A default is checked when its header is read, like a value that is supplied later. The check lets
`null` pass, and says of every other value that the prop admits it (`PropDef.check_eq_ok_iff`). TOML
cannot write `null`, but a number that is not finite becomes one: these are the only defaults that a
prop does not admit (`Declaration.default_admitted`).
-/

namespace SlotTemplates

/-- A prop admits a value other than `null` that is of its type and in its allow-list, if it has
one. -/
structure PropDef.Admits (p : PropDef) (value : Value) : Prop where
  notNull : value ≠ .null
  type : p.type.accepts value = true
  listed : ∀ allowed, p.values = some allowed → ∃ v ∈ allowed, v.same value = true

/-- A number of a header that is not finite. -/
def Toml.Data.NotFinite : Data → Prop
  | .float x => x.isFinite = false
  | _ => False

/-- A header gives a prop a default. -/
inductive GivesDefault (header : List Char) (name : String) (written : Toml.Data) : Prop where
  | intro {info : Toml.TableInfo} {entries : List (Toml.Key × Toml.Item)} {shape : HeaderShape}
    {d : Toml.Data} {prop : PropShape} (hread : Toml.readDocument header = .ok (info, entries))
    (hshape : Toml.Table.fields HeaderShape.fields entries = .ok shape)
    (hmem : (name, d) ∈ shape.props) (hprop : d.fields PropShape.fields = .ok prop)
    (hdefault : prop.default = some written)

/-! ## What passes a check -/

theorem Value.isNull_iff {value : Value} : value.isNull = true ↔ value = .null := by
  cases value <;> simp [isNull]

/-- What passes the check of a prop is `null` or admitted. -/
theorem PropDef.check_eq_ok_iff {p : PropDef} {value : Value} :
    p.check value = .ok () ↔ value = .null ∨ p.Admits value := by
  unfold check
  constructor
  · intro h
    split at h
    · next hnull => exact .inl (Value.isNull_iff.1 hnull)
    next hnull =>
    have hnotNull : value ≠ .null := fun heq => hnull (Value.isNull_iff.2 heq)
    split at h
    · cases h
    next htype =>
    have htype : p.type.accepts value = true := by simpa using htype
    split at h
    · next hvalues =>
      refine .inr ⟨hnotNull, htype, fun allowed hallowed => ?_⟩
      cases hvalues.symm.trans hallowed
    · next hvalues =>
      split at h
      · next hany =>
        refine .inr ⟨hnotNull, htype, fun allowed hallowed => ?_⟩
        cases hvalues.symm.trans hallowed
        exact List.any_eq_true.1 hany
      · cases h
  · rintro (rfl | ⟨hnotNull, htype, hlisted⟩)
    · rfl
    · have hnull : ¬ value.isNull = true := fun h => hnotNull (Value.isNull_iff.1 h)
      rw [if_neg hnull, if_neg (by simp [htype])]
      split
      · rfl
      · next allowed hvalues => rw [if_pos (List.any_eq_true.2 (hlisted allowed hvalues))]

/-! ## What a header writes -/

/-- The only data that becomes `null` is a number that is not finite. -/
theorem Toml.Data.toValue_eq_null_iff {d : Data} : d.toValue = .null ↔ d.NotFinite := by
  cases d with
  | float x => cases hx : x.isFinite <;> simp [toValue, NotFinite, hx]
  | _ => simp [toValue, NotFinite]

/-- A default that is declared was written, and passes the check of its prop. -/
theorem Declaration.default_written {header : List Char} {declaration : Declaration} {p : PropDef}
    {value : Value} (h : ofToml header = .ok declaration) (hp : p ∈ declaration.props)
    (hdefault : p.default = some value) :
    ∃ written, GivesDefault header p.name written ∧ value = written.toValue ∧
      p.check value = .ok () := by
  obtain ⟨info, entries, shape, hread, hshape, hprops, -⟩ := ofToml_eq_ok h
  obtain ⟨⟨name, d⟩, hmem, hof⟩ := exists_of_mem_mapM hprops hp
  obtain ⟨prop, type, hprop, -, rfl, hcheck⟩ := PropDef.ofData_eq_ok (mapError_eq_ok_iff.1 hof)
  obtain ⟨written, hwritten, rfl⟩ := Option.map_eq_some_iff.1 hdefault
  exact ⟨written, ⟨hread, hshape, hmem, hprop, hwritten⟩, rfl,
    hcheck _ hdefault⟩

/-- Every default of a declaration that is read from a header is what the header gives the prop,
and is bound if no value is supplied. The prop admits it, unless it is a number that is not finite:
this is bound as `null`. -/
theorem Declaration.default_admitted {header : List Char} {declaration : Declaration}
    {p : PropDef} {value : Value} (h : ofToml header = .ok declaration)
    (hp : p ∈ declaration.props) (hdefault : p.default = some value) :
    ∃ written, GivesDefault header p.name written ∧ value = written.toValue ∧
      (value = .null ↔ written.NotFinite) ∧ (¬ written.NotFinite → p.Admits value) ∧
      ∀ strict supplied bound, supplied.get? p.name = none →
        bindProps declaration.props strict supplied = .ok bound →
        bound.get? p.name = some value := by
  obtain ⟨written, hwritten, rfl, hcheck⟩ := default_written h hp hdefault
  refine ⟨written, hwritten, rfl, Toml.Data.toValue_eq_null_iff, fun hfinite => ?_, ?_⟩
  · exact (PropDef.check_eq_ok_iff.1 hcheck).resolve_left
      fun hnull => hfinite (Toml.Data.toValue_eq_null_iff.1 hnull)
  · intro strict supplied bound hsupplied hbound
    rw [get?_bindProps (ofToml_distinct h).1 hbound hp, PropDef.valueFrom, hsupplied, hdefault]
    rfl

/-- A header with a default that has to be in an allow-list. -/
def kindHeader : String :=
  "[props.kind]\ntype = \"string\"\ndefault = \"info\"\nvalues = [\"info\", \"error\"]\n"

/-- The prop it declares. -/
def kindProp : PropDef where
  name := "kind"
  type := .string
  default := some (.string "info")
  values := some [.string "info", .string "error"]

/-- The prop admits its default, and is bound to it. -/
theorem Declaration.default_admitted_kind :
    ofToml kindHeader.toList = .ok { props := [kindProp] } ∧
      kindProp.default = some (.string "info") ∧ kindProp.Admits (.string "info") ∧
      ∃ bound, bindProps [kindProp] true [] = .ok bound ∧
        bound.get? "kind" = some (.string "info") := by
  have hread : ofToml kindHeader.toList = .ok { props := [kindProp] } := by cbv
  have hdefault : kindProp.default = some (.string "info") := rfl
  obtain ⟨written, -, -, hnull, hadmits, hbind⟩ :=
    default_admitted hread List.mem_cons_self hdefault
  have hfinite : ¬ written.NotFinite := by
    intro h
    cases hnull.2 h
  exact ⟨hread, hdefault, hadmits hfinite, _, rfl, hbind true [] _ rfl rfl⟩

/-- A header with a default that is not a number. -/
def sizeHeader : String := "[props.size]\ntype = \"number\"\ndefault = nan\n"

/-- The header is read, but its default is `null`, which is not of the type of the prop and is bound
if no value is supplied. -/
theorem Declaration.default_not_admitted :
    ∃ declaration p, ofToml sizeHeader.toList = .ok declaration ∧ p ∈ declaration.props ∧
      p.type = .number ∧ p.default = some .null ∧ p.type.accepts .null = false ∧
      ¬ p.Admits .null ∧ bindProps declaration.props true [] = .ok [("size", .null)] := by
  let size : PropDef := { name := "size", type := .number, default := some .null }
  have hread : ofToml sizeHeader.toList = .ok { props := [size] } := by cbv
  exact ⟨_, size, hread, List.mem_cons_self, rfl, rfl, rfl, fun h => h.notNull rfl, rfl⟩

end SlotTemplates
