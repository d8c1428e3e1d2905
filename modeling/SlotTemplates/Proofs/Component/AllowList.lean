import SlotTemplates.Component.Header
import SlotTemplates.Proofs.Component.Binding
import SlotTemplates.Proofs.Component.Catalog
import SlotTemplates.Proofs.Component.Slots
import SlotTemplates.Proofs.Decimal.Whole
import SlotTemplates.Proofs.Render.Scope
import SlotTemplates.Proofs.Syntax.Quoting
import SlotTemplates.Proofs.Toml.Numeral

/-!
# Numbers in allow-lists

A declaration and a template read the text of a number on two ways. TOML gives an integer for a
number without a fraction and a floating point number for one with a fraction. A template reads
every number as a floating point number, and makes an integer of it if it is whole and of magnitude
below `9 · 10^15`. The two are the same number unless one is an integer and the other is not
(`Numeral.literal_eq_iff`), and then a number of an allow-list can be passed as it is written there
(`Environment.takes_listed`). A whole number that is listed with a fraction cannot
(`Environment.refuses_listed`).
-/

namespace SlotTemplates

/-- Whether the text of a number is the same number in a template: an integer below `9 · 10^15`, or
a floating point number that is not one of those. -/
def Toml.Scalar.staysSame : Toml.Scalar → Bool
  | .integer n => n.natAbs < 9 * tenPow 15
  | .float x => x.toInt?.all fun n => 9 * tenPow 15 ≤ n.natAbs
  | _ => false

theorem Toml.Scalar.staysSame_float {x : Binary64} :
    (Scalar.float x).staysSame = true ↔ ∀ n, x.toInt? = some n → 9 * tenPow 15 ≤ n.natAbs := by
  rw [staysSame]
  cases x.toInt? with
  | none => simp
  | some n => simp only [Option.all_some, decide_eq_true_eq, Option.some.injEq, forall_eq']

theorem Toml.Scalar.isNumber_of_staysSame {x : Scalar} (h : x.staysSame = true) :
    x.isNumber = true := by
  cases x with
  | integer | float => rfl
  | string | boolean | datetime => cases h

/-- The value of a number of a template. -/
def Number.literal (x : Binary64) : Value := (ofLiteral x).elim .null .number

namespace Binary64

variable {x : Binary64} {n : Int}

theorem isFinite_of_toInt? (h : x.toInt? = some n) : x.isFinite = true := by
  cases x with
  | finite => rfl
  | infinite => cases h
  | undefined => cases h

end Binary64

namespace Number

variable {x : Binary64} {n : Int}

theorem literal_of_small (h : x.toInt? = some n) (hsmall : n.natAbs < 9 * tenPow 15) :
    literal x = .number (.int n) := by
  simp only [literal, ofLiteral, h, if_pos hsmall, Option.elim_some]

/-- A number that does not become an integer has the value that a declaration has for it. -/
theorem literal_of_large (h : ∀ n, x.toInt? = some n → 9 * tenPow 15 ≤ n.natAbs) :
    literal x = (Toml.Data.float x).toValue := by
  rw [Toml.Data.toValue, literal, ofLiteral]
  cases hint : x.toInt? with
  | some n =>
    have hlarge : ¬ n.natAbs < 9 * tenPow 15 := Nat.not_lt.2 (h n hint)
    simp only [if_neg hlarge, Binary64.isFinite_of_toInt? hint, if_true, Option.elim_some]
  | none => cases x.isFinite <;> rfl

theorem literal_eq_int_iff :
    literal x = .number (.int n) ↔ x.toInt? = some n ∧ n.natAbs < 9 * tenPow 15 := by
  constructor
  · intro h
    by_cases hsmall : ∃ k, x.toInt? = some k ∧ k.natAbs < 9 * tenPow 15
    · obtain ⟨k, hk, hsmall⟩ := hsmall
      rw [literal_of_small hk hsmall] at h
      cases h
      exact ⟨hk, hsmall⟩
    · rw [literal_of_large fun k hk => Nat.not_lt.1 fun hlt => hsmall ⟨k, hk, hlt⟩,
        Toml.Data.toValue] at h
      split at h <;> cases h
  · rintro ⟨h, hsmall⟩
    exact literal_of_small h hsmall

/-- The value of a number of a template is null, or a number that equals itself. -/
theorem literal_cases (x : Binary64) :
    literal x = .null ∨ ∃ n, literal x = .number n ∧ n.same n = true := by
  by_cases hsmall : ∃ n, x.toInt? = some n ∧ n.natAbs < 9 * tenPow 15
  · obtain ⟨n, hn, hsmall⟩ := hsmall
    exact .inr ⟨.int n, literal_of_small hn hsmall, beq_self_eq_true n⟩
  · rw [literal_of_large fun k hk => Nat.not_lt.1 fun hlt => hsmall ⟨k, hk, hlt⟩]
    cases x with
    | finite negative m e => exact .inr ⟨_, rfl, by simp [same, Binary64.same]⟩
    | infinite negative => exact .inl rfl
    | undefined => exact .inl rfl

theorem literal_same (x : Binary64) : (literal x).same (literal x) = true := by
  rcases literal_cases x with hnull | ⟨n, hnumber, hself⟩
  · rw [hnull, Value.same]
  · rw [hnumber, Value.same, hself]

end Number

namespace Numeral

variable (n : Numeral)

/-- The integer that the digits in front of the point write. -/
def int : Int := if n.negative then -Token.decimalValue n.whole else Token.decimalValue n.whole

theorem toInt?_value (hfraction : n.fraction = []) (hsmall : n.int.natAbs < 9 * tenPow 15) :
    n.value.toInt? = some n.int := by
  have hdigits : n.int.natAbs = Token.decimalValue n.whole := by
    rw [int]
    split <;> simp
  have hbits : 9 * tenPow 15 ≤ twoPow Binary64.precision := by decide
  rw [value, hfraction, List.append_nil]
  exact Binary64.toInt?_ofDecimal n.negative (by omega)

/-- A template reads a numeral as the number that TOML reads exactly if it stays the same. -/
theorem literal_eq_iff :
    Number.literal n.value = n.scalar.data.toValue ↔ n.scalar.staysSame = true := by
  by_cases hfraction : n.fraction = []
  · have hscalar : n.scalar = .integer n.int := if_pos hfraction
    have hint := n.toInt?_value hfraction
    rw [hscalar, Toml.Scalar.data, Toml.Data.toValue, Number.literal_eq_int_iff,
      Toml.Scalar.staysSame, decide_eq_true_iff]
    exact ⟨And.right, fun hsmall => ⟨hint hsmall, hsmall⟩⟩
  · have hscalar : n.scalar = .float n.value := if_neg hfraction
    rw [hscalar, Toml.Scalar.data]
    constructor
    · intro h
      refine Toml.Scalar.staysSame_float.2 fun k hk => Nat.not_lt.1 fun hsmall => ?_
      rw [Number.literal_of_small hk hsmall, Toml.Data.toValue] at h
      split at h <;> cases h
    · intro h
      exact Number.literal_of_large (Toml.Scalar.staysSame_float.1 h)

/-- In a template a numeral is a literal. -/
theorem isLiteral {written : String} (h : written.toList = n.toList) :
    IsLiteral written (Number.literal n.value) := by
  refine ⟨.number n.value, rfl, fun pos => ?_⟩
  rw [h]
  exact n.tokenize_eq pos

end Numeral

/-! ## Refused values -/

/-- A value is refused for not being listed only if it equals nothing in the list. -/
theorem PropDef.check_eq_notAllowed {prop : PropDef} {value refused : Value} {allowed : List Value}
    (h : prop.check value = .error (.notAllowed refused allowed)) :
    prop.values = some allowed ∧ ∀ v ∈ allowed, v.same value = false := by
  unfold check at h
  split_ifs at h with hnull htype
  · cases h
  split at h
  · cases h
  · next hvalues =>
    split_ifs at h with hany
    cases h
    exact ⟨hvalues, fun v hv => Bool.eq_false_iff.2 fun hsame =>
      hany (List.any_eq_true.2 ⟨v, hv, hsame⟩)⟩

section
variable {props : List PropDef} {supplied : Entries Value} {name : String} {fault : ValueFault}

/-- A value is refused because a declared prop of the name refuses it. -/
theorem bindProps_eq_invalid {strict : Bool}
    (h : bindProps props strict supplied = .error (.invalidProp name fault)) :
    ∃ p ∈ props, p.name = name ∧
      ∃ value, supplied.get? name = some value ∧ p.check value = .error fault := by
  unfold bindProps at h
  split at h
  · cases h
  · cases hbound : bindDeclared supplied props with
    | ok bound =>
      rw [hbound] at h
      cases h
    | error cause =>
      rw [hbound] at h
      cases h
      obtain ⟨front, p, back, hprops, -, hp⟩ := bindDeclared_eq_error_iff.1 hbound
      cases hp with
      | invalid hsupplied hcheck => exact ⟨p, by simp [hprops], rfl, _, hsupplied, hcheck⟩

theorem Definition.entry_eq_invalid {definition : Definition} {env : Environment}
    {canonical : String} {invocation : Invocation}
    (h : definition.entry env canonical invocation =
      .error (.component (.binding definition.name (.invalidProp name fault)))) :
    ∃ p ∈ definition.declaration.props, p.name = name ∧
      ∃ value, invocation.props.get? name = some value ∧ p.check value = .error fault := by
  obtain ⟨cause, heq, hprops | ⟨bound, -, hslots⟩⟩ := Definition.entry_eq_error_iff.1 h
  · cases heq
    exact bindProps_eq_invalid hprops
  · obtain ⟨front, slot, back, -, -, -, rfl⟩ := bindSlots_eq_error_iff.1 hslots
    cases heq

end

/-- The value of a number passes if it is listed. -/
theorem PropDef.check_listed {prop : PropDef} {allowed : List Value} {x : Binary64}
    (htype : prop.type = .number ∨ prop.type = .any) (hvalues : prop.values = some allowed)
    (hlisted : Number.literal x ∈ allowed) : prop.check (Number.literal x) = .ok () := by
  have hany : (allowed.any fun v => v.same (Number.literal x)) = true :=
    List.any_eq_true.2 ⟨_, hlisted, Number.literal_same x⟩
  rcases Number.literal_cases x with hnull | ⟨n, hnumber, -⟩
  · rw [hnull]
    rfl
  · rw [hnumber] at hany ⊢
    have haccepts : prop.type.accepts (.number n) = true := by
      rcases htype with htype | htype <;> rw [htype] <;> rfl
    simp only [check, Value.isNull, haccepts, hvalues, hany, Bool.not_true, Bool.false_eq_true,
      if_false, if_true]

theorem Declaration.prop?_name {declaration : Declaration} {name : String} {prop : PropDef}
    (h : declaration.prop? name = some prop) : prop.name = name := by
  unfold prop? at h
  simpa using List.find?_some h

/-- A number of an allow-list can be passed as it is written: what TOML reads as a number that is
in the list of a prop, of the type of numbers or of any type, is the value of the prop in an
invocation with the same text, and the value passes the check; if the text is one number in
templates too, and the number stays the same there. -/
theorem Environment.takes_listed {config : Config} {extensions : List Extension} {files : Tree}
    {env : Environment} (hmake : make config extensions files = .ok env) {name p written : String}
    (hname : canonicalName? name = some name)
    (hchars : ∀ c ∈ name.toList, Scan.isHeadChar c = true) (hattr : Token.isName p = true)
    {definition : Definition} {prop : PropDef} {allowed : List Value}
    (hprop : definition.declaration.prop? p = some prop)
    (htype : prop.type = .number ∨ prop.type = .any) (hvalues : prop.values = some allowed)
    {x : Toml.Scalar} {rest : List Char}
    (hread : Toml.scalar (written.toList ++ rest) = .ok (x, rest))
    (hlisted : x.data.toValue ∈ allowed) {v : Binary64} {span : Span}
    (htoken : tokenize 0 written.toList = .ok [⟨.number v, span⟩]) (hsame : x.staysSame = true)
    (label : String) :
    let source := "\x7b" ++ config.tag ++ ":" ++ name ++ " " ++ p ++ "=" ++ written ++ " /\x7d"
    ∃ attrs value,
      env.compile label source = .ok ⟨label, [.component ⟨0, byteLength source.toList⟩
        (.literal name) attrs [] []]⟩ ∧
      (∀ (renderer : Environment) (s : State),
        renderer.run (evalAttrs renderer attrs) s = (.ok [(p, value)], s)) ∧
      prop.check value = .ok () ∧ prop.bind [(p, value)] = .ok value ∧
      ∀ (renderer : Environment) (canonical : String) (invocation : Invocation),
        invocation.props = [(p, value)] →
        definition.entry renderer canonical invocation ≠ .error (.component
          (.binding definition.name (.invalidProp p (.notAllowed value allowed)))) := by
  intro source
  obtain ⟨n, hnumeral, rfl, rfl⟩ :=
    Toml.scalar_of_token hread (Toml.Scalar.isNumber_of_staysSame hsame) htoken
  have hcompile := compile_literal hmake hname hchars hattr (n.isLiteral hnumeral) label
  rw [← n.literal_eq_iff.2 hsame] at hlisted
  have hcheck := PropDef.check_listed htype hvalues hlisted
  have hpassed : Entries.get? p [(p, Number.literal n.value)] = some (Number.literal n.value) :=
    if_pos rfl
  refine ⟨_, Number.literal n.value, hcompile, fun renderer s => rfl, hcheck, ?_,
    fun renderer canonical invocation hprops h => ?_⟩
  · obtain rfl := Declaration.prop?_name hprop
    simp only [PropDef.bind, hpassed, hcheck]
  obtain ⟨other, -, -, value, hvalue, hrefused⟩ := Definition.entry_eq_invalid h
  rw [hprops, hpassed] at hvalue
  cases hvalue
  have hdiffers := (PropDef.check_eq_notAllowed hrefused).2 _ hlisted
  rw [Number.literal_same] at hdiffers
  cases hdiffers

/-! ## A whole number that is listed with a fraction -/

/-- A component that takes one half or one, both listed with a fraction. -/
def ratingSource : String :=
  "\x7b#---\n[props.stars]\ntype = \"number\"\nvalues = [0.5, 1.0]\n---#\x7dok"

/-- The files of the component. -/
def Tree.rating : Tree := .dir [("components", .dir [("rating.tpl", .file (.text ratingSource))])]

/-- One half and one, as a declaration has them. -/
def Number.halfAndOne : List Number :=
  [.float (.finite false 4503599627370496 (-53)), .float (.finite false 4503599627370496 (-52))]

/-- The number that a value is. -/
def Value.asNumber : Value → Option Number
  | .number n => some n
  | _ => none

theorem Value.eq_number_of_asNumber {vs : List Value} {ns : List Number}
    (h : vs.map asNumber = ns.map some) : vs = ns.map .number := by
  induction vs generalizing ns with
  | nil =>
    cases ns with
    | nil => rfl
    | cons n ns => cases h
  | cons v vs ih =>
    cases ns with
    | nil => cases h
    | cons n ns =>
      obtain ⟨hv, hvs⟩ := List.cons.inj h
      cases v <;> cases hv
      rw [ih hvs, List.map_cons]

/-- What the header of the component declares. -/
theorem rating_declares : ∃ declaration prop,
    Declaration.ofSource ratingSource.toList = .ok declaration ∧
      declaration.prop? "stars" = some prop ∧ prop.type = .number ∧
      prop.values = some (Number.halfAndOne.map .number) := by
  have hread : (Declaration.ofSource ratingSource.toList).toOption.bind (fun d =>
      (d.prop? "stars").bind fun p => p.values.map fun vs => (p.type, vs.map Value.asNumber)) =
        some (.number, Number.halfAndOne.map some) := by
    decide +kernel
  obtain ⟨declaration, hdeclaration, hread⟩ := Option.bind_eq_some_iff.1 hread
  obtain ⟨prop, hprop, hread⟩ := Option.bind_eq_some_iff.1 hread
  obtain ⟨vs, hvs, hread⟩ := Option.map_eq_some_iff.1 hread
  obtain ⟨htype, hnumbers⟩ := Prod.mk.inj hread
  rw [Value.eq_number_of_asNumber hnumbers] at hvs
  exact ⟨declaration, prop, toOption_eq_some_iff.1 hdeclaration, hprop, htype, hvs⟩

theorem rating_fetch {env : Environment} (hmake : Environment.make {} [] .rating = .ok env)
    {declaration : Declaration}
    (hdeclaration : Declaration.ofSource ratingSource.toList = .ok declaration) :
    ∃ definition, env.catalog.fetch "rating" = .ok (some definition) ∧
      definition.declaration = declaration := by
  cases hmake
  let tags := Environment.componentTags {} ++ [].flatMap Extension.tags
  have hpath : Catalog.resolve ⟨.rating, ["components"], ["tpl"], tags⟩ "rating" =
      some "components/rating.tpl" := by decide +kernel
  have htemplate : ∃ template,
      Template.compile tags "components/rating.tpl" ratingSource = .ok template := ⟨_, by cbv⟩
  obtain ⟨template, htemplate⟩ := htemplate
  exact ⟨_, Catalog.fetch_eq hpath rfl hdeclaration htemplate, rfl⟩

/-- One half can be passed as it is listed. -/
theorem Environment.takes_listed_half :
    ∃ env definition prop, make {} [] .rating = .ok env ∧
      env.catalog.fetch "rating" = .ok (some definition) ∧
      definition.declaration.prop? "stars" = some prop ∧ prop.type = .number ∧
      prop.values = some (Number.halfAndOne.map .number) ∧
      ∃ span attrs value, env.compile "page" "\x7bx:rating stars=0.5 /\x7d" =
          .ok ⟨"page", [.component span (.literal "rating") attrs [] []]⟩ ∧
        env.run (evalAttrs env attrs) (.start [] []) = (.ok [("stars", value)], .start [] []) ∧
        prop.check value = .ok () := by
  obtain ⟨env, hmake⟩ : ∃ env, make {} [] .rating = .ok env := ⟨_, rfl⟩
  obtain ⟨_, prop, hdeclaration, hprop, htype, hvalues⟩ := rating_declares
  obtain ⟨definition, hfetch, rfl⟩ := rating_fetch hmake hdeclaration
  let half : Binary64 := .finite false 4503599627370496 (-53)
  have hname : canonicalName? "rating" = some "rating" := by decide
  have hchars : ∀ c ∈ "rating".toList, Scan.isHeadChar c = true := List.all_eq_true.1 rfl
  have hattr : Token.isName "stars" = true := by cbv
  have hread : Toml.scalar ("0.5".toList ++ ", 1.0]".toList) =
      .ok (.float half, ", 1.0]".toList) := by
    decide +kernel
  have hlisted : (Toml.Scalar.float half).data.toValue ∈ Number.halfAndOne.map Value.number :=
    List.mem_cons_self
  have htoken : tokenize 0 "0.5".toList = .ok [⟨.number half, ⟨0, 3⟩⟩] := by decide +kernel
  have hsame : (Toml.Scalar.float half).staysSame = true := by decide
  obtain ⟨attrs, value, hcompile, hevals, hcheck, -⟩ := takes_listed hmake hname hchars hattr hprop
    (.inl htype) hvalues hread hlisted htoken hsame "page"
  exact ⟨env, definition, prop, hmake, hfetch, hprop, htype, hvalues, _, attrs, value, hcompile,
    hevals env _, hcheck⟩

/-- One cannot be passed as it is listed: TOML reads a floating point number and a template an
integer, which is refused. -/
theorem Environment.refuses_listed :
    let one : Binary64 := .finite false 4503599627370496 (-52)
    ∃ env definition prop, make {} [] .rating = .ok env ∧
      env.catalog.fetch "rating" = .ok (some definition) ∧
      definition.declaration.prop? "stars" = some prop ∧ prop.type = .number ∧
      prop.values = some (Number.halfAndOne.map .number) ∧
      Toml.scalar ("1.0".toList ++ "]".toList) = .ok (.float one, "]".toList) ∧
      (Toml.Scalar.float one).data.toValue ∈ Number.halfAndOne.map Value.number ∧
      tokenize 0 "1.0".toList = .ok [⟨.number one, ⟨0, 3⟩⟩] ∧
      ∃ span attrs, env.compile "page" "\x7bx:rating stars=1.0 /\x7d" =
          .ok ⟨"page", [.component span (.literal "rating") attrs [] []]⟩ ∧
        env.run (evalAttrs env attrs) (.start [] []) =
          (.ok [("stars", .number (.int 1))], .start [] []) ∧
        prop.check (.number (.int 1)) =
          .error (.notAllowed (.number (.int 1)) (Number.halfAndOne.map .number)) := by
  intro one
  obtain ⟨env, hmake⟩ : ∃ env, make {} [] .rating = .ok env := ⟨_, rfl⟩
  obtain ⟨_, prop, hdeclaration, hprop, htype, hvalues⟩ := rating_declares
  obtain ⟨definition, hfetch, rfl⟩ := rating_fetch hmake hdeclaration
  have hread : Toml.scalar ("1.0".toList ++ "]".toList) = .ok (.float one, "]".toList) := by
    decide +kernel
  have hlisted : (Toml.Scalar.float one).data.toValue ∈ Number.halfAndOne.map Value.number :=
    List.mem_cons_of_mem _ List.mem_cons_self
  have htoken : tokenize 0 "1.0".toList = .ok [⟨.number one, ⟨0, 3⟩⟩] := by decide +kernel
  have hname : canonicalName? "rating" = some "rating" := by decide
  have hchars : ∀ c ∈ "rating".toList, Scan.isHeadChar c = true := List.all_eq_true.1 rfl
  have hattr : Token.isName "stars" = true := by cbv
  -- in a template it is the integer
  obtain ⟨n, hwritten, hvalue⟩ : ∃ n : Numeral, "1.0".toList = n.toList ∧ n.value = one :=
    ⟨⟨false, ['1'], ['0'], List.cons_ne_nil _ _, List.forall_mem_singleton.2 rfl,
      List.forall_mem_singleton.2 rfl⟩, rfl, by decide +kernel⟩
  have hint : Number.literal one = .number (.int 1) := Number.literal_eq_int_iff.2 (by decide)
  have hliteral := n.isLiteral hwritten
  rw [hvalue, hint] at hliteral
  have hcheck : prop.check (.number (.int 1)) =
      .error (.notAllowed (.number (.int 1)) (Number.halfAndOne.map .number)) := by
    simp only [PropDef.check, htype, hvalues]
    rfl
  exact ⟨env, definition, prop, hmake, hfetch, hprop, htype, hvalues, hread, hlisted, htoken, _, _,
    compile_literal hmake hname hchars hattr hliteral "page", rfl, hcheck⟩

end SlotTemplates
