import SlotTemplates.Proofs.Render.Scope

/-!
# What a component depends on

Two runs of one computation are compared. They agree if the states they start from look alike to
a template: the same variables, the same innermost frame, chains that refuse the same components,
and caches that answer alike (`Render.run_agree`). A component is entered with variables and a
frame of its own, so it takes less for it (`Host.atDepth_agree`): nothing of its caller but the
chain and the cache. With equal caches this is isolation: `run_invoke_isolated`.

The comparison has two strengths. In the strict one, the chains are equal and errors are compared
as well. In the other one, the second chain holds fewer names, and all that counts is that a run
that succeeds from the first state succeeds from the second one.
-/

namespace SlotTemplates

/-- Caches that are related answer every lookup alike, and are related afterwards. -/
def Catalog.AnswersAlike (catalog : Catalog) (related : Cache → Cache → Prop) : Prop :=
  ∀ c d, related c d → ∀ name,
    (catalog.lookup c name).1 = (catalog.lookup d name).1 ∧
      related (catalog.lookup c name).2 (catalog.lookup d name).2

/-- The second outcome is the first one, with a related cache, if the first one is a success or
the comparison is strict. -/
def Rendered.Agree {α : Type} (related : Cache → Cache → Prop) (strict : Prop)
    (x y : Rendered α) : Prop :=
  (∃ a, x.1 = .ok a) ∨ strict → x.1 = y.1 ∧ related x.2.cache y.2.cache

/-- What a component sees of two states is alike: the chains and the caches. -/
structure State.Alike (related : Cache → Cache → Prop) (strict : Prop) (s t : State) : Prop where
  cache : related s.cache t.cache
  chain : t.chain ⊆ s.chain
  chain_eq : strict → s.chain = t.chain

/-- What a template sees of two states is alike: also the variables and the innermost frame. -/
structure State.LooksLike (related : Cache → Cache → Prop) (strict : Prop) (s t : State) : Prop
    extends s.Alike related strict t where
  vars : s.vars = t.vars
  frame : s.frames.head? = t.frames.head?

section
variable {related : Cache → Cache → Prop} {strict : Prop} {s t s' t' : State} {host : Host}

namespace State

theorem Alike.withCache {c d : Cache} (h : s.Alike related strict t) (hc : related c d) :
    State.Alike related strict { s with cache := c } { t with cache := d } :=
  ⟨hc, h.chain, h.chain_eq⟩

/-- States that are alike still are after steps that leave the scope and relate the caches. -/
theorem Alike.after (h : s.Alike related strict t) (hs : s.SameScope s') (ht : t.SameScope t')
    (hc : related s'.cache t'.cache) : s'.Alike related strict t' where
  cache := hc
  chain := by rw [hs.chain, ht.chain]; exact h.chain
  chain_eq hstrict := by rw [hs.chain, ht.chain, h.chain_eq hstrict]

theorem LooksLike.withCache {c d : Cache} (h : s.LooksLike related strict t) (hc : related c d) :
    State.LooksLike related strict { s with cache := c } { t with cache := d } :=
  ⟨h.toAlike.withCache hc, h.vars, h.frame⟩

/-- States that look alike still do after steps that leave the scope and relate the caches. -/
theorem LooksLike.after (h : s.LooksLike related strict t) (hs : s.SameScope s')
    (ht : t.SameScope t') (hc : related s'.cache t'.cache) : s'.LooksLike related strict t' where
  toAlike := h.toAlike.after hs ht hc
  vars := by rw [hs.vars, ht.vars, h.vars]
  frame := by rw [hs.frames, ht.frames, h.frame]

/-- Inside of a component all scopes look alike. -/
theorem Alike.enter (h : s.Alike related strict t) (entry : Entry) :
    (s.enter entry).LooksLike related strict (t.enter entry) where
  cache := h.cache
  chain := by
    intro name hname
    rcases List.mem_append.1 hname with hname | hname
    · exact List.mem_append_left _ (h.chain hname)
    · exact List.mem_append_right _ hname
  chain_eq hstrict := by simp [State.enter, h.chain_eq hstrict]
  vars := rfl
  frame := rfl

theorem LooksLike.outlet (h : s.LooksLike related strict t) (config : Config) (slot : String) :
    s.outlet config slot = t.outlet config slot := by
  have := h.frame
  unfold State.outlet
  cases hs : s.frames <;> cases ht : t.frames <;> simp_all

end State

/-- Steps that agree and what follows on their results agree. -/
theorem Rendered.Agree.andThen {α β : Type} {x y : Rendered α} {f g : α → State → Rendered β}
    (h : Rendered.Agree related strict x y)
    (hf : ∀ a, related x.2.cache y.2.cache →
      Rendered.Agree related strict (f a x.2) (g a y.2)) :
    Rendered.Agree related strict (x.andThen f) (y.andThen g) := by
  obtain ⟨x, s⟩ := x
  obtain ⟨y, t⟩ := y
  intro hx
  cases x with
  | ok a =>
    obtain ⟨heq, hc⟩ := h (.inl ⟨a, rfl⟩)
    cases heq
    exact hf a hc hx
  | error e =>
    rcases hx with ⟨_, hx⟩ | hstrict
    · cases hx
    obtain ⟨heq, hc⟩ := h (.inr hstrict)
    cases heq
    exact ⟨rfl, hc⟩

/-- Texts that agree do so without the blanks around them, in the scopes of the callers. -/
theorem Rendered.Agree.trim {x y : Rendered String} {vars vars' : Entries Value}
    (h : Rendered.Agree related strict x y) :
    Rendered.Agree related strict (x.1.map trimText, x.2.leave vars)
      (y.1.map trimText, y.2.leave vars') := by
  obtain ⟨x, s⟩ := x
  obtain ⟨y, t⟩ := y
  intro hx
  obtain ⟨heq, hc⟩ := h (hx.imp_left fun ⟨text, hok⟩ => by cases x with
    | ok text => exact ⟨text, rfl⟩
    | error e => cases hok)
  exact ⟨congrArg (Except.map trimText) heq, hc⟩

/-- Hosts with which components agree in scopes that are alike, and included templates in scopes
that look alike. -/
structure Host.Agreeing (host : Host) (related : Cache → Cache → Prop) (strict : Prop) :
    Prop where
  component : ∀ (invocation : Invocation) {s t : State}, s.Alike related strict t →
    Rendered.Agree related strict (host.component invocation s) (host.component invocation t)
  included : ∀ (source : String) {s t : State}, s.LooksLike related strict t →
    Rendered.Agree related strict (host.included source s) (host.included source t)

/-- Runs of one computation from states that look alike agree. -/
theorem Render.run_agree {α : Type} (hcat : host.env.catalog.AnswersAlike related)
    (hr : host.Restoring) (ha : host.Agreeing related strict) (x : Render α)
    (h : s.LooksLike related strict t) :
    Rendered.Agree related strict (x.run host s) (x.run host t) := by
  induction x generalizing s t with
  | done | fail => exact fun _ => ⟨rfl, h.cache⟩
  | var name next ih =>
    rw [run, run, h.vars]
    exact ih _ h
  | outlet slot next ih =>
    rw [run, run, h.outlet]
    exact ih _ h
  | lookup name next ih =>
    obtain ⟨hfound, hc⟩ := hcat _ _ h.cache name
    rw [run, run]
    dsimp only
    rw [hfound]
    exact ih _ (h.withCache hc)
  | component invocation next ih =>
    rw [run, run]
    exact (ha.component invocation h.toAlike).andThen fun text hc =>
      ih text (h.after (hr.component _ _) (hr.component _ _) hc)
  | included source next ih =>
    rw [run, run]
    exact (ha.included source h).andThen fun text hc =>
      ih text (h.after (hr.included _ _) (hr.included _ _) hc)

/-- What is checked before a component is entered sees the chain and the cache alone. -/
theorem prepare_agree {env : Environment} (hcat : env.catalog.AnswersAlike related)
    (invocation : Invocation) (h : s.Alike related strict t) :
    Rendered.Agree related strict (prepare env invocation s) (prepare env invocation t) := by
  unfold prepare
  dsimp only
  cases canonicalName? invocation.name with
  | none => exact fun _ => ⟨rfl, h.cache⟩
  | some canonical =>
    dsimp only
    by_cases hs : canonical ∈ s.chain
    · rw [if_pos (by simpa using hs)]
      rintro (⟨_, hok⟩ | hstrict)
      · cases hok
      · rw [if_pos (by simpa [← h.chain_eq hstrict] using hs), h.chain_eq hstrict]
        exact ⟨rfl, h.cache⟩
    · have ht : canonical ∉ t.chain := fun ht => hs (h.chain ht)
      rw [if_neg (by simpa using hs), if_neg (by simpa using ht)]
      obtain ⟨hfound, hc⟩ := hcat _ _ h.cache canonical
      generalize env.catalog.lookup s.cache canonical = x at hfound hc
      generalize env.catalog.lookup t.cache canonical = y at hfound hc
      obtain ⟨found, c⟩ := x
      obtain ⟨found', d⟩ := y
      obtain rfl : found = found' := hfound
      cases found with
      | error e => exact fun _ => ⟨rfl, hc⟩
      | ok found => cases found <;> exact fun _ => ⟨rfl, hc⟩

/-- A component that is entered from scopes that are alike gives the same text. -/
theorem renderComponent_agree (hcat : host.env.catalog.AnswersAlike related)
    (hr : host.Restoring) (ha : host.Agreeing related strict) (invocation : Invocation)
    (h : s.Alike related strict t) :
    Rendered.Agree related strict (renderComponent host invocation s)
      (renderComponent host invocation t) := by
  refine (prepare_agree hcat invocation h).andThen fun entry hc => ?_
  have inner := h.after (prepare_sameScope _ _ _) (prepare_sameScope _ _ _) hc
  exact (Render.run_agree hcat hr ha _ (inner.enter entry)).trim

/-- At every depth the host compares what is rendered with it. -/
theorem Host.atDepth_agree {env : Environment} (hcat : env.catalog.AnswersAlike related)
    (depth : Nat) : (Host.atDepth env depth).Agreeing related strict := by
  induction depth with
  | zero => exact ⟨fun _ _ _ h _ => ⟨rfl, h.cache⟩, fun _ _ _ h _ => ⟨rfl, h.cache⟩⟩
  | succ depth ih =>
    have hr := Host.atDepth_restoring env depth
    have hcat' : (Host.atDepth env depth).env.catalog.AnswersAlike related := by
      rw [Host.atDepth_env]
      exact hcat
    refine ⟨fun invocation _ _ h => renderComponent_agree hcat' hr ih invocation h,
      fun source s t h => ?_⟩
    change Rendered.Agree related strict (renderIncluded _ source s) (renderIncluded _ source t)
    unfold renderIncluded
    split
    · exact fun _ => ⟨rfl, h.cache⟩
    · exact Render.run_agree hcat' hr ih _ h

end

/-- Caches with which lookups find the same answer alike. -/
theorem Catalog.answersAlike_finds (catalog : Catalog)
    (finds : String → Except ComponentError (Option Definition)) :
    catalog.AnswersAlike fun c d => catalog.Finds finds c ∧ catalog.Finds finds d :=
  fun _ _ ⟨hc, hd⟩ name => ⟨(hc name).trans (hd name).symm, hc.lookup name, hd.lookup name⟩

/-- What lookups find stays the same while something is rendered. -/
theorem Render.run_finds {α : Type} {env : Environment} {depth : Nat}
    {finds : String → Except ComponentError (Option Definition)} (x : Render α) (s : State)
    (h : env.catalog.Finds finds s.cache) :
    env.catalog.Finds finds (x.run (Host.atDepth env depth) s).2.cache := by
  have hcat := env.catalog.answersAlike_finds finds
  have alike : State.LooksLike (fun c d => env.catalog.Finds finds c ∧ env.catalog.Finds finds d)
      True s s :=
    { cache := ⟨h, h⟩, chain := List.Subset.refl _, chain_eq := fun _ => rfl, vars := rfl,
      frame := rfl }
  exact (Render.run_agree (by simpa using hcat) (Host.atDepth_restoring env depth)
    (Host.atDepth_agree hcat depth) x alike (.inr trivial)).2.1

/-- So it does while a component is. -/
theorem Host.atDepth_finds {env : Environment} (depth : Nat)
    {finds : String → Except ComponentError (Option Definition)} (invocation : Invocation)
    (s : State) (h : env.catalog.Finds finds s.cache) :
    env.catalog.Finds finds ((Host.atDepth env depth).component invocation s).2.cache := by
  rw [← Render.run_invoke]
  exact Render.run_finds _ s h

/-! ## Isolation -/

/-- Equal caches answer alike. -/
theorem Catalog.answersAlike_eq (catalog : Catalog) : catalog.AnswersAlike (· = ·) := by
  rintro c _ rfl name
  exact ⟨rfl, rfl⟩

/-- A component that is rendered from two states with the same cache does not depend on the
variables and frames of its caller. If the chains are equal the results are, errors included; if
the second chain holds no other names than the first one, a text that is rendered from the first
state is rendered from the second one; so a text that is rendered inside of others is the text
of the component on its own. -/
theorem run_invoke_isolated (env : Environment) (invocation : Invocation) {s t : State}
    (hcache : s.cache = t.cache) :
    (s.chain = t.chain →
      (env.run (Render.invoke invocation) s).1 = (env.run (Render.invoke invocation) t).1) ∧
    (t.chain ⊆ s.chain → ∀ text, (env.run (Render.invoke invocation) s).1 = .ok text →
      (env.run (Render.invoke invocation) t).1 = .ok text) ∧
    (∀ text, (env.run (Render.invoke invocation) s).1 = .ok text →
      (env.render invocation s.cache).1 = .ok text) := by
  have agree (strict : Prop) {t : State} (h : s.Alike (· = ·) strict t) :
      Rendered.Agree (· = ·) strict (env.run (Render.invoke invocation) s)
        (env.run (Render.invoke invocation) t) := by
    simp only [Environment.run, Render.run_invoke, ← h.cache]
    exact (Host.atDepth_agree env.catalog.answersAlike_eq _).component invocation h
  refine ⟨fun hchain => ?_, fun hchain text hs => ?_, fun text hs => ?_⟩
  · exact (agree True ⟨hcache, by rw [hchain]; exact List.Subset.refl _, fun _ => hchain⟩
      (.inr trivial)).1
  · rw [← (agree False ⟨hcache, hchain, False.elim⟩ (.inl ⟨text, hs⟩)).1, hs]
  · have alone : s.Alike (· = ·) False (.start [] s.cache) :=
      ⟨rfl, List.nil_subset _, False.elim⟩
    rw [← hs]
    exact (agree False alone (.inl ⟨text, hs⟩)).1.symm

/-- An environment without files. -/
def Environment.bare : Environment :=
  { config := {}, tags := [], functions := [], globals := [], files := .dir [] }

/-- The title of a card. -/
def cardInvocation : Invocation := { name := "card", props := [("title", .string "Hello")] }

/-- A state in a page with a title of its own and content, where a card shows its title. -/
def State.inPage : State where
  vars := [("title", .string "Page")]
  frames := [{ content := some "body", slots := [] }]
  chain := ["page"]
  cache := [("card", {
    name := "card", path := "card.tpl", declaration := {},
    template := { name := "card.tpl", nodes := [.output ⟨0, 9⟩ (.var ⟨3, 8⟩ "title")] } })]

/-- The card shows its own title in the page, elsewhere on the page and on its own. -/
theorem run_invoke_isolated_inPage :
    (Environment.bare.run (Render.invoke cardInvocation) .inPage).1 =
        (Environment.bare.run (Render.invoke cardInvocation)
          { State.inPage with vars := [], frames := [] }).1 ∧
      (Environment.bare.render cardInvocation State.inPage.cache).1 = .ok "Hello" := by
  have shown : (Environment.bare.run (Render.invoke cardInvocation) .inPage).1 = .ok "Hello" := by
    obtain ⟨depth, hrun⟩ := Environment.bare.run_invoke cardInvocation .inPage
    have hname : canonicalName? cardInvocation.name = some "card" := by decide
    have hchain : State.inPage.chain.contains "card" = false := by decide
    rw [hrun]
    simp only [renderComponent, Host.atDepth_env, prepare, hname, hchain]
    rfl
  obtain ⟨hsame, -, halone⟩ := run_invoke_isolated Environment.bare cardInvocation
    (s := State.inPage) (t := { State.inPage with vars := [], frames := [] }) rfl
  exact ⟨hsame rfl, halone "Hello" shown⟩

end SlotTemplates
