import SlotTemplates.Proofs.Render.Isolation
import SlotTemplates.Session

/-!
# The cache does not show

As long as the files stay the same, what was asked before does not change an answer
(`Query.answer_after`). Every operation keeps the cache faithful (`Operation.perform_faithful`),
so a sequence of them does (`cacheAfter_faithful`), also one in which renders and preloads fail
half-way; and with two faithful caches every query has the same answer
(`Query.answer_of_faithful`). For renders this is the comparison of `Render.run_agree` with caches
that are both faithful.
-/

namespace SlotTemplates

variable {env : Environment} {c d : Cache}

/-! ## Rendering with faithful caches -/

/-- Faithful caches answer alike. -/
theorem Catalog.answersAlike_faithful (catalog : Catalog) :
    catalog.AnswersAlike fun c d => catalog.Faithful c ∧ catalog.Faithful d := by
  rintro c d ⟨hc, hd⟩ name
  obtain ⟨hfound, hc'⟩ := catalog.lookup_of_faithful hc name
  obtain ⟨hfound', hd'⟩ := catalog.lookup_of_faithful hd name
  exact ⟨hfound.trans hfound'.symm, hc', hd'⟩

/-- A component of a faithful cache resolves. -/
theorem Catalog.Faithful.resolves {catalog : Catalog} (h : catalog.Faithful c)
    {entry : String × Definition} (hm : entry ∈ c) : (catalog.resolve entry.1).isSome := by
  obtain ⟨definition, hd⟩ := Entries.get?_of_mem hm
  exact resolve_of_fetch (h _ _ hd)

/-- With a faithful cache, the host is that of an empty one. -/
theorem Environment.host_of_faithful (h : env.catalog.Faithful c) : env.host c = env.host [] := by
  have stale : (c.filter fun entry => (env.catalog.resolve entry.1).isNone) = [] := by
    refine List.filter_eq_nil_iff.2 fun entry hm => ?_
    have := h.resolves hm
    simp [Option.isSome_iff_ne_none.1 this]
  simp [Environment.host, depthBound, stale]

/-- From states that differ in their faithful caches alone, a computation has the same result,
and it leaves a faithful cache. -/
theorem Environment.run_of_faithful {α : Type} (x : Render α) (s : State)
    (hc : env.catalog.Faithful c) (hd : env.catalog.Faithful d) :
    (env.run x { s with cache := c }).1 = (env.run x { s with cache := d }).1 ∧
      env.catalog.Faithful (env.run x { s with cache := c }).2.cache := by
  have alike : State.LooksLike (fun c d => env.catalog.Faithful c ∧ env.catalog.Faithful d) True
      { s with cache := c } { s with cache := d } :=
    { cache := ⟨hc, hd⟩, chain := List.Subset.refl _, chain_eq := fun _ => rfl, vars := rfl,
      frame := rfl }
  have hcat := env.catalog.answersAlike_faithful
  unfold Environment.run
  dsimp only
  rw [host_of_faithful hc, host_of_faithful hd]
  obtain ⟨heq, hcache, -⟩ := Render.run_agree (by simpa [Environment.host] using hcat)
    (Host.atDepth_restoring _ _) (Host.atDepth_agree hcat _) x alike (.inr trivial)
  exact ⟨heq, hcache⟩

/-! ## Operations -/

theorem Catalog.SameAnswer.answer {α : Type} {x y : α × Cache}
    (h : env.catalog.SameAnswer x y) (answer : α → Answer) :
    env.catalog.SameAnswer (Answer.of answer x) (Answer.of answer y) :=
  ⟨congrArg answer h.1, h.2⟩

section
variable (hc : env.catalog.Faithful c) (hd : env.catalog.Faithful d)
include hc hd

theorem Environment.runAlone_same {α : Type} (x : Render α) (vars : Entries Value) :
    env.catalog.SameAnswer (env.runAlone x vars c) (env.runAlone x vars d) :=
  run_of_faithful x (.start vars []) hc hd

theorem Environment.renderSource_same (name source : String) (vars : Entries Value) :
    env.catalog.SameAnswer (env.renderSource name source vars c)
      (env.renderSource name source vars d) := by
  unfold Environment.renderSource
  split
  · exact runAlone_same hc hd _ _
  · exact ⟨rfl, hc⟩

theorem Environment.renderFile_same (path : Path) (vars : Entries Value) :
    env.catalog.SameAnswer (env.renderFile path vars c) (env.renderFile path vars d) := by
  unfold Environment.renderFile
  split
  · exact renderSource_same hc hd path _ vars
  · exact ⟨rfl, hc⟩

/-- With faithful caches every query has the same answer, and the cache stays faithful. -/
theorem Query.answer_of_faithful (query : Query) :
    env.catalog.SameAnswer (query.answer env c) (query.answer env d) := by
  cases query with
  | component name => exact (Catalog.lookup_same hc hd name).answer _
  | hasComponent name => exact (Catalog.has_same hc hd name).answer _
  | props name => exact (Catalog.lookup_same hc hd name).answer _
  | slots name => exact (Catalog.lookup_same hc hd name).answer _
  | preload => exact (Catalog.preload_same hc hd).answer _
  | compile name source => exact ⟨rfl, hc⟩
  | render invocation =>
    exact (Environment.runAlone_same hc hd (Render.invoke invocation) []).answer _
  | renderText source vars =>
    exact (Environment.renderSource_same hc hd Environment.textName source vars).answer _
  | renderFile path vars => exact (Environment.renderFile_same hc hd path vars).answer _

end

/-- Every operation keeps a cache faithful, whether it succeeds or fails. -/
theorem Operation.perform_faithful (hc : env.catalog.Faithful c) (operation : Operation) :
    env.catalog.Faithful (operation.perform env c).2 := by
  cases operation with
  | query query => exact (query.answer_of_faithful hc hc).2
  | invalidate name => exact hc.invalidate name
  | clear => exact Catalog.faithful_nil _

/-- So does every sequence of operations. -/
theorem cacheAfter_faithful (hc : env.catalog.Faithful c) (operations : List Operation) :
    env.catalog.Faithful (cacheAfter env c operations) := by
  induction operations generalizing c with
  | nil => exact hc
  | cons operation operations ih => exact ih (operation.perform_faithful hc)

/-- What was asked and dropped before does not show in an answer: it is the one that the
environment gives when nothing is cached. -/
theorem Query.answer_after (env : Environment) (operations : List Operation) (query : Query) :
    (query.answer env (cacheAfter env [] operations)).1 = (query.answer env []).1 :=
  (query.answer_of_faithful (cacheAfter_faithful (Catalog.faithful_nil _) operations)
    (Catalog.faithful_nil _)).1

end SlotTemplates
