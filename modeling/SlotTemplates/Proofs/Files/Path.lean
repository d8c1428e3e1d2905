import SlotTemplates.Files.Path

/-!
# Paths that are joined

A path that is joined out of a base and names has the parts that the base has in front, its
`Path.lead`, and behind them the names (`Path.rawParts_join`, `Path.lead_foldl_join`,
`Path.parts_foldl_join`). What is written in front of the names is the base itself
(`Path.toList_foldl_join`).
-/

namespace SlotTemplates

namespace Path

/-- The parts that a base has in front of what is joined to it. -/
def lead (base : Path) : List (List Char) :=
  if base.isEmpty then []
  else if base.toList.getLast? = some '/' then base.rawParts.dropLast
  else base.rawParts

theorem pieces_append_slash (front back : List Char) :
    pieces (· = '/') (front ++ '/' :: back) = pieces (· = '/') front ++ pieces (· = '/') back :=
  pieces_append_break (by decide) _ _

/-- Joining puts the parts of a relative path behind those of the base. -/
theorem rawParts_join (base : Path) {p : Path} (hp : p.isAbsolute = false) :
    (join base p).rawParts = base.lead ++ p.rawParts := by
  unfold join lead
  rw [hp, Bool.false_or]
  by_cases hempty : base.isEmpty = true
  · simp [hempty]
  rw [if_neg hempty, if_neg hempty]
  by_cases hslash : base.toList.getLast? = some '/'
  · rw [if_pos hslash, if_pos hslash]
    obtain ⟨front, hfront⟩ := List.getLast?_eq_some_iff.1 hslash
    rw [rawParts, rawParts, String.toList_append, hfront, List.append_assoc,
      List.singleton_append, pieces_append_slash, pieces_append_slash, pieces,
      List.dropLast_concat, rawParts]
  · rw [if_neg hslash, if_neg hslash, rawParts, String.toList_append, String.toList_append,
      List.append_assoc]
    exact pieces_append_slash _ _

/-- A part of a path that is a name alone. -/
def IsName (p : Path) : Prop := p.toList ≠ [] ∧ ∀ c ∈ p.toList, c ≠ '/'

theorem IsName.isAbsolute {p : Path} (h : p.IsName) : p.isAbsolute = false := by
  unfold Path.isAbsolute
  cases hp : p.toList with
  | nil => exact absurd hp h.1
  | cons c cs =>
    have := h.2 c (by rw [hp]; exact List.mem_cons_self)
    simpa using this

theorem IsName.rawParts {p : Path} (h : p.IsName) : p.rawParts = [p.toList] :=
  pieces_of_not_isBreak fun c hc => by simpa using h.2 c hc

/-- A name that is joined to a base is the last of its parts. -/
theorem lead_join (base : Path) {p : Path} (hp : p.IsName) :
    (join base p).lead = base.lead ++ [p.toList] := by
  have hparts := rawParts_join base hp.isAbsolute
  rw [hp.rawParts] at hparts
  obtain ⟨front, hfront⟩ : ∃ front, (join base p).toList = front ++ p.toList := by
    unfold join
    split
    · exact ⟨[], rfl⟩
    split
    · exact ⟨base.toList, String.toList_append⟩
    · exact ⟨base.toList ++ ['/'], by simp [String.toList_append]⟩
  obtain ⟨last, hlast⟩ := Option.isSome_iff_exists.1 (List.getLast?_isSome.2 hp.1)
  have hne : last ≠ '/' := hp.2 last (List.mem_of_getLast? hlast)
  have hempty : ¬ (join base p).isEmpty = true := by
    intro h
    rw [String.isEmpty_iff] at h
    rw [h] at hfront
    simp [hp.1] at hfront
  rw [lead, if_neg hempty, hfront, List.getLast?_append, hlast, if_neg (by simpa using hne), hparts]

/-- Names that are joined to a base one after the other are the last of its parts. -/
theorem lead_foldl_join (base : Path) {names : List Path} (h : ∀ name ∈ names, IsName name) :
    (names.foldl join base).lead = base.lead ++ names.map String.toList := by
  induction names generalizing base with
  | nil => simp
  | cons name names ih =>
    rw [List.foldl_cons, ih _ fun n hn => h n (List.mem_cons_of_mem _ hn),
      lead_join base (h name List.mem_cons_self)]
    simp

section
variable {names : List Path}

/-- The parts of a path that names are joined to are those in front of the names, and the names. -/
theorem parts_foldl_join (base : Path) (h : ∀ name ∈ names, IsName name) (hne : names ≠ []) :
    (names.foldl join base).parts = base.lead.map String.ofList ++ names := by
  obtain ⟨front, last, rfl⟩ := List.eq_nil_or_concat names |>.resolve_left hne
  rw [List.concat_eq_append] at h ⊢
  have hlast : IsName last := h last (by simp)
  have hfront : ∀ name ∈ front, IsName name := fun name hname => h name (by simp [hname])
  rw [parts, List.foldl_append, List.foldl_cons, List.foldl_nil,
    rawParts_join _ hlast.isAbsolute, lead_foldl_join _ hfront, hlast.rawParts]
  simp [Function.comp_def]

/-- What is joined to a base stands behind it, and is made of slashes and the names. -/
theorem toList_foldl_join {base : Path} (hbase : base ≠ "") (h : ∀ name ∈ names, IsName name) :
    ∃ more, (names.foldl join base).toList = base.toList ++ more ∧
      ∀ c ∈ more, c = '/' ∨ ∃ name ∈ names, c ∈ name.toList := by
  induction names generalizing base with
  | nil => exact ⟨[], by simp, nofun⟩
  | cons name names ih =>
    obtain ⟨hname, hnames⟩ := List.forall_mem_cons.1 h
    obtain ⟨between, hbetween, hslashes⟩ : ∃ between,
        (join base name).toList = base.toList ++ between ++ name.toList ∧
          ∀ c ∈ between, c = '/' := by
      unfold join
      simp only [hname.isAbsolute, Bool.false_or, String.isEmpty_iff, hbase, if_false]
      split
      · exact ⟨[], by simp, nofun⟩
      · exact ⟨['/'], by simp, by simp⟩
    have hjoined : join base name ≠ "" := by
      intro heq
      have hempty : (join base name).toList = [] := by rw [heq]; rfl
      rw [hbetween] at hempty
      exact hname.1 (List.append_eq_nil_iff.1 hempty).2
    obtain ⟨more, hmore, hchars⟩ := ih hjoined hnames
    refine ⟨between ++ name.toList ++ more, ?_, fun c hc => ?_⟩
    · rw [List.foldl_cons, hmore, hbetween]
      simp
    · rcases List.mem_append.1 hc with hc | hc
      · rcases List.mem_append.1 hc with hc | hc
        · exact .inl (hslashes c hc)
        · exact .inr ⟨name, List.mem_cons_self, hc⟩
      · rcases hchars c hc with hc | ⟨other, hother, hc⟩
        · exact .inl hc
        · exact .inr ⟨other, List.mem_cons_of_mem _ hother, hc⟩

end

/-- A base has one more part than it has in front of names if it ends in a slash: an empty one. -/
theorem rawParts_eq_lead {base : Path} (hbase : base ≠ "") :
    base.rawParts = base.lead ∨ base.rawParts = base.lead ++ [[]] := by
  unfold lead
  rw [if_neg (by simpa using hbase)]
  split
  · next hslash =>
    right
    obtain ⟨front, hfront⟩ := List.getLast?_eq_some_iff.1 hslash
    rw [rawParts, hfront, pieces_append_slash, pieces, List.dropLast_concat]
  · exact .inl rfl

end Path

end SlotTemplates
