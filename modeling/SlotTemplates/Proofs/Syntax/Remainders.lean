import SlotTemplates.Proofs.Syntax.Sources

/-!
# Tokens that are left

Reading goes from the front to the back: what a phrase leaves of the tokens that it is read from are
the last of them (`Grammar.Derives.suffix`), and so are the tokens before which a parser fails
(`Grammar.expr_failure` to `Grammar.slotName_failure`).
-/

namespace SlotTemplates

theorem suffix_cons_of_suffix {α : Type} {a : α} {s t : List α} (h : s <:+ t) : s <:+ a :: t :=
  h.trans (List.suffix_cons a t)

theorem suffix_of_cons_suffix {α : Type} {a : α} {s t : List α} (h : a :: s <:+ t) : s <:+ t :=
  (List.suffix_cons a s).trans h

namespace Grammar

section
variable {phrase : Phrase} {s rest : List Lexeme} {f : Failure}

/-- What a phrase leaves are the last of the tokens that it is read from. -/
theorem Derives.suffix (h : Derives phrase s rest) : rest <:+ s := by
  induction h with
  | expr _ _ ihleft ihtail | concat _ _ ihleft ihtail | access _ _ ihleft ihtail =>
    exact ihtail.trans ihleft
  | coalesceEnd | tildeEnd | accessEnd => exact List.suffix_refl _
  | coalesce _ _ ihright ihtail | tilde _ _ ihright ihtail =>
    exact suffix_cons_of_suffix (ihtail.trans ihright)
  | attr _ ihtail => exact suffix_cons_of_suffix (suffix_cons_of_suffix ihtail)
  | index _ _ ihposition ihtail =>
    exact suffix_cons_of_suffix (ihtail.trans (suffix_of_cons_suffix ihposition))
  | call _ ihargs => exact suffix_cons_of_suffix (suffix_cons_of_suffix ihargs)
  | var | literal | noItems | noEntries => exact List.suffix_cons _ _
  | list _ ihvalues | map _ ihvalues => exact suffix_cons_of_suffix ihvalues
  | paren _ ihe => exact suffix_cons_of_suffix (suffix_of_cons_suffix ihe)
  | lastItem _ ihe => exact suffix_of_cons_suffix ihe
  | item _ _ ihe ihvalues => exact ihvalues.trans (suffix_of_cons_suffix ihe)
  | lastEntry _ _ ihe =>
    exact suffix_cons_of_suffix (suffix_cons_of_suffix (suffix_of_cons_suffix ihe))
  | entry _ _ _ ihe ihvalues =>
    exact suffix_cons_of_suffix
      (suffix_cons_of_suffix (ihvalues.trans (suffix_of_cons_suffix ihe)))

/-! ## Expressions -/

mutual

/-- An expression fails before some of the last of its tokens, or before all of them. -/
theorem expr_failure {pending : List Expectation} {s : List Lexeme} {f : Failure}
    (h : expr pending s = .error f) : f.rest <:+ s := by
  rw [expr] at h
  split at h
  · next hleft =>
    cases h
    exact concat_failure hleft
  next left mid more hshort hleft =>
  split at h
  · next htail =>
    cases h
    exact (coalesceTail_failure htail).trans (concat_sound hleft).suffix
  · cases h
termination_by 8 * s.length + 4

theorem coalesceTail_failure {left : Expr} {pending : List Expectation} {s : List Lexeme}
    {f : Failure} (h : coalesceTail left pending s = .error f) : f.rest <:+ s := by
  rw [coalesceTail.eq_def] at h
  split at h
  · next span r =>
    split at h
    · next hright =>
      cases h
      exact suffix_cons_of_suffix (concat_failure hright)
    next right mid more hshort hright =>
    split at h
    · next htail =>
      cases h
      exact suffix_cons_of_suffix
        ((coalesceTail_failure htail).trans (concat_sound hright).suffix)
    · cases h
  · cases h
termination_by 8 * s.length + 4
decreasing_by all_goals (subst_vars; simp only [List.length_cons]; omega)

theorem concat_failure {pending : List Expectation} {s : List Lexeme} {f : Failure}
    (h : concat pending s = .error f) : f.rest <:+ s := by
  rw [concat] at h
  split at h
  · next hleft =>
    cases h
    exact access_failure hleft
  next left mid more hshort hleft =>
  split at h
  · next htail =>
    cases h
    exact (concatTail_failure htail).trans (access_sound hleft).suffix
  · cases h
termination_by 8 * s.length + 3

theorem concatTail_failure {left : Expr} {pending : List Expectation} {s : List Lexeme}
    {f : Failure} (h : concatTail left pending s = .error f) : f.rest <:+ s := by
  rw [concatTail.eq_def] at h
  split at h
  · next span r =>
    split at h
    · next hright =>
      cases h
      exact suffix_cons_of_suffix (access_failure hright)
    next right mid more hshort hright =>
    split at h
    · next htail =>
      cases h
      exact suffix_cons_of_suffix
        ((concatTail_failure htail).trans (access_sound hright).suffix)
    · cases h
  · cases h
termination_by 8 * s.length + 3
decreasing_by all_goals (subst_vars; simp only [List.length_cons]; omega)

theorem access_failure {pending : List Expectation} {s : List Lexeme} {f : Failure}
    (h : access pending s = .error f) : f.rest <:+ s := by
  rw [access] at h
  split at h
  · next hbase =>
    cases h
    exact atom_failure hbase
  next base mid more hshort hbase =>
  split at h
  · next htail =>
    cases h
    exact (accessTail_failure htail).trans (atom_sound hbase).suffix
  · cases h
termination_by 8 * s.length + 2

theorem accessTail_failure {base : Expr} {pending : List Expectation} {s : List Lexeme}
    {f : Failure} (h : accessTail base pending s = .error f) : f.rest <:+ s := by
  rw [accessTail.eq_def] at h
  split at h
  · split at h
    · next htail =>
      cases h
      exact suffix_cons_of_suffix (suffix_cons_of_suffix (accessTail_failure htail))
    · cases h
  · cases h
    exact List.suffix_cons _ _
  · next span r =>
    split at h
    · next hposition =>
      cases h
      exact suffix_cons_of_suffix (expr_failure hposition)
    next position mid more hshort hposition =>
    have hmid := (expr_sound hposition).suffix
    split at h
    · next close mid hshort =>
      have hlength : mid.length + 1 < r.length := hshort
      split at h
      · next htail =>
        cases h
        exact suffix_cons_of_suffix
          ((accessTail_failure htail).trans (suffix_of_cons_suffix hmid))
      · cases h
    · cases h
      exact suffix_cons_of_suffix hmid
  · cases h
termination_by 8 * s.length + 2
decreasing_by all_goals (subst_vars; simp only [List.length_cons]; omega)

theorem atom_failure {pending : List Expectation} {s : List Lexeme} {f : Failure}
    (h : atom pending s = .error f) : f.rest <:+ s := by
  rw [atom.eq_def] at h
  split at h
  · cases h
    exact List.suffix_refl _
  · split at h
    · next hargs =>
      cases h
      exact suffix_cons_of_suffix (suffix_cons_of_suffix (items_failure hargs))
    · cases h
  · cases h
  · split at h
    · next hvalues =>
      cases h
      exact suffix_cons_of_suffix (items_failure hvalues)
    · cases h
  · split at h
    · next hvalues =>
      cases h
      exact suffix_cons_of_suffix (entries_failure hvalues)
    · cases h
  · split at h
    · next hinner =>
      cases h
      exact suffix_cons_of_suffix (expr_failure hinner)
    next inner mid more hshort hinner =>
    split at h
    · cases h
    · cases h
      exact suffix_cons_of_suffix (expr_sound hinner).suffix
  · split at h
    · cases h
    · cases h
      exact List.suffix_refl _
termination_by 8 * s.length + 1
decreasing_by all_goals (subst_vars; simp only [List.length_cons]; omega)

theorem items_failure {close : Token} {s : List Lexeme} {f : Failure}
    (h : items close s = .error f) : f.rest <:+ s := by
  rw [items.eq_def] at h
  split at h
  · split at h
    · cases h
    · exact itemsFrom_failure h
  · exact itemsFrom_failure h
termination_by 8 * s.length + 6
decreasing_by all_goals (subst_vars; omega)

theorem itemsFrom_failure {close : Token} {s : List Lexeme} {f : Failure}
    (h : itemsFrom close s = .error f) : f.rest <:+ s := by
  rw [itemsFrom] at h
  split at h
  · next he =>
    cases h
    exact expr_failure he
  next e mid more hshort he =>
  have hmid := (expr_sound he).suffix
  split at h
  · next comma mid hshort =>
    have hlength : mid.length + 1 < s.length := hshort
    split at h
    · next hvalues =>
      cases h
      exact (items_failure hvalues).trans (suffix_of_cons_suffix hmid)
    · cases h
  · split at h
    · cases h
    · cases h
      exact hmid
  · cases h
    exact hmid
termination_by 8 * s.length + 5

theorem entries_failure {s : List Lexeme} {f : Failure} (h : entries s = .error f) :
    f.rest <:+ s := by
  rw [entries.eq_def] at h
  split at h
  · cases h
  · next t span colon r hopen =>
    split at h
    · cases h
      exact List.suffix_refl _
    next key hkey =>
    split at h
    · next he =>
      cases h
      exact suffix_cons_of_suffix (suffix_cons_of_suffix (expr_failure he))
    next e mid more hshort he =>
    have hmid := suffix_cons_of_suffix (a := ⟨t, span⟩)
      (suffix_cons_of_suffix (a := ⟨.colon, colon⟩) (expr_sound he).suffix)
    split at h
    · next comma mid hshort =>
      have hlength : mid.length + 1 < r.length := hshort
      split at h
      · next hvalues =>
        cases h
        exact (entries_failure hvalues).trans (suffix_of_cons_suffix hmid)
      · cases h
    · cases h
    · cases h
      exact hmid
  · split at h
    · cases h
      exact List.suffix_refl _
    · cases h
      exact List.suffix_cons _ _
  · cases h
    exact List.suffix_refl _
termination_by 8 * s.length + 5
decreasing_by all_goals (subst_vars; simp only [List.length_cons]; omega)

end

/-! ## Attributes and whole sources -/

theorem Separates.suffix {next : List Lexeme} (h : Separates s next) : next <:+ s := by
  cases h with
  | nothing => exact List.suffix_refl _
  | comma => exact List.suffix_cons _ _

theorem attrs_failure {pending : List Expectation} {s : List Lexeme} {f : Failure}
    (h : attrs pending s = .error f) : f.rest <:+ s := by
  rw [attrs.eq_def] at h
  split at h
  · cases h
  · next span r =>
    split at h
    · next he =>
      cases h
      exact suffix_cons_of_suffix (expr_failure he)
    next e mid more hshort he =>
    obtain ⟨pending, next, hmid, hnext⟩ := attrsAfter_eq more mid
    rw [map_eq_error_iff, hnext] at h
    have hlength := hmid.length_le
    exact suffix_cons_of_suffix
      ((attrs_failure h).trans (hmid.suffix.trans (expr_sound he).suffix))
  · next name span equals r =>
    split at h
    · next he =>
      cases h
      exact suffix_cons_of_suffix (suffix_cons_of_suffix (expr_failure he))
    next e mid more hshort he =>
    obtain ⟨pending, next, hmid, hnext⟩ := attrsAfter_eq more mid
    rw [map_eq_error_iff, hnext] at h
    have hlength := hmid.length_le
    exact suffix_cons_of_suffix (suffix_cons_of_suffix
      ((attrs_failure h).trans (hmid.suffix.trans (expr_sound he).suffix)))
  · next name span mid hequals =>
    obtain ⟨pending, next, hmid, hnext⟩ := attrsAfter_eq [fixed .equals] mid
    rw [map_eq_error_iff, hnext] at h
    have hlength := hmid.length_le
    exact suffix_cons_of_suffix ((attrs_failure h).trans hmid.suffix)
  · cases h
    exact List.suffix_refl _
termination_by s.length
decreasing_by all_goals (subst_vars; simp only [List.length_cons]; omega)

theorem finish_failure {α : Type} {value : α} {pending : List Expectation}
    (h : finish value rest pending = .error f) : f.rest = rest := by
  unfold finish at h
  split at h
  · cases h
  · cases h
    rfl

theorem wholeExpr_failure (h : wholeExpr s = .error f) : f.rest <:+ s := by
  unfold wholeExpr at h
  split at h
  · next he =>
    cases h
    exact expr_failure he
  · next p hp =>
    rw [finish_failure h]
    exact (expr_sound hp).suffix

theorem dynamic_failure (h : dynamic s = .error f) : f.rest <:+ s := by
  unfold dynamic at h
  split at h
  · next he =>
    cases h
    exact expr_failure he
  · next p hp => exact (attrs_failure (map_eq_error_iff.1 h)).trans (expr_sound hp).suffix

theorem slotName_failure (h : slotName s = .error f) : f.rest <:+ s := by
  unfold slotName at h
  split at h
  · rw [finish_failure h]
    exact List.suffix_cons _ _
  · rw [finish_failure h]
    exact List.suffix_cons _ _
  · cases h
    exact List.suffix_refl _

end

end Grammar

end SlotTemplates
