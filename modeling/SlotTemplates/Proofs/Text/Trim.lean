import Mathlib.Data.List.DropRight
import SlotTemplates.Text.Blank

/-!
# Trimmed texts

What trimming leaves has no blank character at either end (`trimmed_trim`), and a text like that is
not changed by it (`Trimmed.trim_eq`). So trimming twice is trimming once, and texts that are
trimmed stay so when they are joined (`Trimmed.append`).
-/

namespace SlotTemplates

/-- A text without a blank character at either end. -/
structure Trimmed (cs : List Char) : Prop where
  first : ∀ c ∈ cs.head?, isBlank c = false
  last : ∀ c ∈ cs.getLast?, isBlank c = false

variable {cs ds : List Char}

theorem trimmed_nil : Trimmed [] := ⟨nofun, nofun⟩

theorem trimEnd_eq_rdropWhile (cs : List Char) : trimEnd cs = cs.rdropWhile isBlank := rfl

/-- A text is what trimming leaves of its end, and blanks. -/
theorem exists_trimEnd_append (cs : List Char) :
    ∃ ws, cs = trimEnd cs ++ ws ∧ ∀ c ∈ ws, isBlank c = true :=
  ⟨cs.rtakeWhile isBlank, List.rdropWhile_append_rtakeWhile.symm, fun _ => List.mem_rtakeWhile_imp⟩

/-- Blanks at the end make no difference to what trimming leaves. -/
theorem trimEnd_append {ws : List Char} (h : ∀ c ∈ ws, isBlank c = true) :
    trimEnd (cs ++ ws) = trimEnd cs := by
  rw [trimEnd, List.reverse_append,
    List.dropWhile_append_of_pos fun c hc => h c (List.mem_reverse.1 hc), ← trimEnd]

theorem trimEnd_eq_self (h : ∀ c ∈ cs.getLast?, isBlank c = false) : trimEnd cs = cs := by
  rw [trimEnd_eq_rdropWhile, List.rdropWhile_eq_self_iff]
  intro hne
  simp [h _ (List.getLast?_eq_some_getLast hne)]

theorem isBlank_getLast?_trimEnd (cs : List Char) :
    ∀ c ∈ (trimEnd cs).getLast?, isBlank c = false := by
  intro c hc
  obtain ⟨hne, rfl⟩ := List.mem_getLast?_eq_getLast hc
  exact Bool.eq_false_iff.2 (List.rdropWhile_last_not isBlank cs hne)

/-- Trimming the end keeps a first character that is not blank. -/
theorem head?_trimEnd (h : ∀ c ∈ cs.head?, isBlank c = false) : (trimEnd cs).head? = cs.head? := by
  cases cs with
  | nil => rfl
  | cons c cs =>
    obtain ⟨ws, hws, hblank⟩ := exists_trimEnd_append (c :: cs)
    cases htrim : trimEnd (c :: cs) with
    | nil =>
      rw [htrim, List.nil_append] at hws
      have hc : isBlank c = true := hblank c (hws ▸ List.mem_cons_self)
      rw [h c rfl] at hc
      cases hc
    | cons d ds =>
      rw [htrim, List.cons_append] at hws
      rw [(List.cons.inj hws).1]
      rfl

/-- Nothing blank is left at the ends of a text that was trimmed. -/
theorem trimmed_trim (cs : List Char) : Trimmed (trim cs) := by
  have hstart : ∀ c ∈ (trimStart cs).head?, isBlank c = false := by
    intro c hc
    have hnot := List.head?_dropWhile_not isBlank cs
    rw [← trimStart, Option.mem_def.1 hc] at hnot
    simpa using hnot
  refine ⟨?_, isBlank_getLast?_trimEnd _⟩
  rw [trim, head?_trimEnd hstart]
  exact hstart

namespace Trimmed

theorem trim_eq (h : Trimmed cs) : trim cs = cs := by
  have hstart : trimStart cs = cs := by
    cases cs with
    | nil => rfl
    | cons c cs => simp [trimStart, h.first c rfl]
  rw [trim, hstart, trimEnd_eq_self h.last]

/-- Texts without blanks at their ends have none where they are joined. -/
theorem append (hc : Trimmed cs) (hd : Trimmed ds) : Trimmed (cs ++ ds) := by
  refine ⟨fun c h => ?_, fun c h => ?_⟩
  · rw [List.head?_append] at h
    cases hcs : cs.head? with
    | none => exact hd.first c (by simpa [hcs] using h)
    | some d => exact hc.first c (by simpa [hcs] using h)
  · rw [List.getLast?_append] at h
    cases hds : ds.getLast? with
    | none => exact hc.last c (by simpa [hds] using h)
    | some d => exact hd.last c (by simpa [hds] using h)

end Trimmed

/-! ## Strings -/

/-- A string without a blank character at either end. -/
def TrimmedText (s : String) : Prop := Trimmed s.toList

theorem trimmedText_trimText (s : String) : TrimmedText (trimText s) := by
  simpa [TrimmedText, trimText] using trimmed_trim s.toList

theorem trimmedText_empty : TrimmedText "" := trimmed_nil

theorem TrimmedText.trimText_eq {s : String} (h : TrimmedText s) : trimText s = s := by
  rw [trimText, Trimmed.trim_eq h, String.ofList_toList]

theorem TrimmedText.append {s t : String} (hs : TrimmedText s) (ht : TrimmedText t) :
    TrimmedText (s ++ t) := by
  rw [TrimmedText, String.toList_append]
  exact Trimmed.append hs ht

end SlotTemplates
