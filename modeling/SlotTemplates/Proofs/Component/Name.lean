import SlotTemplates.Component.Name
import SlotTemplates.Proofs.Text.Trim

/-!
# Canonical names

A canonical name is made of segments that hold no separator and no blank character, with points
between them (`exists_canonicalSegments`), so that cutting it gives its segments back and it is
its own canonical form (`canonicalName?_canonical`).
-/

namespace SlotTemplates

/-- A character of joined segments is a point or stands in one of them. -/
theorem mem_joinSegments {segments : List (List Char)} {c : Char}
    (hc : c ∈ joinSegments segments) : c = '.' ∨ ∃ segment ∈ segments, c ∈ segment := by
  unfold joinSegments at hc
  induction segments with
  | nil => cases hc
  | cons segment rest ih =>
    cases rest with
    | nil => exact .inr ⟨segment, List.mem_cons_self, by simpa using hc⟩
    | cons next rest =>
      rw [List.intercalate_cons_cons, List.append_assoc, List.singleton_append] at hc
      rcases List.mem_append.1 hc with hc | hc
      · exact .inr ⟨segment, List.mem_cons_self, hc⟩
      rcases List.mem_cons.1 hc with rfl | hc
      · exact .inl rfl
      rcases ih hc with h | ⟨s, hs, hcs⟩
      · exact .inl h
      · exact .inr ⟨s, List.mem_cons_of_mem _ hs, hcs⟩

/-- Segments that make a canonical name: at least one, and all of them can be a segment. -/
structure CanonicalSegments (segments : List (List Char)) : Prop where
  ne_nil : segments ≠ []
  isSegment : ∀ segment ∈ segments, isSegment segment = true
  noSeparator : ∀ segment ∈ segments, ∀ c ∈ segment, isSeparator c = false

namespace CanonicalSegments

variable {segments : List (List Char)}

/-- A segment is not empty. -/
theorem segment_ne_nil (h : CanonicalSegments segments) {segment : List Char}
    (hs : segment ∈ segments) : segment ≠ [] := by
  have := h.isSegment segment hs
  rintro rfl
  simp [SlotTemplates.isSegment] at this

/-- A segment holds no point. -/
theorem not_point (h : CanonicalSegments segments) {segment : List Char}
    (hs : segment ∈ segments) : ∀ c ∈ segment, c ≠ '.' := by
  rintro c hc rfl
  exact absurd (h.noSeparator segment hs _ hc) (by decide)

/-- A segment holds no slash. -/
theorem not_slash (h : CanonicalSegments segments) {segment : List Char}
    (hs : segment ∈ segments) : ∀ c ∈ segment, c ≠ '/' := by
  rintro c hc rfl
  exact absurd (h.noSeparator segment hs _ hc) (by decide)

/-- The joined segments hold no blank character. -/
theorem not_isBlank_joinSegments (h : CanonicalSegments segments) :
    ∀ c ∈ joinSegments segments, isBlank c = false := by
  intro c hc
  rcases mem_joinSegments hc with rfl | ⟨segment, hs, hcs⟩
  · decide
  · have := h.isSegment segment hs
    simp only [SlotTemplates.isSegment, Bool.and_eq_true, List.all_eq_true,
      Bool.not_eq_true'] at this
    exact (this.2 c hcs).2

/-- The joined segments are cut into the segments again, at points and slashes. -/
theorem splitSegments_joinSegments (h : CanonicalSegments segments) :
    splitSegments (joinSegments segments) = segments :=
  pieces_intercalate (by decide) h.ne_nil h.noSeparator

/-- The joined segments are cut into the segments again, at points alone. -/
theorem pieces_joinSegments (h : CanonicalSegments segments) :
    pieces (· = '.') (joinSegments segments) = segments :=
  pieces_intercalate (by decide) h.ne_nil fun segment hs c hc => by
    simpa using h.not_point hs c hc

/-- The joined segments are a name with these segments. -/
theorem canonicalName?_joinSegments (h : CanonicalSegments segments) :
    canonicalName? (String.ofList (joinSegments segments)) =
      some (String.ofList (joinSegments segments)) := by
  have hall : segments.all SlotTemplates.isSegment = true := List.all_eq_true.2 h.isSegment
  simp [canonicalName?, nameSegments?, trim_eq_self h.not_isBlank_joinSegments,
    h.splitSegments_joinSegments, hall]

end CanonicalSegments

/-- A canonical name is made of segments. -/
theorem exists_canonicalSegments {name canonical : String}
    (h : canonicalName? name = some canonical) :
    ∃ segments, CanonicalSegments segments ∧ canonical = String.ofList (joinSegments segments) := by
  obtain ⟨segments, hs, rfl⟩ := Option.map_eq_some_iff.1 h
  simp only [nameSegments?] at hs
  split at hs
  · next hall =>
    cases hs
    exact ⟨_, ⟨pieces_ne_nil _ _, List.all_eq_true.1 hall,
      fun _ hm _ hc => not_isBreak_of_mem_pieces hm hc⟩, rfl⟩
  · cases hs

/-- A canonical name is its own canonical form. -/
theorem canonicalName?_canonical {name canonical : String}
    (h : canonicalName? name = some canonical) : canonicalName? canonical = some canonical := by
  obtain ⟨segments, hs, rfl⟩ := exists_canonicalSegments h
  exact hs.canonicalName?_joinSegments

/-- A canonical name holds no blank character. -/
theorem not_isBlank_of_canonical {name : String} (h : canonicalName? name = some name) :
    ∀ c ∈ name.toList, isBlank c = false := by
  obtain ⟨segments, hsegments, hname⟩ := exists_canonicalSegments h
  rw [hname, String.toList_ofList]
  exact hsegments.not_isBlank_joinSegments

/-- A canonical name is not empty, and has no slash. -/
theorem not_slash_of_canonical {name : String} (h : canonicalName? name = some name) :
    name ≠ "" ∧ ∀ c ∈ name.toList, c ≠ '/' := by
  obtain ⟨segments, hsegments, hname⟩ := exists_canonicalSegments h
  have hchars : name.toList = joinSegments segments := by
    rw [hname, String.toList_ofList]
  constructor
  · rintro rfl
    have hempty : canonicalName? "" = none := by decide
    cases h.symm.trans hempty
  · rintro c hc rfl
    rw [hchars] at hc
    rcases mem_joinSegments hc with heq | ⟨segment, hs, hcs⟩
    · cases heq
    · exact hsegments.not_slash hs _ hcs rfl

/-- No name of a component ends in a slash. -/
theorem canonicalName?_slash (cs : List Char) :
    canonicalName? (String.ofList (cs ++ ['/'])) = none := by
  obtain ⟨front, hfront⟩ : ∃ front, trimStart (cs ++ ['/']) = front ++ ['/'] := by
    rw [trimStart, List.dropWhile_append]
    split
    · exact ⟨[], rfl⟩
    · exact ⟨_, rfl⟩
  have htrim : trim (cs ++ ['/']) = front ++ ['/'] := by
    rw [trim, hfront]
    exact trimEnd_eq_self (by simp; decide)
  have hsegments : splitSegments (front ++ ['/']) = splitSegments front ++ [[]] :=
    pieces_append_break rfl front []
  simp [canonicalName?, nameSegments?, htrim, hsegments, isSegment]

end SlotTemplates
