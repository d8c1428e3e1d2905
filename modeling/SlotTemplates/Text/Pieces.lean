/-!
# Pieces of a text

`pieces` cuts a text at every character of a kind. The pieces hold no such character
(`not_isBreak_of_mem_pieces`), and there is always at least one (`pieces_ne_nil`). Texts without
such a character that are joined by one are the pieces of what they make (`pieces_intercalate`).
-/

namespace SlotTemplates

/-- The pieces of a text between the characters of a kind, empty pieces included. -/
def pieces (isBreak : Char → Bool) : List Char → List (List Char)
  | [] => [[]]
  | c :: cs =>
    if isBreak c then [] :: pieces isBreak cs
    else
      match pieces isBreak cs with
      | [] => [[c]]
      | piece :: more => (c :: piece) :: more

theorem pieces_ne_nil (isBreak : Char → Bool) (cs : List Char) : pieces isBreak cs ≠ [] := by
  cases cs with
  | nil => simp [pieces]
  | cons c cs =>
    unfold pieces
    split
    · simp
    · split <;> simp

theorem not_isBreak_of_mem_pieces {isBreak : Char → Bool} {cs piece : List Char} {c : Char}
    (h : piece ∈ pieces isBreak cs) (hc : c ∈ piece) : isBreak c = false := by
  induction cs generalizing piece with
  | nil =>
    obtain rfl : piece = [] := by simpa [pieces] using h
    cases hc
  | cons d cs ih =>
    unfold pieces at h
    split at h
    · rcases List.mem_cons.1 h with rfl | h
      · cases hc
      · exact ih h hc
    · rename_i hd
      have hd : isBreak d = false := by simpa using hd
      split at h
      · obtain rfl : piece = [d] := by simpa using h
        obtain rfl : c = d := by simpa using hc
        exact hd
      · rename_i first more heq
        rcases List.mem_cons.1 h with rfl | h
        · rcases List.mem_cons.1 hc with rfl | hc
          · exact hd
          · exact ih (heq ▸ List.mem_cons_self) hc
        · exact ih (heq ▸ List.mem_cons_of_mem _ h) hc

theorem mem_of_mem_pieces {isBreak : Char → Bool} {cs piece : List Char} {c : Char}
    (h : piece ∈ pieces isBreak cs) (hc : c ∈ piece) : c ∈ cs := by
  induction cs generalizing piece with
  | nil =>
    obtain rfl : piece = [] := by simpa [pieces] using h
    exact hc
  | cons d cs ih =>
    unfold pieces at h
    split at h
    · rcases List.mem_cons.1 h with rfl | h
      · cases hc
      · exact List.mem_cons_of_mem _ (ih h hc)
    · split at h
      · obtain rfl : piece = [d] := by simpa using h
        exact List.mem_cons.2 (.inl (List.mem_singleton.1 hc))
      · rename_i first more heq
        rcases List.mem_cons.1 h with rfl | h
        · rcases List.mem_cons.1 hc with rfl | hc
          · exact List.mem_cons_self
          · exact List.mem_cons_of_mem _ (ih (heq ▸ List.mem_cons_self) hc)
        · exact List.mem_cons_of_mem _ (ih (heq ▸ List.mem_cons_of_mem _ h) hc)

theorem pieces_of_not_isBreak {isBreak : Char → Bool} {cs : List Char}
    (h : ∀ c ∈ cs, isBreak c = false) : pieces isBreak cs = [cs] := by
  induction cs with
  | nil => rfl
  | cons c cs ih =>
    have hc : isBreak c = false := h c List.mem_cons_self
    simp [pieces, hc, ih fun d hd => h d (List.mem_cons_of_mem _ hd)]

theorem pieces_append_break {isBreak : Char → Bool} {b : Char} (hb : isBreak b = true)
    (cs ds : List Char) :
    pieces isBreak (cs ++ b :: ds) = pieces isBreak cs ++ pieces isBreak ds := by
  induction cs with
  | nil => simp [pieces, hb]
  | cons c cs ih =>
    rw [List.cons_append, pieces, pieces, ih]
    split
    · rfl
    · cases h : pieces isBreak cs with
      | nil => exact absurd h (pieces_ne_nil _ _)
      | cons piece more => rfl

theorem pieces_append_of_not_isBreak {isBreak : Char → Bool} {cs ds piece : List Char}
    {more : List (List Char)} (h : ∀ c ∈ cs, isBreak c = false)
    (hd : pieces isBreak ds = piece :: more) :
    pieces isBreak (cs ++ ds) = (cs ++ piece) :: more := by
  induction cs with
  | nil => exact hd
  | cons c cs ih =>
    have hc : isBreak c = false := h c List.mem_cons_self
    rw [List.cons_append, pieces, ih fun d hm => h d (List.mem_cons_of_mem _ hm)]
    simp [hc]

theorem pieces_intercalate {isBreak : Char → Bool} {b : Char} (hb : isBreak b = true)
    {texts : List (List Char)} (hne : texts ≠ [])
    (h : ∀ text ∈ texts, ∀ c ∈ text, isBreak c = false) :
    pieces isBreak ([b].intercalate texts) = texts := by
  induction texts with
  | nil => exact absurd rfl hne
  | cons text texts ih =>
    have htext := pieces_of_not_isBreak (h text List.mem_cons_self)
    cases texts with
    | nil => rw [List.intercalate_singleton, htext]
    | cons next texts =>
      rw [List.intercalate_cons_cons, List.append_assoc, List.singleton_append,
        pieces_append_break hb, htext, ih (by simp) fun t ht => h t (List.mem_cons_of_mem _ ht)]
      rfl

end SlotTemplates
