import Mathlib.Data.Set.Card
import SlotTemplates.Proofs.Component.Catalog
import SlotTemplates.Proofs.Files.Path
import SlotTemplates.Proofs.Files.Places

/-!
# The names that resolve

Only finitely many canonical names resolve in a tree of files (`Catalog.resolvable_finite`). Each of
them has a place of its own below one of the roots (`Catalog.mem_namesOfPlaces`), and there are not
more places than `Catalog.length_namesOfPlaces_le` says. The reason is that the path of a component
leads from its root through plain names: its segments, the last one with an extension. Where they
lead is a place below the root, and the name can be read off from it, since segments hold no point
(`Catalog.nameAt_segments`).
-/

namespace SlotTemplates

/-! ## Names and places -/

/-- A part of a path that begins with a segment leads into the entry of its name. -/
theorem CanonicalSegments.isPlain {segments : List (List Char)} (h : CanonicalSegments segments)
    {segment : List Char} (hs : segment ∈ segments) (more : List Char) :
    Tree.IsPlain (String.ofList (segment ++ more)) := by
  obtain ⟨c, cs, rfl⟩ := List.exists_cons_of_ne_nil (h.segment_ne_nil hs)
  have hc : c ≠ '.' := h.not_point hs c List.mem_cons_self
  have first {part : String} (hp : String.ofList (c :: cs ++ more) = part) :
      part.toList.head? = some c := by rw [← hp, String.toList_ofList]; rfl
  refine ⟨fun hp => ?_, fun hp => ?_, fun hp => ?_⟩
  · cases first hp
  · cases first hp
    exact hc rfl
  · cases first hp
    exact hc rfl

namespace Catalog

/-- The name of a component at a place: its parts, each up to its first point. -/
def nameAt (place : List String) : String :=
  String.ofList (joinSegments (place.map fun part => part.toList.takeWhile (· ≠ '.')))

/-- The names of components at the places below a root. -/
def namesBelow (catalog : Catalog) (root : Path) : List String :=
  match Tree.follow [] catalog.files (root.lead.map String.ofList) with
  | some (_, t) => t.places.map nameAt
  | none => []

/-- There are not more names below a root than places in the whole tree. -/
theorem length_namesBelow_le (catalog : Catalog) (root : Path) :
    (catalog.namesBelow root).length ≤ catalog.files.size := by
  unfold namesBelow
  split
  · next h =>
    rw [List.length_map, Tree.length_places]
    exact Tree.follow_size h (fun _ ha => nomatch ha) (Nat.le_refl _)
  · exact Nat.zero_le _

/-- The parts of the path of a component: those of the root, its segments but for the last one,
and a part that is the last segment up to its first point. -/
theorem parts_candidate (root : Path) (extension : String) {front : List (List Char)}
    {last : List Char} (h : CanonicalSegments (front ++ [last])) :
    ∃ tail more, Path.parts (Path.join ((front.map String.ofList).foldl Path.join root)
        (String.ofList last ++ "." ++ extension)) =
      root.lead.map String.ofList ++
        (front.map String.ofList ++ [String.ofList (last ++ '.' :: tail)] ++ more) := by
  have hlast : last ∈ front ++ [last] := by simp
  have hfront : ∀ name ∈ front.map String.ofList, Path.IsName name := by
    intro name hname
    obtain ⟨segment, hs, rfl⟩ := List.mem_map.1 hname
    have hs : segment ∈ front ++ [last] := List.mem_append_left _ hs
    exact ⟨by simpa using h.segment_ne_nil hs, by simpa using h.not_slash hs⟩
  obtain ⟨piece, more, hpieces⟩ := List.exists_cons_of_ne_nil (pieces_ne_nil (· = '/')
    extension.toList)
  have hfile : (String.ofList last ++ "." ++ extension).toList =
      (last ++ ['.']) ++ extension.toList := by
    simp [String.toList_append]
  have hplain : ∀ c ∈ last ++ ['.'], (decide (c = '/')) = false := by
    intro c hc
    rcases List.mem_append.1 hc with hc | hc
    · simpa using h.not_slash hlast c hc
    · obtain rfl : c = '.' := by simpa using hc
      decide
  have hrel : Path.isAbsolute (String.ofList last ++ "." ++ extension) = false := by
    unfold Path.isAbsolute
    rw [hfile]
    cases hl : last with
    | nil => exact absurd hl (h.segment_ne_nil hlast)
    | cons c cs => simpa using h.not_slash hlast c (by rw [hl]; exact List.mem_cons_self)
  refine ⟨piece, more.map String.ofList, ?_⟩
  rw [Path.parts, Path.rawParts_join _ hrel, Path.lead_foldl_join root hfront, Path.rawParts, hfile,
    pieces_append_of_not_isBreak hplain hpieces]
  simp [Function.comp_def]

/-- The name can be read off from the place of a component: its segments hold no point. -/
theorem nameAt_segments {front : List (List Char)} {last : List Char}
    (h : CanonicalSegments (front ++ [last])) (tail : List Char) :
    nameAt (front.map String.ofList ++ [String.ofList (last ++ '.' :: tail)]) =
      String.ofList (joinSegments (front ++ [last])) := by
  have whole {segment : List Char} (hs : segment ∈ front ++ [last]) (more : List Char) :
      (segment ++ more).takeWhile (· ≠ '.') = segment ++ more.takeWhile (· ≠ '.') :=
    List.takeWhile_append_of_pos fun c hc => by simpa using h.not_point hs c hc
  have hfront : (front.map String.ofList).map (fun part => part.toList.takeWhile (· ≠ '.')) =
      front := by
    rw [List.map_map]
    refine (List.map_congr_left fun segment hs => ?_).trans (List.map_id _)
    simpa using whole (List.mem_append_left _ hs) []
  have hlast := whole (List.mem_append_right _ (List.mem_singleton_self last)) ('.' :: tail)
  rw [nameAt, List.map_append, hfront, List.map_singleton, String.toList_ofList, hlast]
  simp

/-- A name that resolves is one of those below the roots. -/
theorem mem_namesBelow {catalog : Catalog} {canonical : String}
    (hname : canonicalName? canonical = some canonical)
    (hresolve : (catalog.resolve canonical).isSome) :
    ∃ root ∈ catalog.roots, canonical ∈ catalog.namesBelow root := by
  obtain ⟨segments, hs, rfl⟩ := exists_canonicalSegments hname
  obtain ⟨front, last, rfl⟩ := List.eq_nil_or_concat segments |>.resolve_left hs.ne_nil
  rw [List.concat_eq_append] at *
  obtain ⟨path, hpath⟩ := Option.isSome_iff_exists.1 hresolve
  obtain ⟨root, hroot, hcandidate⟩ := List.mem_flatMap.1 (List.mem_of_find?_eq_some hpath)
  refine ⟨root, hroot, ?_⟩
  simp only [String.toList_ofList, hs.pieces_joinSegments, List.map_append, List.map_singleton,
    List.dropLast_concat, List.getLastD_concat, List.mem_map] at hcandidate
  obtain ⟨extension, -, rfl⟩ := hcandidate
  obtain ⟨tail, more, hparts⟩ := parts_candidate root extension hs
  obtain ⟨t, ht⟩ := Tree.walk_of_isFile (List.find?_some hpath)
  rw [hparts] at ht
  obtain ⟨above, base, hbase, ht⟩ := Tree.walk_append ht
  obtain ⟨above', place, hplace, -⟩ := Tree.walk_append ht
  rw [namesBelow, hbase]
  refine List.mem_map.2 ⟨_, Tree.mem_places hplace fun part hpart => ?_, nameAt_segments hs tail⟩
  rcases List.mem_append.1 hpart with hpart | hpart
  · obtain ⟨segment, hsegment, rfl⟩ := List.mem_map.1 hpart
    simpa using hs.isPlain (List.mem_append_left _ hsegment) []
  · rw [List.mem_singleton.1 hpart]
    exact hs.isPlain (List.mem_append_right _ (List.mem_singleton_self last)) _

/-! ## Counting names -/

/-- The canonical names that resolve. -/
def resolvable (catalog : Catalog) : Set String :=
  {canonical | canonicalName? canonical = some canonical ∧ (catalog.resolve canonical).isSome}

/-- A canonical name under which the files have a component resolves. -/
theorem mem_resolvable {catalog : Catalog} {canonical : String} {definition : Definition}
    (hname : canonicalName? canonical = some canonical)
    (h : catalog.find canonical = .ok (some definition)) : canonical ∈ catalog.resolvable := by
  rw [find, hname] at h
  exact ⟨hname, resolve_of_fetch h⟩

/-- The names of components at the places below the roots. -/
def namesOfPlaces (catalog : Catalog) : List String := catalog.roots.flatMap catalog.namesBelow

theorem mem_namesOfPlaces {catalog : Catalog} {canonical : String}
    (h : canonical ∈ catalog.resolvable) : canonical ∈ catalog.namesOfPlaces :=
  List.mem_flatMap.2 (mem_namesBelow h.1 h.2)

theorem length_namesOfPlaces_le (catalog : Catalog) :
    catalog.namesOfPlaces.length ≤ catalog.roots.length * catalog.files.size := by
  unfold namesOfPlaces
  induction catalog.roots with
  | nil => simp
  | cons root roots ih =>
    rw [List.flatMap_cons, List.length_append, List.length_cons, Nat.add_mul, Nat.one_mul]
    have := catalog.length_namesBelow_le root
    omega

/-- Only finitely many names resolve. -/
theorem resolvable_finite (catalog : Catalog) : catalog.resolvable.Finite :=
  (List.finite_toSet catalog.namesOfPlaces).subset fun _ h => mem_namesOfPlaces h

end Catalog

end SlotTemplates
