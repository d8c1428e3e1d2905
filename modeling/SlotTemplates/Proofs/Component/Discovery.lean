import Mathlib
import SlotTemplates.Proofs.Component.Resolvable
import SlotTemplates.Proofs.Entries
import SlotTemplates.Proofs.Files.WellFormed
import SlotTemplates.Proofs.Text.Trim
import SlotTemplates.Render.Environment

/-!
# Listing components and finding them

The names of a catalog are read off from the paths of files, and to look a name up paths are made
from it. Both go through one place below a root, `Catalog.placeOf`: a directory for every segment
but the last one, and the last segment with an extension.

A listed name resolves if the path of one of its files spells it (`Catalog.names_resolve`). Not
every path does: a blank at either end of what is spelt is trimmed, and a stem that is a point
alone is dropped, so that the name can be one without a file (`Catalog.name_without_file`). The
other way round, a name that resolves is listed if the extension that it resolves with has no
point and no slash in it (`Catalog.names_complete`); with a point in it the extension of the file
is another one (`Catalog.file_without_name`).
-/

namespace SlotTemplates

/-! ## Stems and extensions -/

/-- A file name divides at its last point, if something stands before it. -/
theorem Path.splitExtension_eq_some_iff {name stem extension : String} :
    splitExtension name = some (stem, extension) ↔
      name = stem ++ "." ++ extension ∧ stem ≠ "" ∧ '.' ∉ extension.toList := by
  unfold splitExtension
  constructor
  · intro h
    have hsplit := List.takeWhile_append_dropWhile (p := fun c => decide (c ≠ '.'))
      (l := name.toList.reverse)
    have hpoint := List.head?_dropWhile_not (fun c => decide (c ≠ '.')) name.toList.reverse
    split at h
    · cases h
    · cases h
    · next c chars hne heq =>
      cases h
      rw [heq] at hsplit hpoint
      obtain rfl : c = '.' := by simpa using hpoint
      refine ⟨?_, ?_, ?_⟩
      · apply String.toList_injective
        have hreversed := congrArg List.reverse hsplit
        simpa using hreversed.symm
      · intro hempty
        have : chars = [] := by simpa using congrArg String.toList hempty
        exact hne this
      · intro hc
        have := List.mem_takeWhile_imp (List.mem_reverse.1 (by simpa using hc))
        simp at this
  · rintro ⟨rfl, hstem, hextension⟩
    have hreversed : (stem ++ "." ++ extension).toList.reverse =
        extension.toList.reverse ++ '.' :: stem.toList.reverse := by simp
    have hplain : ∀ c ∈ extension.toList.reverse, decide (c ≠ '.') = true := by
      intro c hc
      have hne : c ≠ '.' := fun heq => hextension (heq ▸ List.mem_reverse.1 hc)
      simpa using hne
    have hafter : (extension.toList.reverse ++ '.' :: stem.toList.reverse).takeWhile
        (fun c => decide (c ≠ '.')) = extension.toList.reverse := by
      rw [List.takeWhile_append_of_pos hplain]
      simp
    have hbefore : (extension.toList.reverse ++ '.' :: stem.toList.reverse).dropWhile
        (fun c => decide (c ≠ '.')) = '.' :: stem.toList.reverse := by
      rw [List.dropWhile_append_of_pos hplain]
      simp
    rw [hreversed, hafter, hbefore]
    cases hchars : stem.toList.reverse with
    | nil => exact absurd (by simpa using hchars) hstem
    | cons c chars => simp [← hchars]

/-! ## Joined segments -/

section
variable {segments : List (List Char)} {segment : List Char}

theorem joinSegments_cons (segment : List Char) (rest : List (List Char)) :
    ∃ more, joinSegments (segment :: rest) = segment ++ more := by
  cases rest with
  | nil => exact ⟨[], by simp [joinSegments]⟩
  | cons next rest =>
    exact ⟨'.' :: joinSegments (next :: rest), by
      simp [joinSegments, List.intercalate_cons_cons]⟩

theorem joinSegments_concat (front : List (List Char)) (segment : List Char) :
    ∃ more, joinSegments (front ++ [segment]) = more ++ segment := by
  induction front with
  | nil => exact ⟨[], by simp [joinSegments]⟩
  | cons first front ih =>
    obtain ⟨more, hmore⟩ := ih
    cases hrest : front ++ [segment] with
    | nil => simp at hrest
    | cons next rest =>
      refine ⟨first ++ '.' :: more, ?_⟩
      rw [hrest] at hmore
      rw [List.cons_append, hrest, joinSegments, List.intercalate_cons_cons, ← joinSegments, hmore]
      simp

/-- Joined segments have no blank at their ends if the first and the last segment have none
there. -/
theorem trimmed_joinSegments (hne : ∀ segment ∈ segments, segment ≠ [])
    (hfirst : ∀ segment ∈ segments.head?, ∀ c ∈ segment.head?, isBlank c = false)
    (hlast : ∀ segment ∈ segments.getLast?, ∀ c ∈ segment.getLast?, isBlank c = false) :
    Trimmed (joinSegments segments) := by
  constructor
  · cases segments with
    | nil => nofun
    | cons segment rest =>
      obtain ⟨more, hmore⟩ := joinSegments_cons segment rest
      obtain ⟨d, ds, rfl⟩ := List.exists_cons_of_ne_nil (hne segment List.mem_cons_self)
      intro c hc
      rw [hmore] at hc
      exact hfirst (d :: ds) rfl c hc
  · rcases List.eq_nil_or_concat segments with rfl | ⟨front, segment, rfl⟩
    · nofun
    · rw [List.concat_eq_append] at hne hlast ⊢
      obtain ⟨more, hmore⟩ := joinSegments_concat front segment
      intro c hc
      have hsegment : segment ≠ [] := hne segment (by simp)
      rw [hmore, List.getLast?_append, List.getLast?_eq_some_getLast hsegment] at hc
      refine hlast segment (by simp) c ?_
      rw [List.getLast?_eq_some_getLast hsegment]
      exact hc

/-- Segments are joined as strings as they are as characters. -/
theorem intercalate_map_ofList (segments : List (List Char)) :
    ".".intercalate (segments.map String.ofList) = String.ofList (joinSegments segments) := by
  apply String.toList_injective
  rw [String.toList_intercalate, List.map_map, String.toList_ofList]
  simp [joinSegments, Function.comp_def]

/-- A name that is written as segments with points between them has these segments, if no blank
stands at its ends. -/
theorem canonicalSegments_of_joined {name : String} (hne : segments ≠ [])
    (hplain : ∀ segment ∈ segments, ∀ c ∈ segment, isSeparator c = false)
    (htrimmed : Trimmed (joinSegments segments))
    (h : canonicalName? (String.ofList (joinSegments segments)) = some name) :
    CanonicalSegments segments ∧ name = String.ofList (joinSegments segments) := by
  have hsplit : splitSegments (joinSegments segments) = segments :=
    pieces_intercalate (by decide) hne hplain
  simp only [canonicalName?, nameSegments?, String.toList_ofList, htrimmed.trim_eq, hsplit] at h
  split at h
  · next hall =>
    cases h
    exact ⟨⟨hne, List.all_eq_true.1 hall, hplain⟩, rfl⟩
  · cases h

end

/-! ## Places of components -/

namespace Catalog

variable {catalog : Catalog} {root : Path} {name extension : String} {file : List String}

/-- Where the file of a component is below a root: in a directory for every segment but the last
one, under the last segment with an extension. -/
def placeOf (canonical extension : String) : List String :=
  let segments := (pieces (· = '.') canonical.toList).map String.ofList
  segments.dropLast ++ [segments.getLastD "" ++ "." ++ extension]

theorem candidates_eq (catalog : Catalog) (canonical : String) :
    catalog.candidates canonical = catalog.roots.flatMap fun root =>
      catalog.extensions.map fun extension => (placeOf canonical extension).foldl Path.join root := by
  simp [candidates, placeOf, List.foldl_append]

/-- A name resolves to the first of its places at which there is a file. -/
theorem resolve_eq_some {path : Path} (h : catalog.resolve name = some path) :
    catalog.files.isFile path = true ∧ ∃ root ∈ catalog.roots, ∃ extension ∈ catalog.extensions,
      path = (placeOf name extension).foldl Path.join root := by
  have hcandidate := List.mem_of_find?_eq_some h
  rw [candidates_eq] at hcandidate
  obtain ⟨root, hroot, hpath⟩ := List.mem_flatMap.1 hcandidate
  obtain ⟨extension, hextension, heq⟩ := List.mem_map.1 hpath
  exact ⟨List.find?_some h, root, hroot, extension, hextension, heq.symm⟩

/-- A name with a file at one of its places resolves. -/
theorem exists_resolve (hroot : root ∈ catalog.roots) (hextension : extension ∈ catalog.extensions)
    (h : catalog.files.isFile ((placeOf name extension).foldl Path.join root) = true) :
    ∃ path, catalog.resolve name = some path ∧ catalog.files.isFile path = true := by
  have hcandidate : (placeOf name extension).foldl Path.join root ∈ catalog.candidates name := by
    rw [candidates_eq]
    exact List.mem_flatMap.2 ⟨root, hroot, List.mem_map.2 ⟨extension, hextension, rfl⟩⟩
  have hsome : (catalog.resolve name).isSome := List.find?_isSome.2 ⟨_, hcandidate, h⟩
  obtain ⟨path, hpath⟩ := Option.isSome_iff_exists.1 hsome
  exact ⟨path, hpath, (resolve_eq_some hpath).1⟩

theorem placeOf_joinSegments {front : List (List Char)} {last : List Char}
    (h : CanonicalSegments (front ++ [last])) (extension : String) :
    placeOf (String.ofList (joinSegments (front ++ [last]))) extension =
      front.map String.ofList ++ [String.ofList last ++ "." ++ extension] := by
  simp [placeOf, h.pieces_joinSegments]

/-- The segments of a canonical name are its place: the last one gets the extension. -/
theorem exists_placeOf (h : canonicalName? name = some name) :
    ∃ front last, CanonicalSegments (front ++ [last]) ∧
      name = String.ofList (joinSegments (front ++ [last])) ∧
      ∀ extension, placeOf name extension =
        front.map String.ofList ++ [String.ofList last ++ "." ++ extension] := by
  obtain ⟨segments, hsegments, rfl⟩ := exists_canonicalSegments h
  obtain ⟨front, last, rfl⟩ := List.eq_nil_or_concat segments |>.resolve_left hsegments.ne_nil
  rw [List.concat_eq_append] at hsegments ⊢
  exact ⟨front, last, hsegments, rfl, placeOf_joinSegments hsegments⟩

/-- The parts of a place lead on, each into the entry of its name. -/
theorem isPlain_of_mem_placeOf (h : canonicalName? name = some name) (extension : String) :
    ∀ part ∈ placeOf name extension, Tree.IsPlain part := by
  obtain ⟨front, last, hsegments, -, hplace⟩ := exists_placeOf h
  rw [hplace]
  intro part hpart
  rcases List.mem_append.1 hpart with hpart | hpart
  · obtain ⟨segment, hs, rfl⟩ := List.mem_map.1 hpart
    simpa using hsegments.isPlain (List.mem_append_left _ hs) []
  · have hplain := hsegments.isPlain (List.mem_append_right _ (List.mem_singleton_self last))
      (".".toList ++ extension.toList)
    rw [List.mem_singleton.1 hpart]
    simpa [String.ofList_append, String.append_assoc] using hplain

/-- There is no slash in the parts of a place if there is none in the extension. -/
theorem noSlash_of_mem_placeOf (h : canonicalName? name = some name)
    (hextension : '/' ∉ extension.toList) :
    ∀ part ∈ placeOf name extension, '/' ∉ part.toList := by
  obtain ⟨front, last, hsegments, -, hplace⟩ := exists_placeOf h
  rw [hplace]
  intro part hpart hc
  rcases List.mem_append.1 hpart with hpart | hpart
  · obtain ⟨segment, hs, rfl⟩ := List.mem_map.1 hpart
    rw [String.toList_ofList] at hc
    exact hsegments.not_slash (List.mem_append_left _ hs) _ hc rfl
  · rw [List.mem_singleton.1 hpart] at hc
    have hlast : '/' ∉ last := fun hmem =>
      hsegments.not_slash (List.mem_append_right _ (List.mem_singleton_self last)) _ hmem rfl
    simp [hlast, hextension] at hc

/-! ## Names of files -/

/-- A file with a name has a stem and an extension, and its name is spelt by the directories and
the stem; a stem that is a point alone is left out. -/
theorem nameOf_eq_some (h : catalog.nameOf file = some name) :
    ∃ directories stem extension, file = directories ++ [stem ++ "." ++ extension] ∧ stem ≠ "" ∧
      '.' ∉ extension.toList ∧ extension ∈ catalog.extensions ∧
      ∃ segments, segments = (if stem = "." ∧ directories ≠ [] then directories
          else directories ++ [stem]) ∧
        (∀ segment ∈ segments, '.' ∉ segment.toList) ∧
        canonicalName? (".".intercalate segments) = some name := by
  unfold nameOf at h
  obtain ⟨last, hlast, h⟩ := Option.bind_eq_some_iff.1 h
  obtain ⟨⟨stem, extension⟩, hsplit, h⟩ := Option.bind_eq_some_iff.1 h
  obtain ⟨hlast', hstem, hpoint⟩ := Path.splitExtension_eq_some_iff.1 hsplit
  obtain ⟨directories, rfl⟩ := List.getLast?_eq_some_iff.1 hlast
  rw [List.dropLast_concat] at h
  obtain ⟨segments, hsegments⟩ : ∃ segments, segments =
      if stem = "." ∧ directories ≠ [] then directories else directories ++ [stem] := ⟨_, rfl⟩
  simp only [← hsegments] at h
  split at h
  · next hchecks =>
    simp only [Bool.and_eq_true, List.contains_iff_mem, List.all_eq_true, Bool.not_eq_true',
      Bool.eq_false_iff, ne_eq] at hchecks
    exact ⟨directories, stem, extension, by rw [hlast'], hstem, hpoint, hchecks.1, segments,
      hsegments, hchecks.2, h⟩
  · cases h

/-- The file at the place of a name has this name, if the extension holds no point. -/
theorem nameOf_placeOf (hname : canonicalName? name = some name)
    (hextension : extension ∈ catalog.extensions) (hpoint : '.' ∉ extension.toList) :
    catalog.nameOf (placeOf name extension) = some name := by
  obtain ⟨front, last, hsegments, heq, hplace⟩ := exists_placeOf hname
  have hlast : last ∈ front ++ [last] := List.mem_append_right _ (List.mem_singleton_self last)
  have hplain : ∀ segment ∈ front ++ [last], '.' ∉ segment := fun segment hs hc =>
    hsegments.not_point hs _ hc rfl
  have hstem : String.ofList last ≠ "" := by
    simpa using hsegments.segment_ne_nil hlast
  have hnotPoint : String.ofList last ≠ "." := by
    intro h
    have hchars : last = ['.'] := by simpa using congrArg String.toList h
    exact hplain last hlast (hchars ▸ List.mem_singleton_self _)
  have hsplit : Path.splitExtension (String.ofList last ++ "." ++ extension) =
      some (String.ofList last, extension) :=
    Path.splitExtension_eq_some_iff.2 ⟨rfl, hstem, hpoint⟩
  have hchecks : (catalog.extensions.contains extension &&
      (front.map String.ofList ++ [String.ofList last]).all fun s => !s.toList.contains '.') =
        true := by
    simp only [Bool.and_eq_true, List.contains_iff_mem, List.all_eq_true]
    refine ⟨hextension, fun segment hsegment => ?_⟩
    rw [← List.map_singleton, ← List.map_append] at hsegment
    obtain ⟨chars, hchars, rfl⟩ := List.mem_map.1 hsegment
    simpa using hplain chars hchars
  have hjoined : ".".intercalate (front.map String.ofList ++ [String.ofList last]) = name := by
    rw [heq, ← intercalate_map_ofList, List.map_append, List.map_singleton]
  rw [hplace, nameOf, List.getLast?_concat]
  simp only [Option.bind_eq_bind, Option.bind_some, hsplit, List.dropLast_concat, hnotPoint,
    false_and, if_false, hchecks, if_true, hjoined, hname]

/-- A file whose path spells a name: no blank stands before its first name or before its extension,
and its stem is not a point alone. -/
structure WellSpelt (file : List String) : Prop where
  first : ∀ part ∈ file.head?, ∀ c ∈ part.toList.head?, isBlank c = false
  stem : ∀ split ∈ file.getLast?.bind Path.splitExtension,
    split.1 ≠ "." ∧ ∀ c ∈ split.1.toList.getLast?, isBlank c = false

instance (file : List String) : Decidable (WellSpelt file) :=
  -- an end of a text is at most one character, so that no search over all of them is needed
  haveI (last : Option Char) : Decidable (∀ c ∈ last, isBlank c = false) :=
    last.decidableForallMem
  decidable_of_iff
    ((∀ part ∈ file.head?, ∀ c ∈ part.toList.head?, isBlank c = false) ∧
      ∀ split ∈ file.getLast?.bind Path.splitExtension,
        split.1 ≠ "." ∧ ∀ c ∈ split.1.toList.getLast?, isBlank c = false)
    ⟨fun h => ⟨h.1, h.2⟩, fun h => ⟨h.first, h.stem⟩⟩

/-- What such a path spells has no blank at its ends. -/
theorem WellSpelt.trimmed {directories : List String} {stem : String}
    (h : WellSpelt (directories ++ [stem ++ "." ++ extension])) (hpoint : '.' ∉ extension.toList)
    (hne : ∀ segment ∈ directories ++ [stem], segment ≠ "") :
    Trimmed (joinSegments ((directories ++ [stem]).map String.toList)) := by
  have hstem : stem ≠ "" := hne stem (by simp)
  have hsplit := Path.splitExtension_eq_some_iff.2 ⟨rfl, hstem, hpoint⟩
  have hlast : (stem, extension) ∈
      (directories ++ [stem ++ "." ++ extension]).getLast?.bind Path.splitExtension := by
    rw [List.getLast?_concat, Option.bind_some, hsplit, Option.mem_def]
  refine trimmed_joinSegments ?_ ?_ ?_
  · intro chars hchars hnil
    obtain ⟨segment, hs, rfl⟩ := List.mem_map.1 hchars
    exact hne segment hs (String.toList_eq_nil_iff.1 hnil)
  · intro chars hchars c hc
    cases directories with
    | nil =>
      obtain rfl : stem.toList = chars := by simpa using hchars
      exact h.first _ rfl c (by simp [List.head?_append, Option.mem_def.1 hc])
    | cons directory directories =>
      obtain rfl : directory.toList = chars := by simpa using hchars
      exact h.first directory rfl c hc
  · intro chars hchars c hc
    obtain rfl : stem.toList = chars := by simpa using hchars
    exact (h.stem _ hlast).2 c hc

/-- A file whose path spells its name is at a place of that name. -/
theorem eq_placeOf (h : catalog.nameOf file = some name) (hspelt : WellSpelt file)
    (hfile : ∀ part ∈ file, Tree.IsEntryName part) :
    ∃ extension ∈ catalog.extensions, file = placeOf name extension := by
  obtain ⟨directories, stem, extension, rfl, hstem, hpoint, hextension, segments, hsegments, hplain,
    hname⟩ := nameOf_eq_some h
  have hsplit := Path.splitExtension_eq_some_iff.2 ⟨rfl, hstem, hpoint⟩
  have hnotPoint : stem ≠ "." := (hspelt.stem (stem, extension) (by
    rw [List.getLast?_concat, Option.bind_some, hsplit, Option.mem_def])).1
  rw [if_neg fun hdropped => hnotPoint hdropped.1] at hsegments
  subst hsegments
  -- the segments are what stands between slashes in the path, and hold no point
  have hentry : ∀ segment ∈ directories ++ [stem], segment ≠ "" ∧ '/' ∉ segment.toList := by
    intro segment hsegment
    rcases List.mem_append.1 hsegment with hs | hs
    · have hpart := hfile segment (List.mem_append_left _ hs)
      exact ⟨hpart.plain.1, hpart.noSlash⟩
    · obtain rfl := List.mem_singleton.1 hs
      have hlast := hfile (segment ++ "." ++ extension) (by simp)
      exact ⟨hstem, fun hc => hlast.noSlash (by simp [hc])⟩
  have hseparator : ∀ segment ∈ (directories ++ [stem]).map String.toList, ∀ c ∈ segment,
      isSeparator c = false := by
    intro chars hchars c hc
    obtain ⟨segment, hs, rfl⟩ := List.mem_map.1 hchars
    have hnoPoint : c ≠ '.' := fun heq => hplain segment hs (heq ▸ hc)
    have hnoSlash : c ≠ '/' := fun heq => (hentry segment hs).2 (heq ▸ hc)
    simp [isSeparator, hnoPoint, hnoSlash]
  have htrimmed := hspelt.trimmed hpoint fun segment hs => (hentry segment hs).1
  have hjoined : ".".intercalate (directories ++ [stem]) =
      String.ofList (joinSegments ((directories ++ [stem]).map String.toList)) := by
    rw [← intercalate_map_ofList, List.map_map]
    simp [Function.comp_def]
  rw [hjoined] at hname
  obtain ⟨hcanonical, rfl⟩ :=
    canonicalSegments_of_joined (by simp) hseparator htrimmed hname
  refine ⟨extension, hextension, ?_⟩
  rw [List.map_append, List.map_singleton] at hcanonical ⊢
  rw [placeOf_joinSegments hcanonical]
  simp [Function.comp_def]

/-! ## Listed names -/

/-- A name is listed if a file below one of the roots has it. -/
theorem mem_names_iff :
    name ∈ catalog.names ↔ ∃ root ∈ catalog.roots, ∃ file ∈ catalog.files.filesBelow root,
      catalog.nameOf file = some name := by
  simp only [names, Entries.mem_keys_sorted, List.map_map, Function.comp_def, List.map_id',
    List.mem_flatMap, List.mem_filterMap]

/-- The names are listed in order, and each once. -/
theorem pairwise_names (catalog : Catalog) : catalog.names.Pairwise (· < ·) :=
  List.pairwise_map.2 (Entries.ordered_sorted _)

theorem nodup_names (catalog : Catalog) : catalog.names.Nodup :=
  catalog.pairwise_names.imp fun h => ne_of_lt h

/-- A listed name is canonical. -/
theorem canonicalName?_of_mem_names (h : name ∈ catalog.names) : canonicalName? name = some name := by
  obtain ⟨_, -, file, -, hname⟩ := mem_names_iff.1 h
  obtain ⟨_, _, _, -, -, -, -, _, -, -, hcanonical⟩ := nameOf_eq_some hname
  exact canonicalName?_canonical hcanonical

/-! ## From a listed name to its file -/

/-- A name that is spelt by the path of a file below one of the roots. -/
def Spells (catalog : Catalog) (name : String) : Prop :=
  ∃ root ∈ catalog.roots, ∃ file ∈ catalog.files.filesBelow root,
    catalog.nameOf file = some name ∧ WellSpelt file

instance (catalog : Catalog) (name : String) : Decidable (catalog.Spells name) :=
  inferInstanceAs (Decidable (∃ root ∈ catalog.roots, ∃ file ∈ catalog.files.filesBelow root,
    catalog.nameOf file = some name ∧ WellSpelt file))

/-- A name that is spelt by the path of a file resolves. -/
theorem Spells.resolve (h : catalog.Spells name) (hfiles : catalog.files.WellFormed) :
    ∃ path, catalog.resolve name = some path ∧ catalog.files.isFile path = true := by
  obtain ⟨root, hroot, file, hfile, hname, hspelt⟩ := h
  obtain ⟨hisFile, -, hparts⟩ := hfiles.isFile_of_mem_filesBelow hfile
  obtain ⟨extension, hextension, rfl⟩ := eq_placeOf hname hspelt hparts
  exact exists_resolve hroot hextension hisFile

/-- There is an answer for a canonical name that resolves: a component, or an error. -/
theorem lookup_ne_none {path : Path} (hname : canonicalName? name = some name)
    (h : catalog.resolve name = some path) (cache : Cache) :
    (catalog.lookup cache name).1 ≠ .ok none := by
  intro hnone
  rcases lookup_cases catalog cache name with
    ⟨_, _, _, _, hl⟩ | ⟨_, _, _, _, _, hl⟩ | ⟨_, hl⟩ <;> rw [hl] at hnone
  · cases hnone
  · cases hnone
  · rw [find, hname] at hnone
    dsimp only at hnone
    rw [fetch, h] at hnone
    dsimp only at hnone
    cases hload : catalog.load name path with
    | ok definition => rw [hload] at hnone; cases hnone
    | error e => rw [hload] at hnone; cases hnone

/-- Names that are not held are so after all of them are looked up, if they resolve. -/
theorem keys_lookupAll {names : List String} {cache cache' : Cache}
    (hnames : ∀ name ∈ names, canonicalName? name = some name) (hnodup : names.Nodup)
    (hfree : ∀ name ∈ names, cache.get? name = none)
    (h : catalog.lookupAll names cache = (.ok (), cache')) :
    cache'.keys = cache.keys ++ names.filter fun name => (catalog.resolve name).isSome := by
  induction names generalizing cache with
  | nil =>
    cases h
    simp
  | cons name names ih =>
    obtain ⟨hname, hnames⟩ := List.forall_mem_cons.1 hnames
    obtain ⟨hnameFree, hfree⟩ := List.forall_mem_cons.1 hfree
    obtain ⟨hnot, hnodup⟩ := List.nodup_cons.1 hnodup
    unfold lookupAll at h
    rcases lookup_cases catalog cache name with
      ⟨canonical, definition, hcanonical, hheld, -⟩ |
      ⟨canonical, definition, hcanonical, -, hfetch, hl⟩ | ⟨hnothing, hl⟩
    · cases hname.symm.trans hcanonical
      rw [hnameFree] at hheld
      cases hheld
    · cases hname.symm.trans hcanonical
      rw [hl] at h
      have hstill : ∀ other ∈ names,
          Entries.get? other (Entries.insert cache name definition) = none := by
        intro other hother
        have hne : name ≠ other := fun heq => hnot (heq ▸ hother)
        rw [Entries.get?_insert, if_neg hne, hfree other hother]
      rw [ih hnames hnodup hstill h, Entries.keys_insert_of_free hnameFree,
        List.filter_cons_of_pos (p := fun name => (catalog.resolve name).isSome)
          (resolve_of_fetch hfetch)]
      simp
    · rw [hl] at h
      have hresolve : catalog.resolve name = none := by
        cases hpath : catalog.resolve name with
        | none => rfl
        | some path =>
          have hanswer := lookup_ne_none hname hpath cache
          rw [hl] at hanswer
          rcases hfind : catalog.find name with e | _ | definition
          · rw [hfind] at h
            cases h
          · exact absurd hfind hanswer
          · exact absurd hfind (hnothing definition)
      cases hfind : catalog.find name with
      | error e => rw [hfind] at h; cases h
      | ok found =>
        rw [hfind] at h
        rw [ih hnames hnodup hfree h, List.filter_cons_of_neg (by simp [hresolve])]

/-- A listed name that the path of a file spells resolves to a file, so that a lookup never answers
that there is no such component. What is held after all components are loaded are the listed names
that resolve: all of them, if their files spell them. -/
theorem names_resolve (catalog : Catalog) (hfiles : catalog.files.WellFormed) :
    (∀ name ∈ catalog.names, catalog.Spells name →
      (∃ path, catalog.resolve name = some path ∧ catalog.files.isFile path = true) ∧
        ∀ cache, (catalog.lookup cache name).1 ≠ .ok none) ∧
    ∀ count cache, catalog.preload [] = (.ok count, cache) →
      count = catalog.names.length ∧
      cache.keys = (catalog.names.filter fun name => (catalog.resolve name).isSome) ∧
      ((∀ name ∈ catalog.names, catalog.Spells name) → cache.keys = catalog.names) := by
  refine ⟨fun name hname hspells => ?_, fun count cache h => ?_⟩
  · obtain ⟨path, hpath, hisFile⟩ := hspells.resolve hfiles
    exact ⟨⟨path, hpath, hisFile⟩, lookup_ne_none (canonicalName?_of_mem_names hname) hpath⟩
  · unfold preload at h
    split at h
    · next cache' hall =>
      cases h
      have hkeys := keys_lookupAll (fun name => canonicalName?_of_mem_names) catalog.nodup_names
        (fun name _ => Entries.get?_nil name) hall
      refine ⟨rfl, hkeys, fun hspells => hkeys.trans ?_⟩
      refine List.filter_eq_self.2 fun name hname => ?_
      obtain ⟨path, hpath, -⟩ := (hspells name hname).resolve hfiles
      rw [hpath]
      rfl
    · cases h

/-- The components that settings find in files. -/
def ofConfig (config : Config) (files : Tree) : Catalog :=
  { files, roots := config.roots, extensions := config.extensions,
    tags := Environment.componentTags config }

/-- Two components, one of them in a directory of its own. -/
def cardAndInput : Catalog :=
  .ofConfig {} (.ofFiles [("components/card.tpl", .file (.text "x")),
    ("components/forms/input.tpl", .file (.text "y"))])

/-- A component that is text alone. -/
def textDefinition (name : String) (path : Path) (text : String) : Definition where
  name := name
  path := path
  declaration := {}
  template := { name := path, nodes := [.text ⟨0, text.utf8ByteSize⟩ text] }

theorem cardAndInput_preload :
    cardAndInput.preload [] = (.ok 2,
      [("card", textDefinition "card" "components/card.tpl" "x"),
        ("forms.input", textDefinition "forms.input" "components/forms/input.tpl" "y")]) := by
  have hnames : cardAndInput.names = ["card", "forms.input"] := by decide +kernel
  have hcard : cardAndInput.fetch "card" =
      .ok (some (textDefinition "card" "components/card.tpl" "x")) :=
    fetch_eq (by decide +kernel) rfl (by cbv) (by cbv)
  have hinput : cardAndInput.fetch "forms.input" =
      .ok (some (textDefinition "forms.input" "components/forms/input.tpl" "y")) :=
    fetch_eq (by decide +kernel) rfl (by cbv) (by cbv)
  have hcardName : canonicalName? "card" = some "card" := by decide
  have hinputName : canonicalName? "forms.input" = some "forms.input" := by decide
  simp [preload, hnames, lookupAll, lookup, hcardName, hcard, hinputName, hinput, Entries.insert]

/-- The names are those of the two files, and both are held after all components are loaded. -/
theorem names_resolve_cardAndInput :
    (∃ path, cardAndInput.resolve "forms.input" = some path ∧
      cardAndInput.files.isFile path = true) ∧
      ∃ cache, cardAndInput.preload [] = (.ok 2, cache) ∧ cache.keys = cardAndInput.names := by
  have hfiles : cardAndInput.files.WellFormed := Tree.wellFormed_ofFiles (by simp [Tree.WellFormed])
  have hspells : ∀ name ∈ cardAndInput.names, cardAndInput.Spells name := by decide +kernel
  have hinput : "forms.input" ∈ cardAndInput.names := by decide +kernel
  obtain ⟨hresolve, hheld⟩ := cardAndInput.names_resolve hfiles
  exact ⟨(hresolve _ hinput (hspells _ hinput)).1, _, cardAndInput_preload,
    (hheld _ _ cardAndInput_preload).2.2 hspells⟩

/-- A file whose name begins with a blank. -/
def indented : Catalog := .ofConfig {} (.ofFiles [("components/ card.tpl", .file (.text "x"))])

/-- The blank is not part of the name that is listed, which is that of no file then. -/
theorem name_without_file :
    indented.names = ["card"] ∧ indented.resolve "card" = none ∧
      (indented.lookup [] "card").1 = .ok none ∧ indented.preload [] = (.ok 1, []) := by
  have hnames : indented.names = ["card"] := by decide +kernel
  have hresolve : indented.resolve "card" = none := by decide +kernel
  have hname : canonicalName? "card" = some "card" := by decide
  have hlookup : indented.lookup [] "card" = (.ok none, []) := by
    simp [lookup, hname, fetch, hresolve]
  exact ⟨hnames, hresolve, by rw [hlookup], by simp [preload, hnames, lookupAll, hlookup]⟩

/-! ## From a name to the listed names -/

/-- The names are listed in order. A canonical name that resolves has its file at one of its places,
below a root; it is listed, and once, if the extension that it is found with holds neither a point
nor a slash. -/
theorem names_complete (catalog : Catalog) (hroots : ∀ root ∈ catalog.roots, root ≠ "") :
    catalog.names.Pairwise (· < ·) ∧
      ∀ name path, canonicalName? name = some name → catalog.resolve name = some path →
        ∃ root ∈ catalog.roots, ∃ extension ∈ catalog.extensions,
          path = (placeOf name extension).foldl Path.join root ∧
          ('.' ∉ extension.toList → '/' ∉ extension.toList → catalog.names.count name = 1) := by
  refine ⟨catalog.pairwise_names, fun name path hname hpath => ?_⟩
  obtain ⟨hisFile, root, hroot, extension, hextension, rfl⟩ := resolve_eq_some hpath
  refine ⟨root, hroot, extension, hextension, rfl, fun hpoint hslash => ?_⟩
  have hlisted : placeOf name extension ∈ catalog.files.filesBelow root :=
    Tree.mem_filesBelow_of_isFile (hroots root hroot) (by simp [placeOf])
      (isPlain_of_mem_placeOf hname extension) (noSlash_of_mem_placeOf hname hslash) hisFile
  have hmem : name ∈ catalog.names := mem_names_iff.2
    ⟨root, hroot, _, hlisted, nameOf_placeOf hname hextension hpoint⟩
  exact List.count_eq_one_of_mem catalog.nodup_names hmem

theorem names_complete_cardAndInput :
    cardAndInput.resolve "forms.input" = some "components/forms/input.tpl" ∧
      cardAndInput.names.count "forms.input" = 1 := by
  have hpath : cardAndInput.resolve "forms.input" = some "components/forms/input.tpl" := by decide +kernel
  obtain ⟨-, hlisted⟩ := cardAndInput.names_complete (by decide)
  obtain ⟨root, -, extension, hextension, -, hcount⟩ := hlisted "forms.input" _ (by decide) hpath
  obtain rfl : extension = "tpl" := List.mem_singleton.1 hextension
  exact ⟨hpath, hcount (by decide) (by decide)⟩

/-- Components whose files have two extensions. -/
def paged : Config := { extensions := ["page.tpl"] }

/-- A file with both of them is found by its name, and not listed. -/
theorem file_without_name :
    let catalog := ofConfig paged (.ofFiles [("components/card.page.tpl", .file (.text "x"))])
    paged.validate = .ok () ∧ canonicalName? "card" = some "card" ∧
      catalog.resolve "card" = some "components/card.page.tpl" ∧ catalog.names = [] := by
  decide +kernel

end Catalog

end SlotTemplates
