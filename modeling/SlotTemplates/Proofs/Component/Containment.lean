import SlotTemplates.Proofs.Except
import SlotTemplates.Proofs.History

/-!
# Components stay below their roots

A name is cut at points and slashes alike, so that `canonicalName?` does not tell them apart
(`canonicalName?_of_sameShape`). What is left of it are segments that cannot lead anywhere but into
the entry of their name (`exists_plainSegments`). The path of a component is written as one of the
roots, these segments and one of the extensions (`Catalog.pathBelow`), in this order, and it is the
first path of this form at which there is a file (`Catalog.foundBelow_of_resolve`).
`Session.lookup_contained` says so of every component that a session finds, at the time at which it
was loaded.
-/

namespace SlotTemplates

/-! ## Points and slashes -/

/-- Two characters that are equal, or separate segments both. -/
def SameInNames (a b : Char) : Prop := a = b ∨ isSeparator a = true ∧ isSeparator b = true

/-- A point in the place of every separator. -/
def pointed (c : Char) : Char := if isSeparator c then '.' else c

section
variable {a b c : Char} {cs : List Char} {name other : String}

theorem pointed_of_not_isSeparator (h : isSeparator c = false) : pointed c = c := by
  rw [pointed, h]
  rfl

theorem isSeparator_pointed (c : Char) : isSeparator (pointed c) = isSeparator c := by
  unfold pointed
  split
  · next h => rw [h]; rfl
  · rfl

theorem isBlank_pointed (c : Char) : isBlank (pointed c) = isBlank c := by
  unfold pointed
  split
  · next h =>
    obtain rfl | rfl : c = '.' ∨ c = '/' := by simpa [isSeparator] using h
    · rfl
    · decide
  · rfl

theorem SameInNames.pointed_eq (h : SameInNames a b) : pointed a = pointed b := by
  rcases h with rfl | ⟨ha, hb⟩
  · rfl
  · rw [pointed, pointed, if_pos ha, if_pos hb]

/-- Writing points for separators does not move the ends of a text. -/
theorem trim_map_pointed (cs : List Char) : trim (cs.map pointed) = (trim cs).map pointed := by
  have hblank : isBlank ∘ pointed = isBlank := funext isBlank_pointed
  rw [trim, trim, trimStart, trimStart, trimEnd, trimEnd, List.dropWhile_map, hblank,
    ← List.map_reverse, List.dropWhile_map, hblank, List.map_reverse]

/-- It does not change the segments either. -/
theorem splitSegments_map_pointed (cs : List Char) :
    splitSegments (cs.map pointed) = splitSegments cs := by
  unfold splitSegments
  induction cs with
  | nil => rfl
  | cons c cs ih =>
    rw [List.map_cons, pieces, pieces, ih, isSeparator_pointed]
    split
    · rfl
    · next hc =>
      rw [pointed_of_not_isSeparator (Bool.eq_false_iff.2 hc)]

theorem canonicalName?_map_pointed (name : String) :
    canonicalName? (String.ofList (name.toList.map pointed)) = canonicalName? name := by
  simp only [canonicalName?, nameSegments?, String.toList_ofList, trim_map_pointed,
    splitSegments_map_pointed]

/-- Names that differ in their separators alone mean the same. -/
theorem canonicalName?_of_sameShape (h : List.Forall₂ SameInNames name.toList other.toList) :
    canonicalName? name = canonicalName? other := by
  have hpointed : name.toList.map pointed = other.toList.map pointed := by
    rw [← List.forall₂_eq_eq_eq, List.forall₂_map_left_iff, List.forall₂_map_right_iff]
    exact h.imp fun _ _ => SameInNames.pointed_eq
  rw [← canonicalName?_map_pointed name, hpointed, canonicalName?_map_pointed]

end

/-! ## Segments -/

/-- A segment that leads into the entry of its name and nowhere else: it does not stay where it is
or lead up, and it holds no character that separates segments, names or drives, and no blank. -/
structure PlainSegment (segment : String) : Prop where
  ne_empty : segment ≠ ""
  ne_here : segment ≠ "."
  ne_up : segment ≠ ".."
  plain : ∀ c ∈ segment.toList,
    c ≠ '.' ∧ c ≠ '/' ∧ c ≠ '\\' ∧ c ≠ ':' ∧ isBlank c = false

theorem CanonicalSegments.plainSegment {segments : List (List Char)}
    (h : CanonicalSegments segments) {segment : List Char} (hs : segment ∈ segments) : PlainSegment (String.ofList segment) := by
  have hplain := h.isPlain hs []
  rw [List.append_nil] at hplain
  obtain ⟨hempty, hhere, hup⟩ := hplain
  refine ⟨hempty, hhere, hup, ?_⟩
  intro c hc
  rw [String.toList_ofList] at hc
  have hchars := h.isSegment segment hs
  simp only [SlotTemplates.isSegment, Bool.and_eq_true, List.all_eq_true, decide_eq_true_eq,
    Bool.not_eq_true'] at hchars
  obtain ⟨⟨hbackslash, hcolon⟩, hblank⟩ := hchars.2 c hc
  exact ⟨h.not_point hs c hc, h.not_slash hs c hc, hbackslash, hcolon, hblank⟩

/-! ## Written paths -/

namespace Path

/-- What names stand behind in a path: a root that ends in a slash, unless it is empty. -/
def base (root : Path) : String :=
  if root = "" ∨ root.toList.getLast? = some '/' then root else root ++ "/"

theorem join_eq_base (root : Path) {name : String} (h : IsName name) :
    join root name = root.base ++ name := by
  unfold join base
  rw [h.isAbsolute, Bool.false_or]
  by_cases hempty : root = ""
  · subst hempty
    simp
  · rw [if_neg (mt String.isEmpty_iff.1 hempty)]
    by_cases hslash : root.toList.getLast? = some '/'
    · rw [if_pos hslash, if_pos (.inr hslash)]
    · rw [if_neg hslash, if_neg (not_or.2 ⟨hempty, hslash⟩)]

/-- A path that ends in a name needs a slash. -/
theorem base_append {front name : String} (h : IsName name) :
    base (front ++ name) = front ++ name ++ "/" := by
  have hlast : ∀ c ∈ (front ++ name).toList.getLast?, c ≠ '/' := by
    intro c hc
    rw [String.toList_append, List.getLast?_append_of_ne_nil _ h.1] at hc
    exact h.2 c (List.mem_of_getLast? hc)
  refine if_neg ?_
  rintro (hempty | hslash)
  · have hchars := congrArg String.toList hempty
    rw [String.toList_append] at hchars
    exact h.1 (List.append_eq_nil_iff.1 hchars).2
  · exact hlast '/' hslash rfl

/-- Names that are joined to a root one after the other stand behind it, with slashes between
them. -/
theorem foldl_join_eq (root : Path) {names : List String} (h : ∀ name ∈ names, IsName name)
    (hne : names ≠ []) : names.foldl join root = root.base ++ "/".intercalate names := by
  induction names generalizing root with
  | nil => exact absurd rfl hne
  | cons name names ih =>
    obtain ⟨hname, hnames⟩ := List.forall_mem_cons.1 h
    rw [List.foldl_cons, join_eq_base root hname]
    cases names with
    | nil => simp
    | cons next names =>
      rw [ih (root.base ++ name) hnames (List.cons_ne_nil _ _), base_append hname,
        String.intercalate_cons_cons, String.append_assoc, String.append_assoc, String.append_assoc]

end Path

/-! ## Paths of components -/

/-- What is written behind the last name stands behind all of them. -/
theorem intercalate_concat_append (front : List String) (last more : String) :
    "/".intercalate (front ++ [last ++ more]) = "/".intercalate (front ++ [last]) ++ more := by
  induction front with
  | nil => simp
  | cons name front ih =>
    obtain ⟨next, rest, hrest⟩ : ∃ next rest, front ++ [last] = next :: rest :=
      List.exists_cons_of_ne_nil (by simp)
    obtain ⟨next', rest', hrest'⟩ : ∃ next rest, front ++ [last ++ more] = next :: rest :=
      List.exists_cons_of_ne_nil (by simp)
    rw [List.cons_append, List.cons_append, hrest, hrest', String.intercalate_cons_cons,
      String.intercalate_cons_cons, ← hrest, ← hrest', ih]
    simp only [String.append_assoc]

namespace Catalog

variable {catalog : Catalog} {name canonical : String} {path : Path} {definition : Definition}
  {history : List Event}

/-- The path of a component: a root, the segments of its name, and an extension. -/
def pathBelow (root : Path) (segments : List String) (extension : String) : Path :=
  root.base ++ "/".intercalate segments ++ "." ++ extension

/-- The names that lead to it from the root: its segments, the last one with the extension. -/
def placeBelow (segments : List String) (extension : String) : List String :=
  segments.dropLast ++ [segments.getLastD "" ++ "." ++ extension]

/-- A path is where segments lead, as the first one of its form at which there is a file: in the
order of the roots, and for one root in that of the extensions. The file is listed below the root;
without the name of a root it is one of the whole tree. -/
def FoundBelow (catalog : Catalog) (segments : List String) (path : Path) : Prop :=
  ∃ root extension, path = pathBelow root segments extension ∧
    catalog.files.isFile path = true ∧
    (∃ front back, catalog.roots = front ++ root :: back ∧
      ∀ other ∈ front, ∀ ext ∈ catalog.extensions,
        catalog.files.isFile (pathBelow other segments ext) = false) ∧
    (∃ front back, catalog.extensions = front ++ extension :: back ∧
      ∀ ext ∈ front, catalog.files.isFile (pathBelow root segments ext) = false) ∧
    placeBelow segments extension ∈
      if root = "" then catalog.files.files else catalog.files.filesBelow root

/-- The first file of a name. -/
theorem resolve_eq_some_first (h : catalog.resolve canonical = some path) :
    ∃ root extension, path = (placeOf canonical extension).foldl Path.join root ∧
      catalog.files.isFile path = true ∧
      (∃ front back, catalog.roots = front ++ root :: back ∧
        ∀ other ∈ front, ∀ ext ∈ catalog.extensions,
          catalog.files.isFile ((placeOf canonical ext).foldl Path.join other) = false) ∧
      ∃ front back, catalog.extensions = front ++ extension :: back ∧
        ∀ ext ∈ front, catalog.files.isFile ((placeOf canonical ext).foldl Path.join root) =
          false := by
  have hfile := List.find?_some h
  rw [resolve, candidates_eq, List.find?_flatMap, List.findSome?_eq_some_iff] at h
  obtain ⟨front, root, back, hroots, hfound, hnone⟩ := h
  rw [List.find?_map, Option.map_eq_some_iff] at hfound
  obtain ⟨extension, hextension, rfl⟩ := hfound
  obtain ⟨-, before, after, hextensions, hearlier⟩ := List.find?_eq_some_iff_append.1 hextension
  refine ⟨root, extension, rfl, hfile, ⟨front, back, hroots, ?_⟩,
    ⟨before, after, hextensions, ?_⟩⟩
  · intro other hother ext hext
    have hno := List.find?_eq_none.1 (hnone other hother) _ (List.mem_map_of_mem hext)
    exact Bool.eq_false_iff.2 hno
  · intro ext hext
    simpa using hearlier ext hext

/-- Segments that are joined to a root make the path of a component. -/
theorem foldl_join_placeBelow (root : Path) {segments : List String} {extension : String}
    (hne : segments ≠ []) (hnames : ∀ part ∈ placeBelow segments extension, Path.IsName part) :
    (placeBelow segments extension).foldl Path.join root = pathBelow root segments extension := by
  obtain ⟨front, last, rfl⟩ := List.eq_nil_or_concat segments |>.resolve_left hne
  have hplace : placeBelow (front.concat last) extension =
      front ++ [last ++ ("." ++ extension)] := by
    simp [placeBelow, String.append_assoc]
  rw [Path.foldl_join_eq root hnames (by simp [placeBelow]), hplace, intercalate_concat_append,
    pathBelow, List.concat_eq_append]
  simp only [String.append_assoc]

/-- A canonical name has segments, and its place is made of them. -/
theorem exists_plainSegments (h : canonicalName? canonical = some canonical) :
    ∃ segments, segments ≠ [] ∧ canonical = ".".intercalate segments ∧
      (∀ segment ∈ segments, PlainSegment segment) ∧
      ∀ extension, placeOf canonical extension = placeBelow segments extension := by
  obtain ⟨front, last, hsegments, hcanonical, hplace⟩ := exists_placeOf h
  refine ⟨(front ++ [last]).map String.ofList, by simp, ?_, ?_, fun extension => ?_⟩
  · rw [hcanonical, intercalate_map_ofList]
  · intro segment hsegment
    obtain ⟨chars, hchars, rfl⟩ := List.mem_map.1 hsegment
    exact hsegments.plainSegment hchars
  · rw [hplace]
    simp [placeBelow]

section
variable {root : Path} {extension : String} (hname : canonicalName? canonical = some canonical)
  (hslash : '/' ∉ extension.toList)
include hname hslash

theorem isName_of_mem_placeOf : ∀ part ∈ placeOf canonical extension, Path.IsName part := by
  intro part hpart
  exact Tree.isName_of_isPlain (isPlain_of_mem_placeOf hname extension part hpart)
    (noSlash_of_mem_placeOf hname hslash part hpart)

/-- A file at the place of a name is listed below the root. -/
theorem placeOf_mem_files
    (h : catalog.files.isFile ((placeOf canonical extension).foldl Path.join root) = true) :
    placeOf canonical extension ∈
      if root = "" then catalog.files.files else catalog.files.filesBelow root := by
  have hplain := isPlain_of_mem_placeOf hname extension
  have hne : placeOf canonical extension ≠ [] := by simp [placeOf]
  split
  · next hroot =>
    -- a path below no root leads from the top
    obtain ⟨content, hlocate⟩ := Tree.isFile_iff.1 h
    obtain ⟨-, -, -, above, hfollow⟩ := Tree.locate_eq_ok_iff.1 hlocate
    rw [hroot, Path.parts_foldl_join "" (isName_of_mem_placeOf hname hslash) hne] at hfollow
    exact Tree.mem_files hfollow hplain
  · next hroot =>
    exact Tree.mem_filesBelow_of_isFile hroot hne hplain (noSlash_of_mem_placeOf hname hslash) h

end

/-- What a canonical name resolves to is found below a root. -/
theorem foundBelow_of_resolve (hextensions : ∀ ext ∈ catalog.extensions, '/' ∉ ext.toList)
    (hname : canonicalName? canonical = some canonical)
    (h : catalog.resolve canonical = some path) :
    ∃ segments, segments ≠ [] ∧ canonical = ".".intercalate segments ∧
      (∀ segment ∈ segments, PlainSegment segment) ∧ catalog.FoundBelow segments path := by
  obtain ⟨segments, hne, hjoined, hplain, hplace⟩ := exists_plainSegments hname
  have hwritten (root : Path) {ext : String} (hext : ext ∈ catalog.extensions) :
      (placeOf canonical ext).foldl Path.join root = pathBelow root segments ext := by
    have hnames := isName_of_mem_placeOf hname (hextensions ext hext)
    rw [hplace] at hnames ⊢
    exact foldl_join_placeBelow root hne hnames
  obtain ⟨root, extension, hpath, hfile, ⟨earlier, later, hroots, hno⟩, before, after, hexts,
    hnot⟩ := resolve_eq_some_first h
  have hextension : extension ∈ catalog.extensions := by
    rw [hexts]
    exact List.mem_append_right _ List.mem_cons_self
  refine ⟨segments, hne, hjoined, hplain, root, extension, ?_, hfile, ⟨earlier, later, hroots, ?_⟩,
    ⟨before, after, hexts, ?_⟩, ?_⟩
  · rw [hpath, hwritten root hextension]
  · intro other hother ext hext
    rw [← hwritten other hext]
    exact hno other hother ext hext
  · intro ext hext
    have hmem : ext ∈ catalog.extensions := by
      rw [hexts]
      exact List.mem_append_left _ hext
    rw [← hwritten root hmem]
    exact hnot ext hext
  · rw [hpath] at hfile
    rw [← hplace]
    exact placeOf_mem_files hname (hextensions extension hextension) hfile

end Catalog

/-- The time at which a component that a lookup finds was loaded: when it was found first since it
was dropped last, or else now. -/
def History.LoadTime (history before : List Event) (canonical : String) : Prop :=
  LoadedAfter history before canonical ∨ before = history ∧ Unloaded history canonical

namespace Catalog

variable {catalog : Catalog} {name canonical : String} {definition : Definition}
  {history : List Event}

/-- A definition that is found under a name was loaded from a file below a root: the name has a
canonical form of plain segments, and when it was loaded its path was the first one of these
segments with a file. -/
def LoadedBelow (catalog : Catalog) (history : List Event) (name : String)
    (definition : Definition) : Prop :=
  ∃ segments before, canonicalName? name = some definition.name ∧ segments ≠ [] ∧
    definition.name = ".".intercalate segments ∧ (∀ segment ∈ segments, PlainSegment segment) ∧
    History.LoadTime history before definition.name ∧
    (catalog.after before).load definition.name definition.path = .ok definition ∧
    (catalog.after before).FoundBelow segments definition.path

/-- A component has the path that it is loaded from. -/
theorem path_of_load {path : Path} (h : catalog.load name path = .ok definition) :
    definition.path = path := by
  obtain ⟨source, -, h⟩ := bind_eq_ok_iff.1 h
  obtain ⟨declaration, -, h⟩ := bind_eq_ok_iff.1 h
  obtain ⟨template, -, h⟩ := bind_eq_ok_iff.1 h
  cases h
  rfl

/-- What is fetched was loaded from the file that its name resolves to. -/
theorem resolve_and_load_of_fetch (h : catalog.fetch canonical = .ok (some definition)) :
    catalog.resolve canonical = some definition.path ∧
      catalog.load canonical definition.path = .ok definition := by
  have hname := name_of_fetch h
  unfold fetch at h
  cases hpath : catalog.resolve canonical with
  | none => rw [hpath] at h; cases h
  | some path =>
    rw [hpath] at h
    cases hload : catalog.load canonical path with
    | error e => simp only [hload] at h; cases h
    | ok found =>
      simp only [hload] at h
      cases h
      obtain rfl : definition.path = path := path_of_load hload
      exact ⟨rfl, hload⟩

theorem Answers.loadedBelow (hextensions : ∀ ext ∈ catalog.extensions, '/' ∉ ext.toList)
    (h : catalog.Answers history name (.ok (some definition))) :
    catalog.LoadedBelow history name definition := by
  obtain ⟨canonical, before, hname, htime, hfetch⟩ : ∃ canonical before,
      canonicalName? name = some canonical ∧ History.LoadTime history before canonical ∧
        (catalog.after before).fetch canonical = .ok (some definition) := by
    generalize hfound : Except.ok (some definition) = found at h
    cases h with
    | unnamed => cases hfound
    | loaded hname hloaded hfetch =>
      cases hfound
      exact ⟨_, _, hname, .inl hloaded, hfetch⟩
    | current hname hunloaded =>
      rw [← hfound]
      exact ⟨_, history, hname, .inr ⟨rfl, hunloaded⟩, hfound.symm⟩
  obtain rfl : definition.name = canonical := name_of_fetch hfetch
  obtain ⟨hresolve, hload⟩ := resolve_and_load_of_fetch hfetch
  have hsame : ∀ extension ∈ (catalog.after before).extensions, '/' ∉ extension.toList :=
    hextensions
  obtain ⟨segments, hne, hjoined, hplain, hfound⟩ :=
    foundBelow_of_resolve hsame (canonicalName?_canonical hname) hresolve
  exact ⟨segments, before, hname, hne, hjoined, hplain, htime, hload, hfound⟩

end Catalog

namespace Session

/-- Component lookup does not leave its roots. A name has no canonical form, or one that is its own;
points and slashes in it are the same. Whatever was done in a session, every component that a lookup
found, by itself or in a render, and every one that the next lookup of any name finds, was loaded
from the first file below a root to which the plain segments of its canonical name lead. -/
theorem lookup_contained (env : Environment) (steps : List Step)
    (hextensions : ∀ extension ∈ env.config.extensions, '/' ∉ extension.toList) :
    let session := (start env).after steps
    let past := (start env).history steps
    (∀ name, canonicalName? name = none ∨ ∃ canonical, canonicalName? name = some canonical ∧
      canonicalName? canonical = some canonical) ∧
    (∀ name other, List.Forall₂ SameInNames name.toList other.toList →
      canonicalName? name = canonicalName? other) ∧
    (∀ front lookup back definition, past = front ++ .looked lookup :: back →
      lookup.found = .ok (some definition) →
        env.catalog.LoadedBelow front lookup.name definition) ∧
    ∀ name definition, (session.env.catalog.lookup session.cache name).1 = .ok (some definition) →
      env.catalog.LoadedBelow past name definition := by
  intro session past
  obtain ⟨hcatalog, hrecords⟩ : session.env.catalog = env.catalog.after past ∧
      env.catalog.Records past session.cache := by
    have hstart : (start env).env.catalog = env.catalog.after [] := rfl
    exact records_after hstart (Catalog.records_nil _) steps
  refine ⟨fun name => ?_, fun _ _ => canonicalName?_of_sameShape, ?_, ?_⟩
  · cases hname : canonicalName? name with
    | none => exact .inl rfl
    | some canonical => exact .inr ⟨canonical, rfl, canonicalName?_canonical hname⟩
  · intro front lookup back definition hpast hfound
    have hanswers := hrecords.answered front lookup back hpast
    rw [hfound] at hanswers
    exact hanswers.loadedBelow hextensions
  · intro name definition hfound
    have hanswers := hrecords.answers name
    rw [← hcatalog, hfound] at hanswers
    exact hanswers.loadedBelow hextensions

/-- A card is found under a name with blanks around it, below the one root that there is, as it was
before its file changed. -/
theorem lookup_contained_card :
    let steps := [.perform (.query (.component "card")), .edit (cardFiles "new")]
    let edited := (start (cards "old")).after steps
    ∃ definition,
      (edited.env.catalog.lookup edited.cache " card ").1 = .ok (some definition) ∧
      (cards "old").catalog.LoadedBelow ((start (cards "old")).history steps) " card "
        definition := by
  intro steps edited
  have hextensions : ∀ extension ∈ (cards "old").config.extensions, '/' ∉ extension.toList := by
    decide
  have hcard : canonicalName? "card" = some "card" := by decide
  have hspaced : canonicalName? " card " = some "card" := by decide
  have hcache : edited.cache =
      [("card", Catalog.textDefinition "card" "components/card.tpl" "old")] := by
    change ((cards "old").catalog.lookup [] "card").2 = _
    simp [Catalog.lookup, hcard, fetch_oldCard, Entries.insert]
  have hfound : (edited.env.catalog.lookup edited.cache " card ").1 =
      .ok (some (Catalog.textDefinition "card" "components/card.tpl" "old")) := by
    simp [hcache, Catalog.lookup, hspaced]
  obtain ⟨-, -, -, hnext⟩ := lookup_contained (cards "old") steps hextensions
  exact ⟨_, hfound, hnext " card " _ hfound⟩

end Session

end SlotTemplates
