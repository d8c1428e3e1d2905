import SlotTemplates.Proofs.Files.Path
import SlotTemplates.Proofs.Files.Places

/-!
# Trees whose names are names of files

A directory holds no name twice, and every name in it is one that a file can have
(`Tree.WellFormed`). Every tree that files with their paths make is like that
(`Tree.wellFormed_ofFiles`), and it stays so when files are put in and taken out
(`Tree.WellFormed.put`, `Tree.WellFormed.remove`).

In such a tree the files that are listed below a directory are those that paths lead to: joining the
names of a listed file to the directory gives the path of a file (`Tree.WellFormed.isFile_of_mem_filesBelow`).
The other way round, a path of plain names to a file gives a listed one in any tree
(`Tree.mem_filesBelow_of_isFile`).
-/

namespace SlotTemplates

namespace Tree

/-! ## Names in directories -/

/-- A name that a file or a directory can have. -/
structure IsEntryName (name : String) : Prop where
  plain : IsPlain name
  noSlash : '/' ∉ name.toList
  noNul : '\x00' ∉ name.toList

mutual

/-- Every directory in the tree has names of files, and none of them twice. -/
def WellFormed : Tree → Prop
  | .file _ => True
  | .dir entries => WellFormedEntries entries

/-- `WellFormed` over the entries of a directory. -/
def WellFormedEntries : List (String × Tree) → Prop
  | [] => True
  | (name, t) :: rest =>
    IsEntryName name ∧ Entries.get? name rest = none ∧ WellFormed t ∧ WellFormedEntries rest

end

section
variable {entries : List (String × Tree)} {name : String} {t : Tree}

theorem WellFormedEntries.of_get? (h : WellFormedEntries entries)
    (hget : Entries.get? name entries = some t) : IsEntryName name ∧ t.WellFormed := by
  induction entries with
  | nil => cases hget
  | cons entry rest ih =>
    obtain ⟨key, old⟩ := entry
    obtain ⟨hkey, -, hold, hrest⟩ := h
    rw [Entries.get?_cons] at hget
    split at hget
    · next heq =>
      cases hget
      exact ⟨heq ▸ hkey, hold⟩
    · exact ih hrest hget

theorem WellFormedEntries.insert (h : WellFormedEntries entries) (hname : IsEntryName name)
    (ht : t.WellFormed) : WellFormedEntries (Entries.insert entries name t) := by
  induction entries with
  | nil => exact ⟨hname, rfl, ht, trivial⟩
  | cons entry rest ih =>
    obtain ⟨key, old⟩ := entry
    obtain ⟨hkey, hfree, hold, hrest⟩ := h
    unfold Entries.insert
    split
    · exact ⟨hkey, hfree, ht, hrest⟩
    · next hne =>
      have hstill : Entries.get? key (Entries.insert rest name t) = none := by
        rw [Entries.get?_insert, if_neg (Ne.symm hne), hfree]
      exact ⟨hkey, hstill, hold, ih hrest⟩

theorem WellFormedEntries.erase (h : WellFormedEntries entries) (name : String) :
    WellFormedEntries (Entries.erase entries name) := by
  induction entries with
  | nil => trivial
  | cons entry rest ih =>
    obtain ⟨key, old⟩ := entry
    obtain ⟨hkey, hfree, hold, hrest⟩ := h
    by_cases heq : key = name
    · have hdropped : Entries.erase ((key, old) :: rest) name = Entries.erase rest name :=
        List.filter_cons_of_neg (by simp [heq])
      rw [hdropped]
      exact ih hrest
    · have hkept : Entries.erase ((key, old) :: rest) name =
          (key, old) :: Entries.erase rest name := List.filter_cons_of_pos (by simp [heq])
      have hstill : Entries.get? key (Entries.erase rest name) = none := by
        rw [Entries.get?_erase, hfree, ite_self]
      rw [hkept]
      exact ⟨hkey, hstill, hold, ih hrest⟩

end

/-! ## Trees that are made and changed -/

/-- The names that a path leads through are names of files. -/
theorem isEntryName_of_mem_names {path : Path} (hnul : '\x00' ∉ path.toList) {name : String}
    (hname : name ∈ path.names) : IsEntryName name := by
  have kept : ∀ (parts seen : List String),
      (∀ part ∈ seen, IsPlain part ∧ part ∈ path.parts) → (∀ part ∈ parts, part ∈ path.parts) →
      ∀ part ∈ parts.foldl (fun acc part =>
        if part = "" ∨ part = "." then acc
        else if part = ".." then acc.dropLast else acc ++ [part]) seen,
      IsPlain part ∧ part ∈ path.parts := by
    intro parts
    induction parts with
    | nil => exact fun seen hseen _ => hseen
    | cons next parts ih =>
      intro seen hseen hparts
      rw [List.foldl_cons]
      refine ih _ ?_ fun part hpart => hparts part (List.mem_cons_of_mem _ hpart)
      split
      · exact hseen
      next hidle =>
      split
      · exact fun part hpart => hseen part (List.dropLast_subset _ hpart)
      next hup =>
      intro part hpart
      rcases List.mem_append.1 hpart with hpart | hpart
      · exact hseen part hpart
      · obtain rfl := List.mem_singleton.1 hpart
        exact ⟨⟨fun h => hidle (.inl h), fun h => hidle (.inr h), hup⟩,
          hparts _ List.mem_cons_self⟩
  obtain ⟨hplain, hpart⟩ := kept path.parts [] nofun (fun _ h => h) name hname
  obtain ⟨piece, hpiece, rfl⟩ := List.mem_map.1 hpart
  refine ⟨hplain, fun hslash => ?_, fun hc => ?_⟩
  · rw [String.toList_ofList] at hslash
    have := not_isBreak_of_mem_pieces hpiece hslash
    simp at this
  · rw [String.toList_ofList] at hc
    exact hnul (mem_of_mem_pieces hpiece hc)

theorem WellFormed.putAt {new : Tree} (hnew : new.WellFormed) {names : List String}
    (hnames : ∀ name ∈ names, IsEntryName name) {old : Option Tree}
    (hold : ∀ t ∈ old, t.WellFormed) : (Tree.putAt names new old).WellFormed := by
  fun_induction Tree.putAt names new old with
  | case1 => exact hnew
  | case2 => trivial
  | case3 => exact hold _ rfl
  | case4 name names new ih =>
    obtain ⟨hname, hnames⟩ := List.forall_mem_cons.1 hnames
    exact ⟨hname, rfl, ih hnew hnames nofun, trivial⟩
  | case5 name names new entries ih =>
    obtain ⟨hname, hnames⟩ := List.forall_mem_cons.1 hnames
    have hentries : WellFormedEntries entries := hold _ rfl
    exact hentries.insert hname (ih hnew hnames fun t ht => (hentries.of_get? ht).2)
  | case6 => trivial

/-- A tree in which a file or a directory is put stays well-formed. -/
theorem WellFormed.put {t new : Tree} (h : t.WellFormed) (hnew : new.WellFormed) {path : Path}
    (hnul : '\x00' ∉ path.toList) : (t.put path new).WellFormed :=
  hnew.putAt (fun _ hname => isEntryName_of_mem_names hnul hname) fun _ ht => by
    cases ht
    exact h

theorem WellFormed.removeAt {t : Tree} (h : t.WellFormed) (names : List String) :
    (Tree.removeAt names t).WellFormed := by
  fun_induction Tree.removeAt names t with
  | case1 name entries => exact WellFormedEntries.erase h name
  | case2 name names entries hne t hget ih =>
    obtain ⟨hname, ht⟩ := WellFormedEntries.of_get? h hget
    exact WellFormedEntries.insert h hname (ih ht)
  | case3 => exact h
  | case4 => exact h

/-- A tree from which something is taken stays well-formed. -/
theorem WellFormed.remove {t : Tree} (h : t.WellFormed) (path : Path) :
    (t.remove path).WellFormed := h.removeAt path.names

/-- Files with their paths make a well-formed tree. -/
theorem wellFormed_ofFiles {files : List (Path × Tree)}
    (h : ∀ file ∈ files, '\x00' ∉ file.1.toList ∧ file.2.WellFormed) :
    (Tree.ofFiles files).WellFormed := by
  have build : ∀ t : Tree, t.WellFormed →
      (files.foldl (fun t file => t.put file.1 file.2) t).WellFormed := by
    induction files with
    | nil => exact fun _ ht => ht
    | cons file files ih =>
      obtain ⟨⟨hnul, hnew⟩, hrest⟩ := List.forall_mem_cons.1 h
      exact fun t ht => ih hrest _ (ht.put hnew hnul)
  exact build (.dir []) trivial

/-! ## Walks and files -/

section
variable {above above' : List Tree} {t u : Tree} {parts : List String}

theorem follow_nil (above : List Tree) (t : Tree) : follow above t [] = some (above, t) := by
  cases t <;> rfl

/-- Parts lead on from where the parts before them lead. -/
theorem follow_append (above : List Tree) (t : Tree) (ps qs : List String) :
    follow above t (ps ++ qs) =
      (follow above t ps).bind fun place => follow place.1 place.2 qs := by
  fun_induction follow above t ps with
  | case1 => rfl
  | case2 => rfl
  | case3 above entries part parts hidle ih =>
    rw [List.cons_append, follow.eq_def]
    simp only [hidle, if_true]
    exact ih
  | case4 => rfl
  | case5 entries parts t above hidle ih =>
    rw [List.cons_append, follow.eq_def]
    simp only [hidle, if_true, if_false]
    exact ih
  | case6 above entries part parts hidle hup t hget ih =>
    rw [List.cons_append, follow.eq_def]
    simp only [hidle, hup, if_false, hget]
    exact ih
  | case7 above entries part parts hidle hup hget =>
    rw [List.cons_append, follow.eq_def]
    simp only [hidle, hup, if_false, hget]
    rfl

/-- A walk ends where the parts of the path lead. -/
theorem walk_eq_ok_iff :
    walk above t parts = .ok u ↔ ∃ above', follow above t parts = some (above', u) := by
  constructor
  · intro h
    rw [← List.append_nil parts] at h
    obtain ⟨above', t', hfollow, hwalk⟩ := walk_append h
    obtain rfl : t' = u := by cases t' <;> simpa [walk] using hwalk
    exact ⟨above', hfollow⟩
  · rintro ⟨above', h⟩
    fun_induction follow above t parts with
    | case1 => cases h; rw [walk.eq_def]
    | case2 => cases h
    | case3 above entries part parts hidle ih =>
      rw [walk.eq_def]
      simp only [hidle, if_true]
      exact ih h
    | case4 => cases h
    | case5 entries parts t above hidle ih =>
      rw [walk.eq_def]
      simp only [hidle, if_true, if_false]
      exact ih h
    | case6 above entries part parts hidle hup t hget ih =>
      rw [walk.eq_def]
      simp only [hidle, hup, if_false, hget]
      exact ih h
    | case7 => cases h

/-- Well-formed trees lead to well-formed ones. -/
theorem WellFormed.of_follow (ht : t.WellFormed) (habove : ∀ a ∈ above, a.WellFormed)
    (h : Tree.follow above t parts = some (above', u)) : u.WellFormed := by
  fun_induction Tree.follow above t parts with
  | case1 => cases h; exact ht
  | case2 => cases h
  | case3 above entries part parts hidle ih => exact ih ht habove h
  | case4 => cases h
  | case5 entries parts t above hidle ih =>
    obtain ⟨ht', habove'⟩ := List.forall_mem_cons.1 habove
    exact ih ht' habove' h
  | case6 above entries part parts hidle hup t hget ih =>
    have hdir : (Tree.dir entries).WellFormed := ht
    exact ih (WellFormedEntries.of_get? ht hget).2 (List.forall_mem_cons.2 ⟨hdir, habove⟩) h
  | case7 => cases h

/-- What is at a path: it has to be a relative one without a NUL, and its parts lead there. -/
theorem locate_eq_ok_iff {path : Path} :
    t.locate path = .ok u ↔ '\x00' ∉ path.toList ∧ path ≠ "" ∧ path.isAbsolute = false ∧
      ∃ above, follow [] t path.parts = some (above, u) := by
  unfold locate
  rw [← walk_eq_ok_iff]
  split
  · next hnul => simp [List.contains_iff_mem.1 hnul]
  next hnul =>
  split
  · next houtside =>
    refine ⟨fun h => (nomatch h), fun ⟨_, hne, habsolute, _⟩ => ?_⟩
    rcases houtside with heq | heq
    · exact absurd heq hne
    · rw [habsolute] at heq
      cases heq
  · next hinside =>
    have hnul : '\x00' ∉ path.toList := fun h => hnul (List.contains_iff_mem.2 h)
    have hne : path ≠ "" := fun h => hinside (.inl h)
    have habsolute : path.isAbsolute = false := by simpa using fun h => hinside (.inr h)
    exact ⟨fun h => ⟨hnul, hne, habsolute, h⟩, fun h => h.2.2.2⟩

theorem isFile_iff {path : Path} :
    t.isFile path = true ↔ ∃ content, t.locate path = .ok (.file content) := by
  unfold isFile
  split
  · next content h => exact ⟨fun _ => ⟨content, h⟩, fun _ => rfl⟩
  · next hno => exact ⟨fun h => (nomatch h), fun ⟨content, h⟩ => (hno content h).elim⟩

end

/-! ## Files that are listed -/

section
variable {entries : List (String × Tree)} {place : List String} {above : List Tree} {t : Tree}

theorem WellFormedEntries.of_mem_filesOf (h : WellFormedEntries entries)
    (hm : place ∈ filesOf entries) :
    ∃ name rest t, place = name :: rest ∧ Entries.get? name entries = some t ∧ rest ∈ t.files := by
  induction entries with
  | nil => cases hm
  | cons entry others ih =>
    obtain ⟨key, old⟩ := entry
    obtain ⟨-, hfree, -, hothers⟩ := h
    rw [filesOf] at hm
    rcases List.mem_append.1 hm with hm | hm
    · obtain ⟨rest, hrest, rfl⟩ := List.mem_map.1 hm
      exact ⟨key, rest, old, rfl, by rw [Entries.get?_cons, if_pos rfl], hrest⟩
    · obtain ⟨name, rest, t, rfl, hget, hrest⟩ := ih hothers hm
      -- a later entry is not hidden by the first one, whose name it cannot have
      have hne : key ≠ name := by
        rintro rfl
        rw [hfree] at hget
        cases hget
      exact ⟨name, rest, t, rfl, by rw [Entries.get?_cons, if_neg hne, hget], hrest⟩

/-- The names of a listed file lead to it, and are names of files. -/
theorem WellFormed.of_mem_files (h : t.WellFormed) (hm : place ∈ t.files) (above : List Tree) :
    (∃ above' content, follow above t place = some (above', .file content)) ∧
      ∀ name ∈ place, IsEntryName name := by
  induction place generalizing t above with
  | nil =>
    cases t with
    | file content => exact ⟨⟨above, content, rfl⟩, nofun⟩
    | dir entries =>
      obtain ⟨name, rest, t, hnil, -⟩ := WellFormedEntries.of_mem_filesOf h hm
      cases hnil
  | cons name place ih =>
    cases t with
    | file content => simp [files] at hm
    | dir entries =>
      obtain ⟨_, _, t, heq, hget, hrest⟩ := WellFormedEntries.of_mem_filesOf h hm
      obtain ⟨rfl, rfl⟩ := List.cons.inj heq
      obtain ⟨hname, ht⟩ := WellFormedEntries.of_get? h hget
      obtain ⟨hfollow, hnames⟩ := ih ht hrest (.dir entries :: above)
      obtain ⟨hempty, hdot, hup⟩ := hname.plain
      refine ⟨?_, List.forall_mem_cons.2 ⟨hname, hnames⟩⟩
      simpa only [follow, hempty, hdot, hup, or_self, if_false, hget] using hfollow

theorem mem_filesOf {name : String} (h : Entries.get? name entries = some t)
    (hm : place ∈ t.files) : name :: place ∈ filesOf entries := by
  induction entries with
  | nil => cases h
  | cons entry rest ih =>
    obtain ⟨key, old⟩ := entry
    rw [Entries.get?_cons] at h
    rw [filesOf]
    split at h
    · next heq =>
      cases h
      exact List.mem_append_left _ (List.mem_map.2 ⟨place, hm, by rw [heq]⟩)
    · exact List.mem_append_right _ (ih h)

/-- Plain names that lead to a file are listed. -/
theorem mem_files {above' : List Tree} {content : Content}
    (h : follow above t place = some (above', .file content))
    (hplain : ∀ name ∈ place, IsPlain name) : place ∈ t.files := by
  induction place generalizing above t with
  | nil =>
    rw [follow_nil] at h
    cases h
    exact List.mem_singleton_self _
  | cons name place ih =>
    obtain ⟨hempty, hdot, hup⟩ := hplain name List.mem_cons_self
    cases t with
    | file content => cases h
    | dir entries =>
      cases hget : Entries.get? name entries with
      | none => simp [follow, hempty, hdot, hup, hget] at h
      | some t =>
        simp only [follow, hempty, hdot, hup, or_self, if_false, hget] at h
        exact mem_filesOf hget (ih h fun n hn => hplain n (List.mem_cons_of_mem _ hn))

end

/-! ## Files below a directory -/

section
variable {t : Tree} {root : Path} {names : List String}

/-- A slash at the end of the path of a directory does not count. -/
theorem follow_lead (hroot : root ≠ "") {above : List Tree} {entries : List (String × Tree)} :
    follow [] t root.parts = some (above, .dir entries) ↔
      follow [] t (root.lead.map String.ofList) = some (above, .dir entries) := by
  rcases Path.rawParts_eq_lead hroot with heq | heq
  · rw [Path.parts, heq]
  · rw [Path.parts, heq, List.map_append, follow_append]
    cases follow [] t (root.lead.map String.ofList) with
    | none => simp
    | some place =>
      obtain ⟨above', t'⟩ := place
      cases t' with
      | file content => simp [follow]
      | dir entries' => simp [follow]

theorem isName_of_isPlain {name : String} (h : IsPlain name) (hslash : '/' ∉ name.toList) :
    Path.IsName name := by
  refine ⟨fun hnil => h.1 (String.toList_eq_nil_iff.1 hnil), ?_⟩
  rintro c hc rfl
  exact hslash hc

theorem mem_filesBelow_iff :
    names ∈ t.filesBelow root ↔
      ∃ entries, t.locate root = .ok (.dir entries) ∧ names ∈ filesOf entries := by
  unfold filesBelow
  split
  · next entries h =>
    refine ⟨fun hm => ⟨entries, h, hm⟩, ?_⟩
    rintro ⟨other, hother, hm⟩
    rw [h] at hother
    cases hother
    exact hm
  · next hno => exact ⟨fun hm => (nomatch hm), fun ⟨entries, h, _⟩ => (hno entries h).elim⟩

/-- The path of a file that is listed below a directory is the path of a file. -/
theorem WellFormed.isFile_of_mem_filesBelow (ht : t.WellFormed) (hm : names ∈ t.filesBelow root) :
    t.isFile (names.foldl Path.join root) = true ∧ names ≠ [] ∧
      ∀ name ∈ names, IsEntryName name := by
  obtain ⟨entries, hlocate, hfiles⟩ := mem_filesBelow_iff.1 hm
  obtain ⟨hnul, hroot, habsolute, above, hfollow⟩ := locate_eq_ok_iff.1 hlocate
  have hdir : (Tree.dir entries).WellFormed := ht.of_follow (List.forall_mem_nil _) hfollow
  obtain ⟨⟨above', content, hfile⟩, hnames⟩ := hdir.of_mem_files hfiles above
  have hne : names ≠ [] := by
    rintro rfl
    obtain ⟨name, rest, _, hnil, -⟩ := WellFormedEntries.of_mem_filesOf hdir hfiles
    cases hnil
  have hjoin : ∀ name ∈ names, Path.IsName name := fun name hname =>
    isName_of_isPlain (hnames name hname).plain (hnames name hname).noSlash
  obtain ⟨more, hmore, hchars⟩ := Path.toList_foldl_join hroot hjoin
  obtain ⟨c, cs, hcs⟩ := List.exists_cons_of_ne_nil fun hnil =>
    hroot (String.toList_eq_nil_iff.1 hnil)
  refine ⟨isFile_iff.2 ⟨content, locate_eq_ok_iff.2 ⟨?_, ?_, ?_, above', ?_⟩⟩, hne, hnames⟩
  · rw [hmore]
    intro hc
    rcases List.mem_append.1 hc with hc | hc
    · exact hnul hc
    rcases hchars _ hc with heq | ⟨name, hname, hc⟩
    · cases heq
    · exact (hnames name hname).noNul hc
  · intro heq
    rw [heq, hcs] at hmore
    cases hmore
  · simpa [Path.isAbsolute, hmore, hcs] using habsolute
  · rw [Path.parts_foldl_join root hjoin hne, follow_append, (follow_lead hroot).1 hfollow]
    exact hfile

/-- Plain names that make the path of a file with a directory are listed below it. -/
theorem mem_filesBelow_of_isFile (hroot : root ≠ "") (hne : names ≠ [])
    (hplain : ∀ name ∈ names, IsPlain name) (hslash : ∀ name ∈ names, '/' ∉ name.toList)
    (h : t.isFile (names.foldl Path.join root) = true) : names ∈ t.filesBelow root := by
  have hjoin : ∀ name ∈ names, Path.IsName name := fun name hname =>
    isName_of_isPlain (hplain name hname) (hslash name hname)
  obtain ⟨content, hlocate⟩ := isFile_iff.1 h
  obtain ⟨hnul, -, habsolute, above', hfollow⟩ := locate_eq_ok_iff.1 hlocate
  obtain ⟨more, hmore, -⟩ := Path.toList_foldl_join hroot hjoin
  rw [Path.parts_foldl_join root hjoin hne, follow_append] at hfollow
  obtain ⟨⟨above, dir⟩, hdir, hfile⟩ := Option.bind_eq_some_iff.1 hfollow
  dsimp only at hfile
  cases dir with
  | file content' =>
    -- a file leads nowhere, and there are names left
    obtain ⟨name, rest, rfl⟩ := List.exists_cons_of_ne_nil hne
    cases hfile
  | dir entries =>
    have hnul' : '\x00' ∉ root.toList := fun hc => hnul (hmore ▸ List.mem_append_left more hc)
    have habsolute' : root.isAbsolute = false := by
      obtain ⟨c, cs, hcs⟩ := List.exists_cons_of_ne_nil fun hnil =>
        hroot (String.toList_eq_nil_iff.1 hnil)
      simpa [Path.isAbsolute, hmore, hcs] using habsolute
    have hroot' : t.locate root = .ok (.dir entries) :=
      locate_eq_ok_iff.2 ⟨hnul', hroot, habsolute', above, (follow_lead hroot).2 hdir⟩
    exact mem_filesBelow_iff.2 ⟨entries, hroot', mem_files hfile hplain⟩

end

end Tree

end SlotTemplates
