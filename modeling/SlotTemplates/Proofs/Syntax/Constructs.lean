import SlotTemplates.Proofs.Syntax.Moving

/-!
# Constructs and what follows them

What is found at the front of a text ends in it, so it is found again in front of any other text
(`Scan.construct_again`), and where nothing is found in front of a brace it is not for what follows
the brace (`Scan.construct_append_none`). The text that is a brace itself is the one exception, for
together with the next one it opens an output.

A tag is cut into its head, what stands between the head and the brace at its end, and the rest
(`Scan.TagCut`). White space in front of the brace changes nothing in it but its end
(`Scan.TagCut.padded`, `Scan.tagOf_padded`). A slash that stands alone behind the head is the one
exception: it is not part of the head because the brace follows it.
-/

namespace SlotTemplates

/-- The same tag with its end `n` bytes further. -/
def Tag.widen (n : Nat) (t : Tag) : Tag := { t with span := ⟨t.span.start, t.span.stop + n⟩ }

namespace Scan

section
variable {closer : Closer} {s body rest : List Char} {pos : Nat} {claims : String → Bool}

/-! ## Outputs and comments -/

@[simp] theorem Closer.strip?_mark (closer : Closer) (more : List Char) :
    closer.strip? (closer.mark ++ more) = some more := by
  cases closer <;> rfl

/-- What ends at a closer ends there if plain characters stand before it, whatever follows it. -/
theorem close_padded {depth : Nat} {quote : Option Char}
    (h : close closer depth quote s = some (body, rest)) {pad : List Char}
    (hpad : ∀ c ∈ pad, Token.isPlain c = true) (more : List Char) :
    close closer depth quote (body ++ (pad ++ (closer.mark ++ more))) =
      some (body ++ pad, more) := by
  fun_induction close closer depth quote s generalizing body rest with
  | case1 | case2 => cases h
  | case3 depth quote c cs ih =>
    obtain ⟨_, hfirst, rfl⟩ := before_eq_some h
    obtain ⟨_, hmore, rfl⟩ := before_eq_some hfirst
    simp [close, ih hmore, before]
  | case8 c cs hquote hopen hstrip =>
    cases h
    rw [List.nil_append, close_plain_append hpad, close_closer (closer.strip?_mark more)]
    simp [prefixed]
  | case9 cs hquote hopen hstrip ih =>
    obtain ⟨inner, hmore, rfl⟩ := before_eq_some h
    have hstrip : closer.strip? ('}' :: (inner ++ (pad ++ (closer.mark ++ more)))) = none := by
      -- two braces are not found at one, and then another character follows
      cases closer with
      | oneBrace => cases hstrip
      | twoBraces =>
        obtain rfl := close_eq_some hmore
        cases inner with
        | nil => cases hstrip
        | cons d inner =>
          have hd : '}' ≠ d := by
            rintro rfl
            cases hstrip
          simp [Closer.strip?, hd.symm]
    simp [close, hstrip, ih hmore, before]
  | case4 depth c cs quote hescape ih =>
    obtain ⟨_, hmore, rfl⟩ := before_eq_some h
    rw [List.cons_append, close.eq_def]
    simp [hescape, ih hmore, before]
  | _ =>
    rename_i ih
    obtain ⟨_, hmore, rfl⟩ := before_eq_some h
    simp_all [close, before]

theorem output_again {k : Construct} (h : output pos s = .ok k) :
    ∃ written, s = written ++ k.rest ∧
      ∀ more, output pos (written ++ more) = .ok { k with rest := more } := by
  unfold output at h
  split at h
  · cases h
  next inner rest hclose =>
  cases h
  refine ⟨inner ++ ['}', '}'], close_eq_some hclose, fun more => ?_⟩
  have hagain := close_padded hclose (List.forall_mem_nil _) more
  simp only [List.nil_append, List.append_nil] at hagain
  rw [List.append_assoc, output]
  exact hagain ▸ rfl

/-- Nothing behind a closing brace has a part in the mark that opens a header. -/
theorem isPrefixOf_headerOpen_append (h : '}' ∈ s) (more : List Char) :
    headerOpen.isPrefixOf (s ++ more) = headerOpen.isPrefixOf s := by
  rw [Bool.eq_iff_iff, List.isPrefixOf_iff_prefix, List.isPrefixOf_iff_prefix]
  refine ⟨fun hopen => ?_, fun hopen => hopen.trans (List.prefix_append s more)⟩
  rcases Nat.le_total headerOpen.length s.length with hlength | hlength
  · exact List.prefix_of_prefix_length_le hopen (List.prefix_append s more) hlength
  · -- the text would be a part of the mark, which has no closing brace
    have hpart := List.prefix_of_prefix_length_le (List.prefix_append s more) hopen hlength
    exact absurd (hpart.subset h) (by decide)

theorem comment_again {cs : List Char} {k : Construct}
    (h : comment pos ('{' :: '#' :: cs) = .ok k) :
    ∃ written, cs = written ++ k.rest ∧
      ∀ more, comment pos ('{' :: '#' :: (written ++ more)) = .ok { k with rest := more } := by
  unfold comment at h
  generalize hmark : (if headerOpen.isPrefixOf ('{' :: '#' :: cs) = true then (5, headerClose)
    else (2, commentClose)) = marks at h
  obtain ⟨n, mark, rfl, hne, hbrace⟩ :
      ∃ n mark, marks = (n + 2, mark) ∧ mark ≠ [] ∧ '}' ∈ mark := by
    split at hmark
    · exact ⟨3, _, hmark.symm, by decide, by decide⟩
    · exact ⟨0, _, hmark.symm, by decide, by decide⟩
  dsimp only at h
  split at h
  · cases h
  next body rest hsplit =>
  cases h
  obtain ⟨hrest, hfirst⟩ := splitAt?_eq_some hsplit
  have hlength : (cs.take n).length = n := by
    refine List.length_take_of_le (Nat.le_of_not_lt fun hshort => hne ?_)
    rw [List.drop_succ_cons, List.drop_succ_cons, List.drop_eq_nil_of_le hshort.le] at hrest
    have hparts : body = [] ∧ mark = [] ∧ rest = [] := by simpa using hrest.symm
    exact hparts.2.1
  let written := cs.take n ++ (body ++ mark)
  have hcs : cs = written ++ rest := by
    rw [List.append_assoc, ← hrest]
    exact (List.take_append_drop n cs).symm
  refine ⟨written, hcs, fun more => ?_⟩
  have hmem : '}' ∈ '{' :: '#' :: written := by simp [written, hbrace]
  have hmarks : (if headerOpen.isPrefixOf ('{' :: '#' :: (written ++ more)) = true
      then (5, headerClose) else (2, commentClose)) = (n + 2, mark) := by
    have hopen := isPrefixOf_headerOpen_append hmem
    rw [hcs] at hmark
    exact ((hopen more).trans (hopen rest).symm) ▸ hmark
  have hdrop : ('{' :: '#' :: (written ++ more)).drop (n + 2) = body ++ mark ++ more := by
    rw [List.append_assoc (cs.take n)]
    exact List.drop_left' hlength
  rw [comment, hmarks]
  dsimp only
  rw [hdrop, splitAt?_append hfirst hne]

/-! ## Heads -/

/-- A head ends before a brace. -/
theorem splitHead_append_brace (s more : List Char) :
    splitHead (s ++ '{' :: more) = ((splitHead s).1, (splitHead s).2 ++ '{' :: more) := by
  have same {c : Char} {cs : List Char} (hslash : ∀ ds, c = '/' → cs = '}' :: ds → False) (ds)
      (hc : c = '/') : cs ++ '{' :: more = '}' :: ds → False := by
    cases cs with
    | nil => exact fun heq => by cases heq
    | cons d cs => exact fun heq => hslash cs hc (by rw [(List.cons.inj heq).1])
  fun_induction splitHead s with
  | case1 => rfl
  | case2 cs => rfl
  | case3 c cs hslash hc head rest hr ih =>
    rw [List.cons_append, splitHead.eq_3 c _ (same hslash), if_pos hc, ih, hr]
  | case4 c cs hslash hc =>
    rw [List.cons_append, splitHead.eq_3 c _ (same hslash), if_neg hc]

/-- The white space that may follow a head is plain. -/
theorem isPlain_of_isHeadSpace {c : Char} (h : isHeadSpace c = true) : Token.isPlain c = true := by
  simp only [isHeadSpace, Bool.or_eq_true, decide_eq_true_eq] at h
  rcases h with (((rfl | rfl) | rfl) | rfl) | rfl <;> decide

theorem isHeadChar_of_isHeadSpace {c : Char} (h : isHeadSpace c = true) :
    isHeadChar c = false := by
  simp only [isHeadSpace, Bool.or_eq_true, decide_eq_true_eq] at h
  rcases h with (((rfl | rfl) | rfl) | rfl) | rfl <;> decide

theorem splitHead_stop {c : Char} (hc : isHeadChar c = false) (cs : List Char) :
    splitHead (c :: cs) = ([], c :: cs) :=
  splitHead_append (List.forall_mem_nil _) hc cs

/-- Where a head ends, no other begins. -/
theorem splitHead_rest (s : List Char) : splitHead (splitHead s).2 = ([], (splitHead s).2) := by
  fun_induction splitHead s with
  | case1 | case2 => rfl
  | case3 c cs hslash hc head rest hr ih =>
    rwa [hr] at ih
  | case4 c cs hslash hc =>
    rw [splitHead.eq_3 c cs hslash, if_neg hc]

/-- A head is read again in front of another text that does not go on with it, if the slash at its
end has not come in front of a brace. -/
theorem splitHead_again {head after other : List Char} (h : splitHead s = (head, after))
    (hother : splitHead other = ([], other))
    (hbrace : other.head? = some '}' → after.head? = some '}') :
    splitHead (head ++ other) = (head, other) := by
  fun_induction splitHead s generalizing head with
  | case1 | case2 | case4 =>
    cases h
    exact hother
  | case3 c cs hslash hc front rest hr ih =>
    cases h
    have hcs : front ++ after = cs := by
      have hsplit := splitHead_eq cs
      rwa [hr] at hsplit
    have hslash' (ds : List Char) (hc : c = '/') : front ++ other = '}' :: ds → False := by
      intro heq
      cases front with
      | nil =>
        obtain rfl : other = '}' :: ds := heq
        obtain ⟨rest, rfl⟩ := List.head?_eq_some_iff.1 (hbrace rfl)
        exact hslash rest hc hcs.symm
      | cons d front =>
        cases (List.cons.inj heq).1
        exact hslash _ hc hcs.symm
    rw [List.cons_append, splitHead.eq_3 c _ hslash', if_pos hc, ih hr]

/-- A text in which no head begins although its first character can stand in one begins with the
slash and the brace that end a tag. -/
theorem slash_of_splitHead {c : Char} {cs : List Char} (h : splitHead (c :: cs) = ([], c :: cs))
    (hc : isHeadChar c = true) : c = '/' ∧ cs.head? = some '}' := by
  unfold splitHead at h
  split at h
  · next heq => cases heq
  · next heq =>
    cases heq
    exact ⟨rfl, rfl⟩
  · next heq =>
    cases heq
    rw [if_pos hc] at h
    cases h

theorem splitHead_chars (s : List Char) : ∀ c ∈ (splitHead s).1, isHeadChar c = true := by
  fun_induction splitHead s with
  | case1 | case2 | case4 => exact List.forall_mem_nil _
  | case3 c cs _ hc head rest hr ih =>
    rw [hr] at ih
    exact List.forall_mem_cons.2 ⟨hc, ih⟩

/-- A head may have slashes in it and at its end if no brace follows. -/
theorem splitHead_chars_append {chars : List Char} (hchars : ∀ c ∈ chars, isHeadChar c = true)
    {c : Char} (hc : isHeadChar c = false) (hbrace : c ≠ '}') (cs : List Char) :
    splitHead (chars ++ c :: cs) = (chars, c :: cs) := by
  induction chars with
  | nil => exact splitHead_stop hc cs
  | cons d chars ih =>
    have hslash (ds : List Char) (hd : d = '/') : chars ++ c :: cs = '}' :: ds → False := by
      intro heq
      cases chars with
      | nil => exact hbrace (List.cons.inj heq).1
      | cons e chars =>
        obtain rfl : e = '}' := (List.cons.inj heq).1
        exact absurd (hchars '}' (by simp)) (by decide)
    rw [List.cons_append, splitHead.eq_3 d _ hslash, if_pos (hchars d List.mem_cons_self),
      ih fun e he => hchars e (List.mem_cons_of_mem d he)]

/-! ## Tags -/

/-- No tag begins where no head does. -/
theorem tag_eq_none_iff {closing : Bool} :
    tag claims pos closing s = .ok none ↔
      ((splitHead s).1.isEmpty || !claims (String.ofList (splitHead s).1) ||
        !endsHead (splitHead s).2) = true := by
  unfold tag
  generalize splitHead s = split
  obtain ⟨head, after⟩ := split
  dsimp only
  split
  · next hnone => exact iff_of_true rfl hnone
  next hsome =>
  refine iff_of_false (fun h => ?_) hsome
  split at h
  · cases h
  · split at h <;> cases h

/-- Where no tag begins at the end of a text or in front of a brace, none does in front of another
brace. -/
theorem tag_append_none {closing : Bool} {other : List Char} (hother : ∀ c ∈ other.head?, c = '{')
    (h : tag claims pos closing (s ++ other) = .ok none) (more : List Char) :
    tag claims pos closing (s ++ '{' :: more) = .ok none := by
  rw [tag_eq_none_iff] at h ⊢
  rw [splitHead_append_brace]
  cases other with
  | nil =>
    rw [List.append_nil] at h
    cases hafter : (splitHead s).2 with
    | nil => simp [endsHead, isHeadSpace]
    | cons => simpa [hafter, endsHead] using h
  | cons c other =>
    obtain rfl : c = '{' := hother c rfl
    rw [splitHead_append_brace] at h
    cases hafter : (splitHead s).2 <;> simpa [hafter, endsHead] using h

/-- How a tag is cut out of the text behind its brace and its slash: `body` stands between the head
and the brace at the end. -/
structure TagCut (claims : String → Bool) (closing : Bool) (s head body rest : List Char) : Prop
    where
  split : splitHead s = (head, body ++ '}' :: rest)
  ne_nil : head ≠ []
  claimed : claims (String.ofList head) = true
  ends : endsHead (body ++ '}' :: rest) = true
  close : close .oneBrace 0 none (body ++ '}' :: rest) = some (body, rest)
  /-- A closing tag has no arguments and no slash at its end. -/
  bare : closing = true → ∀ pos, (tagOf pos closing head body).selfClosing = false ∧
    allBlank (tagOf pos closing head body).args = true

theorem tag_eq_some_iff {closing : Bool} {k : Construct} :
    tag claims pos closing s = .ok (some k) ↔
      ∃ head body, TagCut claims closing s head body k.rest ∧
        k.segment = some (.tag (tagOf pos closing head body)) ∧
        k.stop = (tagOf pos closing head body).span.stop := by
  constructor
  · intro h
    unfold tag at h
    split at h
    next head after hsplit =>
    split at h
    · cases h
    next hclaimed =>
    simp only [Bool.or_eq_true, Bool.not_eq_true', not_or, Bool.not_eq_false] at hclaimed
    obtain ⟨⟨hne, hclaims⟩, hends⟩ := hclaimed
    split at h
    · cases h
    next body rest hclose =>
    dsimp only at h
    split at h
    · cases h
    next hbare =>
    cases h
    have hafter : after = body ++ '}' :: rest := by
      simpa [Closer.mark] using close_eq_some hclose
    subst hafter
    refine ⟨head, body, ⟨hsplit, by simpa using hne, hclaims, hends, hclose, ?_⟩, rfl, rfl⟩
    rintro rfl _
    have hempty : (tagOf pos true head body).selfClosing = false ∧
      allBlank (tagOf pos true head body).args = true := by simpa using hbare
    exact hempty
  · obtain ⟨segment, stop, rest⟩ := k
    rintro ⟨head, body, ⟨hsplit, hne, hclaims, hends, hclose, hbare⟩, hsegment, hstop⟩
    subst hsegment hstop
    have hrefused : (closing && ((tagOf pos closing head body).selfClosing ||
        !allBlank (tagOf pos closing head body).args)) = false := by
      cases closing with
      | false => rfl
      | true => simp [hbare rfl pos]
    simp [tag, hsplit, hne, hclaims, hends, hclose, hrefused]

/-- White space in front of its brace makes a tag longer, and no other one. -/
theorem tagOf_padded {pad : List Char} (hpad : ∀ c ∈ pad, isHeadSpace c = true) (pos : Nat)
    (closing : Bool) (head body : List Char) :
    tagOf pos closing head (body ++ pad) =
      (tagOf pos closing head body).widen (byteLength pad) := by
  have htrim : trimEnd (body ++ pad) = trimEnd body :=
    trimEnd_append fun c hc => isBlank_of_isHeadSpace (hpad c hc)
  simp only [tagOf, htrim, byteLength_append, Tag.widen, Tag.mk.injEq, Span.mk.injEq, true_and]
  omega

namespace TagCut

variable {closing : Bool} {head pad : List Char}

theorem eq (h : TagCut claims closing s head body rest) : s = head ++ (body ++ '}' :: rest) := by
  have hsplit := splitHead_eq s
  rw [h.split] at hsplit
  exact hsplit.symm

theorem splitHead_body (h : TagCut claims closing s head body rest) :
    splitHead (body ++ '}' :: rest) = ([], body ++ '}' :: rest) := by
  have hrest := splitHead_rest s
  rwa [h.split] at hrest

theorem splitHead_padded (h : TagCut claims closing s head body rest)
    (hpad : ∀ c ∈ pad, isHeadSpace c = true) (hslash : pad = [] ∨ body ≠ ['/']) (more : List Char) :
    splitHead (head ++ (body ++ pad ++ '}' :: more)) = (head, body ++ pad ++ '}' :: more) := by
  cases body with
  | nil =>
    refine splitHead_again h.split ?_ fun _ => rfl
    cases pad with
    | nil => exact splitHead_stop rfl _
    | cons c pad =>
      exact splitHead_stop (isHeadChar_of_isHeadSpace (hpad c List.mem_cons_self)) _
  | cons c body =>
    refine splitHead_again h.split ?_ id
    cases hc : isHeadChar c with
    | false => exact splitHead_stop hc _
    | true =>
      -- the body is the slash alone, or has the brace behind it
      obtain ⟨rfl, hbrace⟩ := slash_of_splitHead h.splitHead_body hc
      cases body with
      | nil =>
        obtain rfl := hslash.resolve_right fun hne => hne rfl
        rfl
      | cons d body =>
        obtain rfl : d = '}' := Option.some.inj hbrace
        rfl

/-- A tag ends behind white space in front of its brace, and whatever follows it. A slash that
stands alone between the head and the brace does not bear any: it would be part of the head. -/
theorem padded (h : TagCut claims closing s head body rest)
    (hpad : ∀ c ∈ pad, isHeadSpace c = true) (hslash : pad = [] ∨ body ≠ ['/']) (more : List Char) :
    TagCut claims closing (head ++ (body ++ pad ++ '}' :: more)) head (body ++ pad) more where
  split := h.splitHead_padded hpad hslash more
  ne_nil := h.ne_nil
  claimed := h.claimed
  ends := by
    cases body with
    | nil =>
      cases pad with
      | nil => rfl
      | cons c pad => simp [endsHead, hpad c List.mem_cons_self]
    | cons c body => exact h.ends
  close := by
    have hpadded := close_padded h.close (fun c hc => isPlain_of_isHeadSpace (hpad c hc)) more
    simpa [Closer.mark] using hpadded
  bare hcloses pos := by
    rw [tagOf_padded hpad]
    exact h.bare hcloses pos

end TagCut

/-! ## Constructs -/

/-- Where nothing begins at the front of a text, or of the text in front of a brace, nothing does in
front of another brace, unless the text is a brace itself. -/
theorem construct_append_none {other : List Char} (hother : ∀ c ∈ other.head?, c = '{')
    (h : construct claims pos (s ++ other) = .ok none) (hempty : s ≠ []) (hbrace : s ≠ ['{'])
    (more : List Char) : construct claims pos (s ++ '{' :: more) = .ok none := by
  obtain ⟨c, cs, rfl⟩ := List.exists_cons_of_ne_nil hempty
  by_cases hc : '{' = c
  · subst hc
    obtain ⟨d, ds, rfl⟩ := List.exists_cons_of_ne_nil fun heq => hbrace (congrArg ('{' :: ·) heq)
    rcases eq_or_ne d '{' with rfl | hopen
    · obtain ⟨_, -, hk⟩ := map_eq_ok_iff.1 h
      cases hk
    rcases eq_or_ne d '#' with rfl | hhash
    · obtain ⟨_, -, hk⟩ := map_eq_ok_iff.1 h
      cases hk
    rcases eq_or_ne d '/' with rfl | hslash
    · exact tag_append_none hother h more
    · rw [List.cons_append, List.cons_append, construct_brace ⟨hopen, hhash, hslash⟩] at h ⊢
      exact tag_append_none (s := d :: ds) hother h more
  · exact construct_of_ne hc pos

/-- A construct is an output, a comment, or a tag. -/
theorem construct_eq_some {k : Construct} (h : construct claims pos s = .ok (some k)) :
    (∃ cs, s = '{' :: '{' :: cs ∧ output pos cs = .ok k) ∨
      (∃ cs, s = '{' :: '#' :: cs ∧ comment pos s = .ok k) ∨
      ∃ closing head body, s = writtenTag closing head body ++ k.rest ∧
        (closing = false → head.head? ≠ some '/') ∧
        (∃ cs, TagCut claims closing cs head body k.rest) ∧
        k.segment = some (.tag (tagOf pos closing head body)) ∧
        k.stop = (tagOf pos closing head body).span.stop := by
  unfold construct at h
  split at h
  · next cs =>
    obtain ⟨_, hk, heq⟩ := map_eq_ok_iff.1 h
    cases heq
    exact .inl ⟨cs, rfl, hk⟩
  · next cs =>
    obtain ⟨_, hk, heq⟩ := map_eq_ok_iff.1 h
    cases heq
    exact .inr (.inl ⟨cs, rfl, hk⟩)
  · next cs =>
    obtain ⟨head, body, hcut, hfound⟩ := tag_eq_some_iff.1 h
    exact .inr (.inr ⟨true, head, body, by simp [hcut.eq, writtenTag], nofun, ⟨cs, hcut⟩, hfound⟩)
  · next cs _ _ hslash =>
    obtain ⟨head, body, hcut, hfound⟩ := tag_eq_some_iff.1 h
    refine .inr (.inr ⟨false, head, body, by simp [hcut.eq, writtenTag], fun _ hhead => ?_,
      ⟨cs, hcut⟩, hfound⟩)
    obtain ⟨head, rfl⟩ := List.head?_eq_some_iff.1 hhead
    exact hslash _ hcut.eq
  · cases h

/-- A tag is a construct behind its brace. -/
theorem TagCut.construct_eq {closing : Bool} {head : List Char}
    (h : TagCut claims closing s head body rest) (hslash : closing = false → head.head? ≠ some '/')
    (pos : Nat) :
    construct claims pos (writtenTag closing head body ++ rest) =
      .ok (some ⟨some (.tag (tagOf pos closing head body)),
        (tagOf pos closing head body).span.stop, rest⟩) := by
  have htag : tag claims pos closing (head ++ (body ++ '}' :: rest)) =
      .ok (some ⟨some (.tag (tagOf pos closing head body)),
        (tagOf pos closing head body).span.stop, rest⟩) :=
    tag_eq_some_iff.2 ⟨head, body, h.eq ▸ h, rfl, rfl⟩
  cases closing with
  | true =>
    have hwritten : writtenTag true head body ++ rest =
        '{' :: '/' :: (head ++ (body ++ '}' :: rest)) := by simp [writtenTag]
    rw [hwritten]
    exact htag
  | false =>
    have hwritten : writtenTag false head body ++ rest =
        '{' :: (head ++ (body ++ '}' :: rest)) := by simp [writtenTag]
    have hchars := splitHead_chars s
    rw [h.split] at hchars
    obtain ⟨c, head, rfl⟩ := List.exists_cons_of_ne_nil h.ne_nil
    have hc : isHeadChar c = true := hchars c List.mem_cons_self
    have hfirst : c ≠ '/' := fun heq => hslash rfl (by rw [heq]; rfl)
    rw [hwritten, List.cons_append, construct_brace
      ⟨ne_of_isHeadChar hc rfl, ne_of_isHeadChar hc rfl, hfirst⟩]
    exact htag

/-- A construct is found again in front of any other text. -/
theorem construct_again {k : Construct} (h : construct claims pos s = .ok (some k)) :
    ∃ written, s = written ++ k.rest ∧
      ∀ more, construct claims pos (written ++ more) = .ok (some { k with rest := more }) := by
  rcases construct_eq_some h with ⟨cs, rfl, hk⟩ | ⟨cs, rfl, hk⟩ | htag
  · obtain ⟨written, rfl, hagain⟩ := output_again hk
    exact ⟨'{' :: '{' :: written, rfl, fun more => congrArg (Except.map some) (hagain more)⟩
  · obtain ⟨written, rfl, hagain⟩ := comment_again hk
    exact ⟨'{' :: '#' :: written, rfl, fun more => congrArg (Except.map some) (hagain more)⟩
  · obtain ⟨closing, head, body, hs, hslash, ⟨cs, hcut⟩, hsegment, hstop⟩ := htag
    refine ⟨writtenTag closing head body, hs, fun more => ?_⟩
    have hagain := (hcut.padded (List.forall_mem_nil _) (.inl rfl) more).construct_eq hslash pos
    rwa [List.append_nil, ← hsegment, ← hstop] at hagain

/-- What begins at the front of a text is the same in front of a brace, unless the text is a brace
itself. -/
theorem construct_append {found : Option Construct} (h : construct claims pos s = .ok found)
    (hempty : s ≠ []) (hbrace : s ≠ ['{']) (more : List Char) :
    construct claims pos (s ++ '{' :: more) =
      .ok (found.map fun k => { k with rest := k.rest ++ '{' :: more }) := by
  cases found with
  | none =>
    rw [← List.append_nil s] at h
    exact construct_append_none (by simp) h hempty hbrace more
  | some k =>
    obtain ⟨written, hs, hagain⟩ := construct_again h
    rw [hs, List.append_assoc]
    exact hagain _

end

end Scan

end SlotTemplates
