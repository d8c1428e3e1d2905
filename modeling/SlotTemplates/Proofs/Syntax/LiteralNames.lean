import SlotTemplates.Proofs.Component.Discovery
import SlotTemplates.Proofs.Syntax.Delimiters

/-!
# Invoking a component by its name

A component that is listed can be invoked by a tag with its name, if the name is made of the
characters that can stand in the head of a tag (`Environment.compile_listed`). Names of files can
hold other characters. A head ends before such a character, which is none that may follow a head,
so the tag is none: where no further brace is written, all of it is text
(`ReadsAsText.writtenTag`).
-/

namespace SlotTemplates

/-! ## Texts without a construct -/

/-- The segments of a text without a construct: one, or none for the empty text. -/
def textOf (pos : Nat) (s : List Char) : List Segment :=
  if s = [] then [] else [.text (Span.sized pos (byteLength s)) s]

/-- A source that is scanned as text, wherever it stands. -/
def ReadsAsText (claims : String → Bool) (s : List Char) : Prop :=
  ∀ pos, scanFrom claims pos s = .ok (textOf pos s)

section
variable {claims : String → Bool} {c : Char} {s rest : List Char}

theorem Scan.addText_textOf (pos : Nat) (c : Char) (s : List Char) :
    addText pos c (textOf (pos + c.utf8Size) s) = textOf pos (c :: s) := by
  cases s with
  | nil => simp [textOf, addText, byteLength]
  | cons d s => simp [textOf, addText, Span.sized, byteLength_cons, Nat.add_assoc]

/-- Constructs begin with a brace. -/
theorem Scan.construct_of_ne (hc : '{' ≠ c) (pos : Nat) :
    construct claims pos (c :: s) = .ok none := by
  unfold construct
  split
  · next heq => exact absurd (List.cons.inj heq).1.symm hc
  · next heq => exact absurd (List.cons.inj heq).1.symm hc
  · next heq => exact absurd (List.cons.inj heq).1.symm hc
  · next heq => exact absurd (List.cons.inj heq).1.symm hc
  · rfl

namespace ReadsAsText

theorem nil (claims : String → Bool) : ReadsAsText claims [] := fun _ => scanFrom_nil claims _

/-- A character at which no construct begins is text, with what is behind it. -/
theorem cons (hc : ∀ pos, Scan.construct claims pos (c :: s) = .ok none)
    (h : ReadsAsText claims s) : ReadsAsText claims (c :: s) := by
  intro pos
  rw [scanFrom_of_none (hc pos), h, ← Scan.addText_textOf]
  rfl

/-- Characters that are no braces are text, with the text behind them. -/
theorem append (hs : '{' ∉ s) (h : ReadsAsText claims rest) : ReadsAsText claims (s ++ rest) := by
  induction s with
  | nil => exact h
  | cons c s ih =>
    have hc : '{' ≠ c := List.ne_of_not_mem_cons hs
    have hs : '{' ∉ s := List.not_mem_of_not_mem_cons hs
    exact cons (Scan.construct_of_ne hc) (ih hs)

end ReadsAsText

/-! ## Heads that break off -/

namespace Scan

/-- There is no tag if what follows the head may not follow one. -/
theorem tag_refused {head : String} (hhead : IsHead head) (hc : isHeadChar c = false)
    (hends : endsHead (c :: s) = false) (closing : Bool) (pos : Nat) :
    tag claims pos closing (head.toList ++ c :: s) = .ok none := by
  simp [tag, splitHead_append hhead.chars hc, hends]

end Scan

/-- The white space that may follow a head is blank. -/
theorem Scan.isBlank_of_isHeadSpace (h : isHeadSpace c = true) : isBlank c = true := by
  simp only [isHeadSpace, Bool.or_eq_true, decide_eq_true_eq] at h
  rcases h with (((rfl | rfl) | rfl) | rfl) | rfl <;> decide

/-- A name with a character that cannot stand in a head breaks the head off: the first one of them
cannot follow a head either. -/
theorem exists_break {name : String} (hname : canonicalName? name = some name)
    (hchars : ∃ c ∈ name.toList, Scan.isHeadChar c = false) (hbrace : '}' ∉ name.toList) :
    ∃ front c back, name.toList = front ++ c :: back ∧
      (∀ d ∈ front, Scan.isHeadChar d = true) ∧ Scan.isHeadChar c = false ∧
      ∀ s, Scan.endsHead (c :: s) = false := by
  obtain ⟨c, hfind⟩ : ∃ c, name.toList.find? (fun c => !Scan.isHeadChar c) = some c := by
    refine Option.isSome_iff_exists.1 (List.find?_isSome.2 ?_)
    simpa using hchars
  obtain ⟨hc, front, back, hsplit, hfront⟩ := List.find?_eq_some_iff_append.1 hfind
  have hc : Scan.isHeadChar c = false := by simpa using hc
  have hmem : c ∈ name.toList := by simp [hsplit]
  have hspace : Scan.isHeadSpace c = false := by
    rw [Bool.eq_false_iff]
    intro hspace
    have hblank := Scan.isBlank_of_isHeadSpace hspace
    rw [not_isBlank_of_canonical hname c hmem] at hblank
    cases hblank
  have hclose : c ≠ '}' := fun heq => hbrace (heq ▸ hmem)
  have hslash : c ≠ '/' := (not_slash_of_canonical hname).2 c hmem
  refine ⟨front, c, back, hsplit, fun d hd => by simpa using hfront d hd, hc, fun s => ?_⟩
  simp [Scan.endsHead, hspace, hclose, hslash]

/-- A tag with a name that breaks its head off is text, with the text behind it. -/
theorem ReadsAsText.writtenTag {keyword name : String} (hkeyword : Config.isKeyword keyword = true)
    (hname : canonicalName? name = some name)
    (hchars : ∃ c ∈ name.toList, Scan.isHeadChar c = false) (hopen : '{' ∉ name.toList)
    (hclose : '}' ∉ name.toList) (closing : Bool) {body : List Char} (hbody : '{' ∉ body)
    (h : ReadsAsText claims rest) :
    ReadsAsText claims
      (Scan.writtenTag closing (TagRule.literalHead keyword name).toList body ++ rest) := by
  obtain ⟨front, c, back, hsplit, hfront, hc, hends⟩ := exists_break hname hchars hclose
  let head := String.ofList (keyword.toList ++ ':' :: front)
  have hkeywordHead := Config.isHead_of_isKeyword hkeyword
  have hhead : Scan.IsHead head := by
    refine ⟨by simp [head], fun d hd => ?_⟩
    rw [String.toList_ofList] at hd
    rcases List.mem_append.1 hd with hd | hd
    · exact hkeywordHead.chars d hd
    rcases List.mem_cons.1 hd with rfl | hd
    · decide
    · exact ⟨hfront d hd, (not_slash_of_canonical hname).2 d (by simp [hsplit, hd])⟩
  let after := back ++ body ++ '}' :: rest
  have hwritten : Scan.writtenTag closing (TagRule.literalHead keyword name).toList body ++ rest =
      '{' :: ((if closing then ['/'] else []) ++ (head.toList ++ c :: after)) := by
    simp [Scan.writtenTag, TagRule.toList_literalHead, head, after, hsplit]
  have hplain : '{' ∉ (if closing then ['/'] else []) ++
      (head.toList ++ c :: (back ++ body ++ ['}'])) := by
    have hinHead : '{' ∉ head.toList := fun hmem => by cases (hhead.chars _ hmem).1
    have hinName : '{' ∉ front ++ c :: back := hsplit ▸ hopen
    simp only [List.mem_append, List.mem_cons, not_or] at hinName ⊢
    refine ⟨?_, hinHead, hinName.2.1, ⟨hinName.2.2, hbody⟩, by decide⟩
    cases closing <;> simp
  rw [hwritten]
  refine .cons (fun pos => ?_) ?_
  · have hrefused : ∀ closing, Scan.tag claims pos closing (head.toList ++ c :: after) = .ok none :=
      fun closing => Scan.tag_refused hhead hc (hends after) closing pos
    cases closing with
    | false => exact (Scan.construct_head hhead _).trans (hrefused false)
    | true => exact hrefused true
  · have htext := h.append hplain
    simpa [after] using htext

end

/-- A source that is read as text compiles to it. -/
theorem Template.compile_text {tags : TagSet} {source : String} (hne : source ≠ "")
    (h : ReadsAsText tags.claims source.toList) (label : String) :
    compile tags label source = .ok ⟨label, [.text ⟨0, byteLength source.toList⟩ source]⟩ := by
  have hscan : scan tags.claims source.toList =
      .ok [.text ⟨0, byteLength source.toList⟩ source.toList] := by
    rw [scan, h 0, textOf, if_neg (by simpa using hne), Span.sized, Nat.zero_add]
  refine compile_eq label hscan ?_
  simp [parseNodes, Except.map]

theorem parseAttrs_nil (pos : Nat) : parseAttrs pos [] = .ok [] :=
  parseAttrs_eq_ok_iff.2 ⟨[], Lexes.nil.tokenize_eq, .nil⟩

/-! ## Listed names -/

/-- The tag that invokes a component by its name and closes itself. -/
def aloneTag (keyword name : String) : String := "\x7b" ++ keyword ++ ":" ++ name ++ " /\x7d"

/-- The tag that invokes a component by its name, and its closing tag right behind it. -/
def pairedTags (keyword name : String) : String :=
  "\x7b" ++ keyword ++ ":" ++ name ++ "\x7d\x7b/" ++ keyword ++ ":" ++ name ++ "\x7d"

section
variable {keyword name : String}

theorem toList_aloneTag (keyword name : String) :
    (aloneTag keyword name).toList =
      Scan.writtenTag false (TagRule.literalHead keyword name).toList [' ', '/'] := by
  simp [aloneTag, TagRule.literalHead, Scan.writtenTag]

theorem toList_pairedTags (keyword name : String) :
    (pairedTags keyword name).toList =
      Scan.writtenTag false (TagRule.literalHead keyword name).toList [] ++
        Scan.writtenTag true (TagRule.literalHead keyword name).toList [] := by
  simp [pairedTags, TagRule.literalHead, Scan.writtenTag]

variable (hkeyword : Config.isKeyword keyword = true) (hname : canonicalName? name = some name)
  (contentNames : List String) (more : TagSet) (label : String)
include hkeyword hname

/-- A name of characters that can stand in a head is invoked, with a body or without. -/
theorem Template.compile_literal (hchars : ∀ c ∈ name.toList, Scan.isHeadChar c = true) :
    let tags := .component keyword contentNames :: more
    compile tags label (aloneTag keyword name) =
        .ok (.invoking label (aloneTag keyword name) name [] 0) ∧
      compile tags label (pairedTags keyword name) =
        .ok (.invoking label (pairedTags keyword name) name [] 0) := by
  intro tags
  have hwritable : Writable keyword name "" [] := ⟨hkeyword, hname, hchars, parseAttrs_nil 0⟩
  have hgaps : ∀ w ∈ "".toList, Token.isGap w = true := by simp
  have halone := hwritable.compile_alone hgaps contentNames more label
  have hsource : "\x7b" ++ TagRule.literalHead keyword name ++ " " ++ "" ++ "" ++ "/\x7d" =
      aloneTag keyword name := by
    apply String.toList_injective
    simp [aloneTag, TagRule.literalHead]
  simp only [hsource] at halone
  have hsame : ∀ written ∈ TagRule.literalName? keyword (TagRule.literalHead keyword name),
      canonicalName? written = some name := by
    intro written hwritten
    rw [TagRule.literalName?_literalHead (not_slash_of_canonical hname).1] at hwritten
    cases hwritten
    exact hname
  exact ⟨halone, hwritable.compile_pair hwritable.isHead contentNames
    (TagRule.claims_literalHead hname) hsame (by simp) (fun pos => parseAttrs_nil pos) more label
    (toList_pairedTags keyword name)⟩

/-- Under a name that breaks its head off nothing is invoked. -/
theorem Template.compile_broken (hchars : ∃ c ∈ name.toList, Scan.isHeadChar c = false)
    (hopen : '{' ∉ name.toList) (hclose : '}' ∉ name.toList) (tags : TagSet) :
    (compile tags label (aloneTag keyword name) = .ok ⟨label,
        [.text ⟨0, byteLength (aloneTag keyword name).toList⟩ (aloneTag keyword name)]⟩) ∧
      compile tags label (pairedTags keyword name) = .ok ⟨label,
        [.text ⟨0, byteLength (pairedTags keyword name).toList⟩ (pairedTags keyword name)]⟩ := by
  have hslash : '{' ∉ [' ', '/'] := by decide
  have halone := ReadsAsText.writtenTag hkeyword hname hchars hopen hclose false hslash
    (.nil tags.claims)
  have hlast := ReadsAsText.writtenTag hkeyword hname hchars hopen hclose true List.not_mem_nil
    (.nil tags.claims)
  have hpaired := ReadsAsText.writtenTag hkeyword hname hchars hopen hclose false List.not_mem_nil
    hlast
  rw [List.append_nil, ← toList_aloneTag] at halone
  rw [List.append_nil, ← toList_pairedTags] at hpaired
  exact ⟨compile_text (by simp [aloneTag]) halone label,
    compile_text (by simp [pairedTags]) hpaired label⟩

end

/-- The settings that an environment is made of are valid, and their tags come first. -/
theorem Environment.of_make {config : Config} {extensions : List Extension} {files : Tree}
    {env : Environment} (h : make config extensions files = .ok env) :
    config.validate = .ok () ∧
      ∃ more, env.tags = .component config.tag config.defaultSlotAliases :: more := by
  unfold make at h
  split at h
  · cases h
  · next hvalid =>
    cases h
    exact ⟨hvalid, _, rfl⟩

/-- A tag with the name of a listed component that closes itself, and one with its closing tag right
behind it, compile to one invocation of that name if every character of it can stand in the head of
a tag. If one cannot, and no brace is among them, they are text. -/
theorem Environment.compile_listed {config : Config} {extensions : List Extension} {files : Tree}
    {env : Environment} (hmake : make config extensions files = .ok env) {name : String}
    (hname : name ∈ env.catalog.names) (label : String) :
    let alone := "\x7b" ++ config.tag ++ ":" ++ name ++ " /\x7d"
    let paired :=
      "\x7b" ++ config.tag ++ ":" ++ name ++ "\x7d\x7b/" ++ config.tag ++ ":" ++ name ++ "\x7d"
    ((∀ c ∈ name.toList, Scan.isHeadChar c = true) →
      env.compile label alone = .ok (.invoking label alone name [] 0) ∧
        env.compile label paired = .ok (.invoking label paired name [] 0)) ∧
    ((∃ c ∈ name.toList, Scan.isHeadChar c = false) → '{' ∉ name.toList → '}' ∉ name.toList →
      env.compile label alone = .ok ⟨label, [.text ⟨0, byteLength alone.toList⟩ alone]⟩ ∧
        env.compile label paired = .ok ⟨label, [.text ⟨0, byteLength paired.toList⟩ paired]⟩) := by
  intro alone paired
  obtain ⟨hvalid, more, htags⟩ := of_make hmake
  have hkeyword := Config.isKeyword_of_validate hvalid
  have hcanonical := Catalog.canonicalName?_of_mem_names hname
  unfold compile
  refine ⟨fun hchars => ?_, fun hchars hopen hclose => ?_⟩
  · obtain ⟨halone, hpaired⟩ := Template.compile_literal hkeyword hcanonical
      config.defaultSlotAliases more label hchars
    rw [htags]
    exact ⟨congrArg _ halone, congrArg _ hpaired⟩
  · obtain ⟨halone, hpaired⟩ := Template.compile_broken hkeyword hcanonical label hchars hopen
      hclose env.tags
    exact ⟨congrArg _ halone, congrArg _ hpaired⟩

/-- A component in a directory of its own, whose name the tag writes with a point. -/
theorem Environment.compile_listed_input :
    let files := Tree.ofFiles [("components/forms/input.tpl", .file (.text "y"))]
    ∃ env, make {} [] files = .ok env ∧ "forms.input" ∈ env.catalog.names ∧
      env.compile "page" "\x7bx:forms.input /\x7d" =
        .ok ⟨"page", [.component ⟨0, 17⟩ (.literal "forms.input") [] [] []]⟩ := by
  intro files
  obtain ⟨env, hmake, hcatalog⟩ : ∃ env, make {} [] files = .ok env ∧
      env.catalog = Catalog.ofConfig {} files := ⟨_, rfl, rfl⟩
  have hlisted : "forms.input" ∈ env.catalog.names := by
    rw [hcatalog]
    decide +kernel
  have hchars : ∀ c ∈ "forms.input".toList, Scan.isHeadChar c = true := List.all_eq_true.1 rfl
  obtain ⟨hinvoked, -⟩ := compile_listed hmake hlisted "page"
  exact ⟨env, hmake, hlisted, (hinvoked hchars).1⟩

/-- A name with a character that cannot stand in a head is listed, and the tag with it is text. -/
theorem Environment.listed_name_is_text :
    let files := Tree.ofFiles [("components/logo@2x.tpl", .file (.text "x"))]
    ∃ env, make {} [] files = .ok env ∧ "logo@2x" ∈ env.catalog.names ∧
      env.compile "page" "\x7bx:logo@2x /\x7d" =
        .ok ⟨"page", [.text ⟨0, 13⟩ "\x7bx:logo@2x /\x7d"]⟩ := by
  intro files
  obtain ⟨env, hmake, hcatalog⟩ : ∃ env, make {} [] files = .ok env ∧
      env.catalog = Catalog.ofConfig {} files := ⟨_, rfl, rfl⟩
  have hlisted : "logo@2x" ∈ env.catalog.names := by
    rw [hcatalog]
    decide +kernel
  have hkeyword : Config.isKeyword "x" = true := by decide
  have hname : canonicalName? "logo@2x" = some "logo@2x" := by decide
  obtain ⟨htext, -⟩ := Template.compile_broken hkeyword hname "page" ⟨'@', by decide, rfl⟩
    (by decide) (by decide) env.tags
  exact ⟨env, hmake, hlisted, congrArg _ htext⟩

end SlotTemplates
