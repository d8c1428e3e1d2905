import SlotTemplates.Proofs.Syntax.Placement
import SlotTemplates.Proofs.Syntax.Remainders

/-!
# Where errors point

The error of a template that does not compile points at some text of its source, between two
characters, or it is what a host says of one of its tags (`Template.compile_error_points`). The one
exception is an output or a tag whose tokens end too early: the place of this error goes from the
end of its text back to the end of the last token (`SyntaxError.Points`), and so backwards if there
are blanks between the two (`Template.compile_error_backwards`).

No error says that the tags that are parsed are not those that were scanned: the scanner goes
through the source from its start (`Scan.Visits.stands`), every tag that it finds has a rule, and
the block of an opening tag ends at a closing tag.
-/

namespace SlotTemplates

/-! ## Places of errors -/

/-- Whether a cause points at some text. The end of a tag has none, and a tag without a rule is
never scanned. -/
def SyntaxFault.showsText : SyntaxFault → Bool
  | .unexpectedEnd | .unknownTag _ => false
  | _ => true

/-- An error points at some text of a source that starts at byte `pos`. -/
def SyntaxError.Shows (pos : Nat) (source : List Char) (e : SyntaxError) : Prop :=
  e.fault.showsText = true ∧ ∃ text, Stands pos source e.span text

/-- Where an error points: at some text of the source, or, if the tokens of an output or a tag end
too early, from the end of its text back to the end of the last token, over the gaps between. -/
inductive SyntaxError.Points (source : List Char) (e : SyntaxError) : Prop where
  | text (h : e.Shows 0 source) : Points source e
  | back {gaps} (hfault : e.fault = .unexpectedEnd) (hgaps : ∀ c ∈ gaps, Token.isGap c = true)
      (hstands : Stands 0 source ⟨e.span.stop, e.span.start⟩ gaps) : Points source e

section
variable {pos : Nat} {source text part : List Char} {span inner : Span} {e : SyntaxError}

/-- What stands in a text stands in every source in which the text does. -/
theorem Stands.trans (h : Stands 0 source span text) (hpart : Stands span.start text inner part) :
    Stands 0 source inner part := by
  obtain ⟨before, after, rfl, rfl⟩ := h
  obtain ⟨front, back, rfl, rfl⟩ := hpart
  exact ⟨before ++ front, back ++ after, by simp, by simp [Span.sized, Nat.add_assoc]⟩

theorem SyntaxError.Shows.behind (front : List Char)
    (h : e.Shows (pos + byteLength front) source) : e.Shows pos (front ++ source) := by
  obtain ⟨hfault, shown, hstands⟩ := h
  exact ⟨hfault, shown, hstands.behind front⟩

theorem SyntaxError.Shows.trans (h : Stands 0 source span text) (he : e.Shows span.start text) :
    e.Shows 0 source := by
  obtain ⟨hfault, shown, hstands⟩ := he
  exact ⟨hfault, shown, h.trans hstands⟩

/-! ## Tokens -/

namespace Token

theorem readQuoted_unterminated {quote : Char} {cs read : List Char}
    (h : readQuoted quote cs = .unterminated read) : read <+: cs := by
  fun_induction readQuoted quote cs generalizing read with
  | case1 | case2 | case3 =>
    cases h
    exact List.nil_prefix
  | case4 | case6 | case7 => cases h
  | case5 c cs hc read hread ih =>
    cases h
    exact (List.prefix_cons_inj _).2 ((List.prefix_cons_inj _).2 (ih hread))
  | case8 c cs hend hpair hquote read hread ih =>
    cases h
    exact (List.prefix_cons_inj _).2 (ih hread)

theorem scanNumber_ne_stray {sign cs read : List Char} : scanNumber sign cs ≠ .stray read := by
  unfold scanNumber
  dsimp only
  split <;> exact nofun

/-- What is shown where no token starts stands there. -/
theorem scanToken_stray {c : Char} {cs read : List Char} (h : scanToken c cs = .stray read) :
    read <+: c :: cs := by
  have single : [c] <+: c :: cs := ⟨cs, rfl⟩
  unfold scanToken at h
  split at h
  · cases h
  split at h
  · exact absurd h scanNumber_ne_stray
  split at h
  · split at h
    · cases h
    · next read hread =>
      cases h
      exact (List.prefix_cons_inj _).2 (readQuoted_unterminated hread)
  split at h
  · split at h
    · exact absurd h scanNumber_ne_stray
    · cases h
      exact single
  · cases h
  · cases h
  · split at h
    · cases h
    · cases h
      exact single

end Token

/-- An error of the tokens of a text points at the characters that start none. -/
theorem tokenize_error {pos : Nat} {s : List Char} (h : tokenize pos s = .error e) :
    e.Shows pos s := by
  rw [tokenize.eq_def] at h
  split at h
  · cases h
  next c cs =>
  split at h
  · exact SyntaxError.Shows.behind [c] (by simpa using tokenize_error h)
  split at h
  · next t written rest hscan =>
    have hshort := Token.scanToken_rest_length hscan
    dsimp only at h
    split at h
    · cases h
    · next hrest =>
      cases h
      rw [← Token.scanToken_split hscan]
      exact (tokenize_error hrest).behind written
  · next read hscan =>
    cases h
    obtain ⟨after, hafter⟩ := Token.scanToken_stray hscan
    exact ⟨rfl, read, [], after, hafter.symm, rfl⟩
termination_by s.length

/-- A text without tokens is made of gaps. -/
theorem Lexes.isGap_of_nil {s : List Char} (h : Lexes pos s []) :
    ∀ c ∈ s, Token.isGap c = true := by
  generalize hnone : ([] : List Lexeme) = lexemes at h
  induction h with
  | nil => exact nofun
  | gap hc _ ih => exact List.forall_mem_cons.2 ⟨hc, ih hnone⟩
  | token => cases hnone

/-- Behind the last token of a text there are gaps only. -/
theorem Lexes.gaps_behind {s : List Char} {lexemes : List Lexeme} {last : Lexeme}
    (h : Lexes pos s lexemes) (hlast : last ∈ lexemes.getLast?) :
    ∃ gaps, (∀ c ∈ gaps, Token.isGap c = true) ∧
      Stands pos s ⟨last.span.stop, pos + byteLength s⟩ gaps := by
  induction h with
  | nil => cases hlast
  | @gap pos c cs lexemes _ _ ih =>
    obtain ⟨gaps, hgaps, hstands⟩ := ih hlast
    refine ⟨gaps, hgaps, Stands.behind [c] ?_⟩
    simpa [Nat.add_assoc] using hstands
  | @token pos c cs t written rest lexemes _ hscan hrest ih =>
    rw [← Token.scanToken_split hscan]
    cases lexemes with
    | nil =>
      obtain rfl : ⟨t, Span.sized pos (byteLength written)⟩ = last := Option.some.inj hlast
      refine ⟨rest, hrest.isGap_of_nil, written, [], by simp, ?_⟩
      simp [Span.sized, Nat.add_assoc]
    | cons l lexemes =>
      obtain ⟨gaps, hgaps, hstands⟩ := ih (by simpa using hlast)
      refine ⟨gaps, hgaps, Stands.behind written ?_⟩
      simpa [Nat.add_assoc] using hstands

theorem Row.stands_of_mem {lo hi : Nat} {s : List Lexeme} {l : Lexeme} (h : Row source hi lo s)
    (hl : l ∈ s) : ∃ written, Stands 0 source l.span written := by
  induction h with
  | nil => cases hl
  | cons _ _ hstands _ ih =>
    rcases List.mem_cons.1 hl with rfl | hl
    · exact ⟨_, hstands⟩
    · exact ih hl

/-! ## Errors of expressions and attributes -/

/-- A parser that fails before some of its tokens makes an error that points into the source. -/
theorem Grammar.run_points {α : Type} {parser : List Lexeme → Except Failure α}
    (hparser : ∀ {s f}, parser s = .error f → f.rest <:+ s) (hstands : Stands 0 source span text)
    (h : run parser span.start text = .error e) : e.Points source := by
  unfold run at h
  split at h
  · next htokens =>
    cases h
    exact .text (.trans hstands (tokenize_error htokens))
  next lexemes htokens =>
  have hlexes := tokenize_eq_ok_iff.1 htokens
  split at h
  · cases h
  next f hfailure =>
  cases h
  have hsuffix := hparser hfailure
  unfold Failure.toError
  dsimp only
  split
  · next t place rest hrest =>
    rw [hrest] at hsuffix
    obtain ⟨written, hwritten⟩ :=
      (hstands.row hlexes).stands_of_mem (hsuffix.subset List.mem_cons_self)
    exact .text ⟨rfl, written, hwritten⟩
  · cases hlast : lexemes.getLast? with
    | none =>
      let stop := span.start + byteLength text
      have hend : Stands span.start text ⟨stop, stop⟩ [] := ⟨text, [], by simp, rfl⟩
      exact .back rfl (List.forall_mem_nil _) (hstands.trans hend)
    | some last =>
      obtain ⟨gaps, hgaps, hbehind⟩ := hlexes.gaps_behind hlast
      exact .back rfl hgaps (hstands.trans hbehind)

theorem parseExpr_points (hstands : Stands 0 source span text)
    (h : parseExpr span.start text = .error e) : e.Points source :=
  Grammar.run_points Grammar.wholeExpr_failure hstands h

theorem parseAttrs_points (hstands : Stands 0 source span text)
    (h : parseAttrs span.start text = .error e) : e.Points source :=
  Grammar.run_points Grammar.attrs_failure hstands h

theorem parseDynamic_points (hstands : Stands 0 source span text)
    (h : parseDynamic span.start text = .error e) : e.Points source :=
  Grammar.run_points Grammar.dynamic_failure hstands h

theorem parseSlotName_points (hstands : Stands 0 source span text)
    (h : parseSlotName span.start text = .error e) : e.Points source :=
  Grammar.run_points Grammar.slotName_failure hstands h

end

/-! ## Errors of the scanner -/

namespace Scan

variable {claims : String → Bool} {source s : List Char} {pos : Nat} {e : SyntaxError}

/-- The places that the scanner comes to, with the text that follows there. -/
inductive Visits (claims : String → Bool) (source : List Char) : Nat → List Char → Prop where
  | start : Visits claims source 0 source
  | text {pos c cs} (h : Visits claims source pos (c :: cs))
      (hnone : construct claims pos (c :: cs) = .ok none) :
    Visits claims source (pos + c.utf8Size) cs
  | construct {pos s k} (h : Visits claims source pos s)
      (hsome : construct claims pos s = .ok (some k)) : Visits claims source k.stop k.rest

/-- At every place the scanner has the rest of the source before it. -/
theorem Visits.stands (h : Visits claims source pos s) :
    Stands 0 source ⟨pos, byteLength source⟩ s := by
  have further {pos : Nat} (front : List Char) {rest : List Char}
      (h : Stands 0 source ⟨pos, byteLength source⟩ (front ++ rest)) :
      Stands 0 source ⟨pos + byteLength front, byteLength source⟩ rest := by
    obtain ⟨before, after, hsource, hspan⟩ := h
    obtain ⟨hstart, hstop⟩ := Span.mk.inj hspan
    refine ⟨before ++ front, after, by simpa using hsource, ?_⟩
    simp only [Span.sized, Span.mk.injEq, byteLength_append] at hstop ⊢
    omega
  induction h with
  | start => exact ⟨[], [], by simp, by simp [Span.sized]⟩
  | @text pos c cs _ _ ih => simpa using further [c] ih
  | construct _ hsome ih =>
    obtain ⟨written, hwritten, hstop, -⟩ := construct_isPiece hsome
    rw [hwritten] at ih
    rw [hstop]
    exact further written ih

theorem tag_error {closing : Bool} (h : tag claims pos closing s = .error e) :
    e.Shows pos ('{' :: ((if closing then ['/'] else []) ++ s)) := by
  have hsplit := splitHead_eq s
  unfold tag at h
  split at h
  next head more hhead =>
  rw [hhead] at hsplit
  split at h
  · cases h
  split at h
  · cases h
    refine ⟨rfl, (Tag.shown closing (String.ofList head)).toList, [], more, ?_, by simp⟩
    rw [← hsplit]
    cases closing <;> simp [Tag.shown]
  next body rest hclose =>
  dsimp only at h
  split at h
  · cases h
    refine ⟨rfl, writtenTag closing head body, [], rest, ?_, tagOf_span pos closing head body⟩
    rw [← hsplit, close_eq_some hclose]
    simp [writtenTag, Closer.mark]
  · cases h

/-- An error of a construct points at the delimiter, the head or the tag with which it begins. -/
theorem construct_error (h : construct claims pos s = .error e) : e.Shows pos s := by
  unfold construct at h
  split at h
  · next cs =>
    rw [map_eq_error_iff] at h
    unfold output at h
    split at h
    · cases h
      exact ⟨rfl, ['{', '{'], [], cs, rfl, rfl⟩
    · cases h
  · next cs =>
    rw [map_eq_error_iff] at h
    unfold comment at h
    split at h
    next opened mark hmark =>
    split at h
    · cases h
      split at hmark
      · next hopen =>
        cases hmark
        obtain ⟨more, hmore⟩ := List.isPrefixOf_iff_prefix.1 hopen
        exact ⟨rfl, headerOpen, [], more, hmore.symm, rfl⟩
      · cases hmark
        exact ⟨rfl, ['{', '#'], [], cs, rfl, rfl⟩
    · cases h
  · exact tag_error h
  · exact tag_error h
  · cases h

end Scan

theorem scanFrom_error {claims : String → Bool} {source s : List Char} {pos : Nat} {e : SyntaxError}
    (hvisits : Scan.Visits claims source pos s) (h : scanFrom claims pos s = .error e) :
    e.Shows 0 source := by
  fun_induction scanFrom claims pos s with
  | case1 => cases h
  | case2 pos c cs found hfound =>
    cases h
    exact .trans hvisits.stands (Scan.construct_error hfound)
  | case3 pos c cs hnone ih => exact ih (hvisits.text hnone) (map_eq_error_iff.1 h)
  | case4 pos c cs segment stop rest hfound ih =>
    exact ih (hvisits.construct hfound) (map_eq_error_iff.1 h)

/-! ## Errors of nodes -/

/-- A host's reading of a tag fails with an error. -/
def TagSet.HostFails (tags : TagSet) (segments : List Segment) (e : SyntaxError) : Prop :=
  ∃ t heads kind takesBody read, .tag t ∈ segments ∧
    tags.rule? t.head = some (.host heads kind takesBody read) ∧ read t = .error e

section
variable {tags : TagSet} {source : List Char} {segments : List Segment} {t : Tag} {e : SyntaxError}

theorem TagSet.HostFails.mono {more : List Segment} (h : tags.HostFails segments e)
    (hmore : segments ⊆ more) : tags.HostFails more e := by
  obtain ⟨t, heads, kind, takesBody, read, ht, hrule, hread⟩ := h
  exact ⟨t, heads, kind, takesBody, read, hmore ht, hrule, hread⟩

theorem TagRule.invocation_points {keyword : String} {names : List String}
    (hargs : Stands 0 source t.argsSpan t.args) (htag : ∃ text, Stands 0 source t.span text)
    (h : invocation keyword names t = .error e) : e.Points source := by
  unfold invocation at h
  split at h
  · split at h
    · cases h
      exact .text ⟨rfl, htag⟩
    · exact parseAttrs_points hargs (map_eq_error_iff.1 h)
  · split at h
    · cases h
      exact .text ⟨rfl, htag⟩
    · exact parseDynamic_points hargs (map_eq_error_iff.1 h)

/-- The error of nodes is one of a host, or it points into the source. -/
theorem parseNodes_error
    (hstands : ∀ segment ∈ segments, ∃ text, Stands 0 source segment.span text ∧
      segment.WrittenAs tags.claims text)
    (h : parseNodes tags segments = .error e) : tags.HostFails segments e ∨ e.Points source := by
  fun_induction parseNodes tags segments with
  | case1 => cases h
  | case2 span text rest ih =>
    have hrest := (List.forall_mem_cons.1 hstands).2
    exact (ih hrest (map_eq_error_iff.1 h)).imp_left fun h => h.mono (List.subset_cons_self _ _)
  | case3 span inner text rest ih =>
    obtain ⟨⟨written, hwritten, hsegment⟩, hrest⟩ := List.forall_mem_cons.1 hstands
    rcases bind_eq_error_iff.1 h with h | ⟨value, -, h⟩
    · exact .inr (parseExpr_points (hsegment.output_stands hwritten).1 h)
    · exact (ih hrest (map_eq_error_iff.1 h)).imp_left fun h => h.mono (List.subset_cons_self _ _)
  | case4 t rest hcloses =>
    obtain ⟨⟨written, hwritten, -⟩, -⟩ := List.forall_mem_cons.1 hstands
    cases h
    exact .inr (.text ⟨rfl, written, hwritten⟩)
  | case5 t rest hopens hrule =>
    obtain ⟨⟨written, hwritten, hsegment⟩, -⟩ := List.forall_mem_cons.1 hstands
    obtain ⟨rule, hfound⟩ := tags.exists_rule hsegment.claimed
    cases hrule.symm.trans hfound
  | case6 t rest hopens rule hrule ih ihbody ihafter =>
    obtain ⟨⟨written, hwritten, hsegment⟩, hrest⟩ := List.forall_mem_cons.1 hstands
    have hargs := (Tag.WrittenAs.args_stand hsegment hwritten).1
    rcases bind_eq_error_iff.1 h with hread | ⟨opening, -, hnode⟩
    · cases rule with
      | component => exact .inr (TagRule.invocation_points hargs ⟨written, hwritten⟩ hread)
      | slot => exact .inr (parseSlotName_points hargs (map_eq_error_iff.1 hread))
      | host =>
        exact .inl ⟨t, _, _, _, _, List.mem_cons_self, hrule, map_eq_error_iff.1 hread⟩
    clear h
    -- a tag without a body, and then one that opens a block, which has to be closed
    split at hnode
    · exact (ih hrest (map_eq_error_iff.1 hnode)).imp_left fun h =>
        h.mono (List.subset_cons_self _ _)
    split at hnode
    · cases hnode
      exact .inr (.text ⟨rfl, written, hwritten⟩)
    next body close after hfound =>
    obtain ⟨hsplit, -⟩ := splitBlock_eq_some hfound
    rw [hsplit] at hrest
    obtain ⟨hbody, hbehind⟩ := List.forall_mem_append.1 hrest
    obtain ⟨⟨shown, hshown, -⟩, hafter⟩ := List.forall_mem_cons.1 hbehind
    rcases bind_eq_error_iff.1 hnode with hinside | ⟨nodes, -, hclosed⟩
    · refine (ihbody _ _ _ hfound hbody hinside).imp_left fun h => h.mono fun segment hmem => ?_
      rw [hsplit]
      exact List.mem_cons_of_mem _ (List.mem_append_left _ hmem)
    split at hclosed
    · refine (ihafter _ _ _ hfound hafter (map_eq_error_iff.1 hclosed)).imp_left fun h =>
        h.mono fun segment hmem => ?_
      rw [hsplit]
      exact List.mem_cons_of_mem _ (List.mem_append_right _ (List.mem_cons_of_mem _ hmem))
    · cases hclosed
      exact .inr (.text ⟨rfl, shown, hshown⟩)

end

/-! ## Messages -/

namespace SyntaxFault

/-- How the messages begin that a template would get if its tags were not those that are scanned, or
if a parser failed without an error. -/
def inconsistencies : List String :=
  ["Unknown tag '", "Expected closing tag for '", "Invalid syntax"]

/-- A text goes on with no beginning of such a message, and none of them with it. -/
def IsApart (s : String) : Prop :=
  ∀ lead ∈ inconsistencies, ¬ lead.toList <+: s.toList ∧ ¬ s.toList <+: lead.toList

instance (s : String) : Decidable (IsApart s) :=
  inferInstanceAs (Decidable (∀ lead ∈ inconsistencies, _ ∧ _))

theorem IsApart.append {s : String} (h : IsApart s) (more : String) : IsApart (s ++ more) := by
  intro lead hlead
  obtain ⟨hbegins, hends⟩ := h lead hlead
  rw [String.toList_append]
  refine ⟨fun hprefix => ?_, fun hprefix => hends ((List.prefix_append _ _).trans hprefix)⟩
  rcases List.prefix_or_prefix_of_prefix hprefix (List.prefix_append s.toList more.toList) with
    hfound | hfound
  · exact hbegins hfound
  · exact hends hfound

theorem message_isApart {fault : SyntaxFault} (h : ∀ shown, fault ≠ .unknownTag shown) :
    IsApart fault.message := by
  cases fault with
  | unknownTag shown => exact absurd rfl (h shown)
  | unexpectedEnd | unterminatedOutput => decide +kernel
  | unexpectedToken => exact IsApart.append (by decide +kernel) _
  | mismatchedClose => exact (((IsApart.append (by decide +kernel) _).append _).append _).append _
  | _ => exact (IsApart.append (by decide +kernel) _).append _

end SyntaxFault

/-! ## Errors of templates -/

/-- What is known of the error of a template. -/
structure SyntaxError.WellPlaced (source : String) (e : SyntaxError) : Prop where
  boundaries : String.Pos.Raw.IsValid source ⟨e.span.start⟩ ∧
    String.Pos.Raw.IsValid source ⟨e.span.stop⟩
  inBounds : e.span.start ≤ byteLength source.toList ∧ e.span.stop ≤ byteLength source.toList
  ordered : e.fault ≠ .unexpectedEnd → e.span.start ≤ e.span.stop
  /-- At the end of its tokens a place goes backwards. -/
  back : e.fault = .unexpectedEnd → ∃ gaps, (∀ c ∈ gaps, Token.isGap c = true) ∧
    Stands 0 source.toList ⟨e.span.stop, e.span.start⟩ gaps
  consistent : ∀ lead ∈ SyntaxFault.inconsistencies, ¬ lead.toList <+: e.fault.message.toList

theorem SyntaxError.Points.wellPlaced {source : String} {e : SyntaxError}
    (h : e.Points source.toList) : e.WellPlaced source := by
  cases h with
  | text h =>
    obtain ⟨hfault, text, hstands⟩ := h
    have hvalid := hstands.isValid
    rw [String.ofList_toList] at hvalid
    have hstop := hstands.stop_le
    have hordered : e.span.start ≤ e.span.stop := by
      obtain ⟨before, after, -, hspan⟩ := hstands
      rw [hspan]
      exact Nat.le_add_right _ _
    refine ⟨hvalid, by omega, fun _ => hordered, fun hend => ?_, fun lead hlead => ?_⟩
    · rw [hend] at hfault
      cases hfault
    · refine (SyntaxFault.message_isApart (fun shown hunknown => ?_) lead hlead).1
      rw [hunknown] at hfault
      cases hfault
  | back hfault hgaps hstands =>
    have hvalid := hstands.isValid
    rw [String.ofList_toList] at hvalid
    have hstop := hstands.stop_le
    have hordered : e.span.stop ≤ e.span.start := by
      obtain ⟨before, after, -, hspan⟩ := hstands
      obtain ⟨hstart, hstop⟩ := Span.mk.inj hspan
      omega
    refine ⟨hvalid.symm, ?_, fun hother => absurd hfault hother, fun _ => ⟨_, hgaps, hstands⟩,
      fun lead hlead => (SyntaxFault.message_isApart (fun shown => ?_) lead hlead).1⟩
    · dsimp only at hstop
      omega
    · rw [hfault]
      exact nofun

/-- A text is that of its place in a source, and each of its tokens stands at a place of its own. -/
structure IsSlice (source : List Char) (span : Span) (text : List Char) : Prop where
  stands : Stands 0 source span text
  tokens : ∀ lexemes, tokenize span.start text = .ok lexemes →
    ∀ l ∈ lexemes, ∃ written, Stands 0 source l.span written

theorem Stands.isSlice {source text : List Char} {span : Span} (h : Stands 0 source span text) :
    IsSlice source span text :=
  ⟨h, fun _ htokens _ hl => (h.row (tokenize_eq_ok_iff.1 htokens)).stands_of_mem hl⟩

/-- What is taken of a segment is in the source where it is said to be, and a tag has a rule. -/
def Segment.IsSliced (tags : TagSet) (source : List Char) : Segment → Prop
  | .text span content => Stands 0 source span content
  | .output _ inner content => IsSlice source inner content
  | .tag t => IsSlice source t.argsSpan t.args ∧ ∃ rule, tags.rule? t.head = some rule

/-- The error of a template that does not compile is what a host says of one of its tags, or it is
placed in the source and no inconsistency. The scanner goes through the source, the segments are its
parts, and the block of an opening tag ends at a closing tag of the same kind among them. -/
theorem Template.compile_error_points (tags : TagSet) (name source : String) :
    (∀ e, compile tags name source = .error e →
      (∃ segments, scan tags.claims source.toList = .ok segments ∧ tags.HostFails segments e) ∨
        e.WellPlaced source) ∧
    (∀ pos s, Scan.Visits tags.claims source.toList pos s →
      Stands 0 source.toList ⟨pos, byteLength source.toList⟩ s) ∧
    ∀ segments, scan tags.claims source.toList = .ok segments →
      (∀ segment ∈ segments, segment.IsSliced tags source.toList) ∧
      ∀ front rest kind body close after, segments = front ++ rest →
        splitBlock tags kind 0 rest = some (body, close, after) →
          segments[front.length + body.length]? = some (.tag close) ∧ close.closing = true ∧
            tags.kind? close = some kind := by
  refine ⟨fun e h => ?_, fun _ _ => Scan.Visits.stands, fun segments hscan => ⟨?_, ?_⟩⟩
  · rcases bind_eq_error_iff.1 h with hscan | ⟨segments, hscan, h⟩
    · exact .inr (SyntaxError.Points.text (scanFrom_error .start hscan)).wellPlaced
    · rcases bind_eq_error_iff.1 h with hnodes | ⟨nodes, -, h⟩
      · exact (parseNodes_error (scan_tiling hscan).written hnodes).imp (fun h => ⟨_, hscan, h⟩)
          SyntaxError.Points.wellPlaced
      · cases h
  · intro segment hmem
    obtain ⟨written, hstands, hwritten⟩ := (scan_tiling hscan).written segment hmem
    cases segment with
    | text span content =>
      obtain ⟨rfl, -⟩ := hwritten
      exact hstands
    | output => exact (hwritten.output_stands hstands).1.isSlice
    | tag t =>
      exact ⟨(Tag.WrittenAs.args_stand hwritten hstands).1.isSlice,
        tags.exists_rule hwritten.claimed⟩
  · rintro front rest kind body close after rfl hfound
    obtain ⟨rfl, hclose⟩ := splitBlock_eq_some hfound
    exact ⟨by simp, hclose⟩

/-- A slot that is not closed, behind a character of two bytes. -/
theorem Template.compile_error_points_unclosed :
    let tags : TagSet := [.component "x" [], .slot "slot"]
    let source := "é{slot a}{x:b /}"
    ∃ e, Template.compile tags "page" source = .error e ∧ e.span = ⟨2, 10⟩ ∧
      e.WellPlaced source := by
  intro tags source
  have hcompile : Template.compile tags "page" source =
      .error { span := ⟨2, 10⟩, fault := .unclosedTag "{slot}" } := by cbv
  refine ⟨_, hcompile, rfl, ?_⟩
  rcases (Template.compile_error_points tags "page" source).1 _ hcompile with
    ⟨segments, -, t, heads, kind, takesBody, read, -, hrule, -⟩ | hplaced
  · have hmem := List.mem_of_find?_eq_some hrule
    simp [tags] at hmem
  · exact hplaced

/-- Behind an operator at the end the place of the error goes from the braces back over a blank. -/
theorem Template.compile_error_backwards :
    let tags : TagSet := [.component "x" [], .slot "slot"]
    ∃ e, Template.compile tags "page" "\x7b\x7b a ~ \x7d\x7d" = .error e ∧
      ¬ e.span.start ≤ e.span.stop :=
  ⟨{ span := ⟨7, 6⟩, fault := .unexpectedEnd,
     expected := [.token .parenOpen, .token .bracketOpen, .token .braceOpen] }, by cbv, by decide⟩

end SlotTemplates
