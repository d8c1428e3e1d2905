import SlotTemplates.Proofs.Syntax.Tiling
import SlotTemplates.Proofs.Text.Lines
import SlotTemplates.Syntax.Compile
import SlotTemplates.Syntax.Report

/-!
# The position that a report shows

A report names the position of a diagnostic behind the message: the file, a line and a column
(`Report.Heads`). It shows one position at most (`Report.Heads.unique`), and for a span that lies in
the source it does, the one at which the start of the span stands if its number is taken for a
number of characters (`Diagnostic.report?_heads`). A span is a range of bytes, so that is not always
the character that the diagnostic points at: only where each character before it takes one byte
(`Diagnostic.report_locates`).
-/

namespace SlotTemplates

/-! ## Headings -/

/-- A position in a file as a report shows it. -/
def Position.heading (p : Position) (file : String) : String :=
  "╭─[" ++ file ++ ":" ++ toString p.line ++ ":" ++ toString p.column ++ "]"

namespace Report

/-- A report shows a message and then, in a line of its own, a position in a file. -/
def Heads (report message : String) (file : String) (p : Position) : Prop :=
  ∃ indent rest, report = "Error: " ++ message ++ "\n" ++
    (fill indent ' ' ++ (p.heading file ++ "\n" ++ rest))

theorem location_eq (file : String) (lines : List TextLine) (place : Nat) :
    location file lines place = (positionIn lines place).heading file := rfl

end Report

section
variable {p q : Position} {file message report : String}

/-- Where characters of a kind end at another one, it can be told which they are. -/
theorem append_cons_inj {kind : Char → Bool} {front other more rest : List Char} {c d : Char}
    (hfront : ∀ e ∈ front, kind e = true) (hother : ∀ e ∈ other, kind e = true)
    (hc : kind c = false) (hd : kind d = false) (h : front ++ c :: more = other ++ d :: rest) :
    front = other ∧ c :: more = d :: rest := by
  have htake := congrArg (List.takeWhile kind) h
  rw [List.takeWhile_append_of_pos hfront, List.takeWhile_append_of_pos hother,
    List.takeWhile_cons_of_neg (by simp [hc]), List.takeWhile_cons_of_neg (by simp [hd]),
    List.append_nil, List.append_nil] at htake
  subst htake
  exact ⟨rfl, List.append_cancel_left h⟩

/-- Digits up to another character say which number they write. -/
theorem toDigits_append_inj {m n : Nat} {c : Char} {more rest : List Char}
    (hc : c.isDigit = false)
    (h : Nat.toDigits 10 m ++ c :: more = Nat.toDigits 10 n ++ c :: rest) :
    m = n ∧ more = rest := by
  have hdigits (k : Nat) : ∀ e ∈ Nat.toDigits 10 k, e.isDigit = true :=
    fun e he => Nat.isDigit_of_mem_toDigits (by omega) (by omega) he
  obtain ⟨hnumber, hrest⟩ := append_cons_inj (hdigits m) (hdigits n) hc hc h
  rw [← Nat.toList_repr, ← Nat.toList_repr, String.toList_inj, Nat.repr_inj] at hnumber
  exact ⟨hnumber, (List.cons.inj hrest).2⟩

theorem Position.toList_heading (p : Position) (file : String) :
    (p.heading file).toList = ['╭', '─', '['] ++ (file.toList ++ ':' ::
      (Nat.toDigits 10 p.line ++ ':' :: (Nat.toDigits 10 p.column ++ [']']))) := by
  have hopen : "╭─[".toList = ['╭', '─', '['] := rfl
  have hcolon : ":".toList = [':'] := rfl
  have hclose : "]".toList = [']'] := rfl
  simp [heading, String.toList_append, hopen, hcolon, hclose, Nat.toList_repr]

theorem Report.Heads.mk (indent : Nat) (rest : String) :
    Heads ("Error: " ++ message ++ "\n" ++ (fill indent ' ' ++ p.heading file ++ "\n" ++ rest))
      message file p :=
  ⟨indent, rest, by simp only [String.append_assoc]⟩

/-- A report shows one position. -/
theorem Report.Heads.unique (hp : Heads report message file p) (hq : Heads report message file q) :
    p = q := by
  obtain ⟨indent, rest, rfl⟩ := hp
  obtain ⟨indent', rest', h⟩ := hq
  have hblanks (n : Nat) : ∀ e ∈ List.replicate n ' ', decide (e = ' ') = true := by simp
  have hlist := congrArg String.toList ((String.append_right_inj _).1 h)
  simp only [fill, String.toList_append, String.toList_ofList, Position.toList_heading,
    List.append_assoc, List.cons_append, List.nil_append] at hlist
  obtain ⟨-, hheading⟩ := append_cons_inj (hblanks _) (hblanks _) rfl rfl hlist
  simp only [List.cons.injEq, true_and, List.append_cancel_left_eq] at hheading
  obtain ⟨hline, hbehind⟩ := toDigits_append_inj rfl hheading
  obtain ⟨hcolumn, -⟩ := toDigits_append_inj rfl hbehind
  obtain ⟨line, column⟩ := p
  obtain rfl : line = q.line := hline
  obtain rfl : column = q.column := hcolumn
  rfl

theorem Report.not_heads_bare : ¬Heads ("Error: " ++ message ++ "\n") message file p := by
  rintro ⟨indent, rest, h⟩
  have hlength := congrArg List.length (congrArg String.toList h)
  simp only [String.toList_append, Position.toList_heading, List.length_append,
    List.length_cons] at hlength
  omega

end

/-! ## What a report shows -/

/-- The character whose number is the start of a span is in the source, or is its end, and the
span does not end before it starts or more than one place behind the source. -/
def Diagnostic.InSource (d : Diagnostic) (source : List Char) : Prop :=
  d.span.start ≤ d.span.stop ∧ max d.span.start (d.span.stop - 1) ≤ source.length

section
variable {d : Diagnostic} {source : List Char} {file report : String} {p : Position}

/-- The position in a report is that of the character whose number is the start of the span. -/
theorem Diagnostic.report?_heads (h : d.InSource source) (file : String) :
    ∃ report, d.report? source file = some report ∧
      Report.Heads report d.message file (positionIn (linesOf source) d.span.start) := by
  obtain ⟨hspan, hplace⟩ := h
  unfold Diagnostic.report?
  simp only [if_neg (Nat.not_lt.2 hspan), if_neg (Nat.not_lt.2 hplace), List.cons_append,
    List.nil_append, List.map_cons, String.join_cons]
  refine ⟨_, rfl, ?_⟩
  rw [Report.location_eq]
  exact .mk _ _

/-- Without it a report shows nothing of the source. -/
theorem Diagnostic.report?_bare (h : ¬d.InSource source)
    (hreport : d.report? source file = some report) : report = "Error: " ++ d.message ++ "\n" := by
  unfold Diagnostic.report? at hreport
  by_cases hspan : d.span.stop < d.span.start
  · simp only [if_pos hspan] at hreport
    cases hreport
  have hplace : source.length < max d.span.start (d.span.stop - 1) := by
    by_contra hnot
    exact h ⟨Nat.not_lt.1 hspan, Nat.not_lt.1 hnot⟩
  simp only [if_neg hspan, if_pos hplace, Option.some.injEq] at hreport
  rw [← hreport]
  simp [String.join_cons]

theorem length_le_byteLength (s : List Char) : s.length ≤ byteLength s := by
  induction s with
  | nil => exact Nat.le_refl _
  | cons c s ih =>
    have hpos := c.utf8Size_pos
    rw [List.length_cons, byteLength_cons]
    omega

/-- A text has as many bytes as characters if each character is one byte. -/
theorem byteLength_eq_length_iff {s : List Char} :
    byteLength s = s.length ↔ ∀ c ∈ s, c.utf8Size = 1 := by
  induction s with
  | nil => simp
  | cons c s ih =>
    have hpos := c.utf8Size_pos
    have hs := length_le_byteLength s
    rw [List.forall_mem_cons, ← ih, byteLength_cons, List.length_cons]
    omega

/-- A report shows the position of the character that a diagnostic points at if and only if its
span does not end before it starts or more than one place behind the source, counted in characters,
and each character before the one it points at takes one byte. -/
theorem Diagnostic.report_locates {before after : List Char} {c : Char}
    (hstart : d.span.start = byteLength before) (file : String) :
    (∃ report, d.report? (before ++ c :: after) file = some report ∧
        Report.Heads report d.message file (Position.first.behind before (c :: after))) ↔
      d.span.start ≤ d.span.stop ∧ d.span.stop ≤ (before ++ c :: after).length + 1 ∧
        ∀ b ∈ before, b.utf8Size = 1 := by
  rw [← byteLength_eq_length_iff]
  constructor
  · rintro ⟨report, hreport, hheads⟩
    have hin : d.InSource (before ++ c :: after) := by
      by_contra hout
      rw [report?_bare hout hreport] at hheads
      exact Report.not_heads_bare hheads
    obtain ⟨other, hother, hshown⟩ := report?_heads hin file
    cases hreport.symm.trans hother
    rw [← positionIn_linesOf] at hheads
    have hplace := positionIn_inj (hshown.unique hheads)
    obtain ⟨hspan, hlength⟩ := hin
    exact ⟨hspan, by omega, by omega⟩
  · rintro ⟨hspan, hlength, hbytes⟩
    have hin : d.InSource (before ++ c :: after) := by
      refine ⟨hspan, ?_⟩
      rw [List.length_append, List.length_cons] at hlength ⊢
      omega
    obtain ⟨report, hreport, hshown⟩ := report?_heads hin file
    rw [hstart, hbytes, positionIn_linesOf] at hshown
    exact ⟨report, hreport, hshown⟩

end

/-- In the second line, behind characters of one byte. -/
theorem Diagnostic.report_locates_second :
    let before := ['a', '\n', '{', '{', ' ', 'b', ' ']
    let after := [' ', '}', '}']
    let d : Diagnostic := ⟨⟨7, 8⟩, "Unexpected character '#'", []⟩
    d.span.start = byteLength before ∧ Position.first.behind before ('#' :: after) = ⟨2, 6⟩ ∧
      ∃ report, d.report? (before ++ '#' :: after) "page.tpl" = some report ∧
        Report.Heads report d.message "page.tpl" (Position.first.behind before ('#' :: after)) := by
  intro before after d
  have hstart : d.span.start = byteLength before := by decide
  refine ⟨hstart, by decide, ?_⟩
  have hbytes : ∀ b ∈ before, b.utf8Size = 1 := byteLength_eq_length_iff.1 (by decide)
  exact (Diagnostic.report_locates hstart "page.tpl").2 ⟨by decide, by decide, hbytes⟩

/-- Behind a letter of two bytes the report shows a column too many. -/
theorem Template.report_misplaced :
    let before := ['é', '{', '{', ' ', 'a', ' ']
    let after := [' ', '}', '}']
    ∃ e, Template.compile [] "page" (String.ofList (before ++ '#' :: after)) = .error e ∧
      e.span.start = byteLength before ∧
      Position.first.behind before ('#' :: after) = ⟨1, 7⟩ ∧
      ∃ report, e.diagnostic.report? (before ++ '#' :: after) "page.tpl" = some report ∧
        Report.Heads report e.diagnostic.message "page.tpl" ⟨1, 8⟩ ∧
        ¬Report.Heads report e.diagnostic.message "page.tpl" ⟨1, 7⟩ := by
  intro before after
  refine ⟨{ span := ⟨7, 8⟩, fault := .strayText "#" }, by cbv, by decide, by decide, ?_⟩
  generalize he : SyntaxError.diagnostic _ = d
  have hin : d.InSource (before ++ '#' :: after) := by
    subst he
    exact ⟨by decide, by decide⟩
  obtain ⟨report, hreport, hheads⟩ := Diagnostic.report?_heads hin "page.tpl"
  have hplace : positionIn (linesOf (before ++ '#' :: after)) d.span.start = ⟨1, 8⟩ := by
    subst he
    decide
  rw [hplace] at hheads
  refine ⟨report, hreport, hheads, fun hright => ?_⟩
  cases hheads.unique hright

end SlotTemplates
