import SlotTemplates.Proofs.Render.Invocation
import SlotTemplates.Proofs.Render.Places
import SlotTemplates.Proofs.Syntax.ParseTree
import SlotTemplates.Proofs.Syntax.Quoting

/-!
# The names of the render function

Settings name the render function as they like; nothing about these names is checked
(`Config.validate`). A call of such a name is read if and only if the name is a word that is no
keyword: what stands before a parenthesis in what is read is a word (`Grammar.Derives.call_mem`),
and a word before a parenthesis with arguments is read as a call (`parseExpr_call`). What is called
then is the render function unless the name is that of another function of every environment, which
is entered behind it and so takes its place (`TemplateFunction.get?_builtIns`). With both provided,
a call with the name of a component renders as the component does from outside
(`Environment.names_called`).
-/

namespace SlotTemplates

/-! ## Words -/

namespace Token

variable {c : Char} {cs written rest : List Char} {name : String}

/-- What is taken as the rest of a name is one to its end. -/
theorem nameTail_fst (cs : List Char) : nameTail (nameTail cs).1 = ((nameTail cs).1, []) := by
  fun_induction nameTail cs with
  | case1 | case3 | case5 => rfl
  | case2 d cs h name rest hr ih =>
    rw [hr] at ih
    obtain ⟨more, rfl⟩ : ∃ more, name = d :: more := by
      rw [nameTail_part h] at hr
      exact ⟨_, (Prod.mk.inj hr).1.symm⟩
    rw [nameTail_dash h, ih]
  | case4 c cs hne h name rest hr ih =>
    rw [hr] at ih
    rw [nameTail_part h, ih]

theorem ofWord_eq_ident {word : List Char} (h : ofWord word = .ident name) :
    name = String.ofList word := by
  unfold ofWord at h
  split_ifs at h
  cases h
  rfl

theorem single?_ne_ident : single? c ≠ some (.ident name) := by
  unfold single?
  split <;> nofun

/-- Where a word is read that is no keyword, it is a name. -/
theorem isName_of_scanToken (h : scanToken c cs = .token (.ident name) written rest) :
    isName name = true := by
  cases hstart : isNameStart c with
  | true =>
    simp only [scanToken, hstart, if_true, Scan.token.injEq] at h
    obtain ⟨hword, -, -⟩ := h
    obtain rfl := ofWord_eq_ident hword
    simp [isName, hstart, nameTail_fst, hword]
  | false =>
  cases hdigit : c.isDigit with
  | true =>
    simp only [scanToken, hstart, hdigit, Bool.false_eq_true, if_true, if_false] at h
    obtain ⟨_, hnumber⟩ := scanNumber_number h
    cases hnumber
  | false =>
  by_cases hquote : c = '"' ∨ c = '\''
  · simp only [scanToken, hstart, hdigit, hquote, Bool.false_eq_true, if_true, if_false] at h
    split at h <;> cases h
  · rw [scanToken_eq_scanSymbol hstart hdigit hquote] at h
    by_cases hgoes : GoesOn c cs
    · rcases hgoes with ⟨rfl, d, ds, rfl, hd⟩ | ⟨rfl, ds, rfl⟩ | ⟨rfl, ds, rfl⟩
      · simp only [scanSymbol, hd, if_true] at h
        obtain ⟨_, hnumber⟩ := scanNumber_number h
        cases hnumber
      · cases h
      · cases h
    · rw [scanSymbol_alone hgoes] at h
      split at h
      · next hsingle =>
        cases h
        exact absurd hsingle single?_ne_ident
      · cases h

end Token

theorem Lexes.isName_of_mem {pos : Nat} {s : List Char} {lexemes : List Lexeme} {name : String}
    (h : Lexes pos s lexemes) (hmem : .ident name ∈ lexemes.map Lexeme.token) :
    Token.isName name = true := by
  induction h with
  | nil => cases hmem
  | gap hc hrest ih => exact ih hmem
  | token hc hscan hrest ih =>
    rcases List.mem_cons.1 hmem with rfl | hmem
    · exact Token.isName_of_scanToken hscan
    · exact ih hmem

/-! ## Calls -/

/-- Whether an expression is a call of a name. -/
def Expr.Calls (name : String) (e : Expr) : Prop :=
  ∃ span place args, e = .call span name place args

theorem Expr.calls_of_unplaced {name : String} {e : Expr} {place : Span} {values : List Expr}
    (h : e.unplaced = .call place name place values) : e.Calls name := by
  cases e with
  | call span function functionSpan args =>
    simp only [unplaced, mapSpans, Expr.call.injEq] at h
    exact ⟨span, functionSpan, args, by rw [h.2.1]⟩
  | _ => simp [unplaced, mapSpans] at h

namespace Grammar

variable {name : String}

/-- What a phrase of some tokens says about calls of a name: an operand that is one has the name
among its tokens, and what follows on an operand makes no call of it. -/
def Phrase.NamesCalls (name : String) (s : List Lexeme) : Phrase → Prop
  | .expr e | .concat e | .access e | .atom e => e.Calls name → .ident name ∈ tokensOf s
  | .coalesceTail left e | .concatTail left e | .accessTail left e => e.Calls name → e = left
  | .items .. | .entries .. => True

theorem Derives.namesCalls {phrase : Phrase} {s rest : List Lexeme} (h : Derives phrase s rest) :
    phrase.NamesCalls name s := by
  -- what an operator makes is no call
  have other {left e : Expr} (hleft : ¬left.Calls name) (ih : e.Calls name → e = left)
      {right : Expr} (hcalls : e.Calls name) : e = right := (hleft (ih hcalls ▸ hcalls)).elim
  induction h with
  | expr hleft htail ihleft ihtail | concat hleft htail ihleft ihtail
  | access hleft htail ihleft ihtail => exact fun hcalls => ihleft (ihtail hcalls ▸ hcalls)
  | coalesceEnd | tildeEnd | accessEnd => exact fun _ => rfl
  | coalesce _ _ _ ih | tilde _ _ _ ih => exact other (by simp [Expr.Calls]) ih
  | attr _ ih => exact other (by simp [Expr.Calls]) ih
  | index _ _ _ ih => exact other (by simp [Expr.Calls]) ih
  | call =>
    rintro ⟨_, _, _, hcall⟩
    cases hcall
    exact List.mem_cons_self
  | paren _ ih =>
    intro hcalls
    exact List.mem_cons_of_mem _ (ih hcalls)
  | var | list | map | literal => rintro ⟨_, _, _, hcall⟩; cases hcall
  | noItems | lastItem | item | noEntries | lastEntry | entry => trivial

/-- A function that is called is named among the tokens. -/
theorem Derives.call_mem {e : Expr} {s rest : List Lexeme} (h : Derives (.expr e) s rest)
    (hcalls : e.Calls name) : .ident name ∈ tokensOf s :=
  h.namesCalls hcalls

/-- A text that can stand between the parentheses of a call, and the arguments that it writes. -/
def IsArguments (args : String) (values : List Expr) : Prop :=
  ∃ lexemes, tokenize 0 args.toList = .ok lexemes ∧
    ∃ d : Tree (.items .value), d.tokens = lexemes.map Lexeme.token ∧ d.value = values

theorem isArguments_empty : IsArguments "" [] :=
  ⟨[], Lexes.nil.tokenize_eq, .noItems, rfl, rfl⟩

theorem isArguments_quoted {quote : Char} (hquote : quote = '"' ∨ quote = '\'') (s : String) :
    IsArguments (Token.quoted quote s) [.literal nowhere (.string s)] :=
  ⟨_, tokenize_quoted hquote s 0,
    .items (.plain (.expr (.concat (.access (.text s) .accessEnd) .tildeEnd) .coalesceEnd))
      .itemsEnd, rfl, rfl⟩

end Grammar

open Grammar in
/-- A name before arguments in parentheses is a call of it. -/
theorem parseExpr_call {name args : String} {values : List Expr} (hname : Token.isName name = true)
    (hargs : IsArguments args values) (pos : Nat) :
    ∃ e, parseExpr pos (name ++ "(" ++ args ++ ")").toList = .ok e ∧
      e.unplaced = .call nowhere name nowhere values := by
  obtain ⟨lexemes, hlexemes, d, hd, rfl⟩ := hargs
  let opened := Span.sized (pos + byteLength name.toList) 1
  let moved := lexemes.map fun l => (⟨l.token, l.span.shift opened.stop⟩ : Lexeme)
  let close := Span.sized (opened.stop + byteLength args.toList) 1
  have hlist : Lexes opened.stop (args.toList ++ [')']) (moved ++ [⟨.parenClose, close⟩]) := by
    have hbreaks : Token.Breaks [')'] := by
      rintro d hd
      cases hd
      decide
    have hmoved := (tokenize_eq_ok_iff.1 hlexemes).shift opened.stop
    have hclose : Token.scanToken ')' [] = .token .parenClose [')'] [] := rfl
    rw [Nat.zero_add] at hmoved
    exact hmoved.append hbreaks (.token rfl hclose .nil)
  have hstops : ∀ d ∈ ('(' :: (args.toList ++ [')'])).head?,
      Token.isNameChar d = false ∧ d ≠ '-' := by
    rintro d hd
    cases hd
    decide
  have hopen : Token.scanToken '(' (args.toList ++ [')']) = .token .parenOpen ['('] _ := rfl
  have hcall : Lexes pos (name.toList ++ '(' :: (args.toList ++ [')'])) _ :=
    .name hname hstops (.token rfl hopen hlist)
  have hsource : (name ++ "(" ++ args ++ ")").toList =
      name.toList ++ '(' :: (args.toList ++ [')']) := by simp
  have htokens : tokensOf moved = d.tokens := by simp [moved, tokensOf, hd]
  obtain ⟨es, hes, hvalues⟩ := d.isRead htokens .parenClose close [] trivial
  rw [hsource]
  refine ⟨_, parseExpr_eq_ok_iff.2 ⟨_, hcall.tokenize_eq,
    .expr (.concat (.access (.call hes) .accessEnd) .tildeEnd) .coalesceEnd⟩, ?_⟩
  rw [Expr.unplaced, Expr.mapSpans, mapSpansList_eq_map, ← hvalues]
  rfl

/-! ## Functions -/

/-- Of names that all have an entry made of them, each is bound to its own. -/
theorem Entries.get?_extend_map {α : Type} (f : String → α) (names : List String) (m : Entries α)
    (name : String) :
    (m.extend (names.map fun n => (n, f n))).get? name =
      if name ∈ names then some (f name) else m.get? name := by
  induction names generalizing m with
  | nil => simp [extend]
  | cons n names ih =>
    rw [List.map_cons, extend, List.foldl_cons, ← extend, ih, get?_insert]
    by_cases hmem : name ∈ names
    · simp [hmem]
    · by_cases heq : n = name
      · simp [heq]
      · simp [hmem, heq, Ne.symm heq]

/-- The functions that every environment has under names of their own. -/
def TemplateFunction.fixedNames : List String :=
  ["hasComponent", "componentProps", "componentSlots"]

theorem Environment.make_of_validate {config : Config} (hvalid : config.validate = .ok ())
    (files : Tree) :
    make config [] files = .ok {
      config, tags := componentTags config,
      functions := Entries.ofList (TemplateFunction.builtIns config), globals := [], files } := by
  simp [make, hvalid]

/-- A name of the render function means that function unless it is the name of another one, which
is entered later. -/
theorem TemplateFunction.get?_builtIns {config : Config} {name : String}
    (hname : name ∈ config.renderFunction :: config.functionAliases) :
    (Entries.ofList (builtIns config)).get? name = some (.component name) ↔ name ∉ fixedNames := by
  simp only [builtIns, Entries.ofList, Entries.extend_append]
  generalize hnamed : Entries.extend [] _ = named
  have hget : named.get? name = some (.component name) := by
    rw [← hnamed, Entries.get?_extend_map, if_pos hname]
  simp only [Entries.extend, List.foldl_cons, List.foldl_nil, Entries.get?_insert, fixedNames,
    List.mem_cons, List.not_mem_nil, or_false]
  by_cases hslots : "componentSlots" = name
  · simp [hslots]
  by_cases hprops : "componentProps" = name
  · simp [hprops, hslots]
  by_cases hhas : "hasComponent" = name
  · simp [hhas, hprops, hslots]
  simp [hslots, hprops, hhas, hget, Ne.symm hslots, Ne.symm hprops, Ne.symm hhas]

/-! ## Components by their names alone -/

/-- A component that is rendered where no other one is, is the component rendered from outside. -/
theorem Environment.runAlone_invoke (env : Environment) (invocation : Invocation)
    (vars : Entries Value) (cache : Cache) :
    env.runAlone (Render.invoke invocation) vars cache = env.render invocation cache := by
  have alike : State.Alike (· = ·) True (.start vars cache) (.start [] cache) :=
    ⟨rfl, List.Subset.refl _, fun _ => rfl⟩
  obtain ⟨hresult, hcache⟩ := (Host.atDepth_agree env.catalog.answersAlike_eq
    (depthBound env cache + includeLimit)).component invocation alike (.inr trivial)
  rw [render, runAlone, runAlone, run, run, Render.run_invoke, Render.run_invoke]
  exact Prod.ext hresult hcache

/-- The call of a name with the name of a component in quotes, in an output. -/
theorem Environment.renderText_call {name : String} (hword : Token.isName name = true)
    {quote : Char} (hquote : quote = '"' ∨ quote = '\'') (env : Environment) (component : String)
    (vars : Entries Value) (cache : Cache) :
    let text := name ++ "(" ++ Token.quoted quote component ++ ")"
    let call := Expr.call ⟨0, 0⟩ name ⟨0, 0⟩ [.literal ⟨0, 0⟩ (.string component)]
    env.renderText ("\x7b\x7b " ++ text ++ " \x7d\x7d") vars cache =
      env.runAlone (renderNodes env [.output ⟨0, 0⟩ call]) (env.globals.extend vars) cache := by
  intro text call
  obtain ⟨e, hparse, hcall⟩ := parseExpr_call hword (Grammar.isArguments_quoted hquote component) 1
  have heval : eval env (e.shift 2) = eval env call := by
    rw [Expr.shift, eval_mapSpans, ← eval_mapSpans (fun _ => ⟨0, 0⟩), ← Expr.unplaced, hcall]
    rfl
  rw [renderText, renderSource, compile, Template.compile_output hparse env.tags textName]
  change env.runAlone (renderNodes env [.output _ (e.shift 2)]) _ cache = _
  simp only [renderNodes, renderNode, heval]

/-- An output of a call of the render function with the name of a component asks for it. -/
theorem renderNodes_call {env : Environment} {name calledAs : String}
    (hfunction : env.function? name = some (.component calledAs)) (span place : Span)
    (component : String) :
    let call := Expr.call span name place [.literal place (.string component)]
    renderNodes env [.output span call] = Render.invoke { name := component } := by
  intro call
  rw [renderNodes, renderNode, eval, hfunction]
  exact congrArg (Render.component _) (funext fun text => congrArg Render.done text.append_empty)

open Grammar in
/-- Settings that are valid make an environment, and in it a name of the render function can be
called with whatever arguments if and only if it is a word and no keyword, and means the render
function if and only if it is not the name of one of the other functions. If it is neither, a call
with the name of a component renders in an output as the component does from outside. -/
theorem Environment.names_called {config : Config} (hvalid : config.validate = .ok ())
    (files : Tree) :
    ∃ env, make config [] files = .ok env ∧
      ∀ name ∈ config.renderFunction :: config.functionAliases,
        (Token.isName name = true ↔
          ∀ args values, IsArguments args values → ∀ pos,
            ∃ e, parseExpr pos (name ++ "(" ++ args ++ ")").toList = .ok e ∧
              e.unplaced = .call nowhere name nowhere values) ∧
        (name ∉ TemplateFunction.fixedNames ↔ env.function? name = some (.component name)) ∧
        (Token.isName name = true → name ∉ TemplateFunction.fixedNames →
          ∀ component quote, quote = '"' ∨ quote = '\'' → ∀ vars cache,
            let call := name ++ "(" ++ Token.quoted quote component ++ ")"
            env.renderText ("\x7b\x7b " ++ call ++ " \x7d\x7d") vars cache =
              env.render { name := component } cache) := by
  obtain ⟨env, hmake, hfunctions⟩ : ∃ env, make config [] files = .ok env ∧
      env.functions = Entries.ofList (TemplateFunction.builtIns config) :=
    ⟨_, make_of_validate hvalid files, rfl⟩
  refine ⟨env, hmake, fun name hname => ?_⟩
  have hfunction := TemplateFunction.get?_builtIns hname
  rw [← hfunctions] at hfunction
  refine ⟨⟨fun hword args values hargs pos => parseExpr_call hword hargs pos, fun hcalls => ?_⟩,
    hfunction.symm, fun hword hfree component quote hquote vars cache => ?_⟩
  · obtain ⟨e, hparse, hcall⟩ := hcalls "" [] isArguments_empty 0
    obtain ⟨lexemes, htokens, hderives⟩ := parseExpr_eq_ok_iff.1 hparse
    exact (tokenize_eq_ok_iff.1 htokens).isName_of_mem
      (hderives.call_mem (Expr.calls_of_unplaced hcall))
  · intro call
    rw [renderText_call hword hquote, renderNodes_call (hfunction.2 hfree), runAlone_invoke]

/-- A card without props, read before. -/
def plainCard : Cache :=
  [("card", {
    name := "card", path := "components/card.tpl", declaration := {},
    template := { name := "components/card.tpl", nodes := [.text ⟨0, 2⟩ "hi"] } })]

/-- A name with a dash inside. -/
theorem Environment.names_called_dashed :
    let config : Config := { renderFunction := "render-it", functionAliases := [] }
    ∃ env, make config [] (.dir []) = .ok env ∧
      env.renderText "\x7b\x7b render-it('card') \x7d\x7d" [] plainCard =
        (.ok "hi", plainCard) := by
  intro config
  have hword : Token.isName "render-it" = true := by cbv
  have hvalid : config.validate = .ok () := by decide
  obtain ⟨env, hmake, hnames⟩ := names_called hvalid (.dir [])
  obtain ⟨-, -, hcalled⟩ := hnames "render-it" List.mem_cons_self
  have hrender : env.render { name := "card" } plainCard = (.ok "hi", plainCard) := by
    obtain rfl := Except.ok.inj ((make_of_validate hvalid (.dir [])).symm.trans hmake)
    rfl
  exact ⟨env, hmake, (hcalled hword (by decide) "card" '\'' (.inr rfl) [] plainCard).trans hrender⟩

/-- Valid settings can give the render function the name of a keyword, so that nothing is a call of
it, and that of another function, which is then called in its place. -/
theorem Environment.names_taken :
    let keyword : Config := { renderFunction := "true", functionAliases := [] }
    let taken : Config := { renderFunction := "hasComponent", functionAliases := [] }
    keyword.validate = .ok () ∧
      (∀ e, parseExpr 0 "true('card')".toList = .ok e → ¬e.Calls "true") ∧
      ∃ env, make taken [] (.dir []) = .ok env ∧
        env.render { name := "card" } plainCard = (.ok "hi", plainCard) ∧
        env.renderText "\x7b\x7b hasComponent('card') \x7d\x7d" [] plainCard =
          (.ok "true", plainCard) := by
  intro keyword taken
  have hword : Token.isName "hasComponent" = true := by cbv
  have hvalid : taken.validate = .ok () := by decide
  have hcall (env : Environment) := env.renderText_call hword (.inr rfl) "card" [] plainCard
  refine ⟨by decide, fun e hparse hcalls => ?_, _, make_of_validate hvalid (.dir []), rfl, ?_⟩
  · obtain ⟨lexemes, htokens, hderives⟩ := parseExpr_eq_ok_iff.1 hparse
    have hname := (tokenize_eq_ok_iff.1 htokens).isName_of_mem (hderives.call_mem hcalls)
    have hkeyword : Token.isName "true" = false := by cbv
    cases hname.symm.trans hkeyword
  · exact (hcall _).trans rfl

end SlotTemplates
