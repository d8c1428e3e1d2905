import SlotTemplates.CommandLine.Options
import SlotTemplates.Json.Reader
import SlotTemplates.Render.Component
import SlotTemplates.Syntax.Report

/-!
# Running a command line

`Options.run` is what the program does with its options, as a function of the files and the
standard input: it lists components, describes one, renders one, or renders a template. An
`Outcome` is the exit code and what is printed. A syntax error is reported on the source that
it is in, any other error on one line.
-/

namespace SlotTemplates

/-- How the program ends. -/
structure Outcome where
  code : Nat
  stdout : String
  stderr : String
deriving DecidableEq, Repr, Inhabited

namespace Outcome

/-- The end after printing a text. -/
def success (stdout : String) : Outcome := ⟨0, stdout, ""⟩

/-- The end after an error on one line. -/
def failure (message : String) : Outcome := ⟨1, "", "Error: " ++ message ++ "\n"⟩

/-- The end when an error cannot be shown. -/
def brokenOff : Outcome := ⟨101, "", ""⟩

/-- The end after a report of a syntax error. -/
def report (source file : String) (e : SyntaxError) : Outcome :=
  match e.diagnostic.report? source.toList file with
  | some text => ⟨1, "", text⟩
  | none => brokenOff

/-- The end after a component that does not compile; its source is read again. -/
def ofComponentError (files : Tree) (e : ComponentError) : Outcome :=
  match e with
  | .badTemplate _ path error =>
    match files.read path with
    | .ok source => report source path error
    | .error _ => failure e.message
  | e => failure e.message

/-- The end after an error of rendering; `template` is the name and the source of the template,
if there is one. -/
def ofRenderError (files : Tree) (template : Option (String × String)) (e : RenderError) :
    Outcome :=
  match e with
  | .parse name error =>
    match template with
    | some (file, source) => if name = file then report source file error else failure e.message
    | none => failure e.message
  | .component error => ofComponentError files error
  | e => failure e.message

end Outcome

namespace Options

/-- The members of a JSON object that an option holds; none if it is not given. -/
def object (flag : String) : Option String → Except String (Entries Value)
  | none => .ok []
  | some text =>
    match Value.ofJson text with
    | .ok (.object members) => .ok members
    | .ok _ => .error s!"--{flag} must be a JSON object"
    | .error message => .error s!"invalid JSON in --{flag}: {message}"

/-- The settings that the options make. -/
def settings (o : Options) (files : Tree) : Except String Config := do
  let c ←
    match o.config with
    | some path =>
      (Config.ofFile files path).mapError fun e => s!"loading config '{path}': {e.message}"
    | none => .ok {}
  return { c with roots := o.roots ++ c.roots, strictProps := o.strict || c.strictProps }

/-- The name of a template that comes from the standard input. -/
def stdinName : String := "<stdin>"

/-- Whether the options call for a template on the standard input. -/
def readsStdin (o : Options) : Bool :=
  !o.list && o.describe.isNone && o.component.isNone && o.input.isNone

/-- What is printed about a component. -/
def description (d : Definition) : Value :=
  .object [("name", .string d.name), ("path", .string d.path),
    ("description", .ofText? d.declaration.description),
    ("strict", .bool d.declaration.strict),
    ("props", Declaration.describeProps d.declaration.props),
    ("slots", Declaration.describeSlots d.declaration.slots)]

/-- Prints what a component declares. -/
def runDescribe (env : Environment) (name : String) : Outcome :=
  match (env.catalog.lookup [] name).1 with
  | .ok (some d) => .success ((description d).pretty ++ "\n")
  | .ok none => .failure (ComponentError.notFound name).message
  | .error e => .ofComponentError env.files e

/-- Renders a component. -/
def runComponent (o : Options) (env : Environment) (name : String) : Outcome :=
  match object "props" o.props with
  | .error message => .failure message
  | .ok props =>
    match (env.render { name, props, content := o.content } []).1 with
    | .ok text => .success (text ++ "\n")
    | .error e => .ofRenderError env.files none e

/-- The name and the text of the template to render. -/
def template (o : Options) (files : Tree) (stdin : String) : Except String (String × String) :=
  match o.input with
  | none => .ok (stdinName, stdin)
  | some path =>
    match files.read path with
    | .ok source => .ok (path, source)
    | .error fault => .error s!"reading file '{path}': {fault.message}"

/-- Renders a template. -/
def runTemplate (o : Options) (env : Environment) (stdin : String) : Outcome :=
  match object "vars" o.vars, o.template env.files stdin with
  | .error message, _ => .failure message
  | _, .error message => .failure message
  | .ok vars, .ok (name, source) =>
    match (env.renderSource name source vars []).1 with
    | .ok text => .success text
    | .error e => .ofRenderError env.files (some (name, source)) e

/-- What the program does: of several things that are asked for it does the first one, in the
order of listing, describing, rendering a component, and rendering a template. -/
def run (o : Options) (files : Tree) (stdin : String) : Outcome :=
  match o.settings files with
  | .error message => .failure message
  | .ok config =>
    match Environment.make config [] files with
    | .error e => .failure e.message
    | .ok env =>
      if o.list then .success (String.join (env.catalog.names.map (· ++ "\n")))
      else
        match o.describe, o.component with
        | some name, _ => runDescribe env name
        | none, some name => o.runComponent env name
        | none, none => o.runTemplate env stdin

end Options

end SlotTemplates
