import SlotTemplates.Component.Catalog
import SlotTemplates.Render.Error

/-!
# Environments

What templates are compiled and rendered in: the settings, the tags and functions that the
settings and a host's extensions bring, values that every template sees, and the files.
`Environment.make` puts one together. The component tags come before those of extensions, and
the first rule that claims a head owns it; of functions with one name the last one counts.
-/

namespace SlotTemplates

/-- What a call in an expression runs. -/
inductive TemplateFunction where
  /-- Renders a component; `calledAs` is the name under which errors mention it. -/
  | component (calledAs : String)
  | hasComponent
  | componentProps
  | componentSlots
  /-- A function of the host that looks at its arguments alone. -/
  | host (f : List Value → Except RenderError Value)
  /-- Renders the component that the first argument names, without props. -/
  | render
  /-- Renders the first argument as a template, in the scope of the call. -/
  | included

namespace TemplateFunction

/-- Whether a function is one that every environment has. -/
def isBuiltIn : TemplateFunction → Bool
  | .component _ => true
  | .hasComponent => true
  | .componentProps => true
  | .componentSlots => true
  | _ => false

/-- The function that gives a value, whatever its arguments are. -/
def constant (value : Value) : TemplateFunction := .host fun _ => .ok value

/-- The function that gives the array of its arguments. -/
def arguments : TemplateFunction := .host fun args => .ok (.array args)

/-- The function that refuses all arguments and says how many there are. -/
def failing (name : String) : TemplateFunction :=
  .host fun args =>
    .error (.invalidArguments name (.host s!"failed with {args.length} arguments"))

/-- The functions that settings name, with their names. -/
def builtIns (config : Config) : List (String × TemplateFunction) :=
  (config.renderFunction :: config.functionAliases).map (fun name => (name, .component name)) ++
    [("hasComponent", .hasComponent), ("componentProps", .componentProps),
     ("componentSlots", .componentSlots)]

end TemplateFunction

/-- What a host adds to an environment. -/
structure Extension where
  functions : List (String × TemplateFunction) := []
  tags : List TagRule := []

/-- Everything that compiling and rendering depend on. -/
structure Environment where
  config : Config
  tags : TagSet
  functions : Entries TemplateFunction
  /-- Values that every template and every component sees. -/
  globals : Entries Value
  files : Tree

namespace Environment

/-- The rules of component and slot tags under the keywords of settings. -/
def componentTags (config : Config) : TagSet :=
  [.component config.tag config.defaultSlotAliases, .slot config.slotTag]

/-- The environment of settings and extensions over files, if the settings are valid. -/
def make (config : Config) (extensions : List Extension) (files : Tree) :
    Except ConfigError Environment :=
  match config.validate with
  | .error fault => .error (.invalid fault)
  | .ok () =>
    .ok {
      config
      tags := componentTags config ++ extensions.flatMap Extension.tags
      functions := Entries.ofList
        (TemplateFunction.builtIns config ++ extensions.flatMap Extension.functions)
      globals := []
      files }

/-- The components that an environment has. -/
def catalog (env : Environment) : Catalog :=
  { files := env.files, roots := env.config.roots, extensions := env.config.extensions,
    tags := env.tags }

/-- The function of a name. -/
def function? (env : Environment) (name : String) : Option TemplateFunction :=
  env.functions.get? name

/-- The environment with one more value that everything sees. -/
def addGlobal (env : Environment) (name : String) (value : Value) : Environment :=
  { env with globals := env.globals.insert name value }

/-- The environment with one more function. -/
def addFunction (env : Environment) (name : String) (f : TemplateFunction) : Environment :=
  { env with functions := env.functions.insert name f }

/-- The template of a source; `name` labels it in errors. -/
def compile (env : Environment) (name source : String) : Except RenderError Template :=
  (Template.compile env.tags name source).mapError (RenderError.parse name)

end Environment

end SlotTemplates
