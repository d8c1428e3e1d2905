import SlotTemplates.Files.Tree
import SlotTemplates.Toml.Shape

/-!
# Configuration

Where components are looked for, how tags and functions are spelt, and how strict binding is.
A `Config` is read from the `components` table of a TOML text (`Config.ofToml`) or file
(`Config.ofFile`); whatever is not set there keeps its default. `Config.validate` refuses
spellings that tags could not be told apart with.
-/

namespace SlotTemplates

/-- Settings of an environment. -/
structure Config where
  /-- Directories that are searched for components, in order. -/
  roots : List Path := ["components"]
  /-- File extensions of components, in order, without the point. -/
  extensions : List String := ["tpl"]
  /-- Undeclared props are refused everywhere. -/
  strictProps : Bool := false
  /-- The keyword of invocations. -/
  tag : String := "x"
  /-- The keyword of slots. -/
  slotTag : String := "slot"
  /-- The function that renders a component. -/
  renderFunction : String := "component"
  /-- More names of that function. -/
  functionAliases : List String := ["c"]
  /-- The slots that stand for the default content. -/
  defaultSlotAliases : List String := ["default", "content"]
deriving DecidableEq, Repr, Inhabited

/-- Why settings cannot be used. -/
inductive ConfigFault where
  | tagNoKeyword (tag : String)
  | slotTagNoKeyword (tag : String)
  | sameTags
  | pointedExtension
deriving DecidableEq, Repr

/-- The wording of a fault. -/
def ConfigFault.message : ConfigFault → String
  | .tagNoKeyword tag => s!"tag '{tag}' is not a keyword"
  | .slotTagNoKeyword tag => s!"slot_tag '{tag}' is not a keyword"
  | .sameTags => "tag and slot_tag must differ"
  | .pointedExtension => "extensions are given without a leading dot"

/-- Why there is no configuration. -/
inductive ConfigError where
  | unreadable (fault : FileFault)
  | toml (error : Toml.Error)
  | invalid (fault : ConfigFault)
deriving DecidableEq, Repr

/-- The wording of an error. -/
def ConfigError.message : ConfigError → String
  | .unreadable fault => "Failed to read config file: " ++ fault.message
  | .toml error => "Failed to parse config TOML: " ++ error.message
  | .invalid fault => "Invalid config: " ++ fault.message

namespace Config

/-- Whether a text can be the keyword of a tag. -/
def isKeyword (s : String) : Bool :=
  !s.isEmpty && s.toList.all fun c => c.isAlphanum || c = '_' || c = '-'

/-- Whether a text can be an extension. -/
def isExtension (s : String) : Bool := !s.isEmpty && s.toList.head? != some '.'

/-- Whether the settings can be used, and if not, why. -/
def validate (c : Config) : Except ConfigFault Unit :=
  if !isKeyword c.tag then .error (.tagNoKeyword c.tag)
  else if !isKeyword c.slotTag then .error (.slotTagNoKeyword c.slotTag)
  else if c.tag = c.slotTag then .error .sameTags
  else if !c.extensions.all isExtension then .error .pointedExtension
  else .ok ()

/-- Whether a slot stands for the default content. -/
def isDefaultSlot (c : Config) (name : String) : Bool := c.defaultSlotAliases.contains name

/-- The fields of the table that holds the settings. -/
def fields : Toml.Fields Toml.Item Toml.Misfit Config where
  name := "struct TomlComponents"
  order := [("roots", false), ("extensions", false), ("strict_props", false), ("tag", false),
    ("slot_tag", false), ("render_function", false), ("function_aliases", false),
    ("default_slot_aliases", false)]
  closed := false
  blank := {}
  set c name item :=
    match name with
    | "roots" => (item.texts "path string").map fun roots => { c with roots }
    | "extensions" => item.texts.map fun extensions => { c with extensions }
    | "strict_props" => item.flag.map fun strictProps => { c with strictProps }
    | "tag" => item.text.map fun tag => { c with tag }
    | "slot_tag" => item.text.map fun slotTag => { c with slotTag }
    | "render_function" => item.text.map fun renderFunction => { c with renderFunction }
    | "function_aliases" => item.texts.map fun functionAliases => { c with functionAliases }
    | _ => item.texts.map fun defaultSlotAliases => { c with defaultSlotAliases }
  fault span fault := ⟨span, fault⟩

/-- The settings that a TOML text makes. -/
def ofToml (source : String) : Except ConfigError Config :=
  let chars := source.toList
  match Toml.readDocument chars with
  | .error offset => .error (.toml (Toml.malformedAt chars offset))
  | .ok (info, entries) =>
    match Toml.findItem? "components" entries with
    | none => .ok {}
    | some item =>
      match item.fields fields with
      | .error m => .error (.toml (Toml.misshapenAt chars (m.within info.span)))
      | .ok c =>
        match c.validate with
        | .ok () => .ok c
        | .error fault => .error (.invalid fault)

/-- The settings that a file makes. Its relative roots are meant from its own directory. -/
def ofFile (files : Tree) (path : Path) : Except ConfigError Config := do
  let source ← (files.read path).mapError .unreadable
  let c ← ofToml source
  return { c with roots := c.roots.map path.parent.join }

/-- The same settings with a directory that is searched before all others. -/
def searchFirst (c : Config) (root : Path) : Config := { c with roots := root :: c.roots }

end Config

end SlotTemplates
