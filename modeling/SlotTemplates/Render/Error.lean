import SlotTemplates.Component.Error
import SlotTemplates.Config

/-!
# Errors of rendering

Why a template cannot be compiled or rendered. A `RenderError` holds the cause;
`RenderError.message` is the wording.
-/

namespace SlotTemplates

/-- What is wrong with the arguments of a function or a tag. -/
inductive ArgumentFault where
  | tooMany (count : Nat)
  | missingName
  | nameOfType (type : String)
  | nameOfValue (value : Value)
  | propsOfType (type : String)
  | slotsOfType (type : String)
  | spreadOfValue (value : Value)
  /-- What a host function says. -/
  | host (message : String)
deriving Repr

/-- The number of arguments that the render function takes at most. -/
def maxArguments : Nat := 4

/-- The wording of a fault. -/
def ArgumentFault.message : ArgumentFault → String
  | .tooMany count => s!"expected at most {maxArguments} arguments, got {count}"
  | .missingName => "missing component name"
  | .nameOfType type => "component name must be a string, got " ++ type
  | .nameOfValue value => "component name must be a string, got " ++ value.compact
  | .propsOfType type => "props must be a map, got " ++ type
  | .slotsOfType type => "slots must be a map, got " ++ type
  | .spreadOfValue value => "can only spread a map, got " ++ value.compact
  | .host message => message

/-- Why there is no text. -/
inductive RenderError where
  /-- The template does not compile. -/
  | parse (template : String) (error : SyntaxError)
  | component (error : ComponentError)
  | config (error : ConfigError)
  | unknownFunction (name : String)
  | invalidArguments (function : String) (fault : ArgumentFault)
  | unreadable (path : Path) (fault : FileFault)
  /-- Templates that include templates do not come to an end. -/
  | tooDeep
deriving Repr

/-- The wording of an error. -/
def RenderError.message : RenderError → String
  | .parse template error => s!"parse errors in {template}: {error.display}"
  | .component error => error.message
  | .config error => error.message
  | .unknownFunction name => "unknown function: " ++ name
  | .invalidArguments function fault => s!"invalid arguments to {function}: {fault.message}"
  | .unreadable path fault => s!"error reading template {path}: {fault.message}"
  | .tooDeep => "templates are nested too deeply"

end SlotTemplates
