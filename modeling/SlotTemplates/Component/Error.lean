import SlotTemplates.Component.Binding
import SlotTemplates.Component.Header
import SlotTemplates.Files.Tree

/-!
# Errors of components

Why a component cannot be found, loaded or rendered. A `ComponentError` holds the cause;
`ComponentError.message` is the wording.
-/

namespace SlotTemplates

/-- Why a component cannot be used. -/
inductive ComponentError where
  /-- No file resolves for the name. -/
  | notFound (name : String)
  | badDeclaration (name : String) (path : Path) (error : DeclarationError)
  | badTemplate (name : String) (path : Path) (error : SyntaxError)
  | unreadable (path : Path) (fault : FileFault)
  /-- What is passed to the component does not fit its declaration. -/
  | binding (component : String) (fault : BindingFault)
  /-- The component is being rendered already; the chain ends with its name. -/
  | circular (chain : List String)
deriving Repr

/-- The wording of a binding that failed. -/
def BindingFault.message (component : String) : BindingFault → String
  | .missingProp prop => s!"missing required prop '{prop}' for component {component}"
  | .unknownProp prop => s!"unknown prop '{prop}' for strict component {component}"
  | .invalidProp prop fault =>
    s!"invalid prop '{prop}' for component {component}: {fault.message}"
  | .missingSlot slot => s!"missing required slot '{slot}' for component {component}"

/-- The wording of an error. -/
def ComponentError.message : ComponentError → String
  | .notFound name => "component not found: " ++ name
  | .badDeclaration name path error =>
    s!"malformed declaration in component {name} ({path}): {error.message}"
  | .badTemplate name _ error => s!"syntax error in component {name}: {error.display}"
  | .unreadable path fault => s!"error reading component file {path}: {fault.message}"
  | .binding component fault => fault.message component
  | .circular chain => "circular component reference detected: " ++ " -> ".intercalate chain

end SlotTemplates
