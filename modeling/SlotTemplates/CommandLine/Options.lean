import SlotTemplates.Files.Path

/-!
# Options

What the command line asks for. `Request.read` goes over the arguments from left to right: it
stops at the first one that asks for help, and at the first one that cannot be meant. An option
takes its value from behind an equals sign or from the next argument, which then does not start
with a dash; short options can be written together.
-/

namespace SlotTemplates

/-- The names that options go by. -/
inductive OptionName where
  | config
  | root
  | strict
  | vars
  | component
  | props
  | content
  | list
  | describe
  | verbose
  | help
deriving DecidableEq, Repr

namespace OptionName

/-- The option of a name behind two dashes. -/
def ofLong? : String → Option OptionName
  | "config" => some .config
  | "root" => some .root
  | "strict" => some .strict
  | "vars" => some .vars
  | "component" => some .component
  | "props" => some .props
  | "content" => some .content
  | "list" => some .list
  | "describe" => some .describe
  | "verbose" => some .verbose
  | "help" => some .help
  | _ => none

/-- The option of a letter behind one dash. -/
def ofShort? : Char → Option OptionName
  | 'c' => some .config
  | 'r' => some .root
  | 'l' => some .list
  | 'v' => some .verbose
  | 'h' => some .help
  | _ => none

/-- Whether an option has a value. -/
def takesValue : OptionName → Bool
  | .strict => false
  | .list => false
  | .verbose => false
  | .help => false
  | _ => true

end OptionName

/-- What the arguments set. -/
structure Options where
  /-- The template file; without one the template is read from the standard input. -/
  input : Option Path := none
  config : Option Path := none
  /-- Directories that are searched before those of the configuration. -/
  roots : List Path := []
  strict : Bool := false
  vars : Option String := none
  /-- The component to render instead of a template. -/
  component : Option String := none
  props : Option String := none
  content : Option String := none
  list : Bool := false
  /-- The component to describe. -/
  describe : Option String := none
  verbose : Bool := false
deriving DecidableEq, Repr, Inhabited

namespace Options

/-- A value in a place that has none yet. -/
def once (old : Option String) (value : String) : Option (Option String) :=
  if old.isSome then none else some (some value)

/-- A path that is not empty, in a place that has none yet. -/
def oncePath (old : Option Path) (value : Path) : Option (Option Path) :=
  if value.isEmpty then none else once old value

/-- A flag that is not set yet. -/
def onceFlag (old : Bool) : Option Bool := if old then none else some true

/-- The options with the value of one; only roots can be given more than once. -/
def set (o : Options) (name : OptionName) (value : String) : Option Options :=
  match name with
  | .config => (oncePath o.config value).map fun config => { o with config }
  | .root => if value.isEmpty then none else some { o with roots := o.roots ++ [value] }
  | .vars => (once o.vars value).map fun vars => { o with vars }
  | .component => (once o.component value).map fun component => { o with component }
  | .props => (once o.props value).map fun props => { o with props }
  | .content => (once o.content value).map fun content => { o with content }
  | .describe => (once o.describe value).map fun describe => { o with describe }
  | .strict => (onceFlag o.strict).map fun strict => { o with strict }
  | .list => (onceFlag o.list).map fun list => { o with list }
  | .verbose => (onceFlag o.verbose).map fun verbose => { o with verbose }
  | .help => some o

/-- The options with a template file. -/
def setInput (o : Options) (path : Path) : Option Options :=
  (oncePath o.input path).map fun input => { o with input }

/-- Whether options go together: props and content are for a component. -/
def complete (o : Options) : Bool :=
  (o.props.isNone && o.content.isNone) || o.component.isSome

end Options

/-- What a command line asks for. -/
inductive Request where
  | help
  /-- The arguments cannot be meant. -/
  | misuse
  | run (o : Options)
deriving DecidableEq, Repr

/-- What an argument leaves to do: it is done with, it waits for a value, or it ends the
reading. -/
inductive Reading where
  | done (o : Options)
  | pending (name : OptionName) (o : Options)
  | stop (r : Request)
deriving DecidableEq, Repr

namespace Reading

/-- Goes on with options, if there are any. -/
def ofOptions? : Option Options → Reading
  | some o => .done o
  | none => .stop .misuse

/-- Whether an argument is an option, and not a value or a file. -/
def isOption (arg : String) : Bool :=
  match arg.toList with
  | '-' :: _ :: _ => true
  | _ => false

/-- The options in a group of letters. -/
def shorts (o : Options) : List Char → Reading
  | [] => .done o
  | c :: rest =>
    match OptionName.ofShort? c with
    | none => .stop .misuse
    | some .help => .stop .help
    | some name =>
      if name.takesValue then
        match rest with
        | [] => .pending name o
        | '=' :: value => ofOptions? (o.set name (String.ofList value))
        | value => ofOptions? (o.set name (String.ofList value))
      else
        match o.set name "" with
        | some o => shorts o rest
        | none => .stop .misuse

/-- The option of a long name, with the value behind its equals sign. -/
def long (o : Options) (text : List Char) : Reading :=
  let written := String.ofList (text.takeWhile (· ≠ '='))
  match OptionName.ofLong? written, text.dropWhile (· ≠ '=') with
  | none, _ => .stop .misuse
  | some .help, [] => .stop .help
  | some name, [] => if name.takesValue then .pending name o else ofOptions? (o.set name "")
  | some name, _ :: value =>
    if name.takesValue then ofOptions? (o.set name (String.ofList value)) else .stop .misuse

/-- What one argument does. -/
def argument (o : Options) (arg : String) : Reading :=
  match arg.toList with
  | '-' :: '-' :: text => long o text
  | '-' :: c :: text => shorts o (c :: text)
  | _ => ofOptions? (o.setInput arg)

end Reading

namespace Request

/-- The request of files alone. -/
def readFiles (o : Options) : List String → Request
  | [] => if o.complete then .run o else .misuse
  | arg :: rest =>
    match o.setInput arg with
    | some o => readFiles o rest
    | none => .misuse

/-- The request of arguments, where `waiting` is the option whose value comes next. -/
def readFrom (waiting : Option OptionName) (o : Options) : List String → Request
  | [] =>
    match waiting with
    | some _ => .misuse
    | none => if o.complete then .run o else .misuse
  | arg :: rest =>
    match waiting with
    | some name =>
      if Reading.isOption arg then .misuse
      else
        match o.set name arg with
        | some o => readFrom none o rest
        | none => .misuse
    | none =>
      if arg = "--" then readFiles o rest
      else
        match Reading.argument o arg with
        | .done o => readFrom none o rest
        | .pending name o => readFrom (some name) o rest
        | .stop r => r

/-- The request of the arguments of a command line. -/
def read (args : List String) : Request := readFrom none {} args

/-- Letters can stand together, and the last one can take the rest as its value. -/
example : read ["-lrdir", "page"] = .run { input := "page", roots := ["dir"], list := true } := by
  decide

/-- Props without a component are refused. -/
example : read ["--props", "1"] = .misuse := by decide

/-- Whatever follows two dashes alone is a file. -/
example : read ["--", "--list"] = .run { input := "--list" } := by decide

end Request

end SlotTemplates
