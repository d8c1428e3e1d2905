import SlotTemplates.CommandLine.Run

/-!
# The program

Reads the files of the working directory and the standard input, runs the command line on them
and prints what comes out. Paths are meant from the working directory.
-/

namespace SlotTemplates

/-- What is printed when help is asked for. -/
def usage : String :=
  String.join (
    ["Usage: slot-templates [OPTIONS] [FILE]",
     "",
     "  -c, --config <FILE>   settings: a TOML file with a table of components",
     "  -r, --root <DIR>      a directory of components, searched before others",
     "      --strict          refuse undeclared props",
     "      --vars <JSON>     variables of the template",
     "      --component <NAME>  render a component",
     "      --props <JSON>    its props",
     "      --content <TEXT>  its content",
     "  -l, --list            list the components",
     "      --describe <NAME>  print what a component declares",
     "  -v, --verbose         log more",
     "  -h, --help            print this text"].map (· ++ "\n"))

/-- The content of bytes. -/
def Content.ofBytes (bytes : ByteArray) : Content :=
  match String.fromUTF8? bytes with
  | some s => .text s
  | none => .binary

/-- The tree below directory entries that can be read. -/
partial def readEntries (entries : List IO.FS.DirEntry) : IO (List (String × Tree)) :=
  entries.filterMapM fun entry => do
    try
      if ← entry.path.isDir then
        let below ← entry.path.readDir
        return some (entry.fileName, .dir (← readEntries below.toList))
      else
        return some (entry.fileName, .file (.ofBytes (← IO.FS.readBinFile entry.path)))
    catch _ => return none

end SlotTemplates

open SlotTemplates in
/-- Runs the command line. -/
def main (args : List String) : IO UInt32 := do
  match Request.read args with
  | .help =>
    IO.print usage
    return 0
  | .misuse =>
    IO.eprint usage
    return 2
  | .run o =>
    let top ← (← IO.currentDir).readDir
    let files := Tree.dir (← readEntries top.toList)
    let stdin ← if o.readsStdin then (← IO.getStdin).readToEnd else pure ""
    let outcome := o.run files stdin
    IO.print outcome.stdout
    IO.eprint outcome.stderr
    return outcome.code.toUInt32
