import ScriptMachine.Command.Run

/-!
# The command line program

Everything the command decides is decided by `Command.parse` and `Command.run`.  Here the files they
may ask for are read beforehand, and what they answer is printed and written.
-/

namespace ScriptMachine.Command

/-- How a failure to read or write a file is worded. -/
def fileError : IO.Error → FileError
  | .noFileOrDirectory .. => .missing
  | e => ⟨true, toString e⟩

/-- Reads a file. -/
def readFile (path : String) : IO (Except FileError Bytes) := do
  try
    return .ok (← IO.FS.readBinFile path).toList
  catch e =>
    return .error (fileError e)

/-- Reads files, each under its path. -/
def readFiles (paths : List String) : IO (List (String × Except FileError Bytes)) :=
  paths.mapM fun path => return (path, ← readFile path)

/-- The files a run may ask for: those the options name, and the modules of a state to load. -/
def gather (o : Options) : IO Files := do
  let named ← readFiles o.inputs
  let state := match o.load.bind (fun path => named.lookup path) with
    | some (.ok data) => data
    | _ => []
  let saved ← readFiles ((savedModules state).map (·.name))
  return fun path => ((named ++ saved).lookup path).getD (.error .missing)

/-- Tells about a failure. -/
def tell (f : Failure) : IO UInt32 := do
  IO.eprintln s!"Error: {f.context}\n\nCaused by:\n    {f.cause}"
  return 1

/-- Carries out a run. -/
def perform (o : Options) : IO UInt32 := do
  match run UInt64.size (← gather o) o with
  | none => tell ⟨"running scripts", "they do not come to an end"⟩
  | some report =>
    IO.print report.out
    match report.failure, report.save with
    | some failure, _ => tell failure
    | none, none => return 0
    | none, some (path, data) =>
      try
        IO.FS.writeBinFile path (ByteArray.mk data.toArray)
        return 0
      catch e =>
        tell ⟨s!"creating {path}", (fileError e).text⟩

end ScriptMachine.Command

/-- Runs modules until their scripts finish. -/
def main (args : List String) : IO UInt32 := do
  match ScriptMachine.Command.parse args with
  | .run options => ScriptMachine.Command.perform options
  | .help => IO.print ScriptMachine.Command.helpText; return 0
  | .version => IO.print ScriptMachine.Command.versionText; return 0
  | .usage => IO.eprint ScriptMachine.Command.helpText; return 2
