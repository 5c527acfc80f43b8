import ScriptMachine.Command.Folder
import ScriptMachine.Command.Options
import ScriptMachine.Machine.Modules
import ScriptMachine.Machine.SaveState
import ScriptMachine.Machine.Step
import ScriptMachine.Module.Listing

/-!
# The command

The command loads module files into one map, starts their opening scripts, and runs ticks until all
scripts have ended or the ticks are used up; or it goes on from a saved state.  At the end it frees
strings nobody holds and may save the state.
-/

namespace ScriptMachine.Command

/-- What the settings file of the command says. -/
structure RunSettings where
  machine : Settings := {}
  /-- How many ticks are run at most. -/
  maxTicks : Nat := 10000
deriving DecidableEq, Inhabited

/-- The names of the levels of detail a log can have. -/
def logLevels : List String := ["off", "error", "warn", "info", "debug", "trace"]

/-- Whether a document names a level of detail, in capitals or not. -/
def isLogLevel (v : JsonValue) : Bool :=
  match v.choice? with
  | some s => logLevels.contains (String.ofList (s.toList.map Char.toLower))
  | none => false

/-- Whether a document is a record with a level of detail. -/
def isLogger (v : JsonValue) : Bool :=
  match v.fields? ["level_filter"] with
  | some [some level] => isLogLevel level
  | _ => false

/-- The settings in a document. -/
def RunSettings.ofJson? (v : JsonValue) : Option RunSettings := do
  let fields ← v.fields? ["vm", "logger", "max_ticks"]
  match fields with
  | [vm, logger, ticks] =>
    let machine ← fieldOr {} Settings.ofJson? vm
    let _ ← fieldOr () (fun v => if isLogger v then some () else none) logger
    let maxTicks ← fieldOr 10000 (JsonValue.nat? UInt64.size) ticks
    pure { machine, maxTicks }
  | _ => none

/-- Why the command failed: what it was doing, and the cause. -/
structure Failure where
  context : String
  cause : String
deriving DecidableEq

/-- The lines that tell about a failure. -/
def Failure.lines (f : Failure) : List String :=
  ["Error: " ++ f.context, "Caused by:", "    " ++ f.cause]

/-- What a run of the command came to. -/
structure Report where
  /-- What was printed. -/
  out : String
  failure : Option Failure := none
  /-- The file to be written, if any. -/
  save : Option (String × Bytes) := none

/-- How files are read. -/
abbrev Files := String → Except FileError Bytes

/-- The map all modules go to. -/
def map : ScopeId := {}

/-- The settings of a run: those of the file, overruled by the options. -/
def settings (files : Files) (o : Options) : Except Failure RunSettings := do
  let base ← match o.config with
    | none => pure {}
    | some path =>
      let failed (cause : String) : Except Failure RunSettings := .error ⟨s!"reading {path}", cause⟩
      match files path with
      | .error e => failed (if e.atOpen then "File not found" else e.text)
      | .ok data =>
        match (Utf8.decode data).toOption.bind JsonValue.parse? |>.bind RunSettings.ofJson? with
        | some s => pure s
        | none => failed "the settings cannot be read"
  pure {
    machine := { base.machine with branchLimit := o.branchLimit.getD base.machine.branchLimit }
    maxTicks := o.maxTicks.getD base.maxTicks }

/-- The one host function prints its arguments as signed numbers. -/
def host : Host := fun _ args =>
  .machine fun m =>
    (false, m.emit (.remark (" ".intercalate (args.map fun a => decimal a.signed) ++ "\n")))

/-- A machine that loads its modules from files. -/
def machine (files : Files) (s : Settings) : Machine :=
  let loadModule (name : ModuleName) : Except ReadError Bytes :=
    match files name.name with
    | .ok data => .ok data
    | .error e => .error (.device e.text)
  let hooks : Hooks := { installed := [.loadModule, .print, .kill], loadModule }
  ({ Machine.make s with hooks }.addHostFunc 0).2

/-- What a machine has printed: messages as lines, and remarks as they are. -/
def printed (m : Machine) : String :=
  String.join <| m.trace.reverse.map fun
    | .print _ text => Utf8.lossy text ++ "\n"
    | .remark text => text
    | _ => ""

/-- Loads module files, listing them where asked to. -/
def loadAll (o : Options) : List String → Machine → Except Failure (List LoadedModule) × Machine
  | [], m => (.ok [], m)
  | path :: rest, m =>
    let (name, m) := m.moduleName path
    match m.getModule name with
    | (.error e, m) => (.error ⟨s!"loading module {path}", e.message⟩, m)
    | (.ok module, m) =>
      let listing := s!"; module {name.display}\n" ++ module.listing
      let m := if o.dump then m.emit (.remark listing) else m
      match loadAll o rest m with
      | (.error e, m) => (.error e, m)
      | (.ok modules, m) => (.ok (module :: modules), m)

/-- Prepares a machine: from a saved state, or from module files and their opening scripts. -/
def prepare (files : Files) (o : Options) (m : Machine) : Option Failure × Machine :=
  match o.load with
  | some path =>
    let loadFailed (text : String) : Failure := ⟨s!"loading state {path}", text⟩
    match files path with
    | .error e =>
      (some (if e.atOpen then ⟨s!"opening {path}", e.text⟩
        else loadFailed (ReadError.device e.text).message), m)
    | .ok data =>
      match m.load data with
      | (.error e, m) => (some (loadFailed e.message), m)
      | (.ok _, m) => (none, m)
  | none =>
    match loadAll o o.modules m with
    | (.error e, m) => (some e, m)
    | (.ok modules, m) =>
      let (_, m) := m.addModules map modules
      (none, (m.startType map Script.openType [] {}).2)

/-- Runs ticks while a thread has not ended, at most so many. -/
def runTicks (fuel : Nat) : (ticks : Nat) → Machine → Option Machine
  | 0, m => some m
  | ticks + 1, m =>
    if m.scopes.hasActiveThread then
      match m.exec host fuel with
      | none => none
      | some m => runTicks fuel ticks m
    else some m

/-- Carries out a run; none where the scripts do not come to an end. -/
def run (fuel : Nat) (files : Files) (o : Options) : Option Report :=
  match settings files o with
  | .error e => some { out := "", failure := some e }
  | .ok s =>
    match prepare files o (machine files s.machine) with
    | (some e, m) => some { out := printed m, failure := some e }
    | (none, m) => do
      let m := o.start.foldl (fun m n => (m.startScript map (.number n) [] {}).2) m
      let m ← runTicks fuel s.maxTicks m
      let m := m.collectStrings.2
      let saved := o.save.bind fun path => m.save.1.toOption.map fun bytes => (path, bytes)
      some { out := printed m, save := saved }

/-- The module names at the front of the bytes: so many, or fewer where the bytes fail. -/
def namesIn : Nat → Bytes → List ModuleName
  | 0, _ => []
  | n + 1, s =>
    match ModuleName.read s with
    | .ok (name, s) => name :: namesIn n s
    | .error _ => []

/-- The modules a saved state names. -/
def savedModules (s : Bytes) : List ModuleName :=
  let start : Reader Nat := do
    let _ ← Machine.readHeader
    let _ ← StringTable.reader
    Varint.readSize
  match start s with
  | .ok (n, s) => namesIn n s
  | .error _ => []

/-- The files a run reads, as far as the options name them. -/
def Options.inputs (o : Options) : List String := o.config.toList ++ o.load.toList ++ o.modules

/-- The name and version of the command. -/
def versionText : String := "acsvm-run 0.1.0\n"

/-- How the command is used. -/
def helpText : String :=
  "Runs compiled acsvm modules until their scripts finish\n\n" ++
  "Usage: acsvm-run [OPTIONS] [MODULES]...\n\n" ++
  "Arguments:\n  [MODULES]...  Module files; each file path is the module name\n\n" ++
  "Options:\n" ++
  "  -c, --config <CONFIG>              JSON run configuration\n" ++
  "  -b, --branch-limit <BRANCH_LIMIT>  \n" ++
  "  -t, --max-ticks <MAX_TICKS>        \n" ++
  "  -d, --dump                         Print the translated code of every module before running\n" ++
  "      --save <SAVE>                  Write the final state here\n" ++
  "      --load <LOAD>                  Resume from a saved state instead of starting OPEN scripts\n" ++
  "  -s, --start <START>                Extra scripts to start by number\n" ++
  "  -h, --help                         Print help\n" ++
  "  -V, --version                      Print version\n"

/-- What a command line did. -/
structure Outcome where
  code : Nat
  out : String := ""
  err : List String := []

/-- Carries out a command line on a folder. -/
def runIn (fuel : Nat) (folder : Folder) (args : List String) : Option (Outcome × Folder) :=
  match parse args with
  | .usage => some ({ code := 2 }, folder)
  | .help => some ({ code := 0, out := helpText }, folder)
  | .version => some ({ code := 0, out := versionText }, folder)
  | .run o => (run fuel folder.read o).map fun r =>
    match r.failure, r.save with
    | some e, _ => ({ code := 1, out := r.out, err := e.lines }, folder)
    | none, none => ({ code := 0, out := r.out }, folder)
    | none, some (path, bytes) =>
      match folder.write path bytes with
      | .ok folder => ({ code := 0, out := r.out }, folder)
      | .error e =>
        let failure : Failure := ⟨s!"creating {path}", e.text⟩
        ({ code := 1, out := r.out, err := failure.lines }, folder)

end ScriptMachine.Command
