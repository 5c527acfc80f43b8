import ScriptMachine.Word

/-!
# Options of the command

The command takes module files and options.  An option may be written short or long; its value
follows as the next word, after an equals sign, or right behind a short option.  A word that begins
with a dash is never the value of the option before it, and no option but `--start` may be repeated.
-/

namespace ScriptMachine.Command

/-- What the command was asked to do. -/
structure Options where
  /-- The file with the settings. -/
  config : Option String := none
  branchLimit : Option Word := none
  maxTicks : Option Nat := none
  /-- Whether listings of the modules are printed. -/
  dump : Bool := false
  /-- Where the final state goes. -/
  save : Option String := none
  /-- The saved state to go on from. -/
  load : Option String := none
  /-- Scripts to start by number. -/
  start : List Int32 := []
  /-- The module files. -/
  modules : List String := []
deriving DecidableEq, Inhabited

/-- What the words of a command line say. -/
inductive Request where
  | run (options : Options)
  | help
  | version
  /-- They make no sense. -/
  | usage
deriving DecidableEq

/-- An option of the command. -/
inductive Switch where
  | config
  | branchLimit
  | maxTicks
  | dump
  | save
  | load
  | start
  | help
  | version
deriving DecidableEq

/-- The option with a long name. -/
def longOption? : String → Option Switch
  | "config" => some .config
  | "branch-limit" => some .branchLimit
  | "max-ticks" => some .maxTicks
  | "dump" => some .dump
  | "save" => some .save
  | "load" => some .load
  | "start" => some .start
  | "help" => some .help
  | "version" => some .version
  | _ => none

/-- The option with a short name. -/
def shortOption? : Char → Option Switch
  | 'c' => some .config
  | 'b' => some .branchLimit
  | 't' => some .maxTicks
  | 'd' => some .dump
  | 's' => some .start
  | 'h' => some .help
  | 'V' => some .version
  | _ => none

/-- A decimal number without a sign. -/
def digits? (cs : List Char) : Option Nat :=
  if cs.isEmpty ∨ !cs.all Char.isDigit then none
  else some (cs.foldl (fun n c => n * 10 + (c.toNat - '0'.toNat)) 0)

/-- A decimal number that may have a sign. -/
def signed? (s : String) : Option Int :=
  match s.toList with
  | '-' :: cs => (digits? cs).map fun n => -(n : Int)
  | '+' :: cs => (digits? cs).map fun n => (n : Int)
  | cs => (digits? cs).map fun n => (n : Int)

/-- A decimal number that may have a plus sign. -/
def unsigned? (s : String) : Option Nat :=
  match s.toList with
  | '+' :: cs => digits? cs
  | cs => digits? cs

/-- Takes in an option with a value; none where the value cannot be read or the option was given
before. -/
def Options.take? (o : Options) (option : Switch) (value : String) : Option Options :=
  let path (old : Option String) : Option String :=
    if old.isNone ∧ value ≠ "" then some value else none
  match option with
  | .config => (path o.config).map fun p => { o with config := some p }
  | .save => (path o.save).map fun p => { o with save := some p }
  | .load => (path o.load).map fun p => { o with load := some p }
  | .branchLimit => do
    let n ← signed? value
    if o.branchLimit.isNone ∧ 0 ≤ n ∧ n < UInt32.size then
      some { o with branchLimit := some (UInt32.ofNat n.toNat) }
    else none
  | .maxTicks => do
    let n ← unsigned? value
    if o.maxTicks.isNone ∧ n < UInt64.size then some { o with maxTicks := some n } else none
  | .start => do
    let n ← signed? value
    if -0x80000000 ≤ n ∧ n < 0x80000000 then some { o with start := o.start ++ [Int32.ofInt n] }
    else none
  | _ => none

/-- Whether a word can be the value of the option before it. -/
def isValue (word : String) : Bool := !word.startsWith "-" || word == "-"

/-- What a word of the command line begins. -/
inductive Argument where
  | plain (word : String)
  /-- All words after this one are files. -/
  | separator
  /-- A long option, perhaps with a value. -/
  | long (name : String) (value : Option String)
  /-- Short options. -/
  | short (letters : List Char)

/-- Sorts a word of the command line. -/
def Argument.ofString (word : String) : Argument :=
  match word.toList with
  | ['-', '-'] => .separator
  | '-' :: '-' :: rest =>
    let name := rest.takeWhile (· != '=')
    let value := match rest.dropWhile (· != '=') with
      | '=' :: v => some (String.ofList v)
      | _ => none
    .long (String.ofList name) value
  | '-' :: c :: rest => .short (c :: rest)
  | _ => .plain word

/-- What short options written together come to. -/
inductive Cluster where
  | options (o : Options)
  /-- The last one still needs a value. -/
  | needsValue (o : Options) (option : Switch)
  | finished (r : Request)

/-- Takes in short options written together. -/
def cluster (o : Options) : List Char → Cluster
  | [] => .options o
  | c :: rest =>
    match shortOption? c with
    | none => .finished .usage
    | some .help => .finished .help
    | some .version => .finished .version
    | some .dump => if o.dump then .finished .usage else cluster { o with dump := true } rest
    | some option =>
      let value := match rest with
        | '=' :: v => some v
        | [] => none
        | v => some v
      match value with
      | none => .needsValue o option
      | some v =>
        match o.take? option (String.ofList v) with
        | some o => .options o
        | none => .finished .usage

/-- Ends the reading of options: without a state to load there has to be a module. -/
def Options.finish (o : Options) : Request :=
  if o.load.isNone ∧ o.modules = [] then .usage else .run o

/-- Takes in files; none of them may be empty. -/
def Options.addFiles (o : Options) (files : List String) : Request :=
  if files.all (· ≠ "") then { o with modules := o.modules ++ files }.finish else .usage

/-- Takes in the words of a command line; an option may be waiting for its value. -/
def parseFrom (o : Options) : (waiting : Option Switch) → List String → Request
  | some _, [] => .usage
  | none, [] => o.finish
  | some option, word :: rest =>
    if !isValue word then .usage
    else
      match o.take? option word with
      | some o => parseFrom o none rest
      | none => .usage
  | none, word :: rest =>
    match Argument.ofString word with
    | .separator => o.addFiles rest
    | .plain file =>
      if file = "" then .usage
      else parseFrom { o with modules := o.modules ++ [file] } none rest
    | .short letters =>
      match cluster o letters with
      | .options o => parseFrom o none rest
      | .needsValue o option => parseFrom o (some option) rest
      | .finished r => r
    | .long name value =>
      match longOption? name, value with
      | none, _ => .usage
      | some .help, none => .help
      | some .version, none => .version
      | some .help, some _ => .usage
      | some .version, some _ => .usage
      | some .dump, some _ => .usage
      | some .dump, none => if o.dump then .usage else parseFrom { o with dump := true } none rest
      | some option, some v =>
        match o.take? option v with
        | some o => parseFrom o none rest
        | none => .usage
      | some option, none => parseFrom o (some option) rest

/-- What a command line asks for. -/
def parse (args : List String) : Request := parseFrom {} none args

end ScriptMachine.Command
