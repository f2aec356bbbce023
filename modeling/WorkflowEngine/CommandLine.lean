import WorkflowEngine.Cluster.Engine
import WorkflowEngine.Registry.Builtin
/-!
The command line: it runs the workflow of a file, or prints the settings in effect. Options of the
whole program stand before the command and those of a command after it; an option is given once.
-/
set_option autoImplicit false

namespace WorkflowEngine.CommandLine

inductive Command where
  | run (workflow name : String)
  | info
  deriving DecidableEq

structure Options where
  config : Option String := none
  workers : Option UInt64 := none
  jsonLogs : Bool := false
  deriving DecidableEq

/-- A count of at most 64 bits, perhaps with a plus sign. -/
def readCount? (cs : List Char) : Option UInt64 :=
  let digits := match cs with
    | '+' :: rest => rest
    | cs => cs
  if digits.isEmpty ∨ !digits.all Char.isDigit then none
  else
    let n := digits.foldl (fun n c => 10 * n + (c.toNat - '0'.toNat)) 0
    if n < 0x10000000000000000 then some (UInt64.ofNat n) else none

/-- Whether an argument can only be an option. -/
def isOption (arg : String) : Bool :=
  match arg.toList with
  | '-' :: _ :: _ => true
  | _ => false

/-- An option with its value, if one is attached. -/
inductive Flag where
  | config (attached : Option (List Char))
  | workers (attached : Option (List Char))
  | jsonLogs
  | name (attached : Option (List Char))

/-- What stands after a short option; an equals sign before it does not count. -/
def attachedTo : List Char → Option (List Char)
  | [] => none
  | '=' :: cs => some cs
  | cs => some cs

/-- Cuts a long option at its first equals sign. -/
def cutLong (cs : List Char) : List Char × Option (List Char) :=
  match cs.dropWhile (· ≠ '=') with
  | [] => (cs, none)
  | _ :: value => (cs.takeWhile (· ≠ '='), some value)

def Flag.ofArgument? (arg : String) : Option Flag :=
  match arg.toList with
  | '-' :: '-' :: cs =>
    let (word, attached) := cutLong cs
    if word = "config".toList then some (.config attached)
    else if word = "workers".toList then some (.workers attached)
    else if word = "json-logs".toList ∧ attached = none then some .jsonLogs
    else if word = "name".toList then some (.name attached)
    else none
  | '-' :: 'c' :: cs => some (.config (attachedTo cs))
  | '-' :: 'w' :: cs => some (.workers (attachedTo cs))
  | _ => none

/-- The value of an option, attached or the next argument, and the arguments after it. -/
def takeValue (attached : Option (List Char)) (args : List String) :
    Option (List Char × List String) :=
  match attached, args with
  | some value, args => some (value, args)
  | none, arg :: rest => if isOption arg then none else some (arg.toList, rest)
  | none, [] => none

/-- The arguments of the run command; `plain` says that no options can follow. -/
def parseRun (fuel : Nat) (plain : Bool) (workflow name : Option String) :
    List String → Option Command
  | [] => workflow.map fun w => .run w (name.getD "cli")
  | arg :: rest =>
    match fuel with
    | 0 => none
    | fuel + 1 =>
      if plain ∨ !isOption arg then
        if arg.isEmpty ∨ workflow.isSome then none else parseRun fuel plain (some arg) name rest
      else if arg = "--" then parseRun fuel true workflow name rest
      else
        match Flag.ofArgument? arg with
        | some (.name attached) => do
          let (value, rest) ← takeValue attached rest
          if name.isSome then none else parseRun fuel plain workflow (some (String.ofList value)) rest
        | _ => none

def parseCommand : String → List String → Option Command
  | "run", args => parseRun args.length false none none args
  | "info", [] | "info", ["--"] => some .info
  | _, _ => none

/-- The options up to the command, then the command. -/
def parseFrom (o : Options) : Nat → List String → Option (Options × Command)
  | _, [] | 0, _ => none
  | fuel + 1, arg :: rest =>
    if isOption arg then do
      match ← Flag.ofArgument? arg with
      | .config attached =>
        let (value, rest) ← takeValue attached rest
        if o.config.isSome ∨ value.isEmpty then none
        else parseFrom { o with config := some (String.ofList value) } fuel rest
      | .workers attached =>
        let (value, rest) ← takeValue attached rest
        let workers ← readCount? value
        if o.workers.isSome then none
        else parseFrom { o with workers := some workers } fuel rest
      | .jsonLogs => if o.jsonLogs then none else parseFrom { o with jsonLogs := true } fuel rest
      | .name _ => none
    else (parseCommand arg rest).map fun command => (o, command)

def parse (args : List String) : Option (Options × Command) := parseFrom {} args.length args

/-- The file of the settings: an option goes before the environment. No file has an empty name. -/
def configPath (o : Options) (environment : Option String) : Option String :=
  match o.config, environment with
  | some path, _ => some path
  | none, some path => if path.isEmpty then none else some path
  | none, none => some "stratus.toml"

/-- What a run of the program shows: its output, or an error. -/
abbrev Report := Except String String

def settings (o : Options) (file : FileText) : Except String EngineConfig :=
  let loaded := EngineConfig.load file
  let config := match o.workers with
    | some workers => loaded.bind fun c => c.withWorkers workers
    | none => loaded
  config.mapError ConfigError.message

/-- Runs a workflow on an engine of its own. -/
def runText (config : EngineConfig) (name text : String) : Report := do
  let w ← (Workflow.decode text).mapError fun _ => "Failed to parse workflow"
  let cluster ← (Cluster.ofConfig Registry.standard config).mapError EngineError.message
  match ((Schedule.ofCluster cluster).runWorkflow name w).1 with
  | some result => (result.map fun v => v.json.pretty).mapError EngineError.message
  | none => throw "the workflow has no end"

/-- What a command gives; `read` reads the file of a path. -/
def report (o : Options) (command : Command) (configPath : String) (read : String → FileText) :
    Report := do
  let config ← settings o (read configPath)
  match command with
  | .info => return config.toJson.pretty
  | .run path name =>
    match read path with
    | .text s => runText config name s
    | .missing | .unreadable => throw ("Failed to read workflow " ++ path)

end WorkflowEngine.CommandLine
