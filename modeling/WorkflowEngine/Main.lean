import WorkflowEngine.CommandLine
/-!
The program: it reads the files that the command line names and prints the report.
-/
set_option autoImplicit false

open WorkflowEngine

def readOpen (file : IO.FS.Handle) : IO FileText := do
  try
    return .text (← file.readToEnd)
  catch _ =>
    return .unreadable

/-- The text of a file. What cannot be opened counts as missing. -/
def readText (path : String) : IO FileText := do
  try
    readOpen (← IO.FS.Handle.mk path .read)
  catch _ =>
    return .missing

def main (args : List String) : IO UInt32 := do
  match CommandLine.parse args with
  | none =>
    IO.eprintln "usage: stratus [-c FILE] [-w WORKERS] [--json-logs] run WORKFLOW | info"
    return 2
  | some (options, command) =>
    match CommandLine.configPath options (← IO.getEnv "STRATUS_CONFIG") with
    | none => return 2
    | some path =>
      let paths := match command with
        | .run workflow _ => [path, workflow]
        | .info => [path]
      let files ← paths.mapM fun p => return (p, ← readText p)
      let read (p : String) : FileText := (files.lookup p).getD .missing
      match CommandLine.report options command path read with
      | .ok output =>
        IO.println output
        return 0
      | .error message =>
        IO.eprintln ("Error: " ++ message)
        return 1
