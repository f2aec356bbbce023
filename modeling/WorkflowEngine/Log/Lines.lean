import WorkflowEngine.Log.Entry
import WorkflowEngine.Log.Error
import WorkflowEngine.Store.Table
import WorkflowEngine.Text.Blank
/-!
Logs as files of lines, one file for each job. An entry is one line; blank lines are passed over.
-/
set_option autoImplicit false

namespace WorkflowEngine

/-- A line ends before a line feed, and before a carriage return in front of it. Nothing follows
the last line feed of a text. -/
def linesFrom (line : List Char) : List Char → List (List Char)
  | [] => if line.isEmpty then [] else [line.reverse]
  | c :: rest =>
    if c = '\n' then
      (match line with
        | '\r' :: before => before.reverse
        | _ => line.reverse) :: linesFrom [] rest
    else linesFrom (c :: line) rest

def linesOf (cs : List Char) : List (List Char) := linesFrom [] cs

structure LineLog where
  files : Table JobId (List Char)

namespace LineLog

def empty : LineLog := ⟨.empty⟩

def entryLine (e : LogEntry) : List Char := e.toJson.write ['\n']

def file? (s : LineLog) (job : JobId) : Option (List Char) := s.files.get? job

def writeFile (s : LineLog) (job : JobId) (content : List Char) : LineLog :=
  ⟨s.files.insert job content⟩

def append (s : LineLog) (e : LogEntry) : LineLog :=
  s.writeFile e.job ((s.file? e.job).getD [] ++ entryLine e)

/-- Reads lines up to the first one that is no entry. -/
def readLines : List (List Char) → Except DecodeError (List LogEntry)
  | [] => .ok []
  | line :: rest =>
    if line.all Text.isBlank then readLines rest
    else do return (← LogEntry.decoder.ofChars none line) :: (← readLines rest)

def read (s : LineLog) (job : JobId) : Except LogError (List LogEntry) :=
  match s.file? job with
  | none => .ok []
  | some content => (readLines (linesOf content)).mapError .serialization

end LineLog

end WorkflowEngine
