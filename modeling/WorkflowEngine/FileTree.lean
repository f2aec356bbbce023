/-!
Files below a directory, and what a path leads to. A path is followed name by name; only a
directory can be gone through, and nothing is known of what lies outside.
-/
set_option autoImplicit false

namespace WorkflowEngine

/-- What reading a file gives: there may be none, or something that is no file of text. -/
inductive FileText where
  | missing
  | unreadable
  | text (s : String)
  deriving DecidableEq

/-- Each file has the names on the way to it. -/
structure FileTree where
  files : List (List String × String)

namespace FileTree

/-- A name that stays where it is. -/
def isIdle (name : String) : Bool := name == "" || name == "."

/-- The files of a table from paths to texts. -/
def ofList (entries : List (String × String)) : FileTree :=
  ⟨entries.map fun (path, text) => ((path.splitOn "/").filter fun name => !isIdle name, text)⟩

/-- Where a path has led. -/
inductive Place where
  | directory (names : List String)
  | file (text : String)
  | outside
  | nowhere

/-- Goes on by one name. -/
def enter (t : FileTree) (place : Place) (name : String) : Place :=
  match place with
  | .directory names =>
    if isIdle name then .directory names
    else if name = ".." then (if names.isEmpty then .outside else .directory names.dropLast)
    else
      let names := names ++ [name]
      match t.files.lookup names with
      | some text => .file text
      | none =>
        if t.files.any fun (path, _) => names.isPrefixOf path then .directory names else .nowhere
  | .outside => if isIdle name ∨ name = ".." then .outside else .nowhere
  | .file _ | .nowhere => .nowhere

/-- Follows a path from the directory of the tree; a slash at the start leads outside. -/
def follow (t : FileTree) (path : String) : Place :=
  let start : Place := if path.toList.head? = some '/' then .outside else .directory []
  (path.splitOn "/").foldl t.enter start

def read (t : FileTree) (path : String) : FileText :=
  match t.follow path with
  | .file text => .text text
  | .directory _ | .outside => .unreadable
  | .nowhere => .missing

end FileTree

end WorkflowEngine
