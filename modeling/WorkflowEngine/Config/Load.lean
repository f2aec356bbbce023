import WorkflowEngine.Config.Basic
import WorkflowEngine.Config.Toml
import WorkflowEngine.FileTree
/-!
Settings from a file, which may be missing. What a file leaves out has its default.
-/
set_option autoImplicit false

namespace WorkflowEngine

/-- Why no settings come from a file. -/
inductive ConfigError where
  | unreadable
  | malformed
  | invalid (cause : EngineConfig.Invalid)
  deriving DecidableEq

def ConfigError.message : ConfigError → String
  | .unreadable => "Failed to read configuration file"
  | .malformed => "Failed to parse configuration file"
  | .invalid cause => cause.message

namespace EngineConfig

def ofToml (text : String) : Except ConfigError EngineConfig :=
  match Toml.read text with
  | none => .error .malformed
  | some j => (decoder .settings (.ofJson j)).mapError fun _ => .malformed

/-- Settings of a file, or the defaults, after the checks. -/
def load (file : FileText) : Except ConfigError EngineConfig := do
  let config ← match file with
    | .missing => pure {}
    | .unreadable => throw .unreadable
    | .text s => ofToml s
  config.check.mapError .invalid

/-- Another number of workers, after the checks. -/
def withWorkers (c : EngineConfig) (workers : UInt64) : Except ConfigError EngineConfig :=
  ({ c with workers } : EngineConfig).check.mapError .invalid

end EngineConfig

end WorkflowEngine
