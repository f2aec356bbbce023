import WorkflowEngine.Program.Basic
import WorkflowEngine.Store.Backend
/-!
A session: one user of a store with a cache and a clock of its own, whose programs run without
others in between.
-/
set_option autoImplicit false

namespace WorkflowEngine

structure Session where
  backend : Backend
  cache : Table Key Bytes
  nextId : Nat
  clockMillis : Nat

namespace Session

/-- Answers a request; no log entry is stored in a session. -/
def serve (s : Session) : (r : Request) → r.Answer × Session
  | .store c =>
    let (answer, backend) := s.backend.run c
    (answer, { s with backend })
  | .cached key => (s.cache.get? key, s)
  | .remember key data => ((), { s with cache := s.cache.insert key data })
  | .freshId => (Uuid.fresh s.nextId, { s with nextId := s.nextId + 1 })
  | .now => (Timestamp.ofMillis s.clockMillis, s)
  | .pause micros => ((), { s with clockMillis := s.clockMillis + millisOf micros })
  | .append e limit => (Request.refused (.append e limit), s)

def run {α : Type} (s : Session) (p : Program α) : α × Session := p.run serve s

end Session

end WorkflowEngine
