import WorkflowEngine.Config.Basic
import WorkflowEngine.Program.Basic
/-!
Delivery of log entries with bounded retry, and sinks whose appends are planned in advance.
-/
set_option autoImplicit false

namespace WorkflowEngine

namespace DeliveryPolicy

/-- One attempt is made in any case. -/
def attempts (p : DeliveryPolicy) : Nat := max 1 p.maxAttempts

/-- The pause after a failed attempt, counted from 0, doubles each time. -/
def pauseMillis (p : DeliveryPolicy) (attempt : Nat) : Nat := p.backoffMillis * Nat.pow 2 attempt

/-- Makes an attempt and at most `left` further ones. -/
def deliverFrom (p : DeliveryPolicy) (e : LogEntry) (attempt : Nat) : Nat → Program Bool
  | 0 => Program.append e p.timeoutMillis
  | left + 1 => do
    if ← Program.append e p.timeoutMillis then return true
    Program.pause (p.pauseMillis attempt * 1000)
    deliverFrom p e (attempt + 1) left

/-- Whether the entry was stored. -/
def deliver (p : DeliveryPolicy) (e : LogEntry) : Program Bool :=
  deliverFrom p e 0 (p.attempts - 1)

end DeliveryPolicy

/-- How an append ends: it fails at once, stores the entry after some time, or never ends. -/
inductive AppendPlan where
  | fails
  | takes (millis : Nat)
  | hangs
  deriving DecidableEq

/-- A sink whose appends follow a plan and are stored at once after it. -/
structure PlannedSink where
  plan : List AppendPlan
  now : Nat
  starts : List Nat
  stored : List LogEntry

namespace PlannedSink

/-- Ends an attempt, which is cut off when it takes longer than the limit. -/
def attempt (s : PlannedSink) (e : LogEntry) (limit : Nat) : AppendPlan → Bool × PlannedSink
  | .fails => (false, s)
  | .takes millis =>
    if waitMillis millis ≤ waitMillis limit then
      (true, { s with now := s.now + waitMillis millis, stored := s.stored ++ [e] })
    else (false, { s with now := s.now + waitMillis limit })
  | .hangs => (false, { s with now := s.now + waitMillis limit })

def serve (s : PlannedSink) : (r : Request) → r.Answer × PlannedSink
  | .append e limit =>
    let s := { s with starts := s.starts ++ [s.now] }
    match s.plan with
    | [] => s.attempt e limit (.takes 0)
    | first :: rest => { s with plan := rest }.attempt e limit first
  | .pause micros => ((), { s with now := s.now + millisOf micros })
  | .now => (Timestamp.ofMillis s.now, s)
  | r => (r.refused, s)

end PlannedSink

end WorkflowEngine
