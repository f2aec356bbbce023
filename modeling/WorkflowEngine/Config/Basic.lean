import WorkflowEngine.Decoding.Variant
/-!
Settings of an engine, with defaults for everything.
-/
set_option autoImplicit false

namespace WorkflowEngine

inductive StoreKind where
  | memory
  | table
  deriving DecidableEq

inductive LogKind where
  | memory
  | lines
  deriving DecidableEq

structure StoreConfig where
  backend : StoreKind := .memory
  path : String := "data/store.redb"
  container : String := "stratus"
  chunkSize : UInt64 := 1024
  retries : UInt32 := 100
  deriving DecidableEq

structure LogConfig where
  backend : LogKind := .memory
  dir : String := "data/logs"
  maxAttempts : UInt32 := 3
  backoffMillis : UInt64 := 50
  timeoutMillis : UInt64 := 1000
  deriving DecidableEq

structure EngineConfig where
  workers : UInt64 := 4
  store : StoreConfig := {}
  log : LogConfig := {}
  deriving DecidableEq

/-- How often and how long the delivery of a log entry is tried. -/
structure DeliveryPolicy where
  maxAttempts : Nat
  backoffMillis : Nat
  timeoutMillis : Nat
  deriving DecidableEq

namespace StoreKind

def text : StoreKind → String
  | .memory => "memory"
  | .table => "redb"

def decoder : Decoder StoreKind := .named [("memory", .memory), ("redb", .table)]

end StoreKind

namespace LogKind

def text : LogKind → String
  | .memory => "memory"
  | .lines => "jsonl"

def decoder : Decoder LogKind := .named [("memory", .memory), ("jsonl", .lines)]

end LogKind

def Decoder.path : Decoder String
  | _, .string s => ofReading s.read
  | _, d => mismatch d "path string"

namespace StoreConfig

def toJson (c : StoreConfig) : Json :=
  .object [("backend", .string c.backend.text), ("path", .string c.path),
    ("container", .string c.container), ("sequence_chunk_size", .integer c.chunkSize),
    ("max_transact_retries", .integer c.retries.toUInt64)]

def layout : Layout StoreConfig :=
  let initial : StoreConfig := {}
  Layout.pure StoreConfig.mk
    |>.defaulted "backend" initial.backend StoreKind.decoder
    |>.defaulted "path" initial.path Decoder.path
    |>.defaulted "container" initial.container Decoder.string
    |>.defaulted "sequence_chunk_size" initial.chunkSize Decoder.count
    |>.defaulted "max_transact_retries" initial.retries Decoder.uint32

def decoder : Decoder StoreConfig := .record "struct StoreConfig" layout

end StoreConfig

namespace LogConfig

def policy (c : LogConfig) : DeliveryPolicy :=
  ⟨c.maxAttempts.toNat, c.backoffMillis.toNat, c.timeoutMillis.toNat⟩

def toJson (c : LogConfig) : Json :=
  .object [("backend", .string c.backend.text), ("dir", .string c.dir),
    ("max_attempts", .integer c.maxAttempts.toUInt64), ("backoff_ms", .integer c.backoffMillis),
    ("attempt_timeout_ms", .integer c.timeoutMillis)]

def layout : Layout LogConfig :=
  let initial : LogConfig := {}
  Layout.pure LogConfig.mk
    |>.defaulted "backend" initial.backend LogKind.decoder
    |>.defaulted "dir" initial.dir Decoder.path
    |>.defaulted "max_attempts" initial.maxAttempts Decoder.uint32
    |>.defaulted "backoff_ms" initial.backoffMillis (Decoder.uint64 "u64")
    |>.defaulted "attempt_timeout_ms" initial.timeoutMillis (Decoder.uint64 "u64")

def decoder : Decoder LogConfig := .record "struct LogConfig" layout

end LogConfig

namespace EngineConfig

def toJson (c : EngineConfig) : Json :=
  .object [("workers", .integer c.workers), ("store", c.store.toJson), ("log", c.log.toJson)]

def layout : Layout EngineConfig :=
  let initial : EngineConfig := {}
  Layout.pure EngineConfig.mk
    |>.defaulted "workers" initial.workers Decoder.count
    |>.defaulted "store" initial.store StoreConfig.decoder
    |>.defaulted "log" initial.log LogConfig.decoder

def decoder : Decoder EngineConfig := .record "struct RuntimeConfig" layout

/-- Why settings cannot be used. -/
inductive Invalid where
  | noWorkers
  | zeroChunk
  | noContainer
  deriving DecidableEq

def Invalid.message : Invalid → String
  | .noWorkers => "workers must be at least 1"
  | .zeroChunk => "store.sequence_chunk_size must be at least 1"
  | .noContainer => "store.container must not be empty"

def check (c : EngineConfig) : Except Invalid EngineConfig :=
  if c.workers = 0 then .error .noWorkers
  else if c.store.chunkSize = 0 then .error .zeroChunk
  else if c.store.container = "" then .error .noContainer
  else .ok c

end EngineConfig

end WorkflowEngine
