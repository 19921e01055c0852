import Gptps.LinkedQueue
import Gptps.ProbeTable
import Mathlib.Data.Int.Notation

/-!
# The state of the task engine

The data model of `engine.c`: statuses, policies, task types, work items,
events and the engine record itself. Machine words whose wrap-around the code
can reach keep their width; clocks and the counters that only ever count up
are natural numbers. An item's two link words, the queue it is in and its index
flag are kept in maps over item addresses, so that the queue contents and the
links that represent them can be compared.
-/

namespace Gptps.EngineState

open LinkedQueue ProbeTable

/-- The address of a work item. -/
abbrev Ptr := ℕ

/-- The number a submit answers; zero is never one. It and the other 64-bit counters that only grow are
natural numbers: that one comes round is left out. -/
abbrev Handle := ℕ

/-- The identity of a registered task type. -/
abbrev RegId := ℕ

/-- A C string without its terminator. -/
abbrev Name := List UInt8

/-- `gptps_status`; a task body may answer any other integer. -/
inductive Status
  /-- GPTPS_OK -/
  | ok
  /-- GPTPS_E_NOMEM -/
  | nomem
  /-- GPTPS_E_INVAL -/
  | inval
  /-- GPTPS_E_NOTFOUND -/
  | notfound
  /-- GPTPS_E_DUP -/
  | dup
  /-- GPTPS_E_BUDGET -/
  | budget
  /-- GPTPS_E_FULL -/
  | full
  /-- GPTPS_E_TIMEOUT -/
  | timeout
  /-- GPTPS_E_CANCELLED -/
  | cancelled
  /-- GPTPS_E_TASK -/
  | task
  /-- GPTPS_E_SHUTDOWN -/
  | shutdown
  /-- GPTPS_E_DENIED -/
  | denied
  /-- GPTPS_E_BUSY -/
  | busy
  /-- Any other value of the enumeration's integer type. -/
  | other (code : ℤ)
  deriving DecidableEq, Repr

/-- What happens to an item whose retries are used up; a value outside the
enumeration is treated as `deadLetter`. -/
inductive OnFailure
  /-- Retain the item in the dead-letter list. -/
  | deadLetter
  /-- Start another cycle of attempts. -/
  | requeue
  /-- Discard the item. -/
  | drop
  deriving DecidableEq, Repr

/-- `gptps_failure_policy`. -/
structure Policy where
  /-- Seconds an attempt may take; zero is no limit. -/
  timeoutSeconds : ℕ
  /-- Retries after the first attempt. -/
  maxRetries : UInt32
  /-- Seconds between attempts. -/
  retryBackoffSeconds : ℕ
  /-- What follows the last failed attempt. -/
  onFailure : OnFailure
  deriving DecidableEq, Repr

/-- How a task type is executed. -/
inductive Exec
  /-- GPTPS_EXEC_INPROC: on the calling thread, stopped by a flag. -/
  | inproc
  /-- GPTPS_EXEC_OOP: in a forked child. -/
  | oop
  /-- GPTPS_EXEC_PROGRAM: an external program. -/
  | program
  deriving DecidableEq, Repr

/-- `gptps_reg`: a registered task type. -/
structure Reg where
  /-- The name it was registered under. -/
  name : Name
  /-- How its bodies run. -/
  exec : Exec
  /-- The priority a submit without options takes. -/
  priority : ℤ
  /-- The memory one run declares, unless a cost callback answers. -/
  defaultMem : UInt64
  /-- Whether the type has a cost callback. -/
  hasCost : Bool
  /-- The policy a submit without options takes. -/
  defaultPolicy : Policy
  /-- False while submits are refused. -/
  enabled : Bool
  /-- True until its registration has returned. -/
  settling : Bool
  /-- The thread that is registering it. -/
  settlingTid : ℕ
  /-- Tombstoned: draining toward removal. -/
  removed : Bool
  /-- The removal discards work instead of letting it finish. -/
  cancelling : Bool
  /-- GPTPS_TASK_SERVICE: instances are restarted when they return. -/
  service : Bool
  /-- GPTPS_TASK_RETIRE_ON_OK: a clean return retires the instance. -/
  retireOnOk : Bool
  /-- What one run costs of each named resource. -/
  resCost : Option (List UInt64)
  deriving DecidableEq, Repr

/-- How far `execute` has come with the attempt an item is in. -/
inductive Phase
  /-- No attempt is under way. -/
  | idle
  /-- Taken for running, STARTED not emitted yet. -/
  | begun
  /-- The body runs. -/
  | body
  /-- The body returned: the effective status and the cancel flag as read once. -/
  | ended (st : Status) (raised : Bool)
  /-- The attempt's FINISHED or FAILED is out. -/
  | reported (st : Status)
  deriving DecidableEq, Repr

/-- The part of a work item that decides which events it still owes and what it
holds of the budgets. -/
structure Core where
  /-- The number the submit answered. -/
  handle : Handle
  /-- The task type; none once a dead letter was detached from it. -/
  reg : Option RegId
  /-- cost.mem_bytes -/
  costMem : UInt64
  /-- The failure policy. -/
  policy : Policy
  /-- The attempt it is in; one is the first. -/
  attempt : UInt32
  /-- The effective status of the last attempt. -/
  outcome : Status
  /-- A stop was requested: never retry or dead-letter it. -/
  cancelled : Bool
  /-- The most recent attempt ran. -/
  started : Bool
  /-- What the admission reserved of each named resource. -/
  resReserved : Option (List UInt64)
  /-- How far the attempt has come. -/
  phase : Phase
  deriving DecidableEq, Repr

/-- `gptps_item`: a submitted work item. -/
structure Item extends Core where
  /-- Its address. -/
  ptr : Ptr
  /-- An owned copy of the type's name. -/
  nameOwned : Option Name
  /-- Higher is admitted first. -/
  priority : ℤ
  /-- The admission ordering key. -/
  schedScore : ℤ
  /-- How often a smaller item was admitted ahead of it. -/
  skips : UInt32
  /-- When it was submitted. -/
  enqueueMs : ℕ
  /-- The order in which it last entered intake. -/
  intakeSeq : ℕ
  /-- When the running attempt times out; zero is never. -/
  deadlineMs : ℕ
  /-- Until when a delayed item waits. -/
  notBeforeMs : ℕ
  /-- The cancel word. -/
  cancel : Bool
  /-- A per-submit deadline in milliseconds; zero is none. -/
  timeoutMsOverride : ℕ
  deriving DecidableEq, Repr

/-- The engine's queues. -/
inductive QId
  /-- Waiting for admission, in admission order. -/
  | intake
  /-- Waiting for a backoff to end. -/
  | delayed
  /-- Admitted, waiting for a worker. -/
  | ready
  /-- Being executed. -/
  | running
  /-- Executed, waiting for the dispatcher's decision. -/
  | done
  /-- Retained dead letters. -/
  | dead
  deriving DecidableEq, Repr

/-- The `where` byte of an item. -/
inductive Where
  /-- GPTPS_Q_NONE: in no queue. -/
  | none
  /-- In one of the engine's queues. -/
  | queue (q : QId)
  /-- GPTPS_Q_POOL: free, in a bounded engine's pool. -/
  | pool
  deriving DecidableEq, Repr

/-- `gptps_event_kind`. -/
inductive EvKind
  /-- A submit was accepted. -/
  | queued
  /-- An attempt starts. -/
  | started
  /-- An attempt returned GPTPS_OK. -/
  | finished
  /-- An attempt failed, or work was cancelled. -/
  | failed
  /-- A retry was scheduled. -/
  | retried
  /-- The item became a dead letter. -/
  | deadLettered
  /-- The item was discarded. -/
  | dropped
  /-- Measurements of a running process job. -/
  | sample
  deriving DecidableEq, Repr

/-- `gptps_pending_ev`, less the result bytes. -/
structure Ev where
  /-- What happened. -/
  kind : EvKind
  /-- To which item. -/
  handle : Handle
  /-- The name of its task type. -/
  name : Name
  /-- The status reported with it. -/
  status : Status
  /-- The attempt it belongs to. -/
  attempt : UInt32
  /-- The memory the item declares. -/
  mem : UInt64
  /-- GPTPS_EV_FLAG_SHUTDOWN -/
  shutdown : Bool
  /-- GPTPS_EV_FLAG_SELF_CANCELLED -/
  selfCancelled : Bool
  deriving DecidableEq, Repr

/-- Whether an event is the last of a one-shot handle: FAILED is one of an attempt, unless the work
was cancelled. -/
def lastEvent (k : EvKind) (st : Status) : Bool :=
  match k with
  | .finished => true
  | .dropped => true
  | .deadLettered => true
  | .failed => st = .cancelled
  | _ => false

/-- `gptps_resource`: a named admission budget. -/
structure Resource where
  /-- Its name. -/
  name : Name
  /-- What may be reserved at once. -/
  budget : UInt64
  /-- What is reserved. -/
  reserved : UInt64
  deriving DecidableEq, Repr

/-- GPTPS_PENDING_CAP: events one pass may buffer. -/
def pendingCap : ℕ := 256

/-- GPTPS_INTAKE_RUNS: equal-score runs the intake cache holds. -/
def intakeRuns : ℕ := 32

/-- GPTPS_RESERVE_AFTER: the default starvation guard. -/
def reserveAfter : UInt32 := 8

/-- GPTPS_REQUEUE_MIN_BACKOFF_MS: the floor under an unbounded requeue. -/
def requeueMinBackoffMs : ℕ := 100

/-- GPTPS_TASK_NAME_MAX -/
def taskNameMax : ℕ := 127

/-- GPTPS_EV_NAME_MAX, the terminator included. -/
def evNameMax : ℕ := 128

/-- The part of the engine that holds the items: the queues with their links, the
handle index, the ordered intake's cache and the pool of a bounded engine. -/
structure Store where
  /-- The content of every queue, in order. -/
  q : QId → List Item
  /-- The link words of every item. -/
  links : Links Ptr
  /-- Every queue's head, tail and count. -/
  anchor : QId → Anchor Ptr
  /-- The `where` byte of every item. -/
  whereIs : Ptr → Where
  /-- Whether an item is in the handle index. -/
  indexed : Ptr → Bool
  /-- Which addresses hold an item that was taken and not freed. -/
  allocated : Ptr → Bool
  /-- The handle index. -/
  hidx : Table Handle Ptr
  /-- The entries of the handle index. -/
  hidxLive : ℕ
  /-- A probe or a sort did not end: the call holding the lock never returns. -/
  hung : Bool
  /-- The cached run tails of intake, by descending score. -/
  runs : List (ℤ × Ptr)
  /-- The last intake_seq stamped. -/
  intakeSeq : ℕ
  /-- The next handle. -/
  nextHandle : Handle
  /-- Bounded mode: the number of items; zero is the classic engine. -/
  maxItems : ℕ
  /-- Bounded mode: the working set exists. -/
  sealed : Bool
  /-- Bounded mode: the free items. -/
  freeItems : List Ptr

/-- `struct gptps`, less the fields no admission or completion decision reads. -/
structure Engine extends Store where
  /-- limits.max_memory_bytes -/
  maxMemoryBytes : UInt64
  /-- limits.max_concurrent_tasks, as it was at open. -/
  maxConcurrentTasks : ℕ
  /-- limits.max_intake_depth; zero is unbounded. -/
  maxIntakeDepth : ℕ
  /-- Every task type ever registered, by identity. -/
  reg : RegId → Reg
  /-- The identity the next registration takes. -/
  nextReg : RegId
  /-- The registered types, newest first. -/
  registry : List RegId
  /-- Unregistered types kept until shutdown. -/
  retired : List RegId
  /-- Which types' records were freed. -/
  freed : RegId → Bool
  /-- dead_letter_count -/
  deadLetterCount : ℕ
  /-- Cap on the retained dead letters; zero is unbounded. -/
  maxDeadLetters : ℕ
  /-- Dead letters evicted by the cap. -/
  deadEvicted : ℕ
  /-- The memory of admitted work. -/
  reservedMem : UInt64
  /-- The number of admitted items. -/
  running : ℕ
  /-- The named resources, in the order they were defined. -/
  resources : List Resource
  /-- The number of worker threads. -/
  nworkers : ℕ
  /-- Bounded mode: the size of a payload slot. -/
  maxPayload : ℕ
  /-- Bounded mode: the resources a snapshot slot has room for. -/
  poolNres : ℕ
  /-- gptps_shutdown has begun. -/
  stopping : Bool
  /-- How long shutdown lets work finish; zero is forever. -/
  shutdownGraceMs : ℕ
  /-- When that time is over; zero is no bound. -/
  stopDeadlineMs : ℕ
  /-- Workers may leave once `ready` is empty. -/
  workersExit : Bool
  /-- MANUAL mode. -/
  manual : Bool
  /-- Whether a scheduler hook is installed. -/
  schedFn : Bool
  /-- How many constraint hooks are installed. -/
  constraints : ℕ
  /-- scheduler.reserve_after_skips -/
  reserveAfterSkips : UInt32
  /-- Definitions between their snapshot of the registry and their publish. -/
  activeDefines : ℕ

end Gptps.EngineState
