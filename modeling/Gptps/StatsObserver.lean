import Gptps.EngineState
import Gptps.ProbeMap

/-!
# The statistics of an engine

One observer counts the events of an engine, in total and for each task, and keeps two gauges: how
many handles wait and how many run. A slot for each handle remembers which of the two it is counted
in. Events may arrive out of order, so a slot also remembers what its handle is still owed.
-/

namespace Gptps.StatsObserver

open Function EngineState ProbeMap

section State

/-- The state of a slot. -/
inductive SlotState
  /-- ST_NONE -/
  | none
  /-- ST_PENDING -/
  | pending
  /-- ST_RUNNING -/
  | running
  /-- ST_LIMBO -/
  | limbo
  /-- ST_DONE -/
  | done
  deriving DecidableEq, Repr

/-- `stats_slot` -/
structure Slot where
  /-- The row of its task, `none` where there was no memory for one. -/
  task : Option ℕ
  /-- Where the handle is counted. -/
  state : SlotState := .none
  /-- QUEUED was seen. -/
  seenQueued : Bool := false
  /-- `queuedMs` is set. -/
  haveQueuedMs : Bool := false
  /-- `startedMs` is set. -/
  haveStartedMs : Bool := false
  /-- The last QUEUED or RETRIED. -/
  queuedMs : ℕ := 0
  /-- The last STARTED. -/
  startedMs : ℕ := 0
  /-- The highest attempt started or ended in this cycle. -/
  att : ℕ := 0
  /-- The highest attempt announced in this cycle. -/
  ann : ℕ := 0
  /-- The attempt whose STARTED outran its RETRIED. -/
  oweR : ℕ := 0
  /-- The first attempt's STARTED outran QUEUED. -/
  oweQ : Bool := false
  /-- When it started then. -/
  qStartedMs : ℕ := 0
  deriving DecidableEq, Repr

/-- `gptps_stats_counters`; a gauge is the number its word stands for. -/
structure Counters where
  /-- QUEUED events. -/
  queued : ℕ := 0
  /-- STARTED events. -/
  started : ℕ := 0
  /-- FINISHED events. -/
  finished : ℕ := 0
  /-- FAILED events. -/
  failed : ℕ := 0
  /-- RETRIED events. -/
  retried : ℕ := 0
  /-- DEAD_LETTERED events. -/
  deadLettered : ℕ := 0
  /-- DROPPED events. -/
  dropped : ℕ := 0
  /-- FAILED events with GPTPS_E_CANCELLED. -/
  cancelled : ℕ := 0
  /-- Terminal events. -/
  terminal : ℕ := 0
  /-- How many handles wait. -/
  pending : ℤ := 0
  /-- How many handles run. -/
  inFlight : ℤ := 0
  /-- Attempts with a known wait. -/
  waitSamples : ℕ := 0
  /-- Their waits together. -/
  waitMsSum : ℕ := 0
  /-- The longest. -/
  waitMsMax : ℕ := 0
  /-- Attempts with a known duration. -/
  runSamples : ℕ := 0
  /-- Their durations together. -/
  runMsSum : ℕ := 0
  /-- The longest. -/
  runMsMax : ℕ := 0
  deriving DecidableEq, Repr

/-- `gptps_stats`, less the measurement rows. -/
structure Stats where
  /-- The engine's row. -/
  total : Counters
  /-- The rows of the tasks, by name. -/
  tasks : List (Name × Counters)
  /-- The slots by handle. -/
  tab : Map Slot

/-- `gptps_event`, less what the statistics do not read. -/
structure Event where
  /-- What happened. -/
  kind : EvKind
  /-- To which handle. -/
  handle : Handle
  /-- The name of its task. -/
  task : Name
  /-- When. -/
  ts : ℕ
  /-- The status it carries. -/
  status : Status
  /-- The attempt it belongs to. -/
  attempt : ℕ
  deriving DecidableEq, Repr

/-- Which allocations of a call succeed. -/
structure Alloc where
  /-- A row for a task. -/
  task : Bool := true
  /-- A larger table. -/
  table : Bool := true
  deriving DecidableEq, Repr

end State

section Rows

/-- `OWES_RETRIED`: an event of a later attempt came and the RETRIED that announces it did not. -/
def owesRetried (sl : Slot) : Bool := sl.att > 1 && sl.ann < sl.att

/-- `task_index`: the row of a task, made where there is none. -/
def taskIndex (s : Stats) (name : Name) (alloc : Bool) : Stats × Option ℕ :=
  match s.tasks.findIdx? fun r => r.1 = name with
  | some i => (s, some i)
  | none =>
    if alloc then ({ s with tasks := s.tasks ++ [(name, {})] }, some s.tasks.length)
    else (s, none)

/-- BUMP and GAUGE: a change of the engine's row and of a task's. -/
def bump (s : Stats) (ti : Option ℕ) (f : Counters → Counters) : Stats :=
  { s with
    total := f s.total
    tasks := match ti with
      | none => s.tasks
      | some i => s.tasks.modify i fun r => (r.1, f r.2) }

/-- `GAUGE(pending, d)` -/
def gaugePending (d : ℤ) (c : Counters) : Counters := { c with pending := c.pending + d }

/-- `GAUGE(in_flight, d)` -/
def gaugeInFlight (d : ℤ) (c : Counters) : Counters := { c with inFlight := c.inFlight + d }

/-- `sample_wait` -/
def sampleWait (ms : ℕ) (c : Counters) : Counters :=
  { c with
    waitSamples := c.waitSamples + 1
    waitMsSum := c.waitMsSum + ms
    waitMsMax := if ms > c.waitMsMax then ms else c.waitMsMax }

/-- `sample_run` -/
def sampleRun (ms : ℕ) (c : Counters) : Counters :=
  { c with
    runSamples := c.runSamples + 1
    runMsSum := c.runMsSum + ms
    runMsMax := if ms > c.runMsMax then ms else c.runMsMax }

/-- What an event adds to the totals. -/
def counts (k : EvKind) (st : Status) (c : Counters) : Counters :=
  match k with
  | .queued => { c with queued := c.queued + 1 }
  | .started => { c with started := c.started + 1 }
  | .finished => { c with finished := c.finished + 1, terminal := c.terminal + 1 }
  | .failed =>
    if st = .cancelled then
      { c with failed := c.failed + 1, cancelled := c.cancelled + 1, terminal := c.terminal + 1 }
    else { c with failed := c.failed + 1 }
  | .retried => { c with retried := c.retried + 1 }
  | .deadLettered => { c with deadLettered := c.deadLettered + 1, terminal := c.terminal + 1 }
  | .dropped => { c with dropped := c.dropped + 1, terminal := c.terminal + 1 }
  | .sample => c

end Rows

section Arms

/-- `finish_slot`: the slot is deleted, or waits for the events that are still on their way. -/
def finishSlot (sl : Slot) : Option Slot :=
  if sl.seenQueued && !owesRetried sl then none else some { sl with state := .done }

/-- `note_attempt` -/
def noteAttempt (sl : Slot) (attempt : ℕ) : Slot :=
  if attempt > sl.att then { sl with att := attempt } else sl

/-- What QUEUED does to the rows and to its slot, `none` where the slot is deleted. -/
def queuedArm (ts : ℕ) (sl : Slot) : (Counters → Counters) × Option Slot :=
  let wait := if sl.oweQ then sampleWait (if sl.qStartedMs > ts then sl.qStartedMs - ts else 0) else id
  let seen := { sl with seenQueued := true, oweQ := false }
  if sl.state = .done then (wait, if owesRetried seen then some seen else none)
  else
    let put := if sl.state = .none then { seen with state := .pending } else seen
    (fun c => if sl.state = .none then gaugePending 1 (wait c) else wait c,
      some (if sl.haveQueuedMs then put else { put with queuedMs := ts, haveQueuedMs := true }))

/-- A handle that waited waits no longer. -/
def leavePending (sl : Slot) : Counters → Counters :=
  if sl.state = .pending then gaugePending (-1) else id

/-- A first attempt opens a cycle, in which nothing was announced. -/
def newCycle (attempt : ℕ) (sl : Slot) : Slot :=
  if attempt ≤ 1 then { sl with ann := 0, oweR := 0 } else sl

/-- What STARTED does. -/
def startedArm (ts attempt : ℕ) (sl : Slot) : (Counters → Counters) × Option Slot :=
  let run := { newCycle attempt sl with
    att := attempt, state := .running, startedMs := ts, haveStartedMs := true }
  let count := fun c => gaugeInFlight 1 (leavePending sl c)
  if attempt > 1 ∧ (newCycle attempt sl).ann < attempt then (count, some { run with oweR := attempt })
  else if !sl.haveQueuedMs then (count, some { run with oweQ := true, qStartedMs := ts })
  else (fun c => sampleWait (if ts > sl.queuedMs then ts - sl.queuedMs else 0) (count c), some run)

/-- The end of a run: it is no longer in flight, and its duration is known if its start is. -/
def leaveRunning (ts : ℕ) (sl : Slot) (c : Counters) : Counters :=
  if sl.haveStartedMs ∧ ts ≥ sl.startedMs then sampleRun (ts - sl.startedMs) (gaugeInFlight (-1) c)
  else gaugeInFlight (-1) c

/-- What FINISHED does. -/
def finishedArm (ts attempt : ℕ) (sl : Slot) : (Counters → Counters) × Option Slot :=
  (if sl.state = .running then leaveRunning ts sl else id, finishSlot (noteAttempt sl attempt))

/-- What FAILED does. -/
def failedArm (ts attempt : ℕ) (st : Status) (sl : Slot) : (Counters → Counters) × Option Slot :=
  let left := { noteAttempt sl attempt with state := .limbo }
  (if sl.state = .running then leaveRunning ts sl else leavePending sl,
    if st = .cancelled then finishSlot left else some left)

/-- The attempt is announced, and a wait that was owed to its RETRIED is no longer. -/
def announce (attempt : ℕ) (sl : Slot) : Slot :=
  { sl with
    ann := if attempt > sl.ann then attempt else sl.ann
    oweR := if sl.oweR ≠ 0 ∧ sl.oweR = attempt then 0 else sl.oweR }

/-- What RETRIED does: a late one moves nothing, and clears the slot that waited for it. -/
def retriedArm (ts attempt : ℕ) (sl : Slot) : (Counters → Counters) × Option Slot :=
  let wait := if sl.oweR ≠ 0 ∧ sl.oweR = attempt then
    sampleWait (if sl.startedMs > ts then sl.startedMs - ts else 0) else id
  let paid := announce attempt sl
  if sl.att ≥ attempt ∨ sl.state = .done then
    (wait, if sl.state = .done ∧ sl.seenQueued then none else some paid)
  else
    (fun c => if sl.state = .pending then wait c else gaugePending 1 (wait c),
      some { paid with state := .pending, queuedMs := ts, haveQueuedMs := true })

/-- What DEAD_LETTERED and DROPPED do. -/
def endedArm (attempt : ℕ) (sl : Slot) : (Counters → Counters) × Option Slot :=
  (if sl.state = .pending then gaugePending (-1)
    else if sl.state = .running then gaugeInFlight (-1) else id,
    finishSlot (noteAttempt sl attempt))

/-- The arm of an event. -/
def arm (ev : Event) (sl : Slot) : (Counters → Counters) × Option Slot :=
  match ev.kind with
  | .queued => queuedArm ev.ts sl
  | .started => startedArm ev.ts ev.attempt sl
  | .finished => finishedArm ev.ts ev.attempt sl
  | .failed => failedArm ev.ts ev.attempt ev.status sl
  | .retried => retriedArm ev.ts ev.attempt sl
  | .deadLettered => endedArm ev.attempt sl
  | .dropped => endedArm ev.attempt sl
  | .sample => (id, some sl)

end Arms

section Observe

/-- The event is counted, and its arm runs on the slot of its handle. -/
def settle (s : Stats) (ev : Event) (ti : Option ℕ) (sl : Slot) : Option Stats :=
  let s' := bump s ti fun c => (arm ev sl).1 (counts ev.kind ev.status c)
  match (arm ev sl).2 with
  | some sl' => some { s' with tab := modify s.tab ev.handle fun _ => sl' }
  | none => (del s.tab ev.handle).map fun t => { s' with tab := t }

/-- `stats_observe`, `none` if a probe of the table does not end. -/
def statsObserve (s : Stats) (ev : Event) (alloc : Alloc) : Option Stats :=
  if ev.kind = .sample then some (taskIndex s ev.task alloc.task).1
  else
    (get s.tab ev.handle).bind fun found =>
      match found with
      | some sl => settle s ev sl.task sl
      | none =>
        let p := taskIndex s ev.task alloc.task
        (put p.1.tab ev.handle { task := p.2 } alloc.table).bind fun r =>
          if r.2 then settle { p.1 with tab := r.1 } ev p.2 { task := p.2 }
          else some (bump { p.1 with tab := r.1 } p.2 (counts ev.kind ev.status))

end Observe

end Gptps.StatsObserver
