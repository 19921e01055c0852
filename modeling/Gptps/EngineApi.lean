import Gptps.EnginePass

/-!
# The engine's entry points

The critical sections of the public calls and of the worker: each definition is
the code between taking the engine lock and releasing it. What the host chooses
(names, options, costs, clock readings, whether an allocation succeeds) is an
argument; events are answered for the caller to emit without the lock.
-/

namespace Gptps.EngineApi

open Function ProbeTable EngineState EngineStore EnginePass List

/-- Rewrite one task type. -/
def updReg (e : Engine) (r : RegId) (f : Reg → Reg) : Engine :=
  { e with reg := update e.reg r (f (e.reg r)) }

/-- Rewrite one queued item. -/
def updItem (e : Engine) (q : QId) (p : Ptr) (f : Item → Item) : Engine :=
  mapQueue e q fun it => if it.ptr = p then f it else it

/-- `registry_holder`: the live type that holds a name. -/
def registryHolder (e : Engine) (name : Name) : Option RegId :=
  e.registry.find? fun r => !(e.reg r).removed && (e.reg r).name = name

/-- `reg_hidden`: a type another thread is still registering. -/
def regHidden (e : Engine) (tid : ℕ) (r : RegId) : Bool :=
  (e.reg r).settling && (e.reg r).settlingTid ≠ tid

/-- `registry_find`: the type a call on thread `tid` finds under a name. -/
def registryFind (e : Engine) (tid : ℕ) (name : Name) : Option RegId :=
  (registryHolder e name).filter fun r => !regHidden e tid r

/-- `bounded_sealed`: a bounded engine past its first submit. -/
def boundedSealed (e : Engine) : Bool := e.maxItems ≠ 0 && e.sealed

/-- A task definition as it is registered. -/
structure TaskDef where
  /-- The name. -/
  name : Name
  /-- How bodies run. -/
  exec : Exec
  /-- The memory one run declares. -/
  defaultMem : UInt64
  /-- Whether it has a cost callback. -/
  hasCost : Bool
  /-- The failure policy. -/
  policy : Policy
  /-- GPTPS_TASK_SERVICE -/
  service : Bool
  /-- GPTPS_TASK_RETIRE_ON_OK -/
  retireOnOk : Bool
  /-- The priority a config file gives it. -/
  priority : ℤ

/-- The policy an instance of a service runs with. -/
def servicePolicy (p : Policy) : Policy :=
  { p with onFailure := .requeue, maxRetries := 0, timeoutSeconds := 0 }

/-- `gptps_register_task` up to the point where the type is linked in, still hidden
from other threads; the call waits until no definition is under way. -/
def registerTask (e : Engine) (tid : ℕ) (d : TaskDef) : Except Status (Engine × RegId) :=
  if boundedSealed e then .error .busy
  else if e.maxItems ≠ 0 ∧ d.exec ≠ .inproc then .error .inval
  else if taskNameMax < d.name.length then .error .inval
  else if d.service ∧ (d.exec ≠ .inproc ∨ e.manual ∨ d.policy.timeoutSeconds ≠ 0) then
    .error .inval
  else if (registryHolder e d.name).isSome then .error .dup
  else
    let r : Reg :=
      { name := d.name, exec := d.exec, priority := d.priority, defaultMem := d.defaultMem
        hasCost := d.hasCost
        defaultPolicy := if d.service then servicePolicy d.policy else d.policy
        enabled := true, settling := true, settlingTid := tid, removed := false
        cancelling := false, service := d.service, retireOnOk := d.retireOnOk
        resCost := if e.resources = [] then none
          else some (replicate e.resources.length 0) }
    .ok ({ e with
      reg := update e.reg e.nextReg r
      nextReg := e.nextReg + 1
      registry := e.nextReg :: e.registry }, e.nextReg)

/-- `registry_unlink`: take a type out of the registry. -/
def registryUnlink (e : Engine) (r : RegId) : Engine :=
  { e with registry := e.registry.filter (· ≠ r) }

/-- `reg_destroy`: free a type's record. -/
def regDestroy (e : Engine) (r : RegId) : Engine := { e with freed := update e.freed r true }

/-- `register_task_undo`: take back a registration whose settings could not be made. -/
def registerTaskUndo (e : Engine) (r : RegId) : Engine := regDestroy (registryUnlink e r) r

/-- What a submit brings with it. -/
structure SubmitArgs where
  /-- The calling thread. -/
  tid : ℕ
  /-- The task name. -/
  name : Name
  /-- The payload's length. -/
  len : ℕ
  /-- What the cost callback answers, if the type has one. -/
  cost : Except Status UInt64
  /-- GPTPS_SUBMIT_PRIORITY -/
  priority : Option ℤ
  /-- GPTPS_SUBMIT_POLICY -/
  policy : Option Policy
  /-- GPTPS_SUBMIT_TIMEOUT_MS -/
  timeoutMs : Option ℕ
  /-- The clock. -/
  now : ℕ
  /-- Whether a larger index could be allocated. -/
  indexOk : Bool

/-- `bounded_seal`: make the working set of a bounded engine, if it can be allocated. -/
def boundedSeal (e : Engine) (ok : Bool) : Except Status Engine :=
  if e.sealed then .ok e
  else if ok then
    .ok { e with
      poolNres := e.resources.length
      freeItems := range e.maxItems
      hidx := ⟨doubleUntil (2 * e.maxItems) (2 * e.maxItems) 64, fun _ => none⟩
      hidxLive := 0
      sealed := true }
  else .error .nomem

/-- The first submit of a bounded engine seals it, if it names a registered task. -/
def submitSeal (e : Engine) (args : SubmitArgs) (ok : Bool) : Except Status Engine :=
  if e.stopping then .error .shutdown
  else
    match registryFind e args.tid args.name with
    | none => .error .notfound
    | some r => if (e.reg r).enabled then boundedSeal e ok else .error .notfound

/-- Take the memory of an item at address `p`, zeroed. -/
def takeItem (e : Engine) (p : Ptr) : Engine :=
  { e with
    allocated := update e.allocated p true
    whereIs := update e.whereIs p .none
    indexed := update e.indexed p false }

/-- `pool_take`: a free item of a bounded engine. -/
def poolTake (e : Engine) : Option (Ptr × Engine) :=
  match e.freeItems with
  | [] => none
  | p :: rest => some (p, takeItem { e with freeItems := rest } p)

/-- The cost a submit declares: the type's default, or what its callback answers. -/
def submitCost (r : Reg) (args : SubmitArgs) : Except Status UInt64 :=
  if r.hasCost then args.cost else .ok r.defaultMem

/-- The checks of `submit_internal` under the lock, with the type and cost they yield. -/
def submitCheck (e : Engine) (args : SubmitArgs) : Except Status (RegId × UInt64) :=
  if e.stopping then .error .shutdown
  else
    match registryFind e args.tid args.name with
    | none => .error .notfound
    | some r =>
      if ¬ (e.reg r).enabled then .error .notfound
      else
        match submitCost (e.reg r) args with
        | .error st => .error st
        | .ok mem =>
          if e.maxMemoryBytes < mem then .error .budget
          else if exceedsAny e.resources ((e.reg r).resCost.getD []) then .error .budget
          else if e.maxIntakeDepth ≠ 0 ∧ e.maxIntakeDepth ≤ (e.anchor .intake).count then
            .error .full
          else .ok (r, mem)

/-- The item a submit makes at address `p`. -/
def newItem (e : Engine) (p : Ptr) (args : SubmitArgs) (r : RegId) (mem : UInt64) : Item :=
  let reg := e.reg r
  let prio := args.priority.getD reg.priority
  let pol := args.policy.getD reg.defaultPolicy
  { handle := e.nextHandle, reg := some r, costMem := mem
    policy := if reg.service then servicePolicy pol else pol
    attempt := 1, outcome := .ok, cancelled := false, started := false, resReserved := none
    phase := .idle, ptr := p, nameOwned := none, priority := prio, schedScore := prio, skips := 0
    enqueueMs := args.now, intakeSeq := 0, deadlineMs := 0, notBeforeMs := 0, cancel := false
    timeoutMsOverride := if reg.service then 0 else args.timeoutMs.getD 0 }

/-- The QUEUED event of a submit. -/
def queuedEv (e : Engine) (it : Item) : Ev :=
  { kind := .queued, handle := it.handle, name := evSetName (itemName e it), status := .ok
    attempt := 0, mem := it.costMem, shutdown := false, selfCancelled := false }

/-- The critical section of `submit_internal`, with the item's memory taken at `p`:
the engine after it, and either the item queued or the refusal. -/
def submitInternal (e : Engine) (p : Ptr) (args : SubmitArgs) : Engine × Except Status Item :=
  match submitCheck e args with
  | .error st => (itemFree e p, .error st)
  | .ok (r, mem) =>
    match hidxReserve e args.indexOk with
    | (e₁, false) => (itemFree e₁ p, .error .nomem)
    | (e₁, true) =>
      let it := newItem e₁ p args r mem
      (hidxPut (intakeInsert { e₁ with nextHandle := e₁.nextHandle + 1 } it) it, .ok it)

/-- `attempt_deadline`: when the attempt about to start times out. A process job gets none: its deadline is
enforced by the process it runs in. -/
def attemptDeadline (e : Engine) (now : ℕ) (it : Item) : ℕ :=
  if ¬(regOf e it.toCore).any (·.exec = .inproc) then 0
  else if it.timeoutMsOverride ≠ 0 then now + it.timeoutMsOverride
  else if it.policy.timeoutSeconds ≠ 0 then now + it.policy.timeoutSeconds * 1000
  else 0

/-- An admitted item that must not be started. -/
def mustDiscard (e : Engine) (it : Item) : Bool :=
  it.cancelled || (isRemoved e it.toCore && isCancelling e it.toCore)

/-- The item as an attempt of it starts. -/
def startItem (e : Engine) (now : ℕ) (it : Item) : Item :=
  { it with deadlineMs := attemptDeadline e now it, cancel := false, started := true, phase := .begun }

/-- A worker, or the step, takes the next ready item: it is discarded to `done`, or
its attempt starts. -/
def takeReady (now : ℕ) (e : Engine) : Option (Engine × Item) :=
  match fifoPop e .ready with
  | none => none
  | some (it, e₁) =>
    if mustDiscard e₁ it then
      some (fifoPush e₁ .done { it with outcome := .cancelled }, it)
    else some (fifoPush e₁ .running (startItem e now it), it)

/-- The effective status of an attempt whose body answered `st`. -/
def effective (e : Engine) (now : ℕ) (it : Item) (st : Status) : Status :=
  if (regOf e it.toCore).any (·.exec = .inproc) ∧ it.cancel then
    if it.deadlineMs ≠ 0 ∧ it.deadlineMs ≤ now then .timeout else .cancelled
  else st

/-- The event an attempt reports its end with. -/
def reportEv (e : Engine) (it : Item) (st : Status) (raised : Bool) : Ev :=
  { evOf e it (if st = .ok then .finished else .failed) st false with
    selfCancelled := decide (st = .cancelled) && !raised }

/-- A worker posts an executed item for the dispatcher's decision. -/
def postDone (e : Engine) (it : Item) (st : Status) : Engine :=
  fifoPush (fifoRemove e .running it) .done { it with outcome := st, phase := .idle }

/-- `gptps_cancel`'s critical section: the status, and the event of an item that was
still waiting. -/
def gptpsCancel (e : Engine) (h : Handle) : Engine × Status × Option Ev :=
  if h = 0 then (e, .inval, none)
  else if e.stopping then (e, .shutdown, none)
  else
    match hidxFind e h with
    | none => (e, .notfound, none)
    | some p =>
      match e.whereIs p with
      | .queue .running => (updItem e .running p stopItem, .ok, none)
      | .queue .ready => (updItem e .ready p stopItem, .ok, none)
      | .queue .done => (updItem e .done p stopItem, .ok, none)
      | .queue .intake =>
        match (e.q .intake).find? fun it => it.ptr = p with
        | none => (e, .notfound, none)
        | some it => (itemDrop (intakeUnlink e it) it, .ok, some (evOf e it .failed .cancelled false))
      | .queue .delayed =>
        match (e.q .delayed).find? fun it => it.ptr = p with
        | none => (e, .notfound, none)
        | some it =>
          (itemDrop (fifoRemove e .delayed it) it, .ok, some (evOf e it .failed .cancelled false))
      | _ => (e, .notfound, none)

/-- `fifo_count_reg`: the items of a queue that belong to a type. -/
def fifoCountReg (e : Engine) (q : QId) (r : RegId) : ℕ :=
  (e.q q).countP fun it => it.reg = some r

/-- `reg_live_refs`: items of a type that are not dead letters. -/
def regLiveRefs (e : Engine) (r : RegId) : ℕ :=
  fifoCountReg e .intake r + fifoCountReg e .delayed r + fifoCountReg e .ready r +
    fifoCountReg e .done r + fifoCountReg e .running r

/-- Move one item of a queue to a local list if it is picked. -/
def detachOne (q : QId) (picked : Item → Bool) (acc : Engine × List Item) (it : Item) :
    Engine × List Item :=
  if picked it then (fifoRemove acc.1 q it, acc.2 ++ [it]) else acc

/-- Move the picked items of a queue to a local list. -/
def detachItems (q : QId) (picked : Item → Bool) (acc : Engine × List Item) :
    Engine × List Item :=
  (acc.1.q q).foldl (detachOne q picked) acc

/-- `fifo_detach_reg`: detach a type's items that hold no budget. -/
def fifoDetachReg (q : QId) (r : RegId) (acc : Engine × List Item) : Engine × List Item :=
  detachItems q (fun it => it.reg = some r) acc

/-- `fifo_detach_services`: detach the service instances of a queue. -/
def fifoDetachServices (q : QId) (acc : Engine × List Item) : Engine × List Item :=
  detachItems q (fun it => isService acc.1 it.toCore) acc

/-- Move one admitted item of a type to a local list, releasing its budget. -/
def detachAdmittedOne (q : QId) (r : RegId) (acc : Engine × List Item) (it : Item) :
    Engine × List Item :=
  if it.reg = some r then
    (release (fifoRemove acc.1 q it) it.toCore, acc.2 ++ [{ it with resReserved := none }])
  else acc

/-- `fifo_detach_reg_admitted`: detach a type's items that hold budget. -/
def fifoDetachRegAdmitted (q : QId) (r : RegId) (acc : Engine × List Item) :
    Engine × List Item :=
  (acc.1.q q).foldl (detachAdmittedOne q r) acc

/-- Removal modes of `gptps_unregister_task`. -/
inductive RemoveMode
  /-- GPTPS_REMOVE_REJECT_IF_BUSY -/
  | rejectIfBusy
  /-- GPTPS_REMOVE_DRAIN -/
  | drain
  /-- GPTPS_REMOVE_CANCEL -/
  | cancel
  deriving DecidableEq, Repr

/-- A service's instances run until stopped, so draining one means cancelling it. -/
def removeMode (e : Engine) (r : RegId) (mode : RemoveMode) : RemoveMode :=
  if (e.reg r).service ∧ mode = .drain then .cancel else mode

/-- Tombstone a type. -/
def tombstone (e : Engine) (r : RegId) (cancelling : Bool) : Engine :=
  updReg e r fun g => { g with removed := true, cancelling := g.cancelling || cancelling }

/-- Raise the cancel word of a type's running items. -/
def raiseCancel (r : RegId) (it : Item) : Item :=
  if it.reg = some r then { it with cancel := true } else it

/-- The MANUAL branch of `unregister_task`. -/
def unregisterManual (e : Engine) (r : RegId) (mode : RemoveMode) :
    Except Status (Engine × List Item) :=
  if mode = .cancel then
    if fifoCountReg e .running r ≠ 0 then .error .busy
    else
      let acc := fifoDetachReg .intake r (tombstone e r true, [])
      let acc := fifoDetachReg .delayed r (intakeForget acc.1, acc.2)
      let acc := fifoDetachRegAdmitted .ready r acc
      let acc := fifoDetachRegAdmitted .done r acc
      .ok (indexDropList acc.1 acc.2, acc.2)
  else if regLiveRefs e r ≠ 0 then .error .busy
  else .ok (tombstone e r false, [])

/-- The THREADED branch of `unregister_task`; `reentrant` tells whether the caller is
one of the engine's own threads. -/
def unregisterThreaded (e : Engine) (r : RegId) (mode : RemoveMode) (reentrant : Bool) :
    Except Status (Engine × List Item) :=
  let owed := fifoCountReg e .ready r + fifoCountReg e .done r + fifoCountReg e .running r +
    if mode = .cancel then 0 else fifoCountReg e .intake r + fifoCountReg e .delayed r
  if mode = .rejectIfBusy ∧ regLiveRefs e r ≠ 0 then .error .busy
  else if reentrant ∧ owed ≠ 0 then .error .busy
  else if mode = .cancel then
    let acc := fifoDetachReg .intake r (tombstone e r true, [])
    let acc := fifoDetachReg .delayed r (intakeForget acc.1, acc.2)
    .ok (mapQueue (indexDropList acc.1 acc.2) .running (raiseCancel r), acc.2)
  else .ok (tombstone e r false, [])

/-- `unregister_task` up to its wait: the tombstoned type and the backlog it cancelled. -/
def unregisterBegin (e : Engine) (tid : ℕ) (name : Name) (mode : RemoveMode)
    (reentrant : Bool) : Except Status (Engine × RegId × List Item) :=
  if boundedSealed e then .error .busy
  else if taskNameMax < name.length then .error .inval
  else if e.stopping then .error .shutdown
  else
    match registryFind e tid name with
    | none => .error .notfound
    | some r =>
      if (e.reg r).settling then .error .busy
      else
        let res := if e.manual then unregisterManual e r (removeMode e r mode)
          else unregisterThreaded e r (removeMode e r mode) reentrant
        res.map fun x => (x.1, r, x.2)

/-- `item_own_name`: give a retained item its own copy of its type's name. -/
def itemOwnName (e : Engine) (it : Item) : Item :=
  { it with nameOwned := some (itemName e it), reg := none }

/-- Whether `item_own_name` can do without an allocation, or gets one. -/
def canOwnName (nameOk : Ptr → Bool) (it : Item) : Bool := it.nameOwned.isSome || nameOk it.ptr

/-- `detach_dead_letter` for one item. -/
def ownDeadLetter (e : Engine) (r : RegId) (nameOk : Ptr → Bool) (it : Item) : Item :=
  if it.reg = some r ∧ canOwnName nameOk it then itemOwnName e it else it

/-- `detach_dead_letter`: whether every retained dead letter of a type has its name. -/
def allOwned (e : Engine) (r : RegId) (nameOk : Ptr → Bool) : Bool :=
  (e.q .dead).all fun it => it.reg ≠ some r || canOwnName nameOk it

/-- The last critical section of `unregister_task`, once the type has drained: its
dead letters are made to own their names and it leaves the registry. -/
def unregisterEnd (e : Engine) (r : RegId) (nameOk : Ptr → Bool) : Engine :=
  let named := allOwned e r nameOk
  let e₁ := registryUnlink (mapQueue e .dead (ownDeadLetter e r nameOk)) r
  if named then e₁ else { e₁ with retired := r :: e₁.retired }

/-- Stop a service instance for good. -/
def stopService (e : Engine) (it : Item) : Item :=
  if isService e it.toCore then stopItem it else it

/-- `stop_services`: stop every service instance, detaching those that hold no budget. -/
def stopServices (e : Engine) : Engine × List Item :=
  let e₁ := mapQueue e .running (stopService e)
  let e₂ := mapQueue e₁ .ready (stopService e)
  let e₃ := mapQueue e₂ .done (stopService e)
  let acc := fifoDetachServices .intake (e₃, [])
  let acc := fifoDetachServices .delayed (intakeForget acc.1, acc.2)
  (indexDropList acc.1 acc.2, acc.2)

/-- The first critical section of `gptps_shutdown`. -/
def shutdownBegin (e : Engine) (now : ℕ) : Engine × List Item :=
  stopServices { e with
    stopping := true
    stopDeadlineMs := if e.shutdownGraceMs ≠ 0 then now + e.shutdownGraceMs else 0 }

/-- Move every item of a queue to a local list. -/
def takeAll (q : QId) : ℕ → Engine × List Item → Engine × List Item
  | 0, acc => acc
  | fuel + 1, acc =>
    match fifoPop acc.1 q with
    | none => acc
    | some (it, e) => takeAll q fuel (e, acc.2 ++ [it])

/-- Empty one queue into a local list. -/
def emptyQueue (q : QId) (acc : Engine × List Item) : Engine × List Item :=
  takeAll q (acc.1.q q).length acc

/-- The final collection of `gptps_shutdown`: whatever the pumps did not get to. -/
def shutdownCollect (e : Engine) : Engine × List Item :=
  let acc := emptyQueue .intake (e, [])
  let acc := emptyQueue .delayed (intakeForget acc.1, acc.2)
  let acc := emptyQueue .running (emptyQueue .done (emptyQueue .ready acc))
  (indexDropList acc.1 acc.2, acc.2)

/-- `gptps_dead_letter_drain` taking the retained list: without a callback no name is
needed, and a name that cannot be copied stops the drain. -/
def deadLetterTake (nameOk : Ptr → Bool) (named : Bool) :
    ℕ → Engine × List Item → Engine × List Item
  | 0, acc => acc
  | fuel + 1, acc =>
    match fifoPop acc.1 .dead with
    | none => acc
    | some (it, e) =>
      if named ∨ canOwnName nameOk it then
        let it' := if named then it else itemOwnName acc.1 it
        deadLetterTake nameOk named fuel
          ({ e with deadLetterCount := e.deadLetterCount - 1 }, acc.2 ++ [it'])
      else acc

/-- The critical section of `gptps_dead_letter_drain`. -/
def deadLetterDrain (e : Engine) (cb : Bool) (nameOk : Ptr → Bool) : Engine × List Item :=
  deadLetterTake nameOk (!cb || boundedSealed e) (e.q .dead).length (e, [])

/-- The end of `gptps_shutdown`: free the dead letters and every type's record. -/
def shutdownFree (e : Engine) : Engine :=
  let acc := takeAll .dead (e.q .dead).length (e, [])
  let e₁ := acc.2.foldl (fun e it => itemFree e it.ptr) acc.1
  (e₁.registry ++ e₁.retired).foldl regDestroy { e₁ with registry := [], retired := [] }

/-- `res_rebudget`: set the budget of a resource that is already defined. -/
def resRebudget (e : Engine) (name : Name) (budget : UInt64) : Engine :=
  { e with resources := e.resources.map fun x => if x.name = name then { x with budget := budget } else x }

/-- Whether a resource of that name is defined. -/
def hasResource (e : Engine) (name : Name) : Bool := e.resources.any (·.name = name)

/-- Give a type's cost vector an entry for one resource more. -/
def growCost (n : ℕ) (g : Reg) : Reg :=
  { g with resCost := some ((range n).map (fun i => (g.resCost.getD []).getD i 0) ++ [0]) }

/-- Publish a new resource, costing every registered type nothing. -/
def publishResource (e : Engine) (name : Name) (budget : UInt64) : Engine :=
  let n := e.resources.length
  { e with
    reg := fun r => if r ∈ e.registry then growCost n (e.reg r) else e.reg r
    resources := e.resources ++ [{ name := name, budget := budget, reserved := 0 }] }

/-- The critical section of `gptps_define_resource` that publishes, once its settings
are made. -/
def defineResource (e : Engine) (name : Name) (budget : UInt64) : Except Status Engine :=
  if e.stopping then .error .shutdown
  else if hasResource e name then .ok (resRebudget e name budget)
  else if boundedSealed e then .error .busy
  else .ok (publishResource e name budget)

/-- The index of a resource by its name. -/
def resourceIdx (e : Engine) (name : Name) : Option ℕ := e.resources.findIdx? (·.name = name)

/-- Write one entry of a type's cost vector. -/
def setCost (e : Engine) (r : RegId) (i : ℕ) (amount : UInt64) : Engine :=
  updReg e r fun g => { g with resCost := g.resCost.map fun c => c.set i amount }

/-- `gptps_set_task_resource_cost`. -/
def setTaskResourceCost (e : Engine) (tid : ℕ) (task resource : Name) (amount : UInt64) :
    Engine × Status :=
  match registryFind e tid task with
  | none => (e, .notfound)
  | some r =>
    match resourceIdx e resource with
    | none => (e, .notfound)
    | some i => (setCost e r i amount, .ok)

/-- The settings and setup calls that change what later decisions read. -/
inductive Setting
  /-- limits.max_memory_bytes, zero resolved to the machine's. -/
  | maxMemoryBytes (v : UInt64)
  /-- limits.max_intake_depth -/
  | maxIntakeDepth (v : ℕ)
  /-- limits.shutdown_grace_ms -/
  | shutdownGraceMs (v : ℕ)
  /-- limits.max_dead_letters -/
  | maxDeadLetters (v : ℕ)
  /-- stats.dead_letters_evicted -/
  | deadEvicted (v : ℕ)
  /-- scheduler.reserve_after_skips -/
  | reserveAfterSkips (v : UInt32)
  /-- resources.<name> -/
  | budget (i : ℕ) (v : UInt64)
  /-- tasks.<name>.resources.<resource> -/
  | resCost (r : RegId) (i : ℕ) (v : UInt64)
  /-- tasks.<name>.timeout_seconds, max_retries, retry_backoff_seconds, on_failure -/
  | policy (r : RegId) (p : Policy)
  /-- tasks.<name>.mem_bytes -/
  | mem (r : RegId) (v : UInt64)
  /-- tasks.<name>.priority, and gptps_set_task_priority -/
  | priority (r : RegId) (v : ℤ)
  /-- gptps_set_task_enabled -/
  | enabled (r : RegId) (v : Bool)
  /-- gptps_set_scheduler: whether a hook is installed. -/
  | scheduler (v : Bool)
  /-- gptps_register_constraint and gptps_unregister_constraint -/
  | constraints (n : ℕ)

/-- Apply a setting. -/
def applySetting (e : Engine) : Setting → Engine
  | .maxMemoryBytes v => { e with maxMemoryBytes := v }
  | .maxIntakeDepth v => { e with maxIntakeDepth := v }
  | .shutdownGraceMs v => { e with shutdownGraceMs := v }
  | .maxDeadLetters v => { e with maxDeadLetters := v }
  | .deadEvicted v => { e with deadEvicted := v }
  | .reserveAfterSkips v => { e with reserveAfterSkips := v }
  | .budget i v =>
    { e with resources := e.resources.modify i fun x => { x with budget := v } }
  | .resCost r i v => setCost e r i v
  | .policy r p => updReg e r fun g => { g with defaultPolicy := p }
  | .mem r v => updReg e r fun g => { g with defaultMem := v }
  | .priority r v => updReg e r fun g => { g with priority := v }
  | .enabled r v => updReg e r fun g => { g with enabled := v }
  | .scheduler v => { e with schedFn := v }
  | .constraints n => { e with constraints := n }

/-- How an engine is opened. -/
structure OpenArgs where
  /-- MANUAL instead of THREADED. -/
  manual : Bool
  /-- The resolved limits.max_memory_bytes. -/
  maxMemoryBytes : UInt64
  /-- The resolved limits.max_concurrent_tasks. -/
  maxConcurrentTasks : ℕ
  /-- limits.max_intake_depth -/
  maxIntakeDepth : ℕ
  /-- limits.max_dead_letters -/
  maxDeadLetters : ℕ
  /-- limits.shutdown_grace_ms -/
  shutdownGraceMs : ℕ
  /-- bounded.max_items -/
  maxItems : ℕ
  /-- bounded.max_payload_bytes -/
  maxPayload : ℕ

/-- A type's record before anything was registered in it. -/
def blankReg : Reg :=
  { name := [], exec := .inproc, priority := 0, defaultMem := 0, hasCost := false
    defaultPolicy := ⟨0, 0, 0, .deadLetter⟩, enabled := false, settling := false, settlingTid := 0
    removed := false, cancelling := false, service := false, retireOnOk := false, resCost := none }

/-- `open_engine`: a fresh engine. -/
def openEngine (a : OpenArgs) : Engine :=
  { maxMemoryBytes := a.maxMemoryBytes, maxConcurrentTasks := a.maxConcurrentTasks
    maxIntakeDepth := a.maxIntakeDepth, reg := fun _ => blankReg, nextReg := 0, registry := []
    retired := [], freed := fun _ => false, q := fun _ => []
    links := ⟨fun _ => none, fun _ => none⟩, anchor := fun _ => LinkedQueue.Anchor.empty
    whereIs := fun _ => .none, indexed := fun _ => false, allocated := fun _ => false
    hidx := Table.empty, hidxLive := 0, hung := false, runs := [], intakeSeq := 0
    deadLetterCount := 0, maxDeadLetters := a.maxDeadLetters, deadEvicted := 0, reservedMem := 0
    running := 0, resources := [], nworkers := if a.manual then 0 else a.maxConcurrentTasks
    maxItems := a.maxItems, maxPayload := a.maxPayload, sealed := false, freeItems := []
    poolNres := 0, stopping := false, shutdownGraceMs := a.shutdownGraceMs, stopDeadlineMs := 0
    workersExit := false, manual := a.manual, nextHandle := 1, schedFn := false, constraints := 0
    reserveAfterSkips := reserveAfter, activeDefines := 0 }

end Gptps.EngineApi
