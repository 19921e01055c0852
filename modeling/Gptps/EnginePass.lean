import Gptps.EngineStore

/-!
# One scheduling pass

`engine_pass`: drain completed work and decide each item's next state, promote
retries whose backoff is over, park the retries just announced, enforce
deadlines, bound the shutdown drain, admit within the budgets, and let the
handle index shrink. What host code answers during the pass (constraint hooks,
the scheduler hook, allocations) is an input of the pass.
-/

namespace Gptps.EnginePass

open Function EngineState EngineStore

/-- A constraint hook's decision. -/
inductive Decision
  /-- GPTPS_ADMIT -/
  | admitted
  /-- GPTPS_DENY -/
  | deny
  /-- GPTPS_DEFER -/
  | defer
  deriving DecidableEq, Repr

/-- What the hooks decide together; a deferral carries the delay in milliseconds. -/
inductive Verdict
  /-- Every hook admits. -/
  | admitted
  /-- A hook denies. -/
  | deny
  /-- A hook defers, none denies. -/
  | defer (retryAfter : ℕ)
  deriving DecidableEq, Repr

/-- What a pass is given by the clock, the host's hooks and the allocator. -/
structure PassIn where
  /-- The monotonic clock when the pass begins. -/
  now : ℕ
  /-- The answer of each constraint hook at each consultation of this pass. -/
  hook : ℕ → ℕ → Decision × ℕ
  /-- The scheduler hook's score of each intake item. -/
  score : Item → ℤ
  /-- Whether the snapshot of each admission could be allocated. -/
  snapOk : ℕ → Bool
  /-- Whether a smaller index could be allocated. -/
  trimOk : Bool

/-- An admission as it was decided: the engine before it and the two items compared. -/
structure Admission where
  /-- The engine at the decision. -/
  before : Engine
  /-- The first item in admission order. -/
  top : Item
  /-- The item admitted. -/
  best : Item

/-- The variables of a pass. -/
structure PassState where
  /-- The engine. -/
  e : Engine
  /-- The events buffered for the caller to emit. -/
  pend : List Ev
  /-- Work is still owed: run another pass at once. -/
  more : Bool
  /-- The nearest deadline or backoff; zero is none. -/
  nextWake : ℕ
  /-- Retries decided in this pass. -/
  announced : List Item
  /-- Retries of this pass that are due already. -/
  held : ℕ
  /-- Their memory, saturating. -/
  heldMem : ℕ
  /-- The highest of their scores. -/
  heldScore : ℤ
  /-- The shutdown grace is over. -/
  pastGrace : Bool
  /-- How often the hooks were consulted. -/
  asked : ℕ
  /-- How many snapshots were asked of the allocator. -/
  snaps : ℕ
  /-- The admissions of this pass. -/
  admissions : List Admission

/-- The task type of an item that still has one. -/
def regOf (e : Engine) (c : Core) : Option Reg := c.reg.map e.reg

/-- Whether an item is an instance of a service. -/
def isService (e : Engine) (c : Core) : Bool := (regOf e c).any (·.service)

/-- Whether an item is an instance of a service that a clean return does not retire. -/
def isAlwaysUp (e : Engine) (c : Core) : Bool :=
  (regOf e c).any fun r => r.service && !r.retireOnOk

/-- Whether an item's type is tombstoned. -/
def isRemoved (e : Engine) (c : Core) : Bool := (regOf e c).any (·.removed)

/-- Whether the removal of an item's type discards work. -/
def isCancelling (e : Engine) (c : Core) : Bool := (regOf e c).any (·.cancelling)

/-- `item_name`: the owned copy, the type's name, or a question mark. -/
def itemName (e : Engine) (it : Item) : Name :=
  match it.nameOwned with
  | some n => n
  | none => ((regOf e it.toCore).map (·.name)).getD [63]

/-- `ev_set_name`: as much of a name as an event carries. -/
def evSetName (n : Name) : Name := n.take (evNameMax - 1)

/-- An event about an item. -/
def evOf (e : Engine) (it : Item) (kind : EvKind) (status : Status) (shutdown : Bool) : Ev :=
  { kind := kind, handle := it.handle, name := evSetName (itemName e it), status := status
    attempt := it.attempt, mem := it.costMem, shutdown := shutdown, selfCancelled := false }

/-- Buffer an event unless the buffer is full. -/
def pushEv (pend : List Ev) (ev : Ev) : List Ev :=
  if pend.length < pendingCap then pend ++ [ev] else pend

/-- `terminal_reported`: the current attempt ran and reported the event that closes
the handle. -/
def terminalReported (e : Engine) (c : Core) : Bool :=
  c.started && (c.outcome = .cancelled || (c.outcome = .ok && !isAlwaysUp e c))

/-- `requeue_at`: when an unbounded requeue may be admitted again. -/
def requeueAt (now backoffSeconds : ℕ) : ℕ := now + max (backoffSeconds * 1000) requeueMinBackoffMs

/-- `min_nonzero`: the earlier of two instants, zero meaning none. -/
def minNonzero (a b : ℕ) : ℕ := if a = 0 then b else if b = 0 then a else min a b

/-- Take a snapshot's amounts off the resources. -/
def releaseRes : List Resource → List UInt64 → List Resource
  | r :: rs, s :: ss => { r with reserved := r.reserved - s } :: releaseRes rs ss
  | rs, _ => rs

/-- Add a snapshot's amounts to the resources. -/
def reserveRes : List Resource → List UInt64 → List Resource
  | r :: rs, s :: ss => { r with reserved := r.reserved + s } :: reserveRes rs ss
  | rs, _ => rs

/-- Release what an admitted item holds of the budgets. -/
def release (e : Engine) (c : Core) : Engine :=
  { e with
    reservedMem := e.reservedMem - c.costMem
    running := e.running - 1
    resources := releaseRes e.resources (c.resReserved.getD []) }

/-- Buffer the closing event an item still owes, and free it. -/
def dropOwing (ps : PassState) (e : Engine) (it : Item) : PassState :=
  { ps with
    pend := if terminalReported e it.toCore then ps.pend
      else pushEv ps.pend (evOf e it .failed .cancelled false)
    e := itemDrop e it }

/-- Step 1 for one item taken from `done`: release its budget, then decide. -/
def decideDone (now : ℕ) (ps : PassState) (it₀ : Item) : PassState :=
  let e := release ps.e it₀.toCore
  let it := { it₀ with resReserved := none }
  if it.outcome = .ok then
    if isAlwaysUp e it.toCore ∧ ¬ it.cancelled ∧ ¬ isRemoved e it.toCore ∧ ¬ e.stopping then
      { ps with e := fifoPush e .delayed { it with
          attempt := 1
          notBeforeMs := requeueAt now it.policy.retryBackoffSeconds } }
    else dropOwing ps e it
  else if it.cancelled then dropOwing ps e it
  else if it.started ∧ it.outcome = .cancelled then { ps with e := itemDrop e it }
  else if isRemoved e it.toCore then
    if isCancelling e it.toCore then dropOwing ps e it
    else if it.policy.onFailure = .drop then
      { ps with
        pend := pushEv ps.pend (evOf e it .dropped it.outcome false)
        e := itemDrop e it }
    else
      { ps with
        pend := pushEv ps.pend (evOf e it .deadLettered it.outcome false)
        e := deadLetterPush e it }
  else if it.attempt ≤ it.policy.maxRetries then
    let it' := { it with
      attempt := it.attempt + 1
      notBeforeMs := now + it.policy.retryBackoffSeconds * 1000 }
    { ps with
      pend := pushEv ps.pend (evOf e it' .retried it.outcome false)
      e := e
      announced := ps.announced ++ [it'] }
  else
    match it.policy.onFailure with
    | .requeue =>
      if e.stopping then
        let it' := { it with outcome := .shutdown }
        { ps with
          pend := pushEv ps.pend (evOf e it' .deadLettered .shutdown true)
          e := deadLetterPush e it' }
      else
        { ps with e := fifoPush e .delayed { it with
            attempt := 1
            notBeforeMs := requeueAt now it.policy.retryBackoffSeconds } }
    | .drop =>
      { ps with
        pend := pushEv ps.pend (evOf e it .dropped it.outcome false)
        e := itemDrop e it }
    | .deadLetter =>
      { ps with
        pend := pushEv ps.pend (evOf e it .deadLettered it.outcome false)
        e := deadLetterPush e it }

/-- Step 1: drain `done` while the event buffer has room. -/
def drainDone (now : ℕ) : ℕ → PassState → PassState
  | 0, ps => ps
  | fuel + 1, ps =>
    if ps.pend.length < pendingCap then
      match fifoPop ps.e .done with
      | none => ps
      | some (it, e) => drainDone now fuel (decideDone now { ps with e := e } it)
    else ps

/-- Step 2 for one delayed item: back to intake once its backoff is over. -/
def promoteOne (now : ℕ) (ps : PassState) (it : Item) : PassState :=
  if it.notBeforeMs ≤ now then
    { ps with e := intakeInsert (fifoRemove ps.e .delayed it) { it with started := false } }
  else { ps with nextWake := minNonzero ps.nextWake it.notBeforeMs }

/-- Step 2b for one announced retry: park it, and tally it if it is due already. -/
def parkOne (now : ℕ) (ps : PassState) (it : Item) : PassState :=
  let e := fifoPush ps.e .delayed it
  if it.notBeforeMs ≤ now then
    { ps with
      e := e
      heldScore := if ps.held = 0 ∨ ps.heldScore < it.schedScore then it.schedScore else ps.heldScore
      heldMem := min (ps.heldMem + it.costMem.toNat) (2 ^ 64 - 1)
      held := ps.held + 1
      more := true }
  else { ps with e := e, nextWake := minNonzero ps.nextWake it.notBeforeMs }

/-- Step 3 for one running item: raise the cancel word once the deadline has passed. -/
def checkDeadline (now : ℕ) (it : Item) : Item :=
  if it.deadlineMs ≠ 0 ∧ it.deadlineMs ≤ now then { it with cancel := true } else it

/-- Step 3's nearest deadline still to come. -/
def deadlineWake (now : ℕ) (wake : ℕ) (it : Item) : ℕ :=
  if it.deadlineMs ≠ 0 ∧ now < it.deadlineMs then minNonzero wake it.deadlineMs else wake

/-- Step 3: enforce the deadlines of running tasks. -/
def enforceDeadlines (now : ℕ) (ps : PassState) : PassState :=
  { ps with
    nextWake := (ps.e.q .running).foldl (deadlineWake now) ps.nextWake
    e := mapQueue ps.e .running (checkDeadline now) }

/-- The next item step 3b ends: a delayed one first, then a queued one. -/
def popWaiting (e : Engine) : Option (Item × Engine) :=
  match fifoPop e .delayed with
  | some r => some r
  | none => fifoPop e .intake

/-- Step 3b for one waiting item: end it by its policy. -/
def endWaiting (ps : PassState) (it₀ : Item) : PassState :=
  let it := { it₀ with outcome := .shutdown }
  if it.policy.onFailure = .drop then
    { ps with
      pend := ps.pend ++ [evOf ps.e it .dropped .shutdown true]
      e := itemDrop ps.e it }
  else
    { ps with
      pend := ps.pend ++ [evOf ps.e it .deadLettered .shutdown true]
      e := deadLetterPush ps.e it }

/-- Step 3b's loop over delayed and queued work. -/
def drainWaiting : ℕ → PassState → PassState
  | 0, ps => ps
  | fuel + 1, ps =>
    if ps.pend.length < pendingCap then
      match popWaiting ps.e with
      | none => ps
      | some (it, e) => drainWaiting fuel (endWaiting { ps with e := e } it)
    else ps

/-- Ask a running item to stop for good. -/
def stopItem (it : Item) : Item := { it with cancelled := true, cancel := true }

/-- Step 3b: bound the shutdown drain. -/
def boundDrain (now : ℕ) (ps : PassState) : PassState :=
  if ps.e.stopping ∧ ps.e.stopDeadlineMs ≠ 0 then
    if ps.e.stopDeadlineMs ≤ now then
      let ps₁ := drainWaiting ((ps.e.q .delayed).length + (ps.e.q .intake).length) ps
      let e := intakeForget ps₁.e
      { ps₁ with
        more := ps₁.more || !(e.q .delayed).isEmpty || !(e.q .intake).isEmpty
        pastGrace := true
        e := mapQueue e .running stopItem }
    else { ps with nextWake := minNonzero ps.nextWake ps.e.stopDeadlineMs }
  else ps

/-- The cost of a type on the named resources, if the engine has any. -/
def costOf (e : Engine) (c : Core) : Option (List UInt64) :=
  if e.resources = [] then none else (regOf e c).bind (·.resCost)

/-- Every resource with a non-zero cost has that much left of its budget, the sum
being taken in machine words. -/
def fitsAll : List Resource → List UInt64 → Bool
  | r :: rs, c :: cs => (c = 0 || r.reserved + c ≤ r.budget) && fitsAll rs cs
  | _, _ => true

/-- Some resource's whole budget is less than the cost. -/
def exceedsAny : List Resource → List UInt64 → Bool
  | r :: rs, c :: cs => r.budget < c || exceedsAny rs cs
  | _, _ => false

/-- `res_fits`: the named-resource costs fit what is left of each budget. -/
def resFits (e : Engine) (c : Core) : Bool :=
  match costOf e c with
  | none => true
  | some cost => fitsAll e.resources cost

/-- `res_never_fits`: a cost exceeds the whole budget. -/
def resNeverFits (e : Engine) (c : Core) : Bool :=
  e.maxMemoryBytes < c.costMem ||
    match costOf e c with
    | none => false
    | some cost => exceedsAny e.resources cost

/-- The item fits the live memory and resource budgets. -/
def fitsNow (e : Engine) (c : Core) : Bool :=
  e.reservedMem + c.costMem ≤ e.maxMemoryBytes && resFits e c

/-- What the walk over intake finds first. -/
inductive Scan
  /-- Nothing fits now, and nothing ahead can never fit. -/
  | nothing
  /-- An item that can never fit. -/
  | stranded (it : Item)
  /-- An item that fits now. -/
  | best (it : Item)
  deriving DecidableEq, Repr

/-- Step 4's walk in admission order. -/
def scanIntake (e : Engine) : List Item → Scan
  | [] => .nothing
  | it :: rest =>
    if resNeverFits e it.toCore then .stranded it
    else if fitsNow e it.toCore then .best it
    else scanIntake e rest

/-- The loop of `run_constraints` over the hooks from `i` on. -/
def consultHooks (answer : ℕ → Decision × ℕ) : ℕ → ℕ → Bool → ℕ → Verdict
  | 0, _, deferred, maxDefer =>
    if deferred then .defer (if maxDefer = 0 then 1 else maxDefer) else .admitted
  | n + 1, i, deferred, maxDefer =>
    match answer i with
    | (.deny, _) => .deny
    | (.defer, ra) => consultHooks answer n (i + 1) true (max maxDefer ra)
    | (.admitted, _) => consultHooks answer n (i + 1) deferred maxDefer

/-- `run_constraints`: any denial rejects, else any deferral delays. -/
def runConstraints (e : Engine) (answer : ℕ → Decision × ℕ) : Verdict :=
  consultHooks answer e.constraints 0 false 0

/-- The retries announced in this pass have to be kept room for, and the item does
not fit beside them. -/
def heldBack (ps : PassState) (it : Item) : Bool :=
  ps.held ≠ 0 && it.schedScore < ps.heldScore &&
    (ps.e.manual || ps.e.maxConcurrentTasks - ps.e.running ≤ ps.held ||
      (ps.e.maxMemoryBytes - ps.e.reservedMem - it.costMem).toNat < ps.heldMem)

/-- Charge the skipped first item of intake. -/
def chargeSkip (p : Ptr) (it : Item) : Item :=
  if it.ptr = p then { it with skips := it.skips + 1 } else it

/-- The amounts an admission reserves: the type's cost of every resource. -/
def takeSnapshot (e : Engine) (cost : List UInt64) : List UInt64 :=
  (List.range e.resources.length).map fun i => cost.getD i 0

/-- Commit the admission of an item: charge the skipped one, reserve, make ready. -/
def admitItem (ps : PassState) (top it : Item) (snap : Option (List UInt64)) : PassState :=
  let e₀ := if it.ptr = top.ptr then ps.e else mapQueue ps.e .intake (chargeSkip top.ptr)
  let e₁ := intakeUnlink e₀ it
  let e₂ := { e₁ with
    reservedMem := e₁.reservedMem + it.costMem
    running := e₁.running + 1
    resources := reserveRes e₁.resources (snap.getD []) }
  { ps with
    e := fifoPush e₂ .ready { it with resReserved := snap }
    admissions := ps.admissions ++ [⟨ps.e, top, it⟩] }

/-- One round of the admission loop; the second answer tells whether to go on. -/
def admitOnce (inp : PassIn) (ps : PassState) (top : Item) : PassState × Bool :=
  match scanIntake ps.e (ps.e.q .intake) with
  | .nothing => (ps, false)
  | .stranded it =>
    if pendingCap ≤ ps.pend.length then ({ ps with more := true }, false)
    else
      let e := intakeUnlink ps.e it
      let it' := { it with outcome := .budget }
      ({ ps with
        pend := pushEv ps.pend (evOf e it' .deadLettered .budget false)
        e := deadLetterPush e it' }, true)
  | .best it =>
    if heldBack ps it then (ps, false)
    else if it.ptr ≠ top.ptr ∧ ps.e.reserveAfterSkips ≤ top.skips then (ps, false)
    else
      match runConstraints ps.e (inp.hook ps.asked) with
      | .defer retryAfter =>
        let it' := { it with notBeforeMs := inp.now + retryAfter }
        ({ ps with
          asked := ps.asked + 1
          e := fifoPush (intakeUnlink ps.e it) .delayed it'
          nextWake := minNonzero ps.nextWake it'.notBeforeMs }, true)
      | .deny =>
        if pendingCap ≤ ps.pend.length then ({ ps with asked := ps.asked + 1, more := true }, false)
        else
          let e := intakeUnlink ps.e it
          let it' := { it with outcome := .denied }
          ({ ps with
            asked := ps.asked + 1
            pend := pushEv ps.pend (evOf e it' .deadLettered .denied false)
            e := deadLetterPush e it' }, true)
      | .admitted =>
        let ps₁ := { ps with asked := ps.asked + 1 }
        match costOf ps.e it.toCore with
        | none => (admitItem ps₁ top it none, true)
        | some cost =>
          if ps.e.maxItems ≠ 0 ∨ inp.snapOk ps.snaps then
            (admitItem { ps₁ with snaps := ps.snaps + 1 } top it
              (some (takeSnapshot ps.e cost)), true)
          else
            ({ ps₁ with
              snaps := ps.snaps + 1
              nextWake := minNonzero ps.nextWake (inp.now + 50) }, false)

/-- Step 4: admit in scheduler order while a slot is free. -/
def admitLoop (inp : PassIn) : ℕ → PassState → PassState
  | 0, ps => ps
  | fuel + 1, ps =>
    match ps.e.q .intake with
    | [] => ps
    | top :: _ =>
      if ps.pastGrace ∨ ps.e.maxConcurrentTasks ≤ ps.e.running then ps
      else
        match admitOnce inp ps top with
        | (ps', true) => admitLoop inp fuel ps'
        | (ps', false) => ps'

/-- Step 4's rescoring by an installed scheduler hook. -/
def rescore (inp : PassIn) (ps : PassState) : PassState :=
  if ps.pastGrace ∨ ¬ ps.e.schedFn ∨ ps.e.q .intake = [] ∨
      ps.e.maxConcurrentTasks ≤ ps.e.running then ps
  else
    let e := mapQueue ps.e .intake fun it => { it with schedScore := inp.score it }
    { ps with e := intakeResort e }

/-- The variables of a pass as it begins. -/
def passStart (e : Engine) : PassState :=
  { e := e, pend := [], more := false, nextWake := 0, announced := [], held := 0, heldMem := 0
    heldScore := 0, pastGrace := false, asked := 0, snaps := 0, admissions := [] }

/-- Steps 1 to 3b: everything before admission. -/
def passSettle (inp : PassIn) (e : Engine) : PassState :=
  let ps₁ := drainDone inp.now (e.q .done).length (passStart e)
  let ps₁ := { ps₁ with more := !(ps₁.e.q .done).isEmpty }
  let ps₂ := (ps₁.e.q .delayed).foldl (promoteOne inp.now) ps₁
  let ps₃ := ps₂.announced.foldl (parkOne inp.now) { ps₂ with announced := [] }
  boundDrain inp.now (enforceDeadlines inp.now ps₃)

/-- `engine_pass`: one non-blocking scheduling pass. -/
def enginePass (inp : PassIn) (e : Engine) : PassState :=
  let ps₄ := rescore inp (passSettle inp e)
  let ps₅ := admitLoop inp (ps₄.e.q .intake).length ps₄
  { ps₅ with e := hidxTrim ps₅.e inp.trimOk }

end Gptps.EnginePass
