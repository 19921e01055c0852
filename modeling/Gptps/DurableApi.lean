import Gptps.DurableState

/-!
# The critical sections of the durable queue

Each function is what one call or one event does under the table's lock: reserving and settling a
submit, beginning and ending a retraction, applying an event, handing records back to the engine,
draining the quarantine and opening the queue. What the engine answers, which allocations succeed
and how each marker's write goes are arguments.
-/

namespace Gptps.DurableApi

open JournalFormat DurableRecords JournalReplay JournalDamage DurableIndex DurableState
open EngineState (EvKind)

section Engine

/-- What the engine and the allocator answer to one resubmission. -/
structure Resub where
  /-- Memory for a larger index is to be had. -/
  alloc : Bool
  /-- The handle `gptps_submit` issued, `none` if it refused. -/
  handle : Option ℕ
  deriving DecidableEq, Repr

/-- A handle the engine may issue: it is never 0 and never issued twice, and no work is taken
while the engine tears down. -/
def canIssue (q : Dq) (h : ℕ) : Bool := h ≠ 0 && !q.tearing && !(q.issued.map Prod.fst).contains h

/-- The record at `i` gets the handle `h`. -/
def giveHandle (q : Dq) (i h : ℕ) : Option Dq :=
  match q.recs[i]?, canIssue q h with
  | some rc, true =>
    (mapPut q.index h rc.seq).map fun x =>
      { q with
        index := x
        recs := q.recs.modify i fun rc => { rc with handle := h }
        issued := (h, rc.seq) :: q.issued }
  | _, _ => none

/-- Offers the engine the record at `i`; whether it took it. -/
def resubmit (q : Dq) (i : ℕ) (r : Resub) : Option (Dq × Bool) :=
  match mapReserve q.index 1 r.alloc with
  | none => some (q, false)
  | some x =>
    match r.handle with
    | none => some ({ q with index := mapUnreserve x 1 }, false)
    | some h => (giveHandle { q with index := x } i h).map fun q' => (q', true)

/-- Whether a record waits for its turn as a suspect. -/
def waitsTurn (rc : DqRec) : Bool :=
  !rc.done && !rc.quarantined && rc.suspect && rc.handle = 0

/-- The loop of `trial_next` from the record at `i` on. -/
def trialFrom (q : Dq) (rs : List Resub) : ℕ → ℕ → Option Dq
  | 0, _ => some q
  | n + 1, i =>
    match q.recs[i]? with
    | none => some q
    | some rc =>
      if waitsTurn rc then
        match rs with
        | [] => none
        | r :: rs =>
          match resubmit q i r with
          | none => none
          | some (q', true) => some { q' with trial := rc.seq }
          | some (q', false) => trialFrom q' rs n (i + 1)
      else trialFrom q rs n (i + 1)

/-- Hands the engine the next suspect, oldest first. -/
def trialNext (q : Dq) (rs : List Resub) : Option Dq := trialFrom q rs q.recs.length 0

/-- Whether `gptps_dq_recover` offers a record. -/
def recovers (rc : DqRec) : Bool :=
  !(rc.done || rc.quarantined || rc.handle ≠ 0 || rc.suspect || rc.committing)

/-- The loop of `gptps_dq_recover` from the record at `i` on, with the answers it leaves. -/
def recoverFrom (q : Dq) (rs : List Resub) : ℕ → ℕ → Option (Dq × List Resub)
  | 0, _ => some (q, rs)
  | n + 1, i =>
    match q.recs[i]? with
    | none => some (q, rs)
    | some rc =>
      if recovers rc then
        match rs with
        | [] => none
        | r :: rs => (resubmit q i r).bind fun p => recoverFrom p.1 rs n (i + 1)
      else recoverFrom q rs n (i + 1)

/-- `gptps_dq_recover` -/
def gptpsDqRecover (q : Dq) (rs : List Resub) : Option Dq :=
  (recoverFrom q rs q.recs.length 0).bind fun p =>
    if p.1.trial = 0 then trialNext p.1 p.2 else some p.1

end Engine

section Events

/-- Whether a record is open. -/
def isOpen (rc : DqRec) : Bool := !rc.done && !rc.quarantined

/-- Changes the record at `i`. -/
def setRec (q : Dq) (i : ℕ) (f : DqRec → DqRec) : Dq := { q with recs := q.recs.modify i f }

/-- The place of the open record a handle belongs to. -/
def findOpen (q : Dq) (h : ℕ) : Option ℕ :=
  (mapFind q.index h).bind fun seq => (findBySeq q.recs seq).bind fun i =>
    match q.recs[i]? with
    | some rc => if isOpen rc then some i else none
    | none => none

/-- Closes the open record at `i` with its verdict, a 'D' or a 'Q'. -/
def closeRec (q : Dq) (d : Disk) (i : ℕ) (rc : DqRec) (type : UInt8) (m : MarkOut) :
    Option (Dq × Disk) :=
  (appendMarker q d type rc.seq m).map fun d' =>
    ({ q with
        recs := q.recs.modify i fun rc =>
          if type = typeQ then { rc with quarantined := true, inflight := false }
          else { rc with done := true, inflight := false }
        index := mapDel q.index rc.handle
        pending := q.pending - 1 }, d')

/-- A verdict waits while a retraction of the record is under way. -/
def closeOrDefer (q : Dq) (d : Disk) (i : ℕ) (rc : DqRec) (type : UInt8) (m : MarkOut) :
    Option (Dq × Disk) :=
  if 0 < rc.retracting then some (setRec q i fun rc => { rc with deferred := some type }, d)
  else closeRec q d i rc type m

/-- What the observer reads of an event. -/
structure Event where
  /-- What happened. -/
  kind : EvKind
  /-- The item it happened to. -/
  handle : ℕ
  /-- The status is GPTPS_E_CANCELLED. -/
  cancelled : Bool
  /-- The body cancelled itself. -/
  selfCancelled : Bool
  /-- Teardown imposed it. -/
  shutdown : Bool
  deriving DecidableEq, Repr

/-- An attempt that was running has ended without a verdict. -/
def attemptEnds (q : Dq) (d : Disk) (i : ℕ) (rc : DqRec) (m : MarkOut) : Option (Dq × Disk) :=
  if rc.inflight then
    (appendMarker q d typeF rc.seq m).map fun d' =>
      (setRec q i fun rc => { rc with inflight := false, crashes := 0, suspect := false }, d')
  else some (q, d)

/-- What an event does to the open record at `i`. -/
def applyEvent (q : Dq) (d : Disk) (i : ℕ) (rc : DqRec) (ev : Event) (m m' : MarkOut) :
    Option (Dq × Disk) :=
  match ev.kind with
  | .started =>
    (appendMarker q d typeS rc.seq m).map fun d' =>
      (setRec q i fun rc => { rc with inflight := true }, d')
  | .failed =>
    (attemptEnds q d i rc m).bind fun p =>
      if ev.cancelled ∧ ev.selfCancelled then closeOrDefer p.1 p.2 i rc typeD m' else some p
  | .finished => closeOrDefer q d i rc typeD m
  | .deadLettered => if ev.shutdown then some (q, d) else closeOrDefer q d i rc typeQ m
  | .dropped => if ev.shutdown then some (q, d) else closeOrDefer q d i rc typeD m
  | _ => some (q, d)

/-- The events that end the turn of a suspect on trial. -/
def endsTurn (k : EvKind) : Bool :=
  match k with
  | .failed => true
  | .finished => true
  | .deadLettered => true
  | .dropped => true
  | _ => false

/-- `dq_on_event` -/
def dqOnEvent (q : Dq) (d : Disk) (ev : Event) (m m' : MarkOut) (rs : List Resub) :
    Option (Dq × Disk) :=
  if ev.kind = .queued ∨ ev.kind = .retried then some (q, d)
  else
    match findOpen q ev.handle with
    | none => some (q, d)
    | some i =>
      match q.recs[i]? with
      | none => none
      | some rc =>
        (applyEvent q d i rc ev m m').bind fun p =>
          if rc.seq = q.trial ∧ endsTurn ev.kind then
            (trialNext { p.1 with trial := 0 } rs).map fun q' => (q', p.2)
          else some p

end Events

section Submit

/-- Which of a submit's allocations succeed. -/
structure AllocOut where
  /-- The copies of the names and payloads. -/
  dup : Bool
  /-- A larger index. -/
  reserve : Bool
  /-- The places in the table. -/
  push : Bool
  deriving DecidableEq, Repr

/-- The bounds of an item. -/
def itemFits (x : Item) : Bool := x.payload.length ≤ maxPayload && x.name.length ≤ maxName

/-- How the first part of a submit ends. -/
inductive Begun
  /-- Refused with a status. -/
  | refused (q : Dq) (st : Status)
  /-- Its records are in the table and it holds the journal. -/
  | begun (q : Dq)

/-- The first part of `gptps_dq_submit` and `gptps_dq_submit_batch`, up to the journal. -/
def submitBegin (q : Dq) (id : ℕ) (items : List Item) (batch : Bool) (a : AllocOut) : Begun :=
  let n := items.length
  if n = 0 then .refused q .ok
  else if ¬items.all itemFits then .refused q .inval
  else if ¬a.dup then .refused q .nomem
  else if q.nextSeq > maxSeq ∨ n - 1 > maxSeq - q.nextSeq then .refused q .full
  else
    match mapReserve q.index n a.reserve with
    | none => .refused q .nomem
    | some x =>
      if ¬a.push then .refused { q with index := mapUnreserve x n } .nomem
      else
        .begun { q with
          index := x
          nextSeq := q.nextSeq + n
          recs := q.recs ++ items.mapIdx fun i it =>
            { seq := q.nextSeq + i, name := it.name, payload := it.payload, committing := true }
          calls := ⟨id, .submit items batch, q.nextSeq, .write⟩ :: q.calls }

/-- What the engine answers to one item, and how a marker for it goes. -/
structure Offer where
  /-- The handle issued, `none` if the work was refused. -/
  handle : Option ℕ
  /-- The marker of a refused item. -/
  mark : MarkOut
  deriving DecidableEq, Repr

/-- Settles one record of a submit whose write ended durable or not. -/
def settleItem (durable : Bool) (q : Dq) (d : Disk) (seq : ℕ) (o : Offer) : Option (Dq × Disk) :=
  match findBySeq q.recs seq with
  | none => none
  | some i =>
    if ¬durable then
      some ({ setRec q i fun rc => { rc with committing := false, done := true } with
        index := mapUnreserve q.index 1 }, d)
    else
      match o.handle with
      | some h =>
        (giveHandle { setRec q i fun rc => { rc with committing := false } with
          pending := q.pending + 1 } i h).map fun q' => (q', d)
      | none =>
        -- the engine refused it: counted and closed at once
        (appendMarker q d typeD seq o.mark).map fun d' =>
          ({ setRec q i fun rc => { rc with committing := false, done := true } with
            pending := q.pending + 1 - 1, index := mapUnreserve q.index 1 }, d')

/-- Settles the records from `seq` on, one for each offer. -/
def settleItems (durable : Bool) : Dq → Disk → ℕ → List Offer → Option (Dq × Disk)
  | q, d, _, [] => some (q, d)
  | q, d, seq, o :: os =>
    (settleItem durable q d seq o).bind fun p => settleItems durable p.1 p.2 (seq + 1) os

/-- How the durable write of a call ended, `none` while it has not. -/
def settled (q : Dq) (c : Call) : Option Bool :=
  match c.pc with
  | .lost => some false
  | .wait wrote =>
    match waiterOf q.jnl.waiters c.id with
    | some w =>
      if w.state = .waiting then none else some (wrote && w.state = .durable)
    | none => none
  | _ => none

/-- The last part of a submit. -/
def submitEnd (q : Dq) (d : Disk) (c : Call) (offers : List Offer) : Option (Dq × Disk × Bool) :=
  match settled q c with
  | none => none
  | some durable =>
    let q' := { q with
      jnl := unregisterWaiter q.jnl c.id
      calls := dropCall q.calls c.id }
    (settleItems durable q' d c.first offers).map fun p => (p.1, p.2, durable)

end Submit

section Cancel

/-- The first part of `gptps_dq_cancel`: the queue with the call, `none` if there is no open record
for the handle. -/
def cancelBegin (q : Dq) (id h : ℕ) : Option Dq :=
  (findOpen q h).bind fun i => (q.recs[i]?).map fun rc =>
    { setRec q i fun rc => { rc with retracting := rc.retracting + 1 } with
      calls := ⟨id, .cancel h, rc.seq, .write⟩ :: q.calls }

/-- What the end of a retraction does to the record at `i`: the queue, the disk, and whether the
retraction stands. -/
def retract (q : Dq) (d : Disk) (i : ℕ) (rc : DqRec) (durable : Bool) (m : MarkOut)
    (rs : List Resub) : Option (Dq × Disk × Bool) :=
  let left := setRec q i fun rc => { rc with retracting := rc.retracting - 1 }
  if durable then
    if isOpen rc then
      let gone := { setRec left i fun rc =>
          { rc with deferred := none, done := true, inflight := false } with
        index := mapDel q.index rc.handle, pending := q.pending - 1 }
      if rc.seq = q.trial then
        (trialNext { gone with trial := 0 } rs).map fun q' => (q', d, true)
      else some (gone, d, true)
    else some (setRec left i fun rc => { rc with deferred := none }, d, true)
  -- another retraction made it
  else if rc.done then some (left, d, true)
  else
    match rc.deferred with
    | some v =>
      if rc.retracting = 1 then
        -- not withdrawn after all: the verdict that waited applies
        (closeRec (setRec left i fun rc => { rc with deferred := none }) d i rc v m).map
          fun p => (p.1, p.2, false)
      else some (left, d, false)
    | none => some (left, d, false)

/-- The last part of `gptps_dq_cancel` under the lock. -/
def cancelEnd (q : Dq) (d : Disk) (c : Call) (m : MarkOut) (rs : List Resub) :
    Option (Dq × Disk × Bool) :=
  match settled q c with
  | none => none
  | some durable =>
    let q' := { q with jnl := unregisterWaiter q.jnl c.id }
    match findBySeq q'.recs c.first with
    -- retracted by another call and compacted away
    | none => some (q', d, true)
    | some i =>
      match q'.recs[i]? with
      | none => none
      | some rc => retract q' d i rc durable m rs

end Cancel

section Open

/-- `gptps_dq_drain_quarantine_ex` before its compaction: the queue and the records drained. -/
def drainQuarantine (q : Dq) : Dq × ℕ :=
  ({ q with recs := q.recs.map fun rc =>
      if rc.quarantined then { rc with quarantined := false, done := true } else rc },
    (q.recs.filter (·.quarantined)).length)

/-- The largest crash count. -/
def crashMax : ℕ := 2 ^ 32 - 1

/-- The deaths that make a record a suspect. -/
def suspectAt : ℕ := 2

/-- The deaths that quarantine a record. -/
def quarantineAt : ℕ := 3

/-- Counts the death of the last process against a record that was running then. -/
def countDeath (rc : DqRec) : DqRec :=
  if rc.inflight then
    { rc with inflight := false
              crashes := if rc.crashes < crashMax then rc.crashes + 1 else rc.crashes }
  else rc

/-- What `gptps_dq_open` makes of a record it read. -/
def openRec (rc : DqRec) : DqRec :=
  if rc.done ∨ rc.quarantined then rc
  else
    let rc' := countDeath rc
    if rc'.crashes ≥ quarantineAt then { rc' with quarantined := true }
    else { rc' with suspect := decide (rc'.crashes ≥ suspectAt) }

/-- How the parts of `gptps_dq_open` outside the journal go. -/
structure OpenOut where
  /-- Memory is to be had and every read succeeds. -/
  memory : Bool
  /-- The end of the journal can be told. -/
  knowsEnd : Bool
  /-- A damaged journal could be copied aside. -/
  copied : Bool
  /-- The observer was registered. -/
  observer : Bool
  /-- The compaction. -/
  rewrite : RewriteOut
  deriving DecidableEq, Repr

/-- The queue once its journal is read. -/
def readIn (t : DqTable) : Dq where
  nextSeq := t.nextSeq
  recs := t.recs.map openRec
  pending := (t.recs.map openRec).countP isOpen
  index := .empty
  trial := 0
  jnl := ⟨false, false, [], 0, 0, 0, none, false⟩
  calls := []
  issued := []
  tearing := false

/-- `gptps_dq_open`: the queue and the disk, `none` if it answers NULL, which leaves the journal
as it was. -/
def gptpsDqOpen (d : Disk) (o : OpenOut) : Option (Dq × Disk) :=
  match replay (d.cur.map fun f => f.content) o.knowsEnd with
  | .done sc =>
    if ¬o.memory ∨ (sc.dmg.cut ∧ ¬o.copied) ∨ ¬o.observer then none
    else
      match doRewrite (readIn sc.table) d o.rewrite with
      | some (q, d', _, true) => some (q, d')
      | _ => none
  | _ => none

end Open

end Gptps.DurableApi
