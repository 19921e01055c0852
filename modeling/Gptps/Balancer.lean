import Gptps.ArrayHeap
import Gptps.EngineState
import Gptps.ProbeMap

/-!
# The load balancer above a pool of engines

The router keeps the work in one priority queue and hands the first of it to the shard with the least
outstanding work, as long as some shard is below its depth. One lock guards it: what a call does
while it holds the lock is one function here. The engines below are only what the router can tell of
them: whether they run, which handles had no last event yet, and what they answer.
-/

namespace Gptps.Balancer

open Function EngineState ProbeMap

section State

/-- The state of an item. -/
inductive ItemState
  /-- IT_QUEUED -/
  | queued
  /-- IT_DISPATCHED -/
  | dispatched
  /-- IT_CANCELLED -/
  | cancelled
  deriving DecidableEq, Repr

/-- `bitem`; its address is its handle, and what orders the heap is in its entry there. -/
structure Item where
  /-- The state. -/
  state : ItemState
  /-- The shard it was handed to. -/
  shard : ℕ := 0
  /-- The handle the shard gave it. -/
  eh : Handle := 0
  /-- The name of its task, until the item is cancelled. -/
  task : Option Name
  /-- Its payload, until the shard has a copy. -/
  payload : List UInt8
  /-- The status of a deferred terminal event. -/
  fail : Status := .ok
  deriving DecidableEq, Repr

/-- What the heap knows of an item. -/
structure Entry where
  /-- The item. -/
  bh : Handle
  /-- Its priority. -/
  prio : ℤ
  /-- Its place in the order of arrival. -/
  seq : ℕ
  deriving DecidableEq, Repr

/-- Higher priorities first, then the older item. -/
def before (x y : Entry) : Bool :=
  if x.prio ≠ y.prio then y.prio < x.prio else x.seq < y.seq

/-- `heap` -/
structure Heap where
  /-- The entries. -/
  a : List Entry
  /-- Room for so many. -/
  cap : ℕ

/-- `bshard` -/
structure Shard where
  /-- How many items it may hold. -/
  cap : ℕ
  /-- Items handed over that are not yet terminal. -/
  load : ℕ
  /-- Those items by the shard's handles. -/
  byEh : Map Handle

/-- `gptps_balance` -/
structure Balance where
  /-- The shards. -/
  sh : List Shard
  /-- The router queue. -/
  q : Heap
  /-- How many of its items are live. -/
  queued : ℕ
  /-- The items that are queued or handed over, by their handles. -/
  byBh : Map Handle
  /-- The last handle given; like the places, it does not come round at 64 bits. -/
  nextBh : ℕ
  /-- The last place in the order of arrival. -/
  nextSeq : ℕ
  /-- The items that are allocated. -/
  items : Handle → Option Item

/-- How far a shard's engine is. -/
inductive Phase
  /-- It takes work. -/
  | running
  /-- `gptps_shutdown` was called. -/
  | stopping
  /-- `gptps_shutdown` returned. -/
  | freed
  deriving DecidableEq, Repr

/-- The engine of a shard. -/
structure Engine where
  /-- How far it is. -/
  phase : Phase := .running
  /-- The handles that had no last event yet. -/
  live : List Handle := []
  /-- The last handle given. -/
  last : Handle := 0
  deriving DecidableEq, Repr

/-- What can be told of the router from outside. -/
inductive Act
  /-- A submit took work that `GPTPS_OK` will be answered for. -/
  | accepted (bh : Handle)
  /-- The host's callback hears an event. -/
  | event (bh : Handle) (k : EvKind) (st : Status)
  /-- A call into the engine of a shard, and whether it was freed before. -/
  | called (i : ℕ) (freed : Bool)
  /-- The first item of the queue goes to a shard; how the router stood then. -/
  | handed (b : Balance) (e : Entry) (i : ℕ)

/-- The router, the engines below it and what happened, in order. -/
structure World where
  /-- The router. -/
  b : Balance
  /-- The engines. -/
  eng : ℕ → Engine
  /-- What happened. -/
  trace : List Act

/-- An item is queued and not cancelled. -/
def isQueued (items : Handle → Option Item) (e : Entry) : Bool :=
  match items e.bh with
  | some it => it.state = .queued
  | none => false

/-- The live items of the queue. -/
def Balance.live (b : Balance) : List Entry := b.q.a.filter (isQueued b.items)

end State

section Engines

/-- What the environment decides when work is submitted to an engine. -/
structure Answer where
  /-- The status of a running engine. -/
  st : Status := .ok
  /-- How many handles others were given since the last one. -/
  skip : ℕ := 0
  /-- A larger map is to be had where one is needed. -/
  memory : Bool := true
  deriving DecidableEq, Repr

/-- The status an engine answers: only one that runs takes work. -/
def Engine.status (g : Engine) (a : Answer) : Status :=
  if g.phase = .running then a.st else if a.st = .ok then .shutdown else a.st

/-- The handle it gives. -/
def Engine.handle (g : Engine) (a : Answer) : Handle := g.last + a.skip + 1

/-- The engine after its answer. -/
def Engine.answered (g : Engine) (a : Answer) : Engine :=
  if g.status a = .ok then { g with live := g.handle a :: g.live, last := g.handle a } else g

/-- The engine once it delivered the last event of a handle. -/
def Engine.ended (g : Engine) (eh : Handle) : Engine := { g with live := g.live.filter (· ≠ eh) }

/-- Note a call into the engine of shard `i`. -/
def World.call (w : World) (i : ℕ) : World :=
  { w with trace := w.trace ++ [.called i ((w.eng i).phase = .freed)] }

/-- The host's callback hears an event. -/
def World.emitAs (w : World) (bh : Handle) (k : EvKind) (st : Status) : World :=
  { w with trace := w.trace ++ [.event bh k st] }

/-- Free an item. -/
def World.itemFree (w : World) (bh : Handle) : World :=
  { w with b := { w.b with items := update w.b.items bh none } }

end Engines

section Sections

/-- Add an entry, if a larger array is to be had where one is needed. -/
def heapPush (h : Heap) (e : Entry) (alloc : Bool) : Option (Heap × Bool) :=
  if h.a.length = h.cap then
    if alloc then
      (ArrayHeap.push before h.a e).map fun a => (⟨a, if h.cap = 0 then 64 else h.cap * 2⟩, true)
    else some (h, false)
  else (ArrayHeap.push before h.a e).map fun a => (⟨a, h.cap⟩, true)

/-- The first shard of least load below its cap, from shard `i` on, against the best before. -/
def bestShard : List Shard → ℕ → Option (ℕ × ℕ) → Option (ℕ × ℕ)
  | [], _, best => best
  | s :: rest, i, none =>
    if s.load < s.cap then bestShard rest (i + 1) (some (i, s.load)) else bestShard rest (i + 1) none
  | s :: rest, i, some (best, bestload) =>
    if s.load < s.cap ∧ s.load < bestload then bestShard rest (i + 1) (some (i, s.load))
    else bestShard rest (i + 1) (some (best, bestload))

/-- The item could not be handed to shard `i`: it is terminal here. -/
def strike (b : Balance) (bh : Handle) (it : Item) (i : ℕ) (s : Shard) (eh : Handle) (fail : Status) :
    Option Balance :=
  (del b.byBh bh).map fun m =>
    { b with
      sh := b.sh.set i { s with load := s.load + 1 - 1 }
      byBh := m
      items := update b.items bh
        (some { it with state := .dispatched, shard := i, eh := eh, fail := fail }) }

/-- The item was handed to shard `i`, which has a copy of its payload. -/
def track (b : Balance) (bh : Handle) (it : Item) (i : ℕ) (s : Shard) (eh : Handle) (m : Map Handle) :
    Balance :=
  { b with
    sh := b.sh.set i { s with load := s.load + 1, byEh := m }
    items := update b.items bh
      (some { it with state := .dispatched, shard := i, eh := eh, payload := [] }) }

/-- Submit an item that left the queue to shard `i`; whether it was taken and tracked. -/
def handOver (w : World) (bh : Handle) (it : Item) (i : ℕ) (a : Answer) : Option (World × Bool) :=
  (w.b.sh[i]?).bind fun s =>
    let g := w.eng i
    let b := { w.b with queued := w.b.queued - 1 }
    let w' := { w.call i with eng := update w.eng i (g.answered a) }
    if g.status a = .ok then
      (put s.byEh (g.handle a) bh a.memory).bind fun p =>
        if p.2 then some ({ w' with b := track b bh it i s (g.handle a) p.1 }, true)
        else (strike b bh it i s (g.handle a) .nomem).map fun b' => ({ w' with b := b' }, false)
    else (strike b bh it i s 0 (g.status a)).map fun b' => ({ w' with b := b' }, false)

/-- Hand queued work to shards with room, with the lock held; the items that could not be handed over
are added to a list. `none` where the loop does not end or an item is read that was freed. -/
def dispatchLocked (ask : Handle → Answer) : ℕ → World → List Handle → Option (World × List Handle)
  | 0, _, _ => none
  | fuel + 1, w, fails =>
    if w.b.queued = 0 then some (w, fails)
    else
      match bestShard w.b.sh 0 none with
      | none => some (w, fails)
      | some (i, _) =>
        match ArrayHeap.pop before w.b.q.a with
        | none => none
        | some none => some (w, fails)
        | some (some (e, a)) =>
          match w.b.items e.bh with
          | none => none
          | some it =>
            let w' : World := { w with b := { w.b with q := { w.b.q with a := a } } }
            if it.state = .cancelled then dispatchLocked ask fuel (w'.itemFree e.bh) fails
            else
              match handOver { w' with trace := w.trace ++ [.handed w.b e i] } e.bh it i (ask e.bh) with
              | none => none
              | some (w'', true) => dispatchLocked ask fuel w'' fails
              | some (w'', false) => dispatchLocked ask fuel w'' (e.bh :: fails)

/-- `dispatch_locked`, with passes for all entries of the queue. -/
def dispatch (w : World) (ask : Handle → Answer) : Option (World × List Handle) :=
  dispatchLocked ask (w.b.q.a.length + 1) w []

/-- What `observe` does with the lock held: the item of the event, and what could not be handed over
once the event made room. -/
def observe (w : World) (i : ℕ) (eh : Handle) (k : EvKind) (st : Status) (ask : Handle → Answer) :
    Option (World × Option (Handle × List Handle)) :=
  (w.b.sh[i]?).bind fun s => (get s.byEh eh).bind fun found =>
    match found with
    | none => some (w, none)
    | some bh =>
      (w.b.items bh).bind fun _ =>
        if lastEvent k st then
          (del s.byEh eh).bind fun m => (del w.b.byBh bh).bind fun m' =>
            (dispatch { w with b := { w.b with
              sh := w.b.sh.set i { s with load := s.load - 1, byEh := m }
              byBh := m' } } ask).map fun p => (p.1, some (bh, p.2))
        else some (w, some (bh, []))

/-- What `gptps_balance_submit_ex` does with the lock held first: the item enters the queue, if there is
memory for the map and for the heap. -/
def enqueue (w : World) (task : Name) (payload : List UInt8) (prio : ℤ) (mapMemory heapMemory : Bool) :
    Option (World × Option Handle) :=
  let bh := w.b.nextBh + 1
  let b := { w.b with nextBh := bh, nextSeq := w.b.nextSeq + 1 }
  (put b.byBh bh bh mapMemory).bind fun p =>
    if p.2 then
      (heapPush b.q ⟨bh, prio, b.nextSeq⟩ heapMemory).bind fun r =>
        if r.2 then
          some ({ w with
            b := { b with
              q := r.1
              queued := b.queued + 1
              byBh := p.1
              items := update b.items bh (some { state := .queued, task := task, payload := payload }) }
            trace := w.trace ++ [.accepted bh] }, some bh)
        else (del p.1 bh).map fun m => ({ w with b := { b with byBh := m } }, none)
    else (del p.1 bh).map fun m => ({ w with b := { b with byBh := m } }, none)

/-- What a cancel finds. -/
inductive Found
  /-- GPTPS_E_NOTFOUND -/
  | nothing
  /-- The item was queued and is cancelled here. -/
  | waiting
  /-- The item is on a shard. -/
  | onShard (i : ℕ) (eh : Handle)

/-- What `gptps_balance_cancel` does with the lock held. -/
def cancelLocked (w : World) (h : Handle) : Option (World × Found) :=
  (get w.b.byBh h).bind fun found =>
    match found with
    | none => some (w, .nothing)
    | some bh =>
      (w.b.items bh).bind fun it =>
        if it.state = .queued then
          (del w.b.byBh h).map fun m =>
            ({ w with b := { w.b with
              queued := w.b.queued - 1
              byBh := m
              items := update w.b.items bh (some { it with state := .cancelled, task := none }) } },
              .waiting)
        else some (w, .onShard it.shard it.eh)

/-- One pass of the loop of `gptps_balance_close`, and whether it goes on: what is still queued is
dropped. -/
def closePass (w : World) : Option (World × Bool) :=
  match ArrayHeap.pop before w.b.q.a with
  | none => none
  | some none => some ({ w with b := { w.b with queued := 0 } }, false)
  | some (some (e, a)) =>
    (w.b.items e.bh).map fun it =>
      let w' : World := { w with b := { w.b with q := { w.b.q with a := a } } }
      if it.state = .cancelled then (w'.itemFree e.bh, true)
      else ((w'.emitAs e.bh .dropped .shutdown).itemFree e.bh, true)

end Sections

end Gptps.Balancer
