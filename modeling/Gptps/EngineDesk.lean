import Gptps.ItemHistory
import Gptps.StoreInvariant

/-!
# What a critical section can do

A desk is the engine together with everything its threads hold in local
variables: detached items, memory taken for a submit, events on their way. The
acts are the pieces that passes and calls are made of, with the conditions under
which the code does them. What every act keeps true, every call keeps true.
-/

namespace Gptps.EngineDesk

open Function EngineState EngineStore EnginePass EngineApi ItemLife StoreInvariant

/-- The engine and what its threads hold. -/
structure Desk where
  /-- The engine record. -/
  e : Engine
  /-- Retries decided in the pass under way. -/
  announced : List Item
  /-- Items detached in the call under way, still in the handle index. -/
  picked : List Item
  /-- Items in the local lists of calls that end cancelled work. -/
  dropped : List Item
  /-- Dead letters in the local lists of drains. -/
  handed : List Item
  /-- Memory taken by submits that are not yet under the lock. -/
  fresh : List Ptr
  /-- The events decided so far, delivered or on their way. -/
  evs : List Ev
  /-- The attempts started so far. -/
  starts : List Handle
  /-- The accepted submits. -/
  accepted : List (Handle × RegId)
  /-- The cache of run tails is out of date until it is forgotten. -/
  stale : Bool
  /-- The admissions so far. -/
  admissions : List Admission

/-- What an event says. -/
def noteOf (ev : Ev) : Note := ⟨ev.handle, ev.kind, ev.status⟩

/-- The events report these things of one item. -/
def Reports (evs : List Ev) (h : Handle) (ns : List (EvKind × Status)) : Prop :=
  evs.map noteOf = ns.map fun n => ⟨h, n.1, n.2⟩

/-- The ways an item leaves a queue: the engine after it, and whether the cache of run
tails is now out of date. -/
inductive Leaves (d : Desk) : QId → Item → Engine → Bool → Prop
  /-- The first item is popped. -/
  | head {q : QId} {it : Item} {e₁ : Engine} (h : fifoPop d.e q = some (it, e₁)) :
    Leaves d q it e₁ (d.stale || q = .intake)
  /-- An item is unlinked from where it is. -/
  | inside {q : QId} {it : Item} (h : it ∈ d.e.q q) :
    Leaves d q it (fifoRemove d.e q it) (d.stale || q = .intake)
  /-- An item of intake is unlinked and the cache repaired. -/
  | ordered {it : Item} (h : it ∈ d.e.q .intake) (hs : d.stale = false) :
    Leaves d .intake it (intakeUnlink d.e it) false

/-- What happens to the budgets when an item moves between admitted and other places: the
engine after it and what the item then holds. -/
inductive Charge (e : Engine) (c : Core) : Bool → Bool → Engine → Option (List UInt64) → Prop
  /-- Nothing. -/
  | keep (b : Bool) : Charge e c b b e c.resReserved
  /-- What the item held is released. -/
  | release : Charge e c true false (release e c) none

/-- Where an item goes. -/
inductive Lands (d : Desk) (it : Item) : Option Place → Desk → Prop
  /-- To the end of a queue. -/
  | push (q : QId) (hq : q ≠ .dead) (hi : q ≠ .intake) :
    Lands d it (some (.queue q)) { d with e := fifoPush d.e q it }
  /-- Into intake, in order. -/
  | entry (hs : d.stale = false) :
    Lands d it (some (.queue .intake)) { d with e := intakeInsert d.e it }
  /-- To the dead letters. -/
  | bury : Lands d it (some (.queue .dead)) { d with e := deadLetterPush d.e it }
  /-- It is freed. -/
  | drop : Lands d it none { d with e := itemDrop d.e it }
  /-- To the retries of the pass. -/
  | announce : Lands d it (some .announced) { d with announced := d.announced ++ [it] }
  /-- To the detached items of the call. -/
  | pick : Lands d it (some .picked) { d with picked := d.picked ++ [it] }

/-- An item is rewritten in place, keeping what names and places it and what it holds. -/
structure Retouch (q : QId) (f : Item → Item) : Prop where
  /-- Address and handle. -/
  key : ∀ it, key (f it) = key it
  /-- The memory it declares. -/
  mem : ∀ it, (f it).costMem = it.costMem
  /-- What it holds of the resources. -/
  holds : ∀ it, (f it).resReserved = it.resReserved
  /-- The place in intake. -/
  order : q = .intake → ∀ it, (f it).schedScore = it.schedScore ∧ (f it).intakeSeq = it.intakeSeq

/-- The engine record changes outside the items: settings, registrations, resources. -/
structure Reconfigured (e e' : Engine) : Prop where
  /-- The store is the same. -/
  store : e'.toStore = e.toStore
  /-- So is the ledger of memory and slots. -/
  mem : e'.reservedMem = e.reservedMem
  /-- The number of admitted items. -/
  running : e'.running = e.running
  /-- Resources keep what is reserved of them; new ones begin with nothing. -/
  resources : ∃ n, e'.resources.map (·.reserved) =
    e.resources.map (·.reserved) ++ List.replicate n 0
  /-- Types keep their kind. -/
  kinds : ∀ r < e.nextReg, SameKind (e'.reg r) (e.reg r)
  /-- Types are only added. -/
  more : e.nextReg ≤ e'.nextReg
  /-- A new type is not being removed. -/
  added : ∀ r < e'.nextReg, e.nextReg ≤ r → (e'.reg r).cancelling = false
  /-- The shutdown neither begins nor ends. -/
  stopping : e'.stopping = e.stopping
  /-- The mode stays. -/
  manual : e'.manual = e.manual
  /-- Registered types were given out. -/
  registry : (∀ r ∈ e.registry, r < e.nextReg) → ∀ r ∈ e'.registry, r < e'.nextReg

/-- Two desks hold the same, listed in another order. -/
structure Rearranged (d d' : Desk) : Prop where
  /-- The engine is the same. -/
  engine : d'.e = d.e
  /-- Retries decided. -/
  announced : d.announced.Perm d'.announced
  /-- Detached items. -/
  picked : d.picked.Perm d'.picked
  /-- Items being ended. -/
  dropped : d.dropped.Perm d'.dropped
  /-- Dead letters being handed over. -/
  handed : d.handed.Perm d'.handed
  /-- Memory taken. -/
  fresh : d.fresh.Perm d'.fresh
  /-- Events. -/
  evs : d.evs.Perm d'.evs
  /-- Attempts. -/
  starts : d.starts.Perm d'.starts
  /-- Accepted submits. -/
  accepted : d.accepted.Perm d'.accepted
  /-- The cache is as it was. -/
  stale : d'.stale = d.stale
  /-- The admissions are the same. -/
  admissions : d'.admissions = d.admissions

/-- The admission of an item: the skipped one is charged, the item unlinked, its costs
reserved, and it is made ready. -/
def admitted (e : Engine) (top it : Item) (snap : Option (List UInt64)) : Engine :=
  let e₀ := if it.ptr = top.ptr then e else mapQueue e .intake (chargeSkip top.ptr)
  let e₁ := intakeUnlink e₀ it
  let e₂ := { e₁ with
    reservedMem := e₁.reservedMem + it.costMem
    running := e₁.running + 1
    resources := reserveRes e₁.resources (snap.getD []) }
  fifoPush e₂ .ready { it with resReserved := snap }

/-- What an admission reserves: the cost of every resource, if there are any. -/
def SnapOf (e : Engine) (c : Core) (snap : Option (List UInt64)) : Prop :=
  snap = (costOf e c).map (takeSnapshot e)

/-- What the code between two releases of the lock is made of; only the end of the
shutdown collects. -/
inductive Act (w : Bool) : Desk → Desk → Prop
  /-- An item leaves a queue, its budget is settled, and it goes somewhere else. -/
  | move {d d' : Desk} {q : QId} {it it' : Item} {e₁ e₂ : Engine} {b : Bool} {p' : Option Place}
      {ns : List (EvKind × Status)} {evs : List Ev} (hq : q ≠ .dead) (hl : Leaves d q it e₁ b)
      (hc : Charge e₁ it.toCore (Place.queue q).admitted (p'.any Place.admitted) e₂ it'.resReserved)
      (hk : key it' = key it) (hmem : it'.costMem = it.costMem)
      (hm : Move d.e.reg d.e.stopping (.queue q) it.toCore p' it'.toCore ns)
      (hev : Reports evs it.handle ns)
      (hland : Lands { d with e := e₂, evs := d.evs ++ evs, stale := b } it' p' d') : Act w d d'
  /-- The shutdown collects an item that no pump got to. -/
  | collect {d : Desk} {q : QId} {it : Item} {e₁ : Engine} (h : fifoPop d.e q = some (it, e₁))
      (hq : q = .delayed ∨ q = .intake ∨ q = .ready ∨ q = .done) (hw : w = true) :
    Act w d { d with e := e₁, picked := d.picked ++ [it], stale := d.stale || q = .intake }
  /-- A retry decided in this pass begins its pause. -/
  | park {d : Desk} {it : Item} {rest : List Item} (h : d.announced = it :: rest) :
    Act w d { d with e := fifoPush d.e .delayed it, announced := rest }
  /-- The detached items leave the handle index. -/
  | unindex {d : Desk} : Act w d { d with
      e := indexDropList d.e d.picked, picked := [], dropped := d.dropped ++ d.picked }
  /-- A call ends an item of its list. -/
  | drain {d : Desk} {it : Item} {rest : List Item} {evs : List Ev} (h : d.dropped = it :: rest)
      (hev : Reports evs it.handle (owed d.e.reg it.toCore)) :
    Act w d { d with e := itemFree d.e it.ptr, dropped := rest, evs := d.evs ++ evs }
  /-- A drain takes a dead letter. -/
  | hand {d : Desk} {it it' : Item} {e₁ : Engine} {n : ℕ} {r : Option RegId}
      (h : fifoPop d.e .dead = some (it, e₁)) (hk : key it' = key it)
      (hcore : it'.toCore = { it.toCore with reg := r }) (hr : r = it.reg ∨ r = none) :
    Act w d { d with e := { e₁ with deadLetterCount := n }, handed := d.handed ++ [it'] }
  /-- A drain frees a dead letter it has handed over. -/
  | handOver {d : Desk} {it : Item} {rest : List Item} (h : d.handed = it :: rest) :
    Act w d { d with e := itemFree d.e it.ptr, handed := rest }
  /-- Queued items are rewritten in place. -/
  | touch {d : Desk} {q : QId} {f : Item → Item} (hf : Retouch q f)
      (hm : ∀ it ∈ d.e.q q, (f it).toCore = it.toCore ∨
        Move d.e.reg d.e.stopping (.queue q) it.toCore (some (.queue q)) (f it).toCore []) :
    Act w d { d with e := mapQueue d.e q f }
  /-- An attempt moves on. -/
  | attempt {d : Desk} {it : Item} {f : Item → Item} {ns : List (EvKind × Status)} {evs : List Ev}
      (h : it ∈ d.e.q .running) (hf : Retouch .running f)
      (hm : Move d.e.reg d.e.stopping (.queue .running) it.toCore (some (.queue .running))
        (f it).toCore ns) (hev : Reports evs it.handle ns) :
    Act w d { d with e := updItem d.e .running it.ptr f, evs := d.evs ++ evs }
  /-- An attempt starts. -/
  | start {d : Desk} {it : Item} {e₁ : Engine} {now : ℕ} (h : fifoPop d.e .ready = some (it, e₁))
      (hs : mustDiscard d.e it = false) :
    Act w d { d with
      e := fifoPush e₁ .running (startItem d.e now it), starts := d.starts ++ [it.handle] }
  /-- An item is admitted. -/
  | admission {d : Desk} {top it : Item} {rest : List Item} {snap : Option (List UInt64)}
      (hs : d.stale = false) (ht : d.e.q .intake = top :: rest)
      (hb : scanIntake d.e (d.e.q .intake) = .best it)
      (hr : d.e.running < d.e.maxConcurrentTasks) (hsnap : SnapOf d.e it.toCore snap) :
    Act w d { d with
      e := EngineDesk.admitted d.e top it snap, admissions := d.admissions ++ [⟨d.e, top, it⟩] }
  /-- Intake is rescored and sorted again. -/
  | rescore {d : Desk} {f : Item → ℤ} :
    Act w d { d with
      e := intakeResort (mapQueue d.e .intake fun it => { it with schedScore := f it })
      stale := false }
  /-- The cache of run tails is forgotten. -/
  | forget {d : Desk} : Act w d { d with e := intakeForget d.e, stale := false }
  /-- The handle index may shrink. -/
  | trim {d : Desk} {ok : Bool} : Act w d { d with e := hidxTrim d.e ok }
  /-- The handle index may grow. -/
  | grow {d : Desk} {ok : Bool} : Act w d { d with e := (hidxReserve d.e ok).1 }
  /-- A submit takes memory. -/
  | take {d : Desk} {p : Ptr} (hm : d.e.maxItems = 0) (h : d.e.allocated p = false) :
    Act w d { d with e := takeItem d.e p, fresh := p :: d.fresh }
  /-- A submit takes an item of the pool. -/
  | pool {d : Desk} {p : Ptr} {e₁ : Engine} (hs : d.e.sealed = true)
      (h : poolTake d.e = some (p, e₁)) : Act w d { d with e := e₁, fresh := p :: d.fresh }
  /-- A refused submit gives its memory back. -/
  | giveBack {d : Desk} {p : Ptr} {rest : List Ptr} (h : d.fresh = p :: rest) :
    Act w d { d with e := itemFree d.e p, fresh := rest }
  /-- A submit is accepted. -/
  | submit {d : Desk} {p : Ptr} {rest : List Ptr} {args : SubmitArgs} {r : RegId} {mem : UInt64}
      {e₁ : Engine} {ev : Ev} (hf : d.fresh = p :: rest) (hs : d.stale = false)
      (hc : submitCheck d.e args = .ok (r, mem)) (hr : hidxReserve d.e args.indexOk = (e₁, true))
      (hev : noteOf ev = ⟨d.e.nextHandle, .queued, .ok⟩) :
    Act w d { d with
      e := hidxPut (intakeInsert { e₁ with nextHandle := e₁.nextHandle + 1 }
        (newItem e₁ p args r mem)) (newItem e₁ p args r mem)
      fresh := rest
      evs := d.evs ++ [ev]
      accepted := d.accepted ++ [(d.e.nextHandle, r)] }
  /-- A bounded engine is sealed. -/
  | sealing {d : Desk} {ok : Bool} {e₁ : Engine} (hm : d.e.maxItems ≠ 0)
      (h : boundedSeal d.e ok = .ok e₁) : Act w d { d with e := e₁ }
  /-- The engine record changes outside the items. -/
  | configure {d : Desk} {e₁ : Engine} (h : Reconfigured d.e e₁) : Act w d { d with e := e₁ }
  /-- A type is tombstoned, its waiting work detached before if the removal discards it. -/
  | tombstone {d : Desk} {r : RegId} {k : Bool} (ha : d.announced = [])
      (hr : (d.e.reg r).removed = false)
      (hw : k = true → ∀ it ∈ d.e.q .intake ++ d.e.q .delayed, it.reg ≠ some r)
      (hs : (d.e.reg r).service = true → k = true ∨ ∀ it ∈ live d.e.toStore, it.reg ≠ some r) :
    Act w d { d with e := EngineApi.tombstone d.e r k }
  /-- The shutdown begins, its service instances stopped before. -/
  | halt {d : Desk} {t : ℕ} (ha : d.announced = [])
      (hw : ∀ it ∈ d.e.q .intake ++ d.e.q .delayed, isService d.e it.toCore = false)
      (hs : ∀ it ∈ d.e.q .ready ++ d.e.q .running ++ d.e.q .done,
        isService d.e it.toCore = true → it.cancelled = true) :
    Act w d { d with e := { d.e with stopping := true, stopDeadlineMs := t } }
  /-- Local lists are kept in some order. -/
  | rearrange {d d' : Desk} (h : Rearranged d d') : Act w d d'

/-- A sequence of acts. -/
def Acts (w : Bool) : Desk → Desk → Prop := Relation.ReflTransGen (Act w)

end Gptps.EngineDesk
