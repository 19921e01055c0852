import Gptps.EngineState
import Mathlib.Algebra.BigOperators.Group.Multiset.Basic
import Mathlib.Data.Multiset.Count
import Mathlib.Logic.Function.Basic
import Mathlib.Logic.Relation

/-!
# The life of a work item

What a submitted item goes through, without queues, links and locks: the places
it can be in, the transitions between them, and the events each transition
owes. A state is the multiset of items with their places, beside the events and
attempt starts so far. Every accepted handle is closed by one event; the results
here are what every sequence of transitions keeps true of that.
-/

namespace Gptps.ItemLife

open EngineState List Option

variable {r : RegId} {x : Place × Core} {L' : Life}

/-- Where an item is while it is not freed. -/
inductive Place
  /-- In one of the engine's queues. -/
  | queue (q : QId)
  /-- A retry decided in the pass under way. -/
  | announced
  /-- Detached by the call holding the lock, still in the handle index. -/
  | picked
  /-- In the local list of a call that ends cancelled work. -/
  | dropped
  /-- A dead letter a drain hands over. -/
  | handed
  deriving DecidableEq, Repr

/-- What an event says of an item. -/
structure Note where
  /-- Which item. -/
  handle : Handle
  /-- What happened. -/
  kind : EvKind
  /-- The status reported. -/
  status : Status
  deriving DecidableEq, Repr

section Kinds

variable (reg : RegId → Reg)

/-- A type whose instances a clean return does not retire. -/
def upType (r : RegId) : Bool := (reg r).service && !(reg r).retireOnOk

/-- An instance of a service. -/
def service (c : Core) : Bool := (c.reg.map reg).any (·.service)

/-- An instance of an always-up service. -/
def alwaysUp (c : Core) : Bool := (c.reg.map reg).any fun r => r.service && !r.retireOnOk

/-- The item's type is tombstoned. -/
def removed (c : Core) : Bool := (c.reg.map reg).any (·.removed)

/-- The removal of the item's type discards work. -/
def cancelling (c : Core) : Bool := (c.reg.map reg).any (·.cancelling)

/-- An attempt that ends with this status closes the handle. -/
def finalStatus (c : Core) (st : Status) : Bool := st = .cancelled || (st = .ok && !alwaysUp reg c)

/-- The last attempt ran and closed the handle. -/
def terminal (c : Core) : Bool := c.started && finalStatus reg c c.outcome

/-- The closing event an item still owes when it is discarded. -/
def owed (c : Core) : List (EvKind × Status) :=
  if terminal reg c then [] else [(.failed, .cancelled)]

/-- An admitted item that must not be started. -/
def unstartable (c : Core) : Bool := c.cancelled || (removed reg c && cancelling reg c)

end Kinds

/-- An event that closes a handle; FINISHED does so unless the instance is always up. -/
def closes (up : Bool) (kind : EvKind) (status : Status) : Bool :=
  match kind with
  | .finished => !up
  | .failed => status = .cancelled
  | .deadLettered => true
  | .dropped => true
  | _ => false

/-- A failed attempt no stop was requested for, so that its policy decides. -/
def Undecided (c : Core) : Prop :=
  c.outcome ≠ .ok ∧ c.cancelled = false ∧ ¬ (c.started = true ∧ c.outcome = .cancelled)

/-- The event that reports the end of an attempt. -/
def endKind (st : Status) : EvKind := if st = .ok then .finished else .failed

/-- The transitions of one item: from a place to another, or to being freed, with the
events it reports. -/
inductive Move (reg : RegId → Reg) (stopping : Bool) :
    Place → Core → Option Place → Core → List (EvKind × Status) → Prop
  /-- A finished item is freed, with the event it still owes. -/
  | close (c : Core) :
    Move reg stopping (.queue .done) c none { c with resReserved := none } (owed reg c)
  /-- An attempt that cancelled itself has closed its handle. -/
  | selfCancelled (c : Core) (hs : c.started = true) (ho : c.outcome = .cancelled) :
    Move reg stopping (.queue .done) c none { c with resReserved := none } []
  /-- An always-up service returned: it is restarted after a pause. -/
  | restart (c : Core) (ho : c.outcome = .ok) (hu : alwaysUp reg c = true)
      (hc : c.cancelled = false) (hr : removed reg c = false) (hst : stopping = false) :
    Move reg stopping (.queue .done) c (some (.queue .delayed))
      { c with resReserved := none, attempt := 1 } []
  /-- A retry is decided. -/
  | retry (c : Core) (hun : Undecided c) (hr : removed reg c = false)
      (ha : c.attempt ≤ c.policy.maxRetries) :
    Move reg stopping (.queue .done) c (some .announced)
      { c with resReserved := none, attempt := c.attempt + 1 } [(.retried, c.outcome)]
  /-- Another cycle of attempts is decided. -/
  | requeue (c : Core) (hun : Undecided c) (hr : removed reg c = false) (hst : stopping = false) :
    Move reg stopping (.queue .done) c (some (.queue .delayed))
      { c with resReserved := none, attempt := 1 } []
  /-- The policy discards the item. -/
  | discard (c : Core) (hun : Undecided c) (hp : c.policy.onFailure = .drop) :
    Move reg stopping (.queue .done) c none { c with resReserved := none } [(.dropped, c.outcome)]
  /-- The item becomes a dead letter. -/
  | giveUp (c : Core) (st : Status) (hun : Undecided c)
      (hp : (removed reg c = true ∧ cancelling reg c = false) ∨
        c.policy.onFailure = .deadLetter ∨ stopping = true) :
    Move reg stopping (.queue .done) c (some (.queue .dead))
      { c with resReserved := none, outcome := st } [(.deadLettered, st)]
  /-- A dead letter is evicted. -/
  | evict (c : Core) : Move reg stopping (.queue .dead) c none c []
  /-- A dead letter is detached from its type. -/
  | orphan (c : Core) :
    Move reg stopping (.queue .dead) c (some (.queue .dead)) { c with reg := none } []
  /-- A dead letter is taken by a drain. -/
  | hand (c : Core) (r : Option RegId) (hr : r = c.reg ∨ r = none) :
    Move reg stopping (.queue .dead) c (some .handed) { c with reg := r } []
  /-- A drain has handed over a dead letter. -/
  | handOver (c : Core) : Move reg stopping .handed c none c []
  /-- A pause is over. -/
  | promote (c : Core) :
    Move reg stopping (.queue .delayed) c (some (.queue .intake)) { c with started := false } []
  /-- A retry decided in this pass begins its pause. -/
  | park (c : Core) : Move reg stopping .announced c (some (.queue .delayed)) c []
  /-- The shutdown grace is over: a waiting item is discarded. -/
  | graceDrop (c : Core) (q : QId) (hq : q = .delayed ∨ q = .intake) (hst : stopping = true) :
    Move reg stopping (.queue q) c none { c with outcome := .shutdown } [(.dropped, .shutdown)]
  /-- The shutdown grace is over: a waiting item becomes a dead letter. -/
  | graceDead (c : Core) (q : QId) (hq : q = .delayed ∨ q = .intake) (hst : stopping = true) :
    Move reg stopping (.queue q) c (some (.queue .dead)) { c with outcome := .shutdown }
      [(.deadLettered, .shutdown)]
  /-- Admission refuses an item for good: it can never fit, or a hook denies it. -/
  | refuse (c : Core) (st : Status) (hst : st = .budget ∨ st = .denied) :
    Move reg stopping (.queue .intake) c (some (.queue .dead)) { c with outcome := st }
      [(.deadLettered, st)]
  /-- A hook defers an item. -/
  | defer (c : Core) : Move reg stopping (.queue .intake) c (some (.queue .delayed)) c []
  /-- An item is admitted. -/
  | admission (c : Core) (snap : Option (List UInt64)) :
    Move reg stopping (.queue .intake) c (some (.queue .ready)) { c with resReserved := snap } []
  /-- An item that must not be started is passed on. -/
  | skip (c : Core) (hm : unstartable reg c = true) :
    Move reg stopping (.queue .ready) c (some (.queue .done)) { c with outcome := .cancelled } []
  /-- An attempt reports that it starts. -/
  | begin (c : Core) (hp : c.phase = .begun) :
    Move reg stopping (.queue .running) c (some (.queue .running)) { c with phase := .body }
      [(.started, .ok)]
  /-- A running process job reports measurements. -/
  | sample (c : Core) :
    Move reg stopping (.queue .running) c (some (.queue .running)) c [(.sample, .ok)]
  /-- The body of an attempt returns. -/
  | ended (c : Core) (st : Status) (raised : Bool) (hp : c.phase = .body) :
    Move reg stopping (.queue .running) c (some (.queue .running))
      { c with phase := .ended st raised } []
  /-- An attempt reports its end. -/
  | report (c : Core) (st : Status) (raised : Bool) (hp : c.phase = .ended st raised) :
    Move reg stopping (.queue .running) c (some (.queue .running)) { c with phase := .reported st }
      [(endKind st, st)]
  /-- An executed item is posted for the next decision. -/
  | post (c : Core) (st : Status) (hp : c.phase = .reported st) :
    Move reg stopping (.queue .running) c (some (.queue .done))
      { c with outcome := st, phase := .idle } []
  /-- A stop is requested of admitted work. -/
  | stop (c : Core) (q : QId) (hq : q = .ready ∨ q = .running ∨ q = .done) :
    Move reg stopping (.queue q) c (some (.queue q)) { c with cancelled := true } []
  /-- Waiting work is cancelled. -/
  | cancelWaiting (c : Core) (q : QId) (hq : q = .delayed ∨ q = .intake) :
    Move reg stopping (.queue q) c none c [(.failed, .cancelled)]
  /-- Work that is not running is detached. -/
  | detach (c : Core) (q : QId) (snap : Option (List UInt64))
      (hq : q = .delayed ∨ q = .intake ∨ q = .ready ∨ q = .done) :
    Move reg stopping (.queue q) c (some .picked) { c with resReserved := snap } []
  /-- Detached work leaves the handle index. -/
  | unindex (c : Core) : Move reg stopping .picked c (some .dropped) c []
  /-- Detached work is ended. -/
  | drained (c : Core) : Move reg stopping .dropped c none c (owed reg c)

/-- Waiting for admission, now or after a pause. -/
def Place.waiting : Place → Bool
  | .queue .intake => true
  | .queue .delayed => true
  | .announced => true
  | _ => false

/-- Admitted and not yet accounted for. -/
def Place.admitted : Place → Bool
  | .queue .ready => true
  | .queue .running => true
  | .queue .done => true
  | _ => false

/-- Waiting or admitted. -/
def Place.live (p : Place) : Bool := p.waiting || p.admitted

/-- Retained, or taken from the retained ones. -/
def Place.buried : Place → Bool
  | .queue .dead => true
  | .handed => true
  | _ => false

/-- An instance of a service that will not run again. -/
def stopped (p : Place) (c : Core) : Bool := !p.waiting && (!p.admitted || c.cancelled)

/-- A state of all items. -/
structure Life where
  /-- The task types. -/
  reg : RegId → Reg
  /-- The next task type. -/
  nextReg : RegId
  /-- The engine is shutting down. -/
  stopping : Bool
  /-- The items that are not freed, with their places. -/
  items : Multiset (Place × Core)
  /-- The events decided so far. -/
  notes : Multiset Note
  /-- The attempts started so far. -/
  starts : Multiset Handle
  /-- The accepted submits. -/
  accepted : Multiset (Handle × RegId)
  /-- The next handle. -/
  next : Handle

/-- The events of one item. -/
def noteAll (h : Handle) (ns : List (EvKind × Status)) : Multiset Note :=
  ↑(ns.map fun n => (⟨h, n.1, n.2⟩ : Note))

/-- An item at a place, or none if it was freed. -/
def settle (p : Option Place) (c : Core) : Multiset (Place × Core) :=
  ↑(p.toList.map fun p => (p, c))

/-- What a type keeps as long as it is registered. -/
def SameKind (a b : Reg) : Prop :=
  a.service = b.service ∧ a.retireOnOk = b.retireOnOk ∧ a.removed = b.removed ∧
    a.cancelling = b.cancelling

/-- The types after one is tombstoned. -/
def tombstoned (reg : RegId → Reg) (r : RegId) (k : Bool) : RegId → Reg :=
  Function.update reg r { reg r with removed := true, cancelling := (reg r).cancelling || k }

/-- A core as a submit makes it. -/
structure Submitted (c : Core) (g : Reg) : Prop where
  /-- It has not run. -/
  started : c.started = false
  /-- It holds nothing. -/
  holds : c.resReserved = none
  /-- It is in its first attempt. -/
  attempt : c.attempt = 1
  /-- A service instance runs again whenever it fails. -/
  policy : g.service = true → c.policy.onFailure = .requeue ∧ c.policy.maxRetries = 0

/-- The steps of all items together. -/
inductive Step : Life → Life → Prop
  /-- One item makes a transition. -/
  | move (L : Life) (rest : Multiset (Place × Core)) (p : Place) (c : Core) (p' : Option Place)
      (c' : Core) (ns : List (EvKind × Status)) (hi : L.items = (p, c) ::ₘ rest)
      (hm : Move L.reg L.stopping p c p' c' ns) :
    Step L { L with items := settle p' c' + rest, notes := noteAll c.handle ns + L.notes }
  /-- An attempt of an admitted item starts. -/
  | start (L : Life) (rest : Multiset (Place × Core)) (c : Core)
      (hi : L.items = (.queue .ready, c) ::ₘ rest) (hs : unstartable L.reg c = false) :
    Step L { L with
      items := (.queue .running, { c with started := true, phase := .begun }) ::ₘ rest
      starts := c.handle ::ₘ L.starts }
  /-- A submit is accepted. -/
  | submit (L : Life) (c : Core) (r : RegId) (hst : L.stopping = false) (hh : c.handle = L.next)
      (hr : c.reg = some r) (hlt : r < L.nextReg) (hrem : (L.reg r).removed = false)
      (hnew : Submitted c (L.reg r)) :
    Step L { L with
      items := (.queue .intake, c) ::ₘ L.items
      notes := ⟨c.handle, .queued, .ok⟩ ::ₘ L.notes
      accepted := (c.handle, r) ::ₘ L.accepted
      next := L.next + 1 }
  /-- A type is tombstoned, its waiting work detached before if the removal discards it. -/
  | tombstone (L : Life) (r : RegId) (k : Bool)
      (hw : k = true → ∀ x ∈ L.items, x.2.reg = some r → x.1.waiting = false)
      (hs : (L.reg r).service = true → k = true ∨
        ∀ x ∈ L.items, x.2.reg = some r → x.1.live = false)
      (hold : (L.reg r).removed = false) :
    Step L { L with reg := tombstoned L.reg r k }
  /-- The shutdown begins, its service instances stopped before. -/
  | halt (L : Life) (hs : ∀ x ∈ L.items, service L.reg x.2 = true → stopped x.1 x.2 = true) :
    Step L { L with stopping := true }
  /-- Types are registered, or settings of types change. -/
  | retype (L : Life) (reg : RegId → Reg) (n : RegId)
      (hr : ∀ r < L.nextReg, SameKind (reg r) (L.reg r)) (hn : L.nextReg ≤ n)
      (hnew : ∀ r < n, L.nextReg ≤ r → (reg r).cancelling = false) :
    Step L { L with reg := reg, nextReg := n }

/-- The closing event of an item is still to come. -/
def owing (reg : RegId → Reg) (p : Place) (c : Core) : Bool :=
  match p with
  | .queue .running =>
    match c.phase with
    | .reported st => !finalStatus reg c st
    | _ => true
  | .queue .dead => false
  | .handed => false
  | .queue .done => !terminal reg c
  | .picked => !terminal reg c
  | .dropped => !terminal reg c
  | _ => true

/-- How many items with this handle still owe their closing event. -/
def Life.debts (L : Life) (h : Handle) : ℕ :=
  L.items.countP fun x => x.2.handle = h ∧ owing L.reg x.1 x.2 = true

/-- How many closing events of a handle were decided. -/
def closings (up : Bool) (notes : Multiset Note) (h : Handle) : ℕ :=
  notes.countP fun n => n.handle = h ∧ closes up n.kind n.status = true

/-- What holds of each item by itself. -/
structure ItemOk (reg : RegId → Reg) (stopping : Bool) (p : Place) (c : Core) : Prop where
  /-- An item on its way to an attempt has not started it. -/
  fresh : p = .queue .intake ∨ p = .queue .ready → c.started = false
  /-- A running item has. -/
  ran : p = .queue .running → c.started = true
  /-- An item that is to be attempted again has not closed its handle. -/
  paused : p = .queue .delayed ∨ p = .announced → terminal reg c = false
  /-- A live item has its type. -/
  typed : p.buried = false → c.reg.isSome = true
  /-- A live service instance runs again whenever it fails. -/
  policy : p.live = true → service reg c = true →
    c.policy.onFailure = .requeue ∧ c.policy.maxRetries = 0 ∧ c.attempt = 1
  /-- A removal that discards work leaves none waiting. -/
  discarded : p.waiting = true → removed reg c = true → cancelling reg c = false
  /-- Removing a service discards its work. -/
  removal : p.live = true → service reg c = true → removed reg c = true → cancelling reg c = true
  /-- The shutdown stops every service instance. -/
  halted : stopping = true → service reg c = true → stopped p c = true

section Moves

variable {reg : RegId → Reg} {stopping : Bool} {p : Place} {c c' : Core} {p' : Option Place}
  {ns : List (EvKind × Status)} {p₂ : Place}

/-- A transition keeps the handle. -/
theorem Move.handle_eq (h : Move reg stopping p c p' c' ns) : c'.handle = c.handle := by
  cases h <;> rfl

/-- A transition keeps the type, but for dead letters detached from it. -/
theorem Move.reg_eq (h : Move reg stopping p c p' c' ns) :
    c'.reg = c.reg ∨ c'.reg = none ∧ p.buried = true := by
  cases h with
  | orphan => exact .inr ⟨rfl, rfl⟩
  | hand _ r hr =>
    rcases hr with hr | hr
    · exact .inl hr
    · exact .inr ⟨hr, rfl⟩
  | _ => exact .inl rfl

/-- A failed attempt that is still to be decided has not closed its handle. -/
theorem Undecided.not_terminal (h : Undecided c) : terminal reg c = false := by
  obtain ⟨hok, -, hself⟩ := h
  unfold terminal finalStatus
  cases hs : c.started with
  | false => rfl
  | true =>
    have hcan : c.outcome ≠ .cancelled := fun ho => hself ⟨hs, ho⟩
    simp [hok, hcan]

/-- A clean return does not close the handle of an always-up service. -/
theorem not_terminal_of_up (ho : c.outcome = .ok) (hu : alwaysUp reg c = true) :
    terminal reg c = false := by
  simp [terminal, finalStatus, ho, hu]

/-- A service instance is not tried again by its policy. -/
theorem ItemOk.no_retry (h : ItemOk reg stopping p c) (hl : p.live = true)
    (ha : c.attempt ≤ c.policy.maxRetries) : service reg c = false := by
  cases hs : service reg c with
  | false => rfl
  | true =>
    obtain ⟨-, hmax, hatt⟩ := h.policy hl hs
    rw [hmax, hatt] at ha
    exact absurd ha (by decide)

/-- Items of one type are told apart by nothing the type says. -/
theorem same_type (reg : RegId → Reg) (hreg : c'.reg = c.reg) : service reg c' = service reg c ∧
    removed reg c' = removed reg c ∧ cancelling reg c' = cancelling reg c := by
  simp only [service, removed, cancelling, hreg, and_self]

/-- The clauses about an item's place that a move within admitted work keeps. -/
theorem ItemOk.within {q q' : QId} (h : ItemOk reg stopping (.queue q) c)
    (hq : (Place.queue q).admitted = true) (hq' : (Place.queue q').admitted = true)
    (hreg : c'.reg = c.reg) (hpol : c'.policy = c.policy) (hatt : c'.attempt = c.attempt)
    (hcan : c.cancelled = true → c'.cancelled = true)
    (hfresh : q' = .ready → c'.started = false) (hran : q' = .running → c'.started = true) :
    ItemOk reg stopping (.queue q') c' := by
  have hlive : (Place.queue q).live = true := by rw [Place.live, hq, Bool.or_true]
  obtain ⟨hserv, hrem, hcancelling⟩ := same_type reg hreg
  have hwait : (Place.queue q').waiting = false := by cases q' <;> trivial
  refine ⟨?_, ?_, ?_, ?_, ?_, ?_, ?_, ?_⟩
  · rintro (hp | hp) <;> cases hp
    · cases hq'
    · exact hfresh rfl
  · intro hp
    cases hp
    exact hran rfl
  · rintro (hp | hp) <;> cases hp
    cases hq'
  · intro _
    rw [hreg]
    exact h.typed (by cases q <;> trivial)
  · intro _ hs
    rw [hpol, hatt]
    exact h.policy hlive (hserv ▸ hs)
  · intro hw
    rw [hwait] at hw
    cases hw
  · intro _ hs hr
    rw [hcancelling]
    exact h.removal hlive (hserv ▸ hs) (hrem ▸ hr)
  · intro hst hs
    have hstop := h.halted hst (hserv ▸ hs)
    rw [stopped, hq, Bool.not_true, Bool.false_or, Bool.and_eq_true] at hstop
    rw [stopped, hwait, hcan hstop.2]
    simp

/-- The clauses about an item's place once it begins to wait. -/
theorem ItemOk.wait (h : ItemOk reg stopping p c) (hl : p.live = true) (hp₂ : p₂.waiting = true)
    (hfresh : p₂ = .queue .intake → c'.started = false) (hreg : c'.reg = c.reg)
    (hpol : c'.policy = c.policy) (hterm : terminal reg c' = false)
    (hrem : p.waiting = true ∨ removed reg c = false)
    (hserv : service reg c = true → c'.attempt = 1 ∧ (p.waiting = true ∨ stopping = false)) :
    ItemOk reg stopping p₂ c' := by
  obtain ⟨hs', hr', hc'⟩ := same_type reg hreg
  have hb : p.buried = false := by
    cases p with
    | queue q => cases q <;> first | rfl | cases hl
    | _ => first | rfl | cases hl
  refine ⟨?_, ?_, fun _ => hterm, ?_, ?_, ?_, ?_, ?_⟩
  · rintro (hp | rfl)
    · exact hfresh hp
    · cases hp₂
  · rintro rfl
    cases hp₂
  · intro _
    rw [hreg]
    exact h.typed hb
  · intro _ hs
    obtain ⟨hfail, hmax, -⟩ := h.policy hl (hs' ▸ hs)
    rw [hpol]
    exact ⟨hfail, hmax, (hserv (hs' ▸ hs)).1⟩
  · intro _ hr
    rw [hr'] at hr
    rw [hc']
    rcases hrem with hw | hrem
    · exact h.discarded hw hr
    · rw [hrem] at hr
      cases hr
  · intro _ hs hr
    rw [hc']
    exact h.removal hl (hs' ▸ hs) (hr' ▸ hr)
  · intro hst hs
    rcases (hserv (hs' ▸ hs)).2 with hw | hno
    · have hstop := h.halted hst (hs' ▸ hs)
      rw [stopped, hw] at hstop
      cases hstop
    · rw [hno] at hst
      cases hst

/-- Only its type is asked of an item that has left the live queues. -/
theorem ItemOk.out (hp₂ : p₂.live = false) (ht : p₂.buried = false → c'.reg.isSome = true) :
    ItemOk reg stopping p₂ c' := by
  have hno (hl : p₂.live = true) : False := Bool.false_ne_true (hp₂.symm.trans hl)
  rw [Place.live, Bool.or_eq_false_iff] at hp₂
  refine ⟨?_, ?_, ?_, ht, fun hl => (hno hl).elim, ?_, fun hl => (hno hl).elim, ?_⟩
  · rintro (rfl | rfl)
    · cases hp₂.1
    · cases hp₂.2
  · rintro rfl
    cases hp₂.2
  · rintro (rfl | rfl) <;> cases hp₂.1
  · intro hw
    rw [hp₂.1] at hw
    cases hw
  · intro _ _
    rw [stopped, hp₂.1, hp₂.2]
    rfl

/-- An admitted item has what a waiting one had. -/
theorem ItemOk.admit_waiting (h : ItemOk reg stopping (.queue .intake) c) (hreg : c'.reg = c.reg)
    (hpol : c'.policy = c.policy) (hatt : c'.attempt = c.attempt) (hs : c'.started = c.started) :
    ItemOk reg stopping (.queue .ready) c' := by
  obtain ⟨hs', hr', hc'⟩ := same_type reg hreg
  refine ⟨?_, ?_, ?_, ?_, ?_, ?_, ?_, ?_⟩
  · intro _
    rw [hs]
    exact h.fresh (.inl rfl)
  · intro hp
    cases hp
  · rintro (hp | hp) <;> cases hp
  · intro _
    rw [hreg]
    exact h.typed rfl
  · intro _ hserv
    rw [hpol, hatt]
    exact h.policy rfl (hs' ▸ hserv)
  · intro hw
    cases hw
  · intro _ hserv hrem
    rw [hc']
    exact h.removal rfl (hs' ▸ hserv) (hr' ▸ hrem)
  · intro hst hserv
    have hstop := h.halted hst (hs' ▸ hserv)
    cases hstop

/-- Each item stays as it should be. -/
theorem Move.item_ok (h : Move reg stopping p c (some p₂) c' ns) (hok : ItemOk reg stopping p c) :
    ItemOk reg stopping p₂ c' := by
  cases h with
  | restart _ ho hu hc hr hst =>
    exact hok.wait rfl rfl (fun hp => by cases hp) rfl rfl (not_terminal_of_up ho hu) (.inr hr)
      fun _ => ⟨rfl, .inr hst⟩
  | retry _ hun hr ha =>
    have hserv := hok.no_retry rfl ha
    refine hok.wait rfl rfl (fun hp => by cases hp) rfl rfl hun.not_terminal (.inr hr) ?_
    intro hs
    rw [hserv] at hs
    cases hs
  | requeue _ hun hr hst =>
    exact hok.wait rfl rfl (fun hp => by cases hp) rfl rfl hun.not_terminal (.inr hr)
      fun _ => ⟨rfl, .inr hst⟩
  | promote =>
    exact hok.wait rfl rfl (fun _ => rfl) rfl rfl rfl (.inl rfl)
      fun hs => ⟨(hok.policy rfl hs).2.2, .inl rfl⟩
  | park =>
    exact hok.wait rfl rfl (fun hp => by cases hp) rfl rfl (hok.paused (.inr rfl)) (.inl rfl)
      fun hs => ⟨(hok.policy rfl hs).2.2, .inl rfl⟩
  | defer =>
    have hterm : terminal reg c = false := by rw [terminal, hok.fresh (.inl rfl), Bool.false_and]
    exact hok.wait rfl rfl (fun hp => by cases hp) rfl rfl hterm (.inl rfl)
      fun hs => ⟨(hok.policy rfl hs).2.2, .inl rfl⟩
  | admission => exact hok.admit_waiting rfl rfl rfl rfl
  | skip =>
    exact hok.within rfl rfl rfl rfl rfl id (fun hp => by cases hp) (fun hp => by cases hp)
  | begin | sample | ended | report =>
    exact hok.within rfl rfl rfl rfl rfl id (fun hp => by cases hp) fun _ => hok.ran rfl
  | post =>
    exact hok.within rfl rfl rfl rfl rfl id (fun hp => by cases hp) (fun hp => by cases hp)
  | stop _ q hq =>
    have hadm : (Place.queue q).admitted = true := by rcases hq with rfl | rfl | rfl <;> rfl
    refine hok.within hadm hadm rfl rfl rfl (fun _ => rfl) ?_ ?_
    · rintro rfl
      exact hok.fresh (.inr rfl)
    · rintro rfl
      exact hok.ran rfl
  | detach _ q _ hq =>
    refine ItemOk.out rfl fun _ => hok.typed ?_
    rcases hq with rfl | rfl | rfl | rfl <;> rfl
  | unindex => exact ItemOk.out rfl fun _ => hok.typed rfl
  | _ =>
    exact ItemOk.out rfl fun hb => by cases hb

/-- Nothing is reported of a dead letter. -/
theorem Move.buried_silent (h : Move reg stopping p c p' c' ns) (hp : p.buried = true) : ns = [] := by
  cases h with
  | evict | orphan | hand | handOver => rfl
  | graceDrop _ q hq | graceDead _ q hq | cancelWaiting _ q hq =>
    rcases hq with rfl | rfl <;> cases hp
  | stop | detach => rfl
  | _ => cases hp

/-- What an item that is discarded still owes is one closing event, or none. -/
theorem owed_closings (up : Bool) :
    (owed reg c).countP (fun n => closes up n.1 n.2) = (!terminal reg c).toNat := by
  unfold owed
  cases terminal reg c <;> rfl

/-- The event an attempt reports its end with closes the handle if its status does. -/
theorem endKind_closes (st : Status) :
    closes (alwaysUp reg c) (endKind st) st = finalStatus reg c st := by
  unfold endKind finalStatus
  split_ifs with hst
  · simp [closes, hst]
  · simp [closes, hst]

/-- Each transition pays the debt it takes away. -/
theorem Move.balance (h : Move reg stopping p c p' c' ns) (hok : ItemOk reg stopping p c) :
    (owing reg p c).toNat = (p'.any fun p => owing reg p c').toNat +
      ns.countP (fun n => closes (alwaysUp reg c) n.1 n.2) := by
  cases h with
  | close | drained =>
    rw [owed_closings]
    exact (zero_add _).symm
  | selfCancelled _ hs ho =>
    have hterm : terminal reg c = true := by simp [terminal, finalStatus, hs, ho]
    simp [owing, hterm]
  | restart _ ho hu =>
    have hterm := not_terminal_of_up ho hu
    simp [owing, hterm]
  | retry _ hun =>
    simp [owing, hun.not_terminal, closes]
  | requeue _ hun =>
    simp [owing, hun.not_terminal]
  | discard _ hun | giveUp _ _ hun =>
    simp [owing, hun.not_terminal, closes]
  | evict | orphan | hand | handOver | promote | park | defer | admission | unindex => rfl
  | graceDrop _ q hq | graceDead _ q hq | cancelWaiting _ q hq =>
    rcases hq with rfl | rfl <;> rfl
  | refuse => rfl
  | skip =>
    have hfresh := hok.fresh (.inr rfl)
    simp [owing, terminal, hfresh]
  | begin _ hp | ended _ _ _ hp =>
    simp [owing, hp, closes]
  | sample => simp [closes]
  | report _ st _ hp =>
    have hsame : finalStatus reg { c with phase := .reported st } st = finalStatus reg c st := rfl
    simp only [owing, hp, any_some, countP_singleton, endKind_closes, hsame]
    cases finalStatus reg c st <;> rfl
  | post _ st hp =>
    have hran := hok.ran rfl
    simp only [owing, hp, any_some, terminal, hran, Bool.true_and]
    rfl
  | stop _ q hq =>
    rcases hq with rfl | rfl | rfl <;> rfl
  | detach _ q snap hq =>
    have hfresh : ∀ h : terminal reg c = false, owing reg .picked { c with resReserved := snap } = true := by
      intro h
      have hsame : terminal reg { c with resReserved := snap } = terminal reg c := rfl
      simp only [owing, hsame, h, Bool.not_false]
    rcases hq with rfl | rfl | rfl | rfl
    · rw [any_some, hfresh (hok.paused (.inl rfl))]
      rfl
    · rw [any_some, hfresh (by rw [terminal, hok.fresh (.inl rfl), Bool.false_and])]
      rfl
    · rw [any_some, hfresh (by rw [terminal, hok.fresh (.inr rfl), Bool.false_and])]
      rfl
    · rfl

end Moves

/-- What holds of all items in every state. -/
structure Inv (L : Life) : Prop where
  /-- No two items have one handle. -/
  uniq : (L.items.map fun x => x.2.handle).Nodup
  /-- Their handles were given out. -/
  given : ∀ x ∈ L.items, x.2.handle < L.next
  /-- Each item is as it should be. -/
  items : ∀ x ∈ L.items, ItemOk L.reg L.stopping x.1 x.2
  /-- An item's type is the one its submit named. -/
  typed : ∀ x ∈ L.items, ∀ r, x.2.reg = some r → (x.2.handle, r) ∈ L.accepted
  /-- Accepted handles and types were given out. -/
  known : ∀ a ∈ L.accepted, a.1 < L.next ∧ a.2 < L.nextReg
  /-- A handle is accepted once. -/
  once : (L.accepted.map Prod.fst).Nodup
  /-- Events are about handles given out. -/
  noted : ∀ n ∈ L.notes, n.handle < L.next
  /-- Attempts are of handles given out. -/
  begun : ∀ h ∈ L.starts, h < L.next
  /-- Only a removal discards work. -/
  quiet : ∀ r < L.nextReg, (L.reg r).removed = false → (L.reg r).cancelling = false
  /-- Every accepted handle has its closing event, or an item that owes it. -/
  balance : ∀ a ∈ L.accepted, L.debts a.1 + closings (upType L.reg a.2) L.notes a.1 = 1

/-- The items after one was settled. -/
theorem mem_settle {p : Option Place} {c : Core} {rest : Multiset (Place × Core)} :
    x ∈ settle p c + rest ↔ (∃ q, p = some q ∧ x = (q, c)) ∨ x ∈ rest := by
  cases p with
  | none | some q => simp [settle]

/-- The events after those of a transition. -/
theorem mem_noteAll {h : Handle} {ns : List (EvKind × Status)} {n : Note} :
    n ∈ noteAll h ns ↔ n.handle = h ∧ (n.kind, n.status) ∈ ns := by
  simp only [noteAll, Multiset.mem_coe, List.mem_map]
  constructor
  · rintro ⟨x, hx, rfl⟩
    exact ⟨rfl, hx⟩
  · rintro ⟨rfl, hx⟩
    exact ⟨_, hx, rfl⟩

/-- Events of a transition, by handle. -/
theorem count_noteAll (h k : Handle) (ns : List (EvKind × Status)) (f : EvKind → Status → Bool) :
    (noteAll h ns).countP (fun n => n.handle = k ∧ f n.kind n.status = true) =
      if h = k then ns.countP fun n => f n.1 n.2 else 0 := by
  rw [noteAll, Multiset.coe_countP, countP_map]
  split_ifs with hk
  · refine countP_congr fun n _ => ?_
    simp [hk]
  · rw [countP_eq_zero]
    intro n _
    simp [hk]

/-- Closing events of a transition, by handle. -/
theorem closings_noteAll (up : Bool) (h k : Handle) (ns : List (EvKind × Status)) :
    closings up (noteAll h ns) k =
      if h = k then ns.countP fun n => closes up n.1 n.2 else 0 :=
  count_noteAll h k ns (closes up)

/-- Debts of an item that was settled, by handle. -/
theorem debts_settle (reg : RegId → Reg) (p : Option Place) (c : Core) (k : Handle) :
    (settle p c).countP (fun x => x.2.handle = k ∧ owing reg x.1 x.2 = true) =
      if c.handle = k then (p.any fun p => owing reg p c).toNat else 0 := by
  cases p with
  | none => simp [settle]
  | some q =>
    simp only [settle, toList_some, map_cons, map_nil, Multiset.coe_countP,
      countP_singleton, any_some]
    by_cases hk : c.handle = k
    · cases owing reg q c <;> simp [hk]
    · simp [hk]

/-- The type of an item decides whether FINISHED closes it. -/
theorem alwaysUp_eq {reg : RegId → Reg} {c : Core} (h : c.reg = some r) :
    alwaysUp reg c = upType reg r := by
  rw [alwaysUp, h]
  rfl

section MoveInv

variable {L : Life} {rest : Multiset (Place × Core)} {p : Place} {c c' : Core} {p' : Option Place}
  {ns : List (EvKind × Status)} {a : Handle × RegId} {N : Multiset Note}

/-- An accepted handle has one type. -/
theorem Inv.one_type (h : Inv L) {b : Handle × RegId} (ha : a ∈ L.accepted) (hb : b ∈ L.accepted)
    (hab : a.1 = b.1) : a = b := by
  obtain ⟨t, ht⟩ := Multiset.exists_cons_of_mem ha
  have hn := h.once
  rw [ht, Multiset.map_cons, Multiset.nodup_cons] at hn
  rw [ht] at hb
  rcases Multiset.mem_cons.mp hb with rfl | hb
  · rfl
  · exact absurd (Multiset.mem_map.mpr ⟨b, hb, hab.symm⟩) hn.1

/-- The item of an accepted handle has its type, or reports nothing. -/
theorem Inv.up_or_silent (h : Inv L) (hi : L.items = (p, c) ::ₘ rest)
    (hm : Move L.reg L.stopping p c p' c' ns) (ha : a ∈ L.accepted) (hh : c.handle = a.1) :
    alwaysUp L.reg c = upType L.reg a.2 ∨ ns = [] := by
  have hmem : (p, c) ∈ L.items := hi ▸ Multiset.mem_cons_self _ _
  cases hb : p.buried with
  | true => exact .inr (hm.buried_silent hb)
  | false =>
    obtain ⟨r, hr⟩ := isSome_iff_exists.mp ((h.items _ hmem).typed hb)
    have hacc := h.typed _ hmem r hr
    have hsame := h.one_type ha hacc hh.symm
    rw [alwaysUp_eq hr, hsame]
    exact .inl rfl

/-- The balance of a handle after an item was replaced and its events were added. -/
theorem replace_balance (h : Inv L) (hi : L.items = (p, c) ::ₘ rest) (hh : c'.handle = c.handle)
    (ha : a ∈ L.accepted) (hN : ∀ n ∈ N, n.handle = c.handle)
    (hpay : c.handle = a.1 → (owing L.reg p c).toNat =
      (p'.any fun p => owing L.reg p c').toNat + closings (upType L.reg a.2) N a.1) :
    (settle p' c' + rest).countP (fun x => x.2.handle = a.1 ∧ owing L.reg x.1 x.2 = true) +
      closings (upType L.reg a.2) (N + L.notes) a.1 = 1 := by
  have hbal := h.balance a ha
  rw [Life.debts, hi, Multiset.countP_cons] at hbal
  have hadd : closings (upType L.reg a.2) (N + L.notes) a.1 =
      closings (upType L.reg a.2) N a.1 + closings (upType L.reg a.2) L.notes a.1 :=
    Multiset.countP_add ..
  rw [Multiset.countP_add, debts_settle, hh, hadd]
  by_cases hk : c.handle = a.1
  · have hpay' := hpay hk
    simp only [hk, true_and, if_true] at hbal ⊢
    cases hown : owing L.reg p c <;> rw [hown] at hpay' <;> simp only [hown] at hbal <;>
      simp at hbal hpay' <;> omega
  · have hnone : closings (upType L.reg a.2) N a.1 = 0 := by
      rw [closings, Multiset.countP_eq_zero]
      intro n hn hx
      exact hk ((hN n hn).symm.trans hx.1)
    simp only [hk, false_and, if_false] at hbal ⊢
    omega

/-- Replacing an item by one with its handle, as it should be, keeps the invariant if
its events pay the debt taken away. -/
theorem replace_inv (h : Inv L) (hi : L.items = (p, c) ::ₘ rest) (hh : c'.handle = c.handle)
    (hreg : c'.reg = c.reg ∨ c'.reg = none) (hok : ∀ q, p' = some q → ItemOk L.reg L.stopping q c')
    {S : Multiset Handle} (hN : ∀ n ∈ N, n.handle = c.handle) (hS : ∀ k ∈ S, k = c.handle)
    (hpay : ∀ a ∈ L.accepted, c.handle = a.1 → (owing L.reg p c).toNat =
      (p'.any fun p => owing L.reg p c').toNat + closings (upType L.reg a.2) N a.1) :
    Inv { L with items := settle p' c' + rest, notes := N + L.notes, starts := S + L.starts } := by
  have hmem : (p, c) ∈ L.items := hi ▸ Multiset.mem_cons_self _ _
  have hrest : ∀ x ∈ rest, x ∈ L.items := fun x hx => hi ▸ Multiset.mem_cons_of_mem hx
  have huniq := h.uniq
  rw [hi, Multiset.map_cons, Multiset.nodup_cons] at huniq
  refine ⟨?_, ?_, ?_, ?_, h.known, h.once, ?_, ?_, h.quiet, ?_⟩
  · cases p' with
    | none => simpa [settle] using huniq.2
    | some q =>
      simp only [settle, toList_some, map_cons, map_nil, Multiset.coe_singleton,
        Multiset.singleton_add, Multiset.map_cons, Multiset.nodup_cons, hh]
      exact huniq
  · intro x hx
    rcases mem_settle.mp hx with ⟨q, -, rfl⟩ | hx
    · rw [hh]
      exact h.given _ hmem
    · exact h.given x (hrest x hx)
  · intro x hx
    rcases mem_settle.mp hx with ⟨q, rfl, rfl⟩ | hx
    · exact hok q rfl
    · exact h.items x (hrest x hx)
  · intro x hx r hr
    rcases mem_settle.mp hx with ⟨q, rfl, rfl⟩ | hx
    · rw [hh]
      rcases hreg with hreg | hnone
      · exact h.typed _ hmem r (hreg ▸ hr)
      · rw [hnone] at hr
        cases hr
    · exact h.typed x (hrest x hx) r hr
  · intro n hn
    rcases Multiset.mem_add.mp hn with hn | hn
    · rw [hN n hn]
      exact h.given _ hmem
    · exact h.noted n hn
  · intro k hk
    rcases Multiset.mem_add.mp hk with hk | hk
    · rw [hS k hk]
      exact h.given _ hmem
    · exact h.begun k hk
  · intro a ha
    exact replace_balance h hi hh ha hN (hpay a ha)

/-- A transition keeps the invariant. -/
theorem move_inv (h : Inv L) (hi : L.items = (p, c) ::ₘ rest)
    (hm : Move L.reg L.stopping p c p' c' ns) :
    Inv { L with items := settle p' c' + rest, notes := noteAll c.handle ns + L.notes } := by
  have hmem : (p, c) ∈ L.items := hi ▸ Multiset.mem_cons_self _ _
  have hok := h.items _ hmem
  have hnew : ∀ q, p' = some q → ItemOk L.reg L.stopping q c' := by
    rintro q rfl
    exact hm.item_ok hok
  have hpay : ∀ a ∈ L.accepted, c.handle = a.1 → (owing L.reg p c).toNat =
      (p'.any fun p => owing L.reg p c').toNat +
        closings (upType L.reg a.2) (noteAll c.handle ns) a.1 := by
    intro a ha hh
    rw [hm.balance hok, closings_noteAll, if_pos hh]
    rcases h.up_or_silent hi hm ha hh with hup | rfl
    · rw [hup]
    · rfl
  have hgoal := replace_inv h hi hm.handle_eq (hm.reg_eq.imp_right And.left) hnew
    (fun n hn => (mem_noteAll.mp hn).1) (fun k hk => absurd hk (Multiset.notMem_zero k)) hpay
  simpa only [zero_add] using hgoal

/-- The start of an attempt keeps the invariant. -/
theorem start_inv (h : Inv L) (hi : L.items = (.queue .ready, c) ::ₘ rest) :
    Inv { L with
      items := (.queue .running, { c with started := true, phase := .begun }) ::ₘ rest
      starts := c.handle ::ₘ L.starts } := by
  have hmem : (Place.queue .ready, c) ∈ L.items := hi ▸ Multiset.mem_cons_self _ _
  have hok := h.items _ hmem
  have hnew : ∀ q, some (Place.queue .running) = some q →
      ItemOk L.reg L.stopping q { c with started := true, phase := .begun } := by
    intro q hq
    cases hq
    exact hok.within rfl rfl rfl rfl rfl id (fun hp => by cases hp) fun _ => rfl
  have hh : ({ c with started := true, phase := .begun } : Core).handle = c.handle := rfl
  have hgoal := replace_inv h hi hh (.inl rfl) hnew (N := 0) (S := {c.handle})
    (fun n hn => absurd hn (Multiset.notMem_zero n))
    (fun k hk => Multiset.mem_singleton.mp hk) (fun a _ _ => rfl)
  simpa [settle] using hgoal

end MoveInv

section Submit

variable {L : Life} {c : Core} (h : Inv L) (hh : c.handle = L.next) (hr : c.reg = some r)

include hr in
/-- A submitted item is as it should be. -/
theorem Submitted.itemOk (hnew : Submitted c (L.reg r)) (hst : L.stopping = false)
    (hrem : (L.reg r).removed = false) : ItemOk L.reg L.stopping (.queue .intake) c := by
  have hremoved : removed L.reg c = false := by simp [removed, hr, hrem]
  refine ⟨fun _ => hnew.started, (fun hp => by cases hp), fun _ => ?_, fun _ => ?_, fun _ hs => ?_,
    fun _ hx => ?_, fun _ _ hx => ?_, fun hx => ?_⟩
  · rw [terminal, hnew.started, Bool.false_and]
  · rw [hr]
    rfl
  · have hserv : (L.reg r).service = true := by simpa [service, hr] using hs
    exact ⟨(hnew.policy hserv).1, (hnew.policy hserv).2, hnew.attempt⟩
  · rw [hremoved] at hx
    cases hx
  · rw [hremoved] at hx
    cases hx
  · rw [hst] at hx
    cases hx

include hh

/-- What was given out before a submit is not the handle it gives out. -/
theorem not_next {k : Handle} (hk : k < L.next) : k ≠ c.handle :=
  hh ▸ hk.ne

include h

/-- After a submit every accepted handle has its closing event, or an item that owes it. -/
theorem submit_balance {a : Handle × RegId} (ha : a ∈ (c.handle, r) ::ₘ L.accepted) :
    Life.debts { L with items := (.queue .intake, c) ::ₘ L.items } a.1 +
      closings (upType L.reg a.2) (⟨c.handle, .queued, .ok⟩ ::ₘ L.notes) a.1 = 1 := by
  have hqueued : closings (upType L.reg a.2) (⟨c.handle, .queued, .ok⟩ ::ₘ L.notes) a.1 =
      closings (upType L.reg a.2) L.notes a.1 := by
    rw [closings, Multiset.countP_cons_of_neg]
    · rfl
    · simp [closes]
  rw [Life.debts, hqueued]
  rcases Multiset.mem_cons.mp ha with rfl | ha
  · have hzero : L.items.countP (fun x => x.2.handle = c.handle ∧ owing L.reg x.1 x.2 = true) = 0 :=
      Multiset.countP_eq_zero.mpr fun x hx hxc => not_next hh (h.given x hx) hxc.1
    have hnone : closings (upType L.reg r) L.notes c.handle = 0 :=
      Multiset.countP_eq_zero.mpr fun n hn hx => not_next hh (h.noted n hn) hx.1
    rw [Multiset.countP_cons_of_pos _ ⟨rfl, rfl⟩, hzero, hnone]
  · have hne := not_next hh (h.known a ha).1
    rw [Multiset.countP_cons_of_neg _ fun hx => hne hx.1.symm]
    exact h.balance a ha

include hr

/-- A submit keeps the invariant. -/
theorem submit_inv (hst : L.stopping = false) (hlt : r < L.nextReg) (hrem : (L.reg r).removed = false)
    (hnew : Submitted c (L.reg r)) :
    Inv { L with
      items := (.queue .intake, c) ::ₘ L.items
      notes := ⟨c.handle, .queued, .ok⟩ ::ₘ L.notes
      accepted := (c.handle, r) ::ₘ L.accepted
      next := L.next + 1 } := by
  have hlast : ∀ {k : Handle}, k < L.next → k < L.next + 1 := fun hk => Nat.lt_succ_of_lt hk
  have hself : c.handle < L.next + 1 := hh ▸ Nat.lt_succ_self _
  refine ⟨?_, ?_, ?_, ?_, ?_, ?_, ?_, fun k hk => hlast (h.begun k hk), h.quiet,
    fun a ha => submit_balance h hh ha⟩
  · rw [Multiset.map_cons, Multiset.nodup_cons]
    refine ⟨fun hm => ?_, h.uniq⟩
    obtain ⟨x, hx, hxh⟩ := Multiset.mem_map.mp hm
    exact not_next hh (h.given x hx) hxh
  · intro x hx
    rcases Multiset.mem_cons.mp hx with rfl | hx
    · exact hself
    · exact hlast (h.given x hx)
  · intro x hx
    rcases Multiset.mem_cons.mp hx with rfl | hx
    · exact hnew.itemOk hr hst hrem
    · exact h.items x hx
  · intro x hx k hk
    rcases Multiset.mem_cons.mp hx with rfl | hx
    · rw [hr] at hk
      cases hk
      exact Multiset.mem_cons_self _ _
    · exact Multiset.mem_cons_of_mem (h.typed x hx k hk)
  · intro a ha
    rcases Multiset.mem_cons.mp ha with rfl | ha
    · exact ⟨hself, hlt⟩
    · exact ⟨hlast (h.known a ha).1, (h.known a ha).2⟩
  · rw [Multiset.map_cons, Multiset.nodup_cons]
    refine ⟨fun hm => ?_, h.once⟩
    obtain ⟨a, ha, hah⟩ := Multiset.mem_map.mp hm
    exact not_next hh (h.known a ha).1 hah
  · intro n hn
    rcases Multiset.mem_cons.mp hn with rfl | hn
    · exact hself
    · exact hlast (h.noted n hn)

end Submit

section Types

variable {L : Life} {reg reg' : RegId → Reg} {c : Core} {n : RegId}

/-- Two type tables agree on what an item's type says of its returns. -/
def AgreeUp (reg reg' : RegId → Reg) (c : Core) : Prop :=
  ∀ r, c.reg = some r → (reg' r).service = (reg r).service ∧ (reg' r).retireOnOk = (reg r).retireOnOk

variable (h : AgreeUp reg reg' c)

include h

/-- What an item's type says of its returns decides whether it is always up. -/
theorem AgreeUp.alwaysUp_eq : alwaysUp reg' c = alwaysUp reg c := by
  cases hr : c.reg with
  | none => simp [alwaysUp, hr]
  | some r =>
    obtain ⟨hs, ho⟩ := h r hr
    simp [alwaysUp, hr, hs, ho]

/-- And whether it is a service at all. -/
theorem AgreeUp.service_eq : service reg' c = service reg c := by
  cases hr : c.reg with
  | none => simp [service, hr]
  | some r =>
    obtain ⟨hs, -⟩ := h r hr
    simp [service, hr, hs]

/-- And which statuses close its handle. -/
theorem AgreeUp.finalStatus_eq (st : Status) : finalStatus reg' c st = finalStatus reg c st := by
  rw [finalStatus, finalStatus, h.alwaysUp_eq]

/-- And whether its last attempt did. -/
theorem AgreeUp.terminal_eq : terminal reg' c = terminal reg c := by
  rw [terminal, terminal, h.finalStatus_eq]

/-- And what it owes. -/
theorem AgreeUp.owing_eq (p : Place) : owing reg' p c = owing reg p c := by
  simp only [owing, h.terminal_eq, h.finalStatus_eq]

omit h

/-- The types of items were given out. -/
theorem Inv.reg_lt (h : Inv L) (hx : x ∈ L.items) (hr : x.2.reg = some r) :
    r < L.nextReg := (h.known _ (h.typed x hx r hr)).2

/-- A change of the types that keeps their kinds keeps the invariant. -/
theorem rereg_inv (h : Inv L)
    (hkind : ∀ r < L.nextReg, (reg r).service = (L.reg r).service ∧ (reg r).retireOnOk = (L.reg r).retireOnOk)
    (hn : L.nextReg ≤ n) (hitems : ∀ x ∈ L.items, ItemOk reg L.stopping x.1 x.2)
    (hquiet : ∀ r < n, (reg r).removed = false → (reg r).cancelling = false) :
    Inv { L with reg := reg, nextReg := n } := by
  refine ⟨h.uniq, h.given, hitems, h.typed, ?_, h.once, h.noted, h.begun, hquiet, ?_⟩
  · intro a ha
    exact ⟨(h.known a ha).1, lt_of_lt_of_le (h.known a ha).2 hn⟩
  · intro a ha
    have hup : upType reg a.2 = upType L.reg a.2 := by
      obtain ⟨hs, ho⟩ := hkind a.2 (h.known a ha).2
      rw [upType, upType, hs, ho]
    have hdebts : Life.debts { L with reg := reg, nextReg := n } a.1 = L.debts a.1 := by
      refine Multiset.countP_congr rfl fun x hx => ?_
      have hagree : AgreeUp L.reg reg x.2 := fun r hr => hkind r (h.reg_lt hx hr)
      simp only [hagree.owing_eq]
    rw [hdebts, hup]
    exact h.balance a ha

/-- An item is as it should be under types that agree with its own. -/
theorem ItemOk.retype {stopping : Bool} {p : Place} (h : ItemOk reg stopping p c)
    (hs : ∀ r, c.reg = some r → SameKind (reg' r) (reg r)) : ItemOk reg' stopping p c := by
  have hagree : AgreeUp reg reg' c := fun r hr => ⟨(hs r hr).1, (hs r hr).2.1⟩
  have hrem : removed reg' c = removed reg c := by
    cases hr : c.reg with
    | none => simp [removed, hr]
    | some r => simp [removed, hr, (hs r hr).2.2.1]
  have hcan : cancelling reg' c = cancelling reg c := by
    cases hr : c.reg with
    | none => simp [cancelling, hr]
    | some r => simp [cancelling, hr, (hs r hr).2.2.2]
  refine ⟨h.fresh, h.ran, ?_, h.typed, ?_, ?_, ?_, ?_⟩
  · rw [hagree.terminal_eq]
    exact h.paused
  · rw [hagree.service_eq]
    exact h.policy
  · rw [hrem, hcan]
    exact h.discarded
  · rw [hagree.service_eq, hrem, hcan]
    exact h.removal
  · rw [hagree.service_eq]
    exact h.halted

/-- New types and changed settings keep the invariant. -/
theorem retype_inv (h : Inv L) (hr : ∀ r < L.nextReg, SameKind (reg r) (L.reg r)) (hn : L.nextReg ≤ n)
    (hnew : ∀ r < n, L.nextReg ≤ r → (reg r).cancelling = false) :
    Inv { L with reg := reg, nextReg := n } := by
  refine rereg_inv h (fun r hlt => ⟨(hr r hlt).1, (hr r hlt).2.1⟩) hn ?_ ?_
  · intro x hx
    exact (h.items x hx).retype fun r hxr => hr r (h.reg_lt hx hxr)
  · intro r hlt hrem
    by_cases hold : r < L.nextReg
    · obtain ⟨-, -, hrm, hcan⟩ := hr r hold
      rw [hcan]
      exact h.quiet r hold (hrm ▸ hrem)
    · exact hnew r hlt (le_of_not_gt hold)

/-- A tombstone changes one type, and of it only whether it is removed and how. -/
theorem tombstoned_kind (reg : RegId → Reg) (r k : RegId) (b : Bool) :
    (tombstoned reg r b k).service = (reg k).service ∧
      (tombstoned reg r b k).retireOnOk = (reg k).retireOnOk := by
  unfold tombstoned
  by_cases hk : k = r
  · rw [hk, Function.update_self]
    exact ⟨rfl, rfl⟩
  · rw [Function.update_of_ne hk]
    exact ⟨rfl, rfl⟩

/-- A tombstone keeps the invariant. -/
theorem tombstone_inv (h : Inv L) {k : Bool}
    (hw : k = true → ∀ x ∈ L.items, x.2.reg = some r → x.1.waiting = false)
    (hs : (L.reg r).service = true → k = true ∨ ∀ x ∈ L.items, x.2.reg = some r → x.1.live = false)
    (hold : (L.reg r).removed = false) : Inv { L with reg := tombstoned L.reg r k } := by
  refine rereg_inv h (fun j _ => tombstoned_kind L.reg r j k) le_rfl ?_ ?_
  · intro x hx
    have hok := h.items x hx
    by_cases hxr : x.2.reg = some r
    · have hagree : AgreeUp L.reg (tombstoned L.reg r k) x.2 := fun j _ => tombstoned_kind L.reg r j k
      have hquiet := h.quiet r (h.reg_lt hx hxr) hold
      have hcan : cancelling (tombstoned L.reg r k) x.2 = k := by
        simp [cancelling, hxr, tombstoned, hquiet]
      refine ⟨hok.fresh, hok.ran, ?_, hok.typed, ?_, ?_, ?_, ?_⟩
      · rw [hagree.terminal_eq]
        exact hok.paused
      · rw [hagree.service_eq]
        exact hok.policy
      · intro hwait _
        rw [hcan]
        cases k with
        | false => rfl
        | true =>
          rw [hw rfl x hx hxr] at hwait
          cases hwait
      · intro hlive hserv _
        rw [hcan]
        rw [hagree.service_eq] at hserv
        have hserv' : (L.reg r).service = true := by simpa [service, hxr] using hserv
        rcases hs hserv' with hk | hnone
        · exact hk
        · rw [hnone x hx hxr] at hlive
          cases hlive
      · rw [hagree.service_eq]
        exact hok.halted
    · refine hok.retype fun j hj => ?_
      have hne : j ≠ r := fun he => hxr (he ▸ hj)
      rw [tombstoned, Function.update_of_ne hne]
      exact ⟨rfl, rfl, rfl, rfl⟩
  · intro j hj hrem
    by_cases hjr : j = r
    · rw [hjr, tombstoned, Function.update_self] at hrem
      cases hrem
    · rw [tombstoned, Function.update_of_ne hjr] at hrem ⊢
      exact h.quiet j hj hrem

/-- Beginning the shutdown keeps the invariant. -/
theorem halt_inv (h : Inv L)
    (hs : ∀ x ∈ L.items, service L.reg x.2 = true → stopped x.1 x.2 = true) :
    Inv { L with stopping := true } := by
  refine { h with items := ?_ }
  intro x hx
  have hok := h.items x hx
  exact { hok with halted := fun _ => hs x hx }

end Types

/-- Every step keeps the invariant. -/
theorem Step.inv {L : Life} (h : Step L L') (hi : Inv L) : Inv L' := by
  cases h with
  | move rest p c p' c' ns hitems hm => exact move_inv hi hitems hm
  | start rest c hitems hs => exact start_inv hi hitems
  | submit c r hst hh hr hlt hrem hnew => exact submit_inv hi hh hr hst hlt hrem hnew
  | tombstone r k hw hs hold => exact tombstone_inv hi hw hs hold
  | halt hs => exact halt_inv hi hs
  | retype reg n hr hn hnew => exact retype_inv hi hr hn hnew

/-- Every sequence of steps keeps what each step keeps. -/
theorem steps_inv {L : Life} (h : Relation.ReflTransGen Step L L') (hi : Inv L) : Inv L' := by
  induction h with
  | refl => exact hi
  | tail _ hstep ih => exact hstep.inv ih

end Gptps.ItemLife
