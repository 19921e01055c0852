import Gptps.StatsObserver
import Mathlib.Data.List.Perm.Basic
import Mathlib.Data.List.Count

/-!
# The statistics do not drift

A handle's events come in the order of its life, with two exceptions: QUEUED comes at any time, and
a RETRIED may come after the event that ended the attempt it announces before it started. Whatever
of this happens, to any number of handles, the gauges count the slots, no slot is left behind and
the counters count the events.
-/

namespace Gptps.StatsDrift

open Function EngineState ProbeMap StatsObserver List Option

variable {ev : Event} {k : EvKind} {st : Status} {s' : Sys} {h : Handle} {stats' : Stats}
  {a : Label}

section Lives

/-- How far a one-shot handle has come. -/
inductive Phase
  /-- It waits for an attempt to start. -/
  | waiting (attempt : ℕ)
  /-- An attempt runs. -/
  | running (attempt : ℕ)
  /-- An attempt failed and what follows is not decided. -/
  | failed (attempt : ℕ)
  /-- It had its last event, except those that are late. -/
  | ended
  deriving DecidableEq, Repr

/-- A one-shot handle and which of its events were delivered. -/
structure Life where
  /-- The name of its task. -/
  task : Name
  /-- `max_retries` -/
  maxRetries : ℕ
  /-- How far it has come. -/
  phase : Phase := .waiting 1
  /-- QUEUED was delivered. -/
  queued : Bool := false
  /-- The attempt whose RETRIED is on its way. -/
  owed : Option ℕ := none
  deriving DecidableEq, Repr

/-- Every event of the handle was delivered. -/
def Life.complete (L : Life) : Prop := L.phase = .ended ∧ L.queued = true ∧ L.owed = none

/-- No event of the handle was delivered. -/
def Life.fresh (L : Life) : Prop := L.phase = .waiting 1 ∧ L.queued = false ∧ L.owed = none

/-- The engine schedules a retry, whose RETRIED is then on its way; attempts are counted in 32
bits. -/
def Life.retry (L : Life) : Option Life :=
  match L.phase with
  | .failed n =>
    if n ≤ L.maxRetries then
      some { L with phase := .waiting ((n + 1) % 2 ^ 32), owed := some ((n + 1) % 2 ^ 32) }
    else none
  | _ => none

/-- The engine starts another cycle. -/
def Life.requeue (L : Life) : Option Life :=
  match L.phase with
  | .failed _ => some { L with phase := .waiting 1 }
  | _ => none

/-- An event of the handle is delivered, `none` where the engine does not permit it. -/
def Life.hear (L : Life) (k : EvKind) (st : Status) (n : ℕ) : Option Life :=
  match k with
  | .queued => if L.queued then none else some { L with queued := true }
  | .started =>
    if L.phase = .waiting n ∧ L.owed = none then some { L with phase := .running n } else none
  | .finished => if L.phase = .running n then some { L with phase := .ended } else none
  | .failed =>
    if L.phase = .running n then
      some { L with phase := if st = .cancelled then .ended else .failed n }
    else if (L.phase = .waiting n ∨ L.phase = .failed n) ∧ st = .cancelled then
      some { L with phase := .ended }
    else none
  | .retried => if L.owed = some n then some { L with owed := none } else none
  | .deadLettered | .dropped =>
    if L.phase = .waiting n ∨ L.phase = .failed n then some { L with phase := .ended } else none
  | .sample => if L.phase = .running n then some L else none

end Lives

section System

/-- The statistics, the handles submitted so far and the events delivered, in order. -/
structure Sys where
  /-- The statistics. -/
  stats : Stats
  /-- The handles. -/
  lives : Handle → Option Life
  /-- The events delivered. -/
  trace : List Event

/-- What can happen next. -/
inductive Label
  /-- A submit is accepted. -/
  | submit (h : Handle) (task : Name) (maxRetries : ℕ)
  /-- A retry of a failed attempt is scheduled. -/
  | retry (h : Handle)
  /-- A failed handle starts another cycle. -/
  | requeue (h : Handle)
  /-- An event is delivered to the observer. -/
  | deliver (k : EvKind) (h : Handle) (st : Status) (n ts : ℕ)
  deriving DecidableEq, Repr

/-- Statistics that were just installed. -/
def init : Sys := ⟨⟨{}, [], .empty⟩, fun _ => none, []⟩

/-- One step, `none` where it is not permitted or does not end. -/
def step (s : Sys) : Label → Option Sys
  | .submit h task maxRetries =>
    if h ≠ 0 ∧ s.lives h = none then
      some { s with lives := update s.lives h (some { task := task, maxRetries := maxRetries }) }
    else none
  | .retry h =>
    (s.lives h).bind fun L => L.retry.map fun L' => { s with lives := update s.lives h (some L') }
  | .requeue h =>
    (s.lives h).bind fun L => L.requeue.map fun L' => { s with lives := update s.lives h (some L') }
  | .deliver k h st n ts =>
    (s.lives h).bind fun L => (L.hear k st n).bind fun L' =>
      let ev : Event := ⟨k, h, L.task, ts, st, n⟩
      (statsObserve s.stats ev {}).map fun stats =>
        ⟨stats, update s.lives h (some L'), s.trace ++ [ev]⟩

/-- The state some steps lead to. -/
def run : Sys → List Label → Option Sys
  | s, [] => some s
  | s, l :: ls => (step s l).bind fun s' => run s' ls

end System

section Arms

/-- The nine totals of a row. -/
def totals (c : Counters) : List ℕ :=
  [c.queued, c.started, c.finished, c.failed, c.retried, c.deadLettered, c.dropped, c.cancelled,
    c.terminal]

/-- A change of a row that moves the gauges by so much and leaves the totals alone. -/
structure Shifts (f : Counters → Counters) (p r : ℤ) : Prop where
  /-- How far `pending` moves. -/
  pending : ∀ c, (f c).pending = c.pending + p
  /-- How far `in_flight` moves. -/
  inFlight : ∀ c, (f c).inFlight = c.inFlight + r
  /-- The totals stay. -/
  totals : ∀ c, totals (f c) = totals c

variable {f g : Counters → Counters} {p r p' r' : ℤ} {sl : Slot} {n ts : ℕ}

/-- Nothing moves. -/
theorem shifts_id : Shifts id 0 0 :=
  ⟨fun _ => (Int.add_zero _).symm, fun _ => (Int.add_zero _).symm, fun _ => rfl⟩

/-- `pending` alone. -/
theorem shifts_gaugePending (d : ℤ) : Shifts (gaugePending d) d 0 :=
  ⟨fun _ => rfl, fun _ => (Int.add_zero _).symm, fun _ => rfl⟩

/-- `in_flight` alone. -/
theorem shifts_gaugeInFlight (d : ℤ) : Shifts (gaugeInFlight d) 0 d :=
  ⟨fun _ => (Int.add_zero _).symm, fun _ => rfl, fun _ => rfl⟩

/-- A sample of the wait moves no gauge. -/
theorem shifts_sampleWait (ms : ℕ) : Shifts (sampleWait ms) 0 0 :=
  ⟨fun _ => (Int.add_zero _).symm, fun _ => (Int.add_zero _).symm, fun _ => rfl⟩

/-- Nor does one of the run. -/
theorem shifts_sampleRun (ms : ℕ) : Shifts (sampleRun ms) 0 0 :=
  ⟨fun _ => (Int.add_zero _).symm, fun _ => (Int.add_zero _).symm, fun _ => rfl⟩

/-- One change after another. -/
theorem Shifts.then (hf : Shifts f p r) (hg : Shifts g p' r') :
    Shifts (fun c => g (f c)) (p + p') (r + r') := by
  refine ⟨fun c => ?_, fun c => ?_, fun c => (hg.totals _).trans (hf.totals c)⟩
  · rw [hg.pending, hf.pending, Int.add_assoc]
  · rw [hg.inFlight, hf.inFlight, Int.add_assoc]

/-- A sample that is taken under a condition moves no gauge. -/
theorem shifts_wait (b : Prop) [Decidable b] (ms : ℕ) : Shifts (if b then sampleWait ms else id) 0 0 := by
  split_ifs
  · exact shifts_sampleWait ms
  · exact shifts_id

/-- An attempt ends. -/
theorem shifts_leaveRunning : Shifts (leaveRunning ts sl) 0 (-1) := by
  unfold leaveRunning
  by_cases hknown : sl.haveStartedMs = true ∧ ts ≥ sl.startedMs
  · simp only [if_pos hknown]
    exact (shifts_gaugeInFlight (-1)).then (shifts_sampleRun _)
  · simp only [if_neg hknown]
    exact shifts_gaugeInFlight (-1)

/-- 1 if a slot is in a state, 0 if not or if there is none. -/
def held (x : SlotState) (o : Option Slot) : ℤ := if o.map Slot.state = some x then 1 else 0

theorem held_some (x : SlotState) (sl : Slot) : held x (some sl) = if sl.state = x then 1 else 0 := by
  unfold held
  simp

/-- What an arm that keeps its slot makes of it. -/
structure Becomes (sl sl' : Slot) (x : SlotState) (seen : Bool) (att ann : ℕ) : Prop where
  /-- The row stays. -/
  task : sl'.task = sl.task
  /-- The new state. -/
  state : sl'.state = x
  /-- Whether QUEUED was seen. -/
  seen : sl'.seenQueued = seen
  /-- The highest attempt. -/
  att : sl'.att = att
  /-- The highest announced attempt. -/
  ann : sl'.ann = ann

/-- QUEUED for a handle that is over. -/
theorem queuedArm_done (hdone : sl.state = .done) (ts : ℕ) : ∃ f sl',
    queuedArm ts sl = (f, if owesRetried sl then some sl' else none) ∧ Shifts f 0 0 ∧
      Becomes sl sl' .done true sl.att sl.ann := by
  unfold queuedArm
  rw [if_pos hdone]
  exact ⟨_, _, rfl, shifts_wait _ _, ⟨rfl, hdone, rfl, rfl, rfl⟩⟩

/-- QUEUED for a handle that is not over. -/
theorem queuedArm_live (hlive : sl.state ≠ .done) (ts : ℕ) : ∃ f sl', queuedArm ts sl = (f, some sl') ∧
    Shifts f (if sl.state = .none then 1 else 0) 0 ∧
      Becomes sl sl' (if sl.state = .none then .pending else sl.state) true sl.att sl.ann := by
  unfold queuedArm
  rw [if_neg hlive]
  refine ⟨_, _, rfl, ?_, ?_⟩
  · by_cases hnone : sl.state = .none
    · simp only [if_pos hnone]
      exact (shifts_wait _ _).then (shifts_gaugePending 1)
    · simp only [if_neg hnone]
      exact shifts_wait _ _
  · by_cases hnone : sl.state = .none
    · simp only [if_pos hnone]
      cases sl.haveQueuedMs <;> exact ⟨rfl, rfl, rfl, rfl, rfl⟩
    · simp only [if_neg hnone]
      cases sl.haveQueuedMs <;> exact ⟨rfl, rfl, rfl, rfl, rfl⟩

/-- A handle that waited does so no longer. -/
theorem shifts_leavePending : Shifts (leavePending sl) (if sl.state = .pending then -1 else 0) 0 := by
  unfold leavePending
  split_ifs
  · exact shifts_gaugePending (-1)
  · exact shifts_id

/-- The first attempt of a cycle forgets what was announced. -/
theorem newCycle_becomes (sl : Slot) (n : ℕ) : Becomes sl (newCycle n sl) sl.state sl.seenQueued sl.att
    (if n ≤ 1 then 0 else sl.ann) := by
  unfold newCycle
  split_ifs <;> exact ⟨rfl, rfl, rfl, rfl, rfl⟩

/-- STARTED: the handle runs. -/
theorem startedArm_some (ts n : ℕ) (sl : Slot) : ∃ f sl', startedArm ts n sl = (f, some sl') ∧
    Shifts f (if sl.state = .pending then -1 else 0) 1 ∧
      Becomes sl sl' .running sl.seenQueued n (if n ≤ 1 then 0 else sl.ann) := by
  have hcount : Shifts (fun c => gaugeInFlight 1 (leavePending sl c))
      (if sl.state = .pending then -1 else 0) 1 := by
    have hboth := shifts_leavePending.then (shifts_gaugeInFlight 1) (f := leavePending sl)
    simpa using hboth
  obtain ⟨htask, -, hseen, -, hann⟩ := newCycle_becomes sl n
  unfold startedArm
  by_cases hout : n > 1 ∧ (newCycle n sl).ann < n
  · rw [if_pos hout]
    exact ⟨_, _, rfl, hcount, ⟨htask, rfl, hseen, rfl, hann⟩⟩
  rw [if_neg hout]
  by_cases hq : (!sl.haveQueuedMs) = true
  · rw [if_pos hq]
    exact ⟨_, _, rfl, hcount, ⟨htask, rfl, hseen, rfl, hann⟩⟩
  · rw [if_neg hq]
    refine ⟨_, _, rfl, ?_, ⟨htask, rfl, hseen, rfl, hann⟩⟩
    have hboth := hcount.then (shifts_sampleWait (if ts > sl.queuedMs then ts - sl.queuedMs else 0))
    simpa using hboth

/-- FINISHED: an attempt that ran ends. -/
theorem finishedArm_fst (ts n : ℕ) (sl : Slot) :
    Shifts (finishedArm ts n sl).1 0 (if sl.state = .running then -1 else 0) := by
  unfold finishedArm
  split_ifs
  · exact shifts_leaveRunning
  · exact shifts_id

/-- FAILED: an attempt that ran or waited ends. -/
theorem failedArm_fst (ts n : ℕ) (st : Status) (sl : Slot) : Shifts (failedArm ts n st sl).1
    (if sl.state = .pending then -1 else 0) (if sl.state = .running then -1 else 0) := by
  unfold failedArm
  by_cases hrun : sl.state = .running
  · simp only [hrun]
    exact shifts_leaveRunning
  · simp only [if_neg hrun]
    exact shifts_leavePending

/-- DEAD_LETTERED and DROPPED: so does a handle. -/
theorem endedArm_fst (n : ℕ) (sl : Slot) : Shifts (endedArm n sl).1
    (if sl.state = .pending then -1 else 0) (if sl.state = .running then -1 else 0) := by
  unfold endedArm
  by_cases hwait : sl.state = .pending
  · simp only [hwait]
    exact shifts_gaugePending (-1)
  · split_ifs
    · exact shifts_gaugeInFlight (-1)
    · exact shifts_id

/-- RETRIED announces an attempt. -/
theorem announce_becomes (sl : Slot) (n : ℕ) :
    Becomes sl (announce n sl) sl.state sl.seenQueued sl.att (max sl.ann n) := by
  refine ⟨rfl, rfl, rfl, rfl, ?_⟩
  unfold announce
  dsimp only
  split_ifs <;> omega

/-- A RETRIED that comes too late. -/
theorem retriedArm_late (hlate : sl.att ≥ n ∨ sl.state = .done) (ts : ℕ) : ∃ f sl',
    retriedArm ts n sl = (f, if sl.state = .done ∧ sl.seenQueued = true then none else some sl') ∧
      Shifts f 0 0 ∧ Becomes sl sl' sl.state sl.seenQueued sl.att (max sl.ann n) := by
  unfold retriedArm
  rw [if_pos hlate]
  exact ⟨_, _, rfl, shifts_wait _ _, announce_becomes sl n⟩

/-- A RETRIED that announces an attempt to come. -/
theorem retriedArm_some (hlate : ¬(sl.att ≥ n ∨ sl.state = .done)) (ts : ℕ) : ∃ f sl',
    retriedArm ts n sl = (f, some sl') ∧ Shifts f (if sl.state = .pending then 0 else 1) 0 ∧
      Becomes sl sl' .pending sl.seenQueued sl.att (max sl.ann n) := by
  obtain ⟨htask, -, hseen, hatt, hann⟩ := announce_becomes sl n
  unfold retriedArm
  rw [if_neg hlate]
  refine ⟨_, _, rfl, ?_, ⟨htask, rfl, hseen, hatt, hann⟩⟩
  by_cases hwait : sl.state = .pending
  · simp only [if_pos hwait]
    exact shifts_wait _ _
  · simp only [if_neg hwait]
    exact (shifts_wait _ _).then (shifts_gaugePending 1)

end Arms

section Agreement

variable {L L' : Life} {sl sl' : Slot} {n ts : ℕ}

/-- What the slot of a handle says of its life. -/
structure Agrees (L : Life) (sl : Slot) : Prop where
  /-- Whether QUEUED came. -/
  seen : sl.seenQueued = L.queued
  /-- A handle that waits and owes nothing. -/
  waiting : ∀ n, L.phase = .waiting n → L.owed = none →
    sl.state ≠ .running ∧ sl.state ≠ .done ∧ 1 ≤ n ∧ owesRetried sl = false ∧
      (1 < n → sl.ann = n ∧ sl.att < n)
  /-- A handle that waits while its RETRIED is on its way. -/
  announced : ∀ n m, L.phase = .waiting n → L.owed = some m →
    m = n ∧ 1 < n ∧ sl.state = .limbo ∧ sl.att < n ∧ sl.ann < n
  /-- An attempt that runs, or failed. -/
  attempt : ∀ n, L.phase = .running n ∨ L.phase = .failed n →
    L.owed = none ∧ 1 ≤ n ∧ sl.att = n ∧ sl.ann ≤ n ∧ (1 < n → sl.ann = n)
  /-- An attempt that runs. -/
  running : ∀ n, L.phase = .running n → sl.state = .running
  /-- An attempt that failed. -/
  failed : ∀ n, L.phase = .failed n → sl.state = .limbo
  /-- A handle that is over waits for QUEUED. -/
  late : L.phase = .ended → L.owed = none →
    sl.state = .done ∧ owesRetried sl = false ∧ L.queued = false
  /-- A handle that is over waits for a RETRIED. -/
  lateRetried : ∀ m, L.phase = .ended → L.owed = some m →
    sl.state = .done ∧ 1 < m ∧ sl.att = m ∧ sl.ann < m

/-- What is left of a slot agrees with the life of its handle, or the handle is done with. -/
def AgreesOpt (L : Life) : Option Slot → Prop
  | some sl => Agrees L sl
  | none => L.complete

/-- A RETRIED is owed to the slot. -/
theorem owesRetried_iff : owesRetried sl = true ↔ 1 < sl.att ∧ sl.ann < sl.att := by
  unfold owesRetried
  simp

/-- None is. -/
theorem owesRetried_false : owesRetried sl = false ↔ sl.att ≤ 1 ∨ sl.att ≤ sl.ann := by
  rw [← Bool.not_eq_true, owesRetried_iff]
  omega

/-- The highest attempt seen. -/
theorem noteAttempt_att (sl : Slot) (n : ℕ) : (noteAttempt sl n).att = max sl.att n := by
  unfold noteAttempt
  split_ifs with hlt
  · show n = _
    omega
  · omega

theorem noteAttempt_ann (sl : Slot) (n : ℕ) : (noteAttempt sl n).ann = sl.ann := by
  unfold noteAttempt
  split_ifs <;> rfl

/-- What a slot has to say, phase by phase. -/
theorem Agrees.of (hseen : sl.seenQueued = L.queued)
    (h : match L.phase, L.owed with
      | .waiting n, none => sl.state ≠ .running ∧ sl.state ≠ .done ∧ 1 ≤ n ∧ owesRetried sl = false ∧
        (1 < n → sl.ann = n ∧ sl.att < n)
      | .waiting n, some m => m = n ∧ 1 < n ∧ sl.state = .limbo ∧ sl.att < n ∧ sl.ann < n
      | .running n, none => sl.state = .running ∧ 1 ≤ n ∧ sl.att = n ∧ sl.ann ≤ n ∧ (1 < n → sl.ann = n)
      | .failed n, none => sl.state = .limbo ∧ 1 ≤ n ∧ sl.att = n ∧ sl.ann ≤ n ∧ (1 < n → sl.ann = n)
      | .ended, none => sl.state = .done ∧ owesRetried sl = false ∧ L.queued = false
      | .ended, some m => sl.state = .done ∧ 1 < m ∧ sl.att = m ∧ sl.ann < m
      | _, _ => False) : Agrees L sl := by
  cases hp : L.phase <;> cases howed : L.owed <;> rw [hp, howed] at h <;> constructor <;> simp_all

/-- An attempt that ends: a RETRIED is owed to its slot exactly if it is on its way. -/
theorem owes_noteAttempt (ha : Agrees L sl)
    (hp : L.phase = .waiting n ∨ L.phase = .running n ∨ L.phase = .failed n) :
    owesRetried (noteAttempt sl n) = L.owed.isSome ∧
      ∀ m, L.owed = some m → 1 < m ∧ (noteAttempt sl n).att = m ∧ (noteAttempt sl n).ann < m := by
  have hatt' := noteAttempt_att sl n
  have hann' := noteAttempt_ann sl n
  cases howed : L.owed with
  | none =>
    refine ⟨owesRetried_false.mpr ?_, fun m hm => by cases hm⟩
    rcases hp with hp | hp
    · obtain ⟨-, -, -, hno, hlater⟩ := ha.waiting n hp howed
      have hno := owesRetried_false.mp hno
      omega
    · obtain ⟨-, -, hatt, -, hann⟩ := ha.attempt n hp
      omega
  | some m =>
    rcases hp with hp | hp
    · obtain ⟨rfl, hm, -, hatt, hann⟩ := ha.announced n m hp howed
      refine ⟨owesRetried_iff.mpr (by omega), fun x hx => ?_⟩
      cases hx
      omega
    · rw [(ha.attempt n hp).1] at howed
      cases howed

/-- What an arm does: it moves the gauges exactly as it moves its slot, which keeps its row and agrees
with the life of its handle. -/
structure Turn (L' : Life) (sl : Slot) (o : (Counters → Counters) × Option Slot) : Prop where
  /-- How far the gauges move. -/
  shifts : Shifts o.1 (held .pending o.2 - held .pending (some sl))
    (held .running o.2 - held .running (some sl))
  /-- The row stays. -/
  task : ∀ sl', o.2 = some sl' → sl'.task = sl.task
  /-- What is left of the slot. -/
  agrees : AgreesOpt L' o.2

variable {f : Counters → Counters} {p r : ℤ} {x : SlotState} {seen : Bool} {att ann : ℕ}

/-- An arm that keeps its slot. -/
theorem Turn.keep (hb : Becomes sl sl' x seen att ann) (hf : Shifts f p r)
    (hp : p = (if x = .pending then 1 else 0) - if sl.state = .pending then 1 else 0)
    (hr : r = (if x = .running then 1 else 0) - if sl.state = .running then 1 else 0)
    (ha : Agrees L' sl') : Turn L' sl (f, some sl') := by
  refine ⟨?_, fun _ h => some.inj h ▸ hb.task, ha⟩
  simp only [held_some, hb.state]
  rwa [← hp, ← hr]

/-- A handle that is over loses its slot. -/
theorem Turn.clear (hdone : sl.state = .done) (hf : Shifts f 0 0) (hall : L'.complete) :
    Turn L' sl (f, none) := by
  refine ⟨?_, nofun, hall⟩
  simp only [held_some, hdone]
  exact hf

variable (ha : Agrees L sl)

include ha

/-- The last event of an attempt leaves a slot exactly if an event is still on its way. -/
theorem Turn.finish (hp : L.phase = .waiting n ∨ L.phase = .running n ∨ L.phase = .failed n)
    (x : SlotState)
    (hf : Shifts f (if sl.state = .pending then -1 else 0) (if sl.state = .running then -1 else 0)) :
    Turn { L with phase := .ended } sl (f, finishSlot { noteAttempt sl n with state := x }) := by
  obtain ⟨howes, hsome⟩ := owes_noteAttempt ha hp
  obtain ⟨htask, hseen⟩ : (noteAttempt sl n).task = sl.task ∧ (noteAttempt sl n).seenQueued = L.queued := by
    rw [← ha.seen]
    unfold noteAttempt
    split_ifs <;> exact ⟨rfl, rfl⟩
  have hshift (o : Option Slot) (ho : ∀ y, y ≠ .done → held y o = 0) :
      Shifts f (held .pending o - held .pending (some sl)) (held .running o - held .running (some sl)) := by
    rw [ho _ (by simp), ho _ (by simp), held_some, held_some]
    cases hs : sl.state <;> rw [hs] at hf <;> exact hf
  have hsame : owesRetried { noteAttempt sl n with state := x } = L.owed.isSome := howes
  unfold finishSlot
  rw [hsame]
  rw [hseen]
  split_ifs with hboth
  · simp only [Bool.and_eq_true, Bool.not_eq_true', isSome_eq_false_iff,
      isNone_iff_eq_none] at hboth
    exact ⟨hshift _ fun _ _ => rfl, nofun, rfl, hboth.1, hboth.2⟩
  · refine ⟨hshift _ fun y hy => (held_some _ _).trans (if_neg hy.symm),
      fun _ h => some.inj h ▸ htask, .of rfl ?_⟩
    cases howed : L.owed with
    | none => exact ⟨rfl, hsame.trans (by rw [howed]; rfl), by simpa [howed] using hboth⟩
    | some m => exact ⟨rfl, hsome m howed⟩

/-- A handle is over exactly if its slot is. -/
theorem done_iff_over : sl.state = .done ↔ L.phase = .ended := by
  cases hp : L.phase with
  | waiting n =>
    cases howed : L.owed with
    | none => simp [(ha.waiting n hp howed).2.1]
    | some m => simp [(ha.announced n m hp howed).2.2.1]
  | running n => simp [ha.running n hp]
  | failed n => simp [ha.failed n hp]
  | ended =>
    cases howed : L.owed with
    | none => simp [(ha.late hp howed).1]
    | some m => simp [(ha.lateRetried m hp howed).1]

/-- What a slot says of a handle that is not over does not depend on QUEUED. -/
theorem agrees_seen (hlive : L.phase ≠ .ended)
    (hb : Becomes sl sl' (if sl.state = .none then .pending else sl.state) true sl.att sl.ann) :
    Agrees { L with queued := true } sl' := by
  have howes : owesRetried sl' = owesRetried sl := by
    unfold owesRetried
    rw [hb.att, hb.ann]
  have hsame : ∀ y, y ≠ .none → sl.state = y → sl'.state = y := by
    intro y hy heq
    rw [hb.state, if_neg (fun hnone => hy (heq.symm.trans hnone)), heq]
  refine .of hb.seen ?_
  rw [howes, hb.att, hb.ann]
  cases hp : L.phase with
  | waiting n =>
    cases howed : L.owed with
    | none =>
      obtain ⟨hrun, hdone, hrest⟩ := ha.waiting n hp howed
      rw [hb.state]
      split_ifs
      · exact ⟨by simp, by simp, hrest⟩
      · exact ⟨hrun, hdone, hrest⟩
    | some m =>
      obtain ⟨hm, hone, hlimbo, hlt⟩ := ha.announced n m hp howed
      exact ⟨hm, hone, hsame _ (by simp) hlimbo, hlt⟩
  | running n =>
    obtain ⟨howed, hrest⟩ := ha.attempt n (.inl hp)
    rw [howed]
    exact ⟨hsame _ (by simp) (ha.running n hp), hrest⟩
  | failed n =>
    obtain ⟨howed, hrest⟩ := ha.attempt n (.inr hp)
    rw [howed]
    exact ⟨hsame _ (by simp) (ha.failed n hp), hrest⟩
  | ended => exact absurd hp hlive

/-- QUEUED is seen, and clears the slot that waited for nothing else. -/
theorem queued_turn (ts : ℕ) : Turn { L with queued := true } sl (queuedArm ts sl) := by
  by_cases hdone : sl.state = .done
  · have hover := (done_iff_over ha).mp hdone
    obtain ⟨f, sl', harm, hf, hb⟩ := queuedArm_done hdone ts
    rw [harm]
    rcases eq_none_or_eq_some L.owed with howed | ⟨m, howed⟩
    · rw [(ha.late hover howed).2.1, if_neg Bool.false_ne_true]
      exact .clear hdone hf ⟨hover, rfl, howed⟩
    · obtain ⟨-, hm, hatt, hann⟩ := ha.lateRetried m hover howed
      rw [if_pos (owesRetried_iff.mpr (by omega))]
      refine .keep hb hf (by rw [hdone]; rfl) (by rw [hdone]; rfl) (.of hb.seen ?_)
      rw [hover, howed, hb.att, hb.ann]
      exact ⟨hb.state, hm, hatt, hann⟩
  · have hlive : L.phase ≠ .ended := fun hover => hdone ((done_iff_over ha).mpr hover)
    obtain ⟨f, sl', harm, hf, hb⟩ := queuedArm_live hdone ts
    rw [harm]
    exact .keep hb hf (by cases sl.state <;> rfl) (by cases sl.state <;> rfl) (agrees_seen ha hlive hb)

/-- STARTED opens an attempt. -/
theorem started_turn (hp : L.phase = .waiting n) (howed : L.owed = none) :
    Turn { L with phase := .running n } sl (startedArm ts n sl) := by
  obtain ⟨hrun, -, hone, hno, hlater⟩ := ha.waiting n hp howed
  obtain ⟨f, sl', harm, hf, hb⟩ := startedArm_some ts n sl
  rw [harm]
  refine .keep hb hf (by cases sl.state <;> rfl) (by rw [if_neg hrun]; rfl)
    (.of (hb.seen.trans ha.seen) ?_)
  rw [howed, hb.att, hb.ann]
  exact ⟨hb.state, hone, rfl, by split_ifs <;> omega, by split_ifs <;> omega⟩

/-- FAILED leaves an attempt that failed. -/
theorem failed_turn (hp : L.phase = .running n)
    (hf : Shifts f (if sl.state = .pending then -1 else 0) (if sl.state = .running then -1 else 0)) :
    Turn { L with phase := .failed n } sl (f, some { noteAttempt sl n with state := .limbo }) := by
  obtain ⟨howed, hone, hatt, hann, hlater⟩ := ha.attempt n (.inl hp)
  have hb : Becomes sl { noteAttempt sl n with state := .limbo } .limbo sl.seenQueued sl.att sl.ann := by
    unfold noteAttempt
    rw [if_neg (by omega)]
    exact ⟨rfl, rfl, rfl, rfl, rfl⟩
  refine .keep hb hf (by cases sl.state <;> rfl) (by cases sl.state <;> rfl)
    (.of (hb.seen.trans ha.seen) ?_)
  rw [howed]
  exact ⟨rfl, hone, hb.att.trans hatt, hb.ann ▸ hann, fun hlt => hb.ann.trans (hlater hlt)⟩

/-- RETRIED announces the attempt, or clears the slot that waited for nothing else. -/
theorem retried_turn (howed : L.owed = some n) :
    Turn { L with owed := none } sl (retriedArm ts n sl) := by
  have hno (h : L.owed = none) : False := by cases howed.symm.trans h
  cases hp : L.phase with
  | waiting m =>
    obtain ⟨rfl, hone, hlimbo, hatt, hann⟩ := ha.announced m n hp howed
    obtain ⟨f, sl', harm, hf, hb⟩ := @retriedArm_some sl n (by rw [hlimbo]; simp; omega) ts
    rw [harm]
    refine .keep hb hf (by rw [hlimbo]; rfl) (by rw [hlimbo]; rfl) (.of (hb.seen.trans ha.seen) ?_)
    rw [owesRetried_false, hb.state, hb.att, hb.ann]
    exact ⟨by simp, by simp, by omega, by omega, by omega⟩
  | running m => exact (hno (ha.attempt m (.inl hp)).1).elim
  | failed m => exact (hno (ha.attempt m (.inr hp)).1).elim
  | ended =>
    obtain ⟨hdone, hone, hatt, hann⟩ := ha.lateRetried n hp howed
    obtain ⟨f, sl', harm, hf, hb⟩ := @retriedArm_late sl n (.inr hdone) ts
    rw [harm, ha.seen]
    split_ifs with hboth
    · exact .clear hdone hf ⟨rfl, hboth.2, rfl⟩
    · refine .keep hb hf (Int.sub_self _).symm (Int.sub_self _).symm (.of (hb.seen.trans ha.seen) ?_)
      rw [owesRetried_false, hb.state, hb.att, hb.ann]
      exact ⟨hdone, by omega, by simpa [hdone] using hboth⟩

/-- Every event the engine permits turns its slot. -/
theorem arm_turn (hh : L.hear ev.kind ev.status ev.attempt = some L') : Turn L' sl (arm ev sl) := by
  unfold arm
  cases hk : ev.kind <;> rw [hk] at hh <;> dsimp only [Life.hear] at hh ⊢
  case queued =>
    split_ifs at hh
    cases hh
    exact queued_turn ha ev.ts
  case started =>
    split_ifs at hh with hp
    cases hh
    exact started_turn ha hp.1 hp.2
  case finished =>
    split_ifs at hh with hp
    cases hh
    have hrun : ¬ sl.state = .pending := by simp [ha.running _ hp]
    refine .finish ha (.inr (.inl hp)) (noteAttempt sl ev.attempt).state ?_
    rw [if_neg hrun]
    exact finishedArm_fst ev.ts ev.attempt sl
  case failed =>
    have hf := failedArm_fst ev.ts ev.attempt ev.status sl
    unfold failedArm at hf ⊢
    by_cases hp : L.phase = .running ev.attempt
    · rw [if_pos hp] at hh
      cases hh
      by_cases hc : ev.status = .cancelled
      · simp only [if_pos hc]
        exact .finish ha (.inr (.inl hp)) .limbo hf
      · simp only [if_neg hc]
        exact failed_turn ha hp hf
    · split_ifs at hh with hq
      cases hh
      simp only [if_pos hq.2]
      exact .finish ha (hq.1.imp id .inr) .limbo hf
  case retried =>
    split_ifs at hh with howed
    cases hh
    exact retried_turn ha howed
  case sample =>
    split_ifs at hh
    cases hh
    exact .keep ⟨rfl, rfl, rfl, rfl, rfl⟩ shifts_id (Int.sub_self _).symm (Int.sub_self _).symm ha
  all_goals
    split_ifs at hh with hp
    cases hh
    exact .finish ha (hp.imp id .inr) (noteAttempt sl ev.attempt).state (endedArm_fst ev.attempt sl)

omit ha

end Agreement

section Rows

variable {l l' : List (Handle × Slot)} {es : List Event} {c : Counters} {sl : Slot} {h : Handle}

/-- How many slots are in a state. -/
def gauge (x : SlotState) (l : List (Handle × Slot)) : ℤ := l.countP fun e => e.2.state = x

/-- What a slot was replaced by, and the others. -/
def withSlot (h : Handle) : Option Slot → List (Handle × Slot) → List (Handle × Slot)
  | some sl, l => (h, sl) :: l
  | none, l => l

/-- A slot counts in the gauge of its state. -/
theorem gauge_withSlot (x : SlotState) (h : Handle) (o : Option Slot) (l : List (Handle × Slot)) :
    gauge x (withSlot h o l) = held x o + gauge x l := by
  cases o with
  | none => exact (Int.zero_add _).symm
  | some sl =>
    unfold gauge withSlot
    rw [countP_cons, held_some, Int.natCast_add, Int.add_comm]
    simp only [decide_eq_true_eq]
    split_ifs <;> rfl

/-- How many events there were of each kind, in the order of the totals. -/
def tally (es : List Event) : List ℕ :=
  [es.countP (·.kind = .queued), es.countP (·.kind = .started), es.countP (·.kind = .finished),
    es.countP (·.kind = .failed), es.countP (·.kind = .retried), es.countP (·.kind = .deadLettered),
    es.countP (·.kind = .dropped), es.countP (fun ev => ev.kind = .failed ∧ ev.status = .cancelled),
    es.countP fun ev => lastEvent ev.kind ev.status]

/-- Counting an event is one event more. -/
theorem tally_counts (ev : Event) (hc : totals c = tally es) :
    totals (counts ev.kind ev.status c) = tally (es ++ [ev]) := by
  unfold totals tally at hc ⊢
  simp only [cons.injEq, and_true] at hc
  obtain ⟨hq, hs, hf, hx, hr, hl, hd, hcan, ht⟩ := hc
  have hlast : lastEvent ev.kind ev.status = decide (ev.kind = .finished ∨ ev.kind = .dropped ∨
      ev.kind = .deadLettered ∨ ev.kind = .failed ∧ ev.status = .cancelled) := by
    unfold lastEvent
    cases ev.kind <;> simp
  simp only [countP_append, countP_singleton, hlast]
  unfold counts
  by_cases hst : ev.status = .cancelled <;> cases ev.kind <;>
    simp [hst, hq, hs, hf, hx, hr, hl, hd, hcan, ht]

/-- A row counts these slots and these events. -/
structure Row (c : Counters) (l : List (Handle × Slot)) (es : List Event) : Prop where
  /-- The handles that wait. -/
  pending : c.pending = gauge .pending l
  /-- The handles that run. -/
  inFlight : c.inFlight = gauge .running l
  /-- The events. -/
  totals : totals c = tally es

/-- The order of the slots does not matter. -/
theorem Row.perm (hr : Row c l es) (hp : l.Perm l') : Row c l' es := by
  have hsame : ∀ x, gauge x l = gauge x l' := fun x => congrArg Nat.cast (hp.countP_eq _)
  exact ⟨hr.pending.trans (hsame _), hr.inFlight.trans (hsame _), hr.totals⟩

/-- A row after an event of a handle it counts. -/
theorem Row.settle {L L' : Life} (hr : Row c ((h, sl) :: l) es) (ha : Agrees L sl)
    (hh : L.hear ev.kind ev.status ev.attempt = some L') :
    Row ((arm ev sl).1 (counts ev.kind ev.status c)) (withSlot h (arm ev sl).2 l) (es ++ [ev]) := by
  have hshift := (arm_turn ha hh).shifts
  obtain ⟨hp, hf⟩ : (counts ev.kind ev.status c).pending = c.pending ∧
      (counts ev.kind ev.status c).inFlight = c.inFlight := by
    unfold counts
    cases ev.kind <;> dsimp only
    any_goals exact ⟨rfl, rfl⟩
    split_ifs <;> exact ⟨rfl, rfl⟩
  have hcons : ∀ x, gauge x ((h, sl) :: l) = held x (some sl) + gauge x l :=
    fun x => gauge_withSlot x h (some sl) l
  refine ⟨?_, ?_, (hshift.totals _).trans (tally_counts ev hr.totals)⟩
  · rw [hshift.pending, hp, hr.pending, hcons, gauge_withSlot]
    omega
  · rw [hshift.inFlight, hf, hr.inFlight, hcons, gauge_withSlot]
    omega

end Rows

section Invariant

variable {s s' : Sys} {l l' : List (Handle × Slot)} {h : Handle} {L L' : Life} {sl : Slot} {i : ℕ}
  {n : ℕ} {o : Option Slot} {stats : Stats}

/-- The slots of one row. -/
def slotsOf (i : ℕ) (l : List (Handle × Slot)) : List (Handle × Slot) :=
  l.filter fun e => e.2.task = some i

/-- The events of one task. -/
def eventsOf (task : Name) (es : List Event) : List Event := es.filter fun ev => ev.task = task

/-- The table holds the slots of `l`, each agrees with the life of its handle, and every row counts
its slots and its events. -/
structure Inv (s : Sys) (l : List (Handle × Slot)) : Prop where
  /-- The table. -/
  maps : Maps s.stats.tab l
  /-- Each slot is that of a handle. -/
  lives : ∀ h sl, (h, sl) ∈ l → ∃ L, s.lives h = some L ∧ Agrees L sl ∧
    ∃ i, sl.task = some i ∧ (s.stats.tasks.map Prod.fst)[i]? = some L.task
  /-- A handle without a slot had no event yet, or all of them. -/
  absent : ∀ h L, s.lives h = some L → h ∉ l.map Prod.fst → L.fresh ∨ L.complete
  /-- The engine's row. -/
  total : Row s.stats.total l s.trace
  /-- The rows of the tasks. -/
  rows : ∀ i r, s.stats.tasks[i]? = some r → Row r.2 (slotsOf i l) (eventsOf r.1 s.trace)
  /-- A task has one row. -/
  names : (s.stats.tasks.map Prod.fst).Nodup
  /-- A task that had an event has a row. -/
  named : ∀ ev ∈ s.trace, ev.task ∈ s.stats.tasks.map Prod.fst

/-- Nor does it to the whole. -/
theorem Inv.perm (hs : Inv s l) (hp : l.Perm l') : Inv s l' where
  maps := hs.maps.perm hp
  lives := fun h sl hmem => hs.lives h sl (hp.mem_iff.mpr hmem)
  absent := fun h L hL hno => hs.absent h L hL fun hin => hno ((hp.map Prod.fst).mem_iff.mp hin)
  total := hs.total.perm hp
  rows := fun i r hr => (hs.rows i r hr).perm (hp.filter _)
  names := hs.names
  named := hs.named

/-- Statistics that were just installed. -/
theorem init_inv : Inv init [] where
  maps := maps_empty
  lives := fun _ _ hmem => by cases hmem
  absent := fun _ _ hL => by cases hL
  total := ⟨rfl, rfl, rfl⟩
  rows := fun _ _ hr => by cases hr
  names := nodup_nil
  named := fun _ hev => by cases hev

/-- A row is found or made. -/
theorem taskIndex_some (stats : Stats) (name : Name) : ∃ stats' i,
    taskIndex stats name true = (stats', some i) ∧ stats'.total = stats.total ∧
      stats'.tab = stats.tab ∧ (stats'.tasks.map Prod.fst)[i]? = some name ∧
      (stats'.tasks = stats.tasks ∨
        name ∉ stats.tasks.map Prod.fst ∧ stats'.tasks = stats.tasks ++ [(name, ({} : Counters))]) := by
  unfold taskIndex
  cases hfind : stats.tasks.findIdx? (fun r => decide (r.1 = name)) with
  | some i =>
    refine ⟨stats, i, rfl, rfl, rfl, ?_, .inl rfl⟩
    obtain ⟨hlt, hname, -⟩ := findIdx?_eq_some_iff_getElem.mp hfind
    rw [getElem?_map, getElem?_eq_getElem hlt, map_some]
    exact congrArg some (of_decide_eq_true hname)
  | none =>
    refine ⟨_, _, rfl, rfl, rfl, ?_, .inr ⟨?_, rfl⟩⟩
    · simp
    · intro hin
      obtain ⟨r, hr, hname⟩ := List.mem_map.mp hin
      have hno := findIdx?_eq_none_iff.mp hfind r hr
      simp [hname] at hno

/-- A task that has no row has no slots. -/
theorem Inv.slotsOf_new (hs : Inv s l) : slotsOf s.stats.tasks.length l = [] := by
  refine filter_eq_nil_iff.mpr fun e he => ?_
  obtain ⟨L, -, -, i, hi, hname⟩ := hs.lives e.1 e.2 he
  obtain ⟨hlt, -⟩ := List.getElem?_eq_some_iff.mp hname
  rw [length_map] at hlt
  simp only [hi, decide_eq_true_eq, some.injEq]
  omega

/-- Making a row changes nothing else. -/
theorem Inv.index {name : Name} (hs : Inv s l) (htotal : stats'.total = s.stats.total)
    (htab : stats'.tab = s.stats.tab)
    (htasks : stats'.tasks = s.stats.tasks ∨ name ∉ s.stats.tasks.map Prod.fst ∧
      stats'.tasks = s.stats.tasks ++ [(name, ({} : Counters))]) :
    Inv { s with stats := stats' } l := by
  have hmaps : Maps stats'.tab l := htab ▸ hs.maps
  have hrow : Row stats'.total l s.trace := htotal ▸ hs.total
  rcases htasks with heq | ⟨hnew, heq⟩
  · exact ⟨hmaps, heq ▸ hs.lives, hs.absent, hrow, heq ▸ hs.rows, heq ▸ hs.names, heq ▸ hs.named⟩
  · have hnames : stats'.tasks.map Prod.fst = s.stats.tasks.map Prod.fst ++ [name] := by
      rw [heq, map_append]
      rfl
    refine ⟨hmaps, fun h sl hmem => ?_, hs.absent, hrow, fun i r hr => ?_, ?_, fun ev hev => ?_⟩
    · obtain ⟨L, hL, ha, i, hi, hname⟩ := hs.lives h sl hmem
      refine ⟨L, hL, ha, i, hi, ?_⟩
      obtain ⟨hlt, -⟩ := List.getElem?_eq_some_iff.mp hname
      show (stats'.tasks.map Prod.fst)[i]? = _
      rw [hnames, getElem?_append_left hlt]
      exact hname
    · have hr' : stats'.tasks[i]? = some r := hr
      rw [heq] at hr'
      by_cases hlt : i < s.stats.tasks.length
      · rw [getElem?_append_left hlt] at hr'
        exact hs.rows i r hr'
      · obtain ⟨hle, -⟩ := List.getElem?_eq_some_iff.mp hr'
        rw [length_append, length_singleton] at hle
        obtain rfl : i = s.stats.tasks.length := by omega
        rw [getElem?_concat_length] at hr'
        cases hr'
        have hno : eventsOf name s.trace = [] := by
          refine filter_eq_nil_iff.mpr fun ev hev => ?_
          have hname := hs.named ev hev
          simp only [decide_eq_true_eq]
          exact fun heq => hnew (heq ▸ hname)
        rw [hs.slotsOf_new]
        show Row _ _ (eventsOf name s.trace)
        rw [hno]
        exact ⟨rfl, rfl, rfl⟩
    · show (stats'.tasks.map Prod.fst).Nodup
      rw [hnames]
      exact nodup_append.mpr ⟨hs.names, nodup_singleton _, fun a ha b hb heq =>
        hnew (mem_singleton.mp hb ▸ heq ▸ ha)⟩
    · show ev.task ∈ stats'.tasks.map Prod.fst
      rw [hnames]
      exact mem_append_left _ (hs.named ev hev)

/-- A slot is made for a handle that had no event. -/
theorem Inv.insert {m : Map Slot} (hs : Inv s l) (hL : s.lives h = some L) (hfresh : L.fresh)
    (hname : (s.stats.tasks.map Prod.fst)[i]? = some L.task)
    (hm : Maps m ((h, { task := some i }) :: l)) :
    Inv { s with stats := { s.stats with tab := m } } ((h, { task := some i }) :: l) := by
  have ha : Agrees L { task := some i } := by
    obtain ⟨hp, hq, howed⟩ := hfresh
    refine .of hq.symm ?_
    rw [hp, howed]
    exact ⟨by simp, by simp, le_refl 1, rfl, fun hlt => absurd hlt (lt_irrefl 1)⟩
  have hgauge : ∀ (c : Counters) (x : List (Handle × Slot)) es, Row c x es →
      Row c ((h, { task := some i }) :: x) es := by
    intro c x es hr
    have hcons : ∀ y, y ≠ .none → gauge y ((h, { task := some i }) :: x) = gauge y x := by
      intro y hy
      have hstep := gauge_withSlot y h (some { task := some i }) x
      rw [held_some, if_neg hy.symm, Int.zero_add] at hstep
      exact hstep
    exact ⟨hr.pending.trans (hcons _ (by simp)).symm, hr.inFlight.trans (hcons _ (by simp)).symm,
      hr.totals⟩
  refine ⟨hm, ?_, ?_, hgauge _ _ _ hs.total, ?_, hs.names, hs.named⟩
  · intro h' sl' hmem
    rcases mem_cons.mp hmem with heq | hmem
    · cases heq
      exact ⟨L, hL, ha, i, rfl, hname⟩
    · exact hs.lives h' sl' hmem
  · intro h' L' hL' hno
    exact hs.absent h' L' hL' fun hin => hno (mem_cons_of_mem _ hin)
  · intro j r hr
    unfold slotsOf
    rw [filter_cons]
    split_ifs
    · exact hgauge _ _ _ (hs.rows j r hr)
    · exact hs.rows j r hr

/-- Changing a row keeps its name. -/
theorem bump_names (stats : Stats) (i : ℕ) (f : Counters → Counters) :
    (bump stats (some i) f).tasks.map Prod.fst = stats.tasks.map Prod.fst := by
  refine ext_getElem? fun j => ?_
  unfold bump
  rw [getElem?_map, getElem?_map, getElem?_modify]
  cases stats.tasks[j]? with
  | none => rfl
  | some r =>
    split_ifs <;> rfl

/-- The slots of a row after one of its slots was replaced. -/
theorem slotsOf_withSlot (hi : ∀ sl, o = some sl → sl.task = some i) (j : ℕ) :
    slotsOf j (withSlot h o l) = if j = i then withSlot h o (slotsOf j l) else slotsOf j l := by
  cases o with
  | none =>
    show slotsOf j l = _
    split_ifs <;> rfl
  | some sl =>
    unfold slotsOf withSlot
    rw [filter_cons]
    simp only [hi sl rfl, decide_eq_true_eq, some.injEq]
    split_ifs with h₁ h₂ h₂
    · rfl
    · exact absurd h₁.symm h₂
    · exact absurd h₂.symm h₁
    · rfl

/-- The handles that have a slot after one was replaced. -/
theorem keys_withSlot {h' : Handle} (hin : h' ∉ (withSlot h o l).map Prod.fst) :
    h' ∉ l.map Prod.fst ∧ (h' = h → o = none) := by
  cases o with
  | none => exact ⟨hin, fun _ => rfl⟩
  | some sl =>
    rw [withSlot, map_cons, mem_cons, not_or] at hin
    exact ⟨hin.2, fun heq => absurd heq hin.1⟩

/-- The events of a task after one more. -/
theorem eventsOf_append (task : Name) (es : List Event) (ev : Event) :
    eventsOf task (es ++ [ev]) = if ev.task = task then eventsOf task es ++ [ev] else eventsOf task es := by
  unfold eventsOf
  rw [filter_append]
  split_ifs with heq
  · rw [filter_cons_of_pos (by simpa using heq)]
    rfl
  · rw [filter_cons_of_neg (by simpa using heq)]
    exact append_nil _

/-- A handle keeps its task. -/
theorem hear_task (hh : L.hear k st n = some L') : L'.task = L.task := by
  cases k <;> dsimp only [Life.hear] at hh <;> split_ifs at hh <;> cases hh <;> rfl

/-- Settling an event ends, and replaces the slot. -/
theorem settle_maps (stats : Stats) (ev : Event) (hh : ev.handle = h)
    (hm : Maps stats.tab ((h, sl) :: l)) (ti : Option ℕ) :
    ∃ m, StatsObserver.settle stats ev ti sl = some { bump stats ti
      (fun c => (arm ev sl).1 (counts ev.kind ev.status c)) with tab := m } ∧
        Maps m (withSlot h (arm ev sl).2 l) := by
  unfold StatsObserver.settle
  rw [hh]
  cases (arm ev sl).2 with
  | some sl' => exact ⟨_, rfl, hm.modify _⟩
  | none =>
    obtain ⟨m, hdel, hmaps⟩ := hm.del
    refine ⟨m, ?_, hmaps⟩
    rw [hdel]
    rfl

/-- An event of a handle that has a slot is settled with it. -/
theorem observe_held (hk : ev.kind ≠ .sample) (hm : Maps stats.tab l) (hmem : (ev.handle, sl) ∈ l) :
    statsObserve stats ev {} = StatsObserver.settle stats ev sl.task sl := by
  unfold statsObserve
  rw [if_neg hk, hm.get_held hmem, bind_some]

/-- An event of a handle that has none is settled with a slot that is made for it. -/
theorem observe_absent {stats₁ : Stats} (ev : Event) (hk : ev.kind ≠ .sample) (hm : Maps stats.tab l)
    (hno : ev.handle ∉ l.map Prod.fst) (hindex : taskIndex stats ev.task true = (stats₁, some i))
    (htab : stats₁.tab = stats.tab) :
    ∃ m, statsObserve stats ev {} =
        StatsObserver.settle { stats₁ with tab := m } ev (some i) { task := some i } ∧
      Maps m ((ev.handle, { task := some i }) :: l) := by
  have hm₁ : Maps stats₁.tab l := htab ▸ hm
  rcases hm₁.put hno { task := some i } true with ⟨m, hput, hmaps⟩ | ⟨hfalse, -⟩
  · refine ⟨m, ?_, hmaps⟩
    unfold statsObserve
    rw [if_neg hk, hm.get_absent hno, bind_some]
    rw [hindex]
    dsimp only
    rw [hput, bind_some, if_pos rfl]
  · cases hfalse

/-- A slot after one was replaced. -/
theorem mem_withSlot {h' : Handle} {sl' : Slot} (hmem : (h', sl') ∈ withSlot h o l) :
    (h' = h ∧ o = some sl') ∨ (h', sl') ∈ l := by
  cases o with
  | none => exact .inr hmem
  | some x =>
    rcases mem_cons.mp hmem with heq | hmem
    · cases heq
      exact .inl ⟨rfl, rfl⟩
    · exact .inr hmem

section Settle

variable (hs : Inv s ((h, sl) :: l)) (ha : Agrees L sl)
  (hh : L.hear ev.kind ev.status ev.attempt = some L') (hi : sl.task = some i)
  (hname : (s.stats.tasks.map Prod.fst)[i]? = some L.task)

include hs ha hh

/-- A handle without a slot after an event of one had all its events, or none. -/
theorem Inv.settle_absent {h' : Handle} {X : Life} (hX : update s.lives h (some L') h' = some X)
    (hno : h' ∉ (withSlot h (arm ev sl).2 l).map Prod.fst) : X.fresh ∨ X.complete := by
  obtain ⟨hno, hself⟩ := keys_withSlot hno
  by_cases heq : h' = h
  · have hopt := (arm_turn ha hh).agrees
    rw [hself heq] at hopt
    rw [heq, update_self] at hX
    cases hX
    exact .inr hopt
  · rw [update_of_ne heq] at hX
    refine hs.absent h' X hX fun hin => ?_
    rcases mem_cons.mp hin with hx | hx
    · exact heq hx
    · exact hno hx

include hi hname

/-- Each slot after an event is that of a handle. -/
theorem Inv.settle_lives {h' : Handle} {sl' : Slot} (hmem : (h', sl') ∈ withSlot h (arm ev sl).2 l) :
    ∃ X, update s.lives h (some L') h' = some X ∧ Agrees X sl' ∧
      ∃ j, sl'.task = some j ∧ (s.stats.tasks.map Prod.fst)[j]? = some X.task := by
  have hturn := arm_turn ha hh
  rcases mem_withSlot hmem with ⟨rfl, ho⟩ | hmem
  · have hopt := hturn.agrees
    rw [ho] at hopt
    have hsame := hear_task hh
    exact ⟨L', update_self _ _ _, hopt, i, (hturn.task _ ho).trans hi, hsame ▸ hname⟩
  · have hkeys := hs.maps.keys
    rw [map_cons, nodup_cons] at hkeys
    have hne : h' ≠ h := fun heq => hkeys.1 (List.mem_map.mpr ⟨_, hmem, heq⟩)
    rw [update_of_ne hne]
    exact hs.lives h' sl' (mem_cons_of_mem _ hmem)

/-- The rows after an event: that of its task counts it. -/
theorem Inv.settle_rows (htask : ev.task = L.task) {j : ℕ} {r : Name × Counters}
    (hr : (bump s.stats (some i) fun c => (arm ev sl).1 (counts ev.kind ev.status c)).tasks[j]? =
      some r) :
    Row r.2 (slotsOf j (withSlot h (arm ev sl).2 l)) (eventsOf r.1 (s.trace ++ [ev])) := by
  dsimp only [bump] at hr
  rw [getElem?_modify] at hr
  obtain ⟨r₀, hr₀, heq⟩ := map_eq_some_iff.mp hr
  have hold := hs.rows j r₀ hr₀
  have hname₀ : (s.stats.tasks.map Prod.fst)[j]? = some r₀.1 := by
    rw [getElem?_map, hr₀]
    rfl
  rw [slotsOf_withSlot fun _ hx => ((arm_turn ha hh).task _ hx).trans hi]
  have hfilter := slotsOf_withSlot (h := h) (l := l) (o := some sl) (i := i)
    (fun _ hx => some.inj hx ▸ hi) j
  rw [show slotsOf j ((h, sl) :: l) = slotsOf j (withSlot h (some sl) l) from rfl, hfilter] at hold
  rw [eventsOf_append]
  by_cases hij : i = j
  · subst hij
    have hsame : ev.task = r₀.1 := htask.trans (some.inj (hname.symm.trans hname₀))
    rw [if_pos rfl] at heq hold ⊢
    obtain rfl := heq
    rw [if_pos hsame]
    exact hold.settle ha hh
  · have hother : ev.task ≠ r₀.1 := by
      intro hsame
      rw [← hsame, htask, ← hname] at hname₀
      obtain ⟨hlt, -⟩ := List.getElem?_eq_some_iff.mp hname
      exact hij ((getElem?_inj hlt hs.names).mp hname₀.symm)
    rw [if_neg hij] at heq
    rw [if_neg (Ne.symm hij)] at hold ⊢
    obtain rfl := heq
    rw [if_neg hother]
    exact hold

end Settle

/-- An event of a handle that has a slot is settled. -/
theorem Inv.settle (hs : Inv s ((h, sl) :: l)) (hL : s.lives h = some L) (hh : L.hear k st n = some L')
    (ts : ℕ) : ∃ stats',
    StatsObserver.settle s.stats ⟨k, h, L.task, ts, st, n⟩ sl.task sl = some stats' ∧
      Inv ⟨stats', update s.lives h (some L'), s.trace ++ [⟨k, h, L.task, ts, st, n⟩]⟩
        (withSlot h (arm ⟨k, h, L.task, ts, st, n⟩ sl).2 l) := by
  obtain ⟨L₀, hL₀, ha, i, hi, hname⟩ := hs.lives h sl mem_cons_self
  obtain rfl : L₀ = L := some.inj (hL₀.symm.trans hL)
  generalize hev : (⟨k, h, L₀.task, ts, st, n⟩ : Event) = ev
  have hhear : L₀.hear ev.kind ev.status ev.attempt = some L' := hev ▸ hh
  have htask : ev.task = L₀.task := hev ▸ rfl
  have hhandle : ev.handle = h := hev ▸ rfl
  obtain ⟨m, hsettle, hmaps⟩ := settle_maps _ _ hhandle hs.maps sl.task
  have hnames := bump_names s.stats i fun c => (arm ev sl).1 (counts ev.kind ev.status c)
  rw [hi] at hsettle ⊢
  refine ⟨_, hsettle, hmaps, fun h' sl' hmem => ?_, fun _ _ hX hno => hs.settle_absent ha hhear hX hno,
    hs.total.settle ha hhear, fun _ _ hr => hs.settle_rows ha hhear hi hname htask hr, hnames ▸ hs.names,
    fun x hx => ?_⟩
  · rw [hnames]
    exact hs.settle_lives ha hhear hi hname hmem
  · rw [hnames]
    rcases mem_append.mp hx with hx | hx
    · exact hs.named x hx
    · rw [mem_singleton.mp hx, htask]
      exact mem_of_getElem? hname

/-- A retry that does not wrap the counter of attempts. -/
def Counted (s : Sys) : Label → Prop
  | .retry h => ∀ L n, s.lives h = some L → L.phase = .failed n → n + 1 < 2 ^ 32
  | _ => True

/-- Only a failed attempt is decided on. -/
theorem retry_failed (h : L.retry = some L') : ∃ n, L.phase = .failed n ∧ L'.task = L.task := by
  unfold Life.retry at h
  split at h
  · split_ifs at h
    cases h
    exact ⟨_, by assumption, rfl⟩
  · cases h

/-- Another cycle follows a failure. -/
theorem requeue_failed (h : L.requeue = some L') : ∃ n, L.phase = .failed n ∧ L'.task = L.task := by
  unfold Life.requeue at h
  split at h
  · cases h
    exact ⟨_, by assumption, rfl⟩
  · cases h

/-- A handle that is decided on keeps agreeing with its slot. -/
theorem Inv.decide (hs : Inv s l) (hL : s.lives h = some L) (hfailed : ∃ n, L.phase = .failed n)
    (htask : L'.task = L.task) (hagree : ∀ sl, Agrees L sl → Agrees L' sl) :
    Inv { s with lives := update s.lives h (some L') } l := by
  obtain ⟨n, hn⟩ := hfailed
  refine { hs with lives := ?_, absent := ?_ }
  · intro h' sl' hmem
    obtain ⟨X, hX, ha, i, hi, hname⟩ := hs.lives h' sl' hmem
    by_cases heq : h' = h
    · subst heq
      cases hL.symm.trans hX
      exact ⟨L', update_self _ _ _, hagree sl' ha, i, hi, htask ▸ hname⟩
    · exact ⟨X, (update_of_ne heq _ _).trans hX, ha, i, hi, hname⟩
  · intro h' X hX hno
    by_cases heq : h' = h
    · subst heq
      rcases hs.absent h' L hL hno with hf | hf
      · cases hn.symm.trans hf.1
      · cases hn.symm.trans hf.1
    · exact hs.absent h' X ((update_of_ne heq _ _).symm.trans hX) hno

/-- A retry parks the handle until its RETRIED comes. -/
theorem agrees_retry (ha : Agrees L sl) (hp : L.phase = .failed n) (hn : n + 1 < 2 ^ 32)
    (h' : L.retry = some L') : Agrees L' sl := by
  obtain ⟨-, hone, hatt, hann, -⟩ := ha.attempt n (.inr hp)
  unfold Life.retry at h'
  rw [hp] at h'
  dsimp only at h'
  split_ifs at h'
  cases h'
  exact .of ha.seen ⟨rfl, by omega, ha.failed n hp, by omega, by omega⟩

/-- A requeue starts another cycle, of which nothing was announced. -/
theorem agrees_requeue (ha : Agrees L sl) (hp : L.phase = .failed n) (h' : L.requeue = some L') :
    Agrees L' sl := by
  obtain ⟨howed, hone, hatt, hann, hlater⟩ := ha.attempt n (.inr hp)
  unfold Life.requeue at h'
  rw [hp] at h'
  cases h'
  refine .of ha.seen ?_
  rw [howed, ha.failed n hp]
  exact ⟨by simp, by simp, le_refl 1, owesRetried_false.mpr (by omega), by omega⟩

/-- A handle that is done with has no event left. -/
theorem hear_complete (hdone : L.complete) (k : EvKind) (st : Status) (n : ℕ) :
    L.hear k st n = none := by
  obtain ⟨hp, hq, howed⟩ := hdone
  cases k <;> simp [Life.hear, hp, hq, howed]

/-- A sample moves nothing. -/
theorem Row.sample {c : Counters} {es : List Event} (hr : Row c l es) (hk : ev.kind = .sample) :
    Row c l (es ++ [ev]) := by
  refine ⟨hr.pending, hr.inFlight, ?_⟩
  have hcount := tally_counts ev hr.totals
  rw [hk] at hcount
  exact hcount

/-- A SAMPLE is counted nowhere. -/
theorem Inv.sample (hs : Inv s l) (hk : ev.kind = .sample) (hrow : ev.task ∈ s.stats.tasks.map Prod.fst) :
    Inv { s with trace := s.trace ++ [ev] } l := by
  refine ⟨hs.maps, hs.lives, hs.absent, hs.total.sample hk, fun i r hr => ?_, hs.names, ?_⟩
  · show Row _ _ (eventsOf r.1 (s.trace ++ [ev]))
    rw [eventsOf_append]
    split_ifs
    · exact (hs.rows i r hr).sample hk
    · exact hs.rows i r hr
  · intro x hx
    rcases mem_append.mp hx with hx | hx
    · exact hs.named x hx
    · rw [mem_singleton.mp hx]
      exact hrow

/-- Every event the engine permits is observed: no probe of the table hangs. -/
theorem Inv.deliver (hs : Inv s l) (hL : s.lives h = some L) (hh : L.hear k st n = some L') (ts : ℕ) :
    ∃ stats' l',
    statsObserve s.stats ⟨k, h, L.task, ts, st, n⟩ {} = some stats' ∧
      Inv ⟨stats', update s.lives h (some L'), s.trace ++ [⟨k, h, L.task, ts, st, n⟩]⟩ l' := by
  obtain ⟨stats₁, i, hindex, htotal, htab, hname, htasks⟩ := taskIndex_some s.stats L.task
  have hs₁ := hs.index htotal htab htasks
  by_cases hk : k = .sample
  · subst hk
    have hsame : L' = L := by
      dsimp only [Life.hear] at hh
      split_ifs at hh
      cases hh
      rfl
    have hlives : update s.lives h (some L') = s.lives := by
      rw [hsame, ← hL]
      exact update_eq_self h s.lives
    refine ⟨stats₁, l, ?_, ?_⟩
    · unfold statsObserve
      rw [if_pos rfl]
      rw [hindex]
    · rw [hlives]
      exact hs₁.sample rfl (mem_of_getElem? hname)
  · rcases hs.maps.get_some h with ⟨sl, hmem, -⟩ | ⟨hno, -⟩
    · rw [observe_held hk hs.maps hmem]
      obtain ⟨l₁, l₂, rfl⟩ := append_of_mem hmem
      obtain ⟨stats', hsettle, hinv⟩ := (hs.perm perm_middle).settle hL hh ts
      exact ⟨stats', _, hsettle, hinv⟩
    · have hfresh : L.fresh := by
        rcases hs.absent h L hL hno with hf | hf
        · exact hf
        · rw [hear_complete hf] at hh
          cases hh
      obtain ⟨m, hobs, hmaps⟩ := observe_absent ⟨k, h, L.task, ts, st, n⟩ hk hs.maps hno hindex htab
      obtain ⟨stats', hsettle, hinv⟩ := (hs₁.insert hL hfresh hname hmaps).settle hL hh ts
      rw [hobs]
      exact ⟨stats', _, hsettle, hinv⟩

/-- Every step keeps the invariant. -/
theorem Inv.step (hs : Inv s l) (hc : Counted s a) (hstep : step s a = some s') : ∃ l', Inv s' l' := by
  cases a with
  | submit h task maxRetries =>
    unfold StatsDrift.step at hstep
    dsimp only at hstep
    split_ifs at hstep with hnew
    cases hstep
    refine ⟨l, hs.maps, ?_, ?_, hs.total, hs.rows, hs.names, hs.named⟩
    · intro h' sl hmem
      obtain ⟨X, hX, hrest⟩ := hs.lives h' sl hmem
      have hne : h' ≠ h := by
        rintro rfl
        cases hnew.2.symm.trans hX
      exact ⟨X, (update_of_ne hne _ _).trans hX, hrest⟩
    · intro h' X hX hno
      by_cases heq : h' = h
      · subst heq
        dsimp only at hX
        rw [update_self] at hX
        cases hX
        exact .inl ⟨rfl, rfl, rfl⟩
      · exact hs.absent h' X ((update_of_ne heq _ _).symm.trans hX) hno
  | retry h =>
    obtain ⟨L, hL, hstep⟩ := bind_eq_some_iff.mp hstep
    obtain ⟨L', hL', rfl⟩ := map_eq_some_iff.mp hstep
    obtain ⟨n, hp, htask⟩ := retry_failed hL'
    exact ⟨l, hs.decide hL ⟨n, hp⟩ htask fun sl ha => agrees_retry ha hp (hc L n hL hp) hL'⟩
  | requeue h =>
    obtain ⟨L, hL, hstep⟩ := bind_eq_some_iff.mp hstep
    obtain ⟨L', hL', rfl⟩ := map_eq_some_iff.mp hstep
    obtain ⟨n, hp, htask⟩ := requeue_failed hL'
    exact ⟨l, hs.decide hL ⟨n, hp⟩ htask fun sl ha => agrees_requeue ha hp hL'⟩
  | deliver k h st n ts =>
    obtain ⟨L, hL, hstep⟩ := bind_eq_some_iff.mp hstep
    obtain ⟨L', hL', hstep⟩ := bind_eq_some_iff.mp hstep
    obtain ⟨stats', hobs, rfl⟩ := map_eq_some_iff.mp hstep
    obtain ⟨stats₁, l', hobs₁, hinv⟩ := hs.deliver hL hL' ts
    cases hobs.symm.trans hobs₁
    exact ⟨l', hinv⟩

/-- Every retry of a run is counted without a wrap. -/
def RunCounted (s : Sys) : List Label → Prop
  | [] => True
  | a :: as => Counted s a ∧ ∀ s', StatsDrift.step s a = some s' → RunCounted s' as

/-- So does every run. -/
theorem Inv.run {as : List Label} (hs : Inv s l) (hc : RunCounted s as) (hrun : run s as = some s') :
    ∃ l', Inv s' l' := by
  induction as generalizing s l with
  | nil =>
    cases hrun
    exact ⟨l, hs⟩
  | cons a as ih =>
    obtain ⟨s₁, hstep, hrest⟩ := bind_eq_some_iff.mp hrun
    obtain ⟨l₁, hs₁⟩ := hs.step hc.1 hstep
    exact ih hs₁ (hc.2 s₁ hstep) hrest

end Invariant

section Results

variable {s : Sys} {as : List Label}

/-- Every event of every handle was delivered. -/
def AllDelivered (s : Sys) : Prop := ∀ h L, s.lives h = some L → L.complete

/-- Unless a counter of attempts wraps, the gauges count the handles that wait and that run, in
total and for each task, and so are never negative; the counters count the events; and once every
event was delivered both gauges are zero and no slot is left. -/
theorem statistics_exact (hrun : run init as = some s) (hc : RunCounted init as) :
    ∃ l, Maps s.stats.tab l ∧ Row s.stats.total l s.trace ∧
      (∀ i r, s.stats.tasks[i]? = some r → Row r.2 (slotsOf i l) (eventsOf r.1 s.trace)) ∧
      (0 ≤ s.stats.total.pending ∧ 0 ≤ s.stats.total.inFlight ∧
        ∀ r ∈ s.stats.tasks, 0 ≤ r.2.pending ∧ 0 ≤ r.2.inFlight) ∧
      (AllDelivered s → l = [] ∧ s.stats.tab.n = 0 ∧ s.stats.total.pending = 0 ∧
        s.stats.total.inFlight = 0 ∧ ∀ r ∈ s.stats.tasks, r.2.pending = 0 ∧ r.2.inFlight = 0) := by
  obtain ⟨l, hs⟩ := init_inv.run hc hrun
  have hrow : ∀ r ∈ s.stats.tasks, ∃ x es, Row r.2 x es ∧ (l = [] → x = []) := by
    intro r hr
    obtain ⟨i, hi⟩ := getElem?_of_mem hr
    exact ⟨_, _, hs.rows i r hi, fun hnil => by rw [hnil]; rfl⟩
  have hpos : ∀ x (l : List (Handle × Slot)), 0 ≤ gauge x l := fun x l => Int.natCast_nonneg _
  refine ⟨l, hs.maps, hs.total, hs.rows, ⟨?_, ?_, fun r hr => ?_⟩, fun hall => ?_⟩
  · exact hs.total.pending ▸ hpos _ _
  · exact hs.total.inFlight ▸ hpos _ _
  · obtain ⟨x, es, hx, -⟩ := hrow r hr
    exact ⟨hx.pending ▸ hpos _ _, hx.inFlight ▸ hpos _ _⟩
  · have hnil : l = [] := by
      refine eq_nil_iff_forall_not_mem.mpr fun e he => ?_
      obtain ⟨L, hL, ha, -⟩ := hs.lives e.1 e.2 he
      obtain ⟨hp, hq, howed⟩ := hall e.1 L hL
      rw [(ha.late hp howed).2.2] at hq
      cases hq
    refine ⟨hnil, ?_, ?_, ?_, fun r hr => ?_⟩
    · rw [hs.maps.count, hnil]
      rfl
    · rw [hs.total.pending, hnil]
      rfl
    · rw [hs.total.inFlight, hnil]
      rfl
    · obtain ⟨x, es, hx, hempty⟩ := hrow r hr
      rw [hx.pending, hx.inFlight, hempty hnil]
      exact ⟨rfl, rfl⟩

/-- The handle a step is about. -/
def Label.handle : Label → Handle
  | .submit h _ _ => h
  | .retry h => h
  | .requeue h => h
  | .deliver _ h _ _ _ => h

/-- A step is about one handle. -/
theorem step_other (hstep : step s a = some s') (hne : h ≠ a.handle) : s'.lives h = s.lives h := by
  cases a with
  | submit x task maxRetries =>
    unfold step at hstep
    dsimp only at hstep
    split_ifs at hstep
    cases hstep
    exact update_of_ne hne _ _
  | retry x | requeue x =>
    obtain ⟨L, -, hstep⟩ := bind_eq_some_iff.mp hstep
    obtain ⟨L', -, rfl⟩ := map_eq_some_iff.mp hstep
    exact update_of_ne hne _ _
  | deliver k x st n ts =>
    obtain ⟨L, -, hstep⟩ := bind_eq_some_iff.mp hstep
    obtain ⟨L', -, hstep⟩ := bind_eq_some_iff.mp hstep
    obtain ⟨stats', -, rfl⟩ := map_eq_some_iff.mp hstep
    exact update_of_ne hne _ _

/-- Steps about one handle leave the others alone. -/
theorem run_other {x : Handle} (hrun : run s as = some s') (hall : ∀ a ∈ as, a.handle = x) (hne : h ≠ x) :
    s'.lives h = s.lives h := by
  induction as generalizing s with
  | nil =>
    cases hrun
    rfl
  | cons a as ih =>
    obtain ⟨s₁, hstep, hrest⟩ := bind_eq_some_iff.mp hrun
    have hfirst := step_other hstep (hne.trans_eq (hall a mem_cons_self).symm)
    exact (ih hrest fun b hb => hall b (mem_cons_of_mem _ hb)).trans hfirst

/-- A first attempt fails, its retry is cancelled, and only then QUEUED and RETRIED come. -/
def outOfOrder : List Label :=
  [.submit 1 [] 3, .deliver .started 1 .ok 1 5, .deliver .failed 1 .task 1 6, .retry 1,
    .deliver .failed 1 .cancelled 2 7, .deliver .queued 1 .ok 0 8, .deliver .retried 1 .task 2 9]

/-- No slot is left and no gauge is stuck although QUEUED and RETRIED came last. -/
theorem statistics_exact_out_of_order : ∃ s, run init outOfOrder = some s ∧ s.stats.tab.n = 0 ∧
    s.stats.total.pending = 0 ∧ s.stats.total.inFlight = 0 ∧ totals s.stats.total = tally s.trace := by
  have hrun : ∃ s, run init outOfOrder = some s ∧ s.lives 1 = some ⟨[], 3, .ended, true, none⟩ :=
    ⟨_, rfl, rfl⟩
  obtain ⟨s, hs, hone⟩ := hrun
  have hall : AllDelivered s := by
    intro h L hL
    by_cases heq : h = 1
    · subst heq
      cases hone.symm.trans hL
      exact ⟨rfl, rfl, rfl⟩
    · rw [run_other hs (by decide) heq] at hL
      cases hL
  have hcounted : RunCounted init outOfOrder := by
    refine ⟨trivial, fun s₁ h₁ => ⟨trivial, fun s₂ h₂ => ⟨trivial, fun s₃ h₃ =>
      ⟨fun L n hL hn => ?_, fun s₄ _ => ⟨trivial, fun s₅ _ => ⟨trivial, fun s₆ _ =>
        ⟨trivial, fun _ _ => trivial⟩⟩⟩⟩⟩⟩⟩
    obtain rfl := some.inj h₁
    obtain rfl := some.inj h₂
    obtain rfl := some.inj h₃
    obtain rfl := some.inj hL
    cases hn
    decide
  obtain ⟨l, -, hrow, -, -, hend⟩ := statistics_exact hs hcounted
  obtain ⟨-, hn, hp, hf, -⟩ := hend hall
  exact ⟨s, hs, hn, hp, hf, hrow.totals⟩

end Results

section Wrap

variable {s : Sys}

/-- A handle that may be retried as often as 32 bits count, and whose attempt `n` failed. -/
def tried (n : ℕ) : Life := ⟨[], 2 ^ 32 - 1, .failed n, true, none⟩

/-- The handle 1 is alone and its attempt `n` failed. -/
structure Failing (n : ℕ) (s : Sys) : Prop where
  /-- The statistics are in order. -/
  inv : ∃ l, Inv s l
  /-- The handle. -/
  one : s.lives 1 = some (tried n)
  /-- No other handle was submitted. -/
  alone : ∀ h, h ≠ 1 → s.lives h = none

/-- One more attempt, announced in order, that fails. -/
def again (n : ℕ) : List Label :=
  [.retry 1, .deliver .retried 1 .task (n + 1) 0, .deliver .started 1 .ok (n + 1) 0,
    .deliver .failed 1 .task (n + 1) 0]

/-- What a delivery does, once the observer's part is known. -/
theorem deliver_eq {L : Life} (L' : Life) {n ts : ℕ} (hL : s.lives h = some L)
    (hh : L.hear k st n = some L')
    (hobs : statsObserve s.stats ⟨k, h, L.task, ts, st, n⟩ {} = some stats') :
    step s (.deliver k h st n ts) =
      some ⟨stats', update s.lives h (some L'), s.trace ++ [⟨k, h, L.task, ts, st, n⟩]⟩ := by
  rw [step, hL, bind_some, hh, bind_some]
  dsimp only
  rw [hobs, map_some]

/-- A delivery the life of a handle permits happens. -/
theorem deliver_step {l : List (Handle × Slot)} {L L' : Life} (k : EvKind) (st : Status) (n ts : ℕ)
    (hs : Inv s l) (hL : s.lives h = some L) (hh : L.hear k st n = some L') :
    ∃ s' l', step s (.deliver k h st n ts) = some s' ∧ Inv s' l' ∧ s'.lives = update s.lives h (some L') := by
  obtain ⟨stats', l', hobs, hinv⟩ := hs.deliver hL hh ts
  exact ⟨_, l', deliver_eq _ hL hh hobs, hinv, rfl⟩

theorem run_cons (as : List Label) (hstep : step s a = some s') : run s (a :: as) = run s' as := by
  rw [run, hstep, bind_some]

theorem run_append {as bs : List Label} (hrun : run s as = some s') : run s (as ++ bs) = run s' bs := by
  induction as generalizing s with
  | nil =>
    cases hrun
    rfl
  | cons a as ih =>
    obtain ⟨s₁, hstep, hrest⟩ := bind_eq_some_iff.mp hrun
    exact (run_cons _ hstep).trans (ih hrest)

/-- A retry that is scheduled. -/
theorem retry_step {n : ℕ} (hn : n ≤ 2 ^ 32 - 1) (hL : s.lives 1 = some (tried n)) :
    step s (.retry 1) = some { s with lives := update s.lives 1 (some { tried n with
      phase := .waiting ((n + 1) % 2 ^ 32), owed := some ((n + 1) % 2 ^ 32) }) } := by
  rw [step, hL, bind_some]
  unfold Life.retry tried
  dsimp only
  rw [if_pos hn, map_some]

/-- One failing attempt more. -/
theorem again_failing {n : ℕ} (hs : Failing n s) (hn : n + 1 < 2 ^ 32) :
    ∃ s', run s (again n) = some s' ∧ Failing (n + 1) s' := by
  obtain ⟨l, hinv⟩ := hs.inv
  have hretry := retry_step (by omega) hs.one
  rw [Nat.mod_eq_of_lt hn] at hretry
  have hcounted : Counted s (.retry 1) := by
    intro L m hL hm
    cases hs.one.symm.trans hL
    cases hm
    exact hn
  obtain ⟨l₁, hinv₁⟩ := hinv.step hcounted hretry
  obtain ⟨s₂, l₂, hstep₂, hinv₂, hlives₂⟩ := deliver_step .retried .task (n + 1) 0
    hinv₁ (update_self _ _ _) (if_pos rfl)
  have hone₂ : s₂.lives 1 = some { tried n with phase := .waiting (n + 1), owed := none } := by
    rw [hlives₂]
    exact update_self _ _ _
  obtain ⟨s₃, l₃, hstep₃, hinv₃, hlives₃⟩ := deliver_step .started .ok (n + 1) 0
    hinv₂ hone₂ (if_pos ⟨rfl, rfl⟩)
  have hone₃ : s₃.lives 1 = some { tried n with phase := .running (n + 1), owed := none } := by
    rw [hlives₃]
    exact update_self _ _ _
  obtain ⟨s₄, l₄, hstep₄, hinv₄, hlives₄⟩ := deliver_step .failed .task (n + 1) 0
    hinv₃ hone₃ (if_pos rfl)
  have hrun : run s (again n) = some s₄ :=
    calc run s (again n) = _ := run_cons _ hretry
      _ = _ := run_cons _ hstep₂
      _ = _ := run_cons _ hstep₃
      _ = _ := run_cons _ hstep₄
  refine ⟨s₄, hrun, ⟨l₄, hinv₄⟩, ?_, fun h hne => ?_⟩
  · rw [hlives₄, update_self]
    rfl
  · have hall : ∀ a ∈ again n, a.handle = 1 := by
      intro a ha
      simp only [again, mem_cons, not_mem_nil, or_false] at ha
      rcases ha with rfl | rfl | rfl | rfl <;> rfl
    rw [run_other hrun hall hne]
    exact hs.alone h hne

/-- Any attempt may be reached, and fail. -/
theorem failing_reached (n : ℕ) (hn : n + 1 < 2 ^ 32) :
    ∃ as s, run init as = some s ∧ Failing (n + 1) s := by
  induction n with
  | zero =>
    have hfirst : ∃ s, run init [.submit 1 [] (2 ^ 32 - 1), .deliver .queued 1 .ok 0 0,
        .deliver .started 1 .ok 1 0, .deliver .failed 1 .task 1 0] = some s ∧
          s.lives 1 = some (tried 1) := ⟨_, rfl, rfl⟩
    obtain ⟨s, hrun, hone⟩ := hfirst
    refine ⟨_, s, hrun, init_inv.run ?_ hrun, hone, fun h hne => ?_⟩
    · exact ⟨trivial, fun _ _ => ⟨trivial, fun _ _ => ⟨trivial, fun _ _ => ⟨trivial, fun _ _ => trivial⟩⟩⟩⟩
    · rw [run_other hrun (by decide) hne]
      rfl
  | succ n ih =>
    obtain ⟨as, s, hrun, hs⟩ := ih (by omega)
    obtain ⟨s', hrun', hs'⟩ := again_failing hs hn
    exact ⟨as ++ again (n + 1), s', (run_append hrun).trans hrun', hs'⟩

/-- The handle after the retry that wraps its counter of attempts. -/
def wrapped : Life := { tried (2 ^ 32 - 1) with phase := .waiting 0, owed := some 0 }

/-- The retry that wraps the counter of attempts is cancelled before its RETRIED comes: its slot
looks as if nothing were owed to it and is deleted, and the RETRIED makes another that stays. -/
theorem slot_left_behind : ∃ as s, run init as = some s ∧ AllDelivered s ∧ s.stats.tab.n ≠ 0 := by
  obtain ⟨as, s, hrun, hs⟩ := failing_reached (2 ^ 32 - 2) (by decide)
  obtain ⟨l, hinv⟩ := hs.inv
  have hretry : step s (.retry 1) = some ⟨s.stats, update s.lives 1 (some wrapped), s.trace⟩ :=
    retry_step le_rfl hs.one
  -- the slot of the handle, which no event of the wrapped attempt can look late to
  rcases hinv.maps.get_some 1 with ⟨sl, hmem, -⟩ | ⟨hno, -⟩
  · obtain ⟨L, hL, ha, -⟩ := hinv.lives 1 sl hmem
    cases hs.one.symm.trans hL
    obtain ⟨-, -, hatt, -, hann⟩ := ha.attempt (2 ^ 32 - 1) (.inr rfl)
    obtain ⟨l₁, l₂, rfl⟩ := append_of_mem hmem
    have hmaps := hinv.maps.perm perm_middle
    have hkeys := hmaps.keys
    rw [map_cons, nodup_cons] at hkeys
    -- the cancel deletes it
    have hgone : (arm ⟨.failed, 1, [], 0, .cancelled, 0⟩ sl).2 = none := by
      have hnote : noteAttempt sl 0 = sl := if_neg (Nat.not_lt_zero _)
      have howes : owesRetried { sl with state := .limbo } = false :=
        owesRetried_false.mpr (.inr (le_of_eq (hatt.trans (hann (by decide)).symm)))
      have hseen : sl.seenQueued = true := ha.seen
      show finishSlot { noteAttempt sl 0 with state := .limbo } = none
      rw [hnote]
      unfold finishSlot
      rw [howes]
      rw [hseen]
      rfl
    obtain ⟨m, hsettle, hm⟩ :=
      settle_maps _ ⟨.failed, 1, [], 0, .cancelled, 0⟩ rfl hmaps sl.task
    rw [hgone] at hm
    have hcancel := deliver_eq (s := ⟨s.stats, update s.lives 1 (some wrapped), s.trace⟩)
      { wrapped with phase := .ended } (update_self _ _ _) rfl
      ((observe_held (by simp) hinv.maps hmem).trans hsettle)
    -- and its RETRIED makes another, which nothing will clear
    obtain ⟨stats₁, i, hindex, -, htab, -, -⟩ := taskIndex_some
      { bump s.stats sl.task (fun c => (arm ⟨.failed, 1, [], 0, .cancelled, 0⟩ sl).1
        (counts .failed .cancelled c)) with tab := m } []
    obtain ⟨m₁, hobs, hm₁⟩ := observe_absent ⟨.retried, 1, [], 0, .task, 0⟩ (by simp) hm hkeys.1
      hindex htab
    obtain ⟨m₂, hsettle₂, hm₂⟩ := settle_maps { stats₁ with tab := m₁ }
      ⟨.retried, 1, [], 0, .task, 0⟩ rfl hm₁ (some i)
    have hretried := deliver_eq (s := ⟨_, update (update s.lives 1 (some wrapped)) 1
      (some { wrapped with phase := .ended }), s.trace ++ [⟨.failed, 1, [], 0, .cancelled, 0⟩]⟩)
      { wrapped with phase := .ended, owed := none } (update_self _ _ _) rfl
      (hobs.trans hsettle₂)
    let last : List Label :=
      [.retry 1, .deliver .failed 1 .cancelled 0 0, .deliver .retried 1 .task 0 0]
    have hlast : ∃ s', run s last = some s' ∧ s'.stats.tab = m₂ ∧
        s'.lives 1 = some { wrapped with phase := .ended, owed := none } := by
      have hrest := (run_cons [.deliver .retried 1 .task 0 0] hcancel).trans (run_cons _ hretried)
      refine ⟨_, (run_cons _ hretry).trans hrest, rfl, ?_⟩
      dsimp only
      rw [update_self]
    obtain ⟨s', hrun', htab', hone⟩ := hlast
    refine ⟨as ++ last, s', (run_append hrun).trans hrun', fun h L hL => ?_, ?_⟩
    · by_cases heq : h = 1
      · subst heq
        cases hone.symm.trans hL
        exact ⟨rfl, rfl, rfl⟩
      · rw [run_other hrun' (by decide) heq, hs.alone h heq] at hL
        cases hL
    · rw [htab', hm₂.count]
      exact Nat.succ_ne_zero _
  · rcases hinv.absent 1 _ hs.one hno with hf | hf
    · cases hf.1
    · cases hf.1

end Wrap

end Gptps.StatsDrift
