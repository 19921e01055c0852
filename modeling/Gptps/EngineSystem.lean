import Gptps.EngineApi

/-!
# The engine and the threads that use it

A step is the code a thread runs between two releases of the engine lock, or
one emission without it. The pump is the dispatcher thread of a THREADED engine
or the one `gptps_step` of a MANUAL one; calls under way keep what they hold in
local variables; the log is the sequence of events as delivered. Two histories
are kept beside it: the submits that were accepted, and the attempts started.

`gptps_shutdown` is the last call: it collects what is left once the pumps have
ended, and returns when no other call is under way.
-/

namespace Gptps.EngineSystem

open Function EngineState EngineStore EnginePass EngineApi Option

variable {s s' : Sys} {l : Label} {P : Sys → Prop}

/-- Where the thread that runs passes is. -/
inductive Pump
  /-- The dispatcher, with the events of its last pass still to emit. -/
  | rest (buf : List Ev)
  /-- The dispatcher has ended. -/
  | exited
  /-- MANUAL: no step is under way. -/
  | idle
  /-- MANUAL: about to run pass A (false) or B (true); items run so far. -/
  | pass (b : Bool) (ran : ℕ)
  /-- MANUAL: emitting what a pass buffered. -/
  | flush (b : Bool) (buf : List Ev) (more : Bool) (ran : ℕ)
  /-- MANUAL: about to take the next ready item. -/
  | run (ran : ℕ)
  /-- MANUAL: executing an item on the stepping thread. -/
  | exec (p : Ptr) (ran : ℕ)
  deriving DecidableEq

/-- A call that has left its critical section and still holds something. -/
inductive Call
  /-- A submit with the memory of its item, not yet under the lock. -/
  | submitting (p : Ptr)
  /-- Events to emit. -/
  | emitting (evs : List Ev)
  /-- An unregister waiting for its type to drain, with the backlog it cancelled. -/
  | removing (r : RegId) (dropped : List Item)
  /-- An unregister ending its backlog; whether the type's record can be freed. -/
  | dropping (r : RegId) (dropped : List Item) (named : Bool)
  /-- A dead-letter drain handing over items. -/
  | handing (items : List Item)
  /-- A registration on thread `tid`, before or after its settings are published. -/
  | registering (r : RegId) (tid : ℕ) (published : Bool)
  /-- A resource definition making its settings. -/
  | defining (name : Name) (budget : UInt64) (addon : Bool)
  /-- A definition that has published, or failed to. -/
  | defined (addon : Bool)
  deriving DecidableEq

/-- How far `gptps_shutdown` has come. -/
inductive Shut
  /-- Not called. -/
  | up
  /-- Services stopped; ending those that were detached, then joining the threads. -/
  | draining (dropped : List Item)
  /-- Collected what was left; ending it. -/
  | collecting (dropped : List Item)
  /-- Returned: the engine is gone. -/
  | returned
  deriving DecidableEq

/-- The engine, its threads and its history. -/
structure Sys where
  /-- The engine record. -/
  e : Engine
  /-- The dispatcher or the step. -/
  pump : Pump
  /-- The other calls under way. -/
  calls : List Call
  /-- The progress of `gptps_shutdown`. -/
  shut : Shut
  /-- The events delivered, in order. -/
  log : List Ev
  /-- The handles of accepted submits, with their types. -/
  accepted : List (Handle × RegId)
  /-- The handles of the attempts started, in order. -/
  starts : List Handle

/-- A freshly opened engine. -/
def init (a : OpenArgs) : Sys :=
  { e := openEngine a, pump := if a.manual then .idle else .rest [], calls := [], shut := .up
    log := [], accepted := [], starts := [] }

/-- What can happen next. -/
inductive Label
  /-- The pump runs a pass. -/
  | pass (inp : PassIn)
  /-- The pump emits its next buffered event. -/
  | emit
  /-- `gptps_step` begins. -/
  | stepBegin
  /-- The step goes on after its buffered events are out. -/
  | stepNext
  /-- The step finds `ready` empty. -/
  | stepDry
  /-- A worker or the step takes a ready item. -/
  | take (now : ℕ)
  /-- An attempt emits STARTED. -/
  | execStarted (p : Ptr)
  /-- A process job emits a SAMPLE. -/
  | execSample (p : Ptr)
  /-- A body returns. -/
  | execReturn (p : Ptr) (st : Status) (now : ℕ)
  /-- An attempt emits FINISHED or FAILED. -/
  | execReport (p : Ptr)
  /-- An executed item is posted to `done`. -/
  | execPost (p : Ptr)
  /-- The first submit of a bounded engine seals it. -/
  | submitSeal (args : SubmitArgs) (ok : Bool)
  /-- A submit takes the memory of its item. -/
  | submitTake (p : Ptr) (len : ℕ)
  /-- A submit enters its critical section. -/
  | submitCommit (p : Ptr) (args : SubmitArgs)
  /-- A call emits its next event. -/
  | callEmit (evs : List Ev)
  /-- `gptps_cancel` -/
  | cancel (h : Handle)
  /-- `gptps_unregister_task` up to its wait. -/
  | unregister (tid : ℕ) (name : Name) (mode : RemoveMode) (reentrant : Bool)
  /-- An unregister whose type has drained. -/
  | unregisterEnd (r : RegId) (dropped : List Item) (nameOk : Ptr → Bool)
  /-- An unregister ends the next item of its backlog. -/
  | dropNext (r : RegId) (dropped : List Item) (named : Bool)
  /-- `gptps_dead_letter_drain` takes the list. -/
  | deadDrain (cb : Bool) (nameOk : Ptr → Bool)
  /-- A dead-letter drain hands over its next item. -/
  | handNext (items : List Item)
  /-- `gptps_register_task` links a type in. -/
  | register (tid : ℕ) (d : TaskDef)
  /-- A registration publishes its settings. -/
  | registerPublish (r : RegId) (tid : ℕ)
  /-- A registration returns. -/
  | registerDone (r : RegId) (tid : ℕ)
  /-- A registration is taken back. -/
  | registerUndo (r : RegId) (tid : ℕ)
  /-- `gptps_define_resource` begins. -/
  | defineBegin (name : Name) (budget : UInt64) (addon : Bool)
  /-- A resource definition publishes, unless `ok` is false. -/
  | definePublish (name : Name) (budget : UInt64) (addon : Bool) (ok : Bool)
  /-- `gptps_define_task_setting` begins. -/
  | defineTaskSetting
  /-- A definition returns. -/
  | defineEnd (addon : Bool)
  /-- A setting is written. -/
  | setting (s : Setting)
  /-- `gptps_set_task_resource_cost` -/
  | setCost (tid : ℕ) (task resource : Name) (amount : UInt64)
  /-- `gptps_shutdown` begins. -/
  | shutdownBegin (now : ℕ)
  /-- The shutdown ends the next item it detached. -/
  | shutdownNext
  /-- The shutdown has joined the threads and collects what is left. -/
  | shutdownCollect
  /-- The shutdown frees the engine and returns. -/
  | shutdownEnd

/-- Replace a call under way. -/
def Sys.swap (s : Sys) (c : Call) (cs : List Call) : Sys :=
  { s with calls := s.calls.erase c ++ cs }

/-- Continue with a call that is under way. -/
def Sys.onCall (s : Sys) (c : Call) (k : Option Sys) : Option Sys :=
  if c ∈ s.calls then k else none

/-- Whether a thread is inside a registration that runs no host code. -/
def Sys.registering (s : Sys) (tid : ℕ) : Bool :=
  s.calls.any fun
    | .registering _ t published => t = tid && !published
    | _ => false

/-- The dispatcher's exit condition. -/
def drained (e : Engine) : Bool :=
  e.stopping && (e.q .intake).isEmpty && (e.q .ready).isEmpty && (e.q .done).isEmpty &&
    (e.q .delayed).isEmpty && (e.q .running).isEmpty && e.running = 0

/-- The pump runs a pass; the dispatcher ends if everything is drained. -/
def stepPass (s : Sys) (inp : PassIn) : Option Sys :=
  let ps := enginePass inp s.e
  match s.pump with
  | .rest [] =>
    if ps.pend = [] ∧ ¬ ps.more ∧ drained ps.e then
      some { s with e := { ps.e with workersExit := true }, pump := .exited }
    else some { s with e := ps.e, pump := .rest ps.pend }
  | .pass b ran => some { s with e := ps.e, pump := .flush b ps.pend ps.more ran }
  | _ => none

/-- The pump emits its next buffered event. -/
def stepEmit (s : Sys) : Option Sys :=
  match s.pump with
  | .rest (ev :: buf) => some { s with log := s.log ++ [ev], pump := .rest buf }
  | .flush b (ev :: buf) more ran =>
    some { s with log := s.log ++ [ev], pump := .flush b buf more ran }
  | _ => none

/-- Where the step goes once the events of a pass are out. -/
def afterFlush (e : Engine) (b more : Bool) (ran : ℕ) : Pump :=
  if more then .pass b ran
  else if !b || (ran = 0 && !(e.q .ready).isEmpty) then .run ran
  else .idle

/-- The step moves on between its parts. -/
def stepManual (s : Sys) : Label → Option Sys
  | .stepBegin => if s.pump = .idle ∧ s.e.manual then some { s with pump := .pass false 0 } else none
  | .stepNext =>
    match s.pump with
    | .flush b [] more ran => some { s with pump := afterFlush s.e b more ran }
    | _ => none
  | .stepDry =>
    match s.pump with
    | .run ran => if s.e.q .ready = [] then some { s with pump := .pass true ran } else none
    | _ => none
  | _ => none

/-- Whether a thread that executes items is free to take one. -/
def canTake (s : Sys) : Bool :=
  match s.pump with
  | .rest _ => (s.e.q .running).length < s.e.nworkers
  | .exited => (s.e.q .running).length < s.e.nworkers
  | .run _ => true
  | _ => false

/-- The stepping thread executes what it started. -/
def afterTake (p : Pump) (it : Ptr) : Pump :=
  match p with
  | .run ran => .exec it ran
  | p => p

/-- A worker or the step takes a ready item. -/
def stepTake (s : Sys) (now : ℕ) : Option Sys :=
  if canTake s then
    (takeReady now s.e).map fun (e, it) =>
      if mustDiscard s.e it then { s with e := e }
      else { s with e := e, pump := afterTake s.pump it.ptr, starts := s.starts ++ [it.handle] }
  else none

/-- The item being executed at an address. -/
def runningItem (s : Sys) (p : Ptr) : Option Item := (s.e.q .running).find? fun it => it.ptr = p

/-- The stepping thread is back after executing an item. -/
def afterPost (pump : Pump) (p : Ptr) : Pump :=
  match pump with
  | .exec p' ran => if p' = p then .run (ran + 1) else .exec p' ran
  | pump => pump

/-- `execute` moves on with the attempt of one item. -/
def stepExec (s : Sys) (it : Item) : Label → Option Sys
  | .execStarted p =>
    if it.phase = .begun then
      some { s with
        e := updItem s.e .running p fun x => { x with phase := .body }
        log := s.log ++ [evOf s.e it .started .ok false] }
    else none
  | .execSample _ =>
    if it.phase = .body ∧ ¬ (regOf s.e it.toCore).any (·.exec = .inproc) then
      some { s with log := s.log ++ [evOf s.e it .sample .ok false] }
    else none
  | .execReturn p st now =>
    if it.phase = .body then
      some { s with
        e := updItem s.e .running p fun x =>
          { x with phase := .ended (effective s.e now it st) it.cancel } }
    else none
  | .execReport p =>
    match it.phase with
    | .ended st raised =>
      some { s with
        e := updItem s.e .running p fun x => { x with phase := .reported st }
        log := s.log ++ [reportEv s.e it st raised] }
    | _ => none
  | .execPost p =>
    match it.phase with
    | .reported st => some { s with e := postDone s.e it st, pump := afterPost s.pump p }
    | _ => none
  | _ => none

/-- A submit takes the memory of its item: any free address of a classic engine, the
first free one of a bounded engine's pool. -/
def stepSubmitTake (s : Sys) (p : Ptr) (len : ℕ) : Option Sys :=
  if s.e.maxItems = 0 then
    if s.e.allocated p then none
    else some { s with e := takeItem s.e p, calls := s.calls ++ [.submitting p] }
  else if s.e.sealed ∧ len ≤ s.e.maxPayload then
    match poolTake s.e with
    | some (p', e) => if p' = p then some { s with e := e, calls := s.calls ++ [.submitting p] } else none
    | none => none
  else none

/-- A submit runs its critical section. -/
def stepSubmitCommit (s : Sys) (p : Ptr) (args : SubmitArgs) : Option Sys :=
  s.onCall (.submitting p) <|
    if s.registering args.tid then none
    else
      match submitInternal s.e p args with
      | (e, .error _) => some { s.swap (.submitting p) [] with e := e }
      | (e, .ok it) =>
        some { s.swap (.submitting p) [.emitting [queuedEv s.e it]] with
          e := e
          accepted := s.accepted ++ [(it.handle, it.reg.getD 0)] }

/-- The first submit of a bounded engine makes its working set. -/
def stepSubmitSeal (s : Sys) (args : SubmitArgs) (ok : Bool) : Option Sys :=
  if s.e.maxItems ≠ 0 ∧ ¬ s.e.sealed ∧ args.len ≤ s.e.maxPayload ∧ ¬ s.registering args.tid then
    match submitSeal s.e args ok with
    | .ok e => some { s with e := e }
    | .error _ => some s
  else none

/-- A call emits its next event, and returns after the last. -/
def stepCallEmit (s : Sys) (evs : List Ev) : Option Sys :=
  s.onCall (.emitting evs) <|
    match evs with
    | [] => some (s.swap (.emitting []) [])
    | ev :: rest => some { s.swap (.emitting evs) [.emitting rest] with log := s.log ++ [ev] }

/-- A cancel runs its critical section. -/
def stepCancel (s : Sys) (h : Handle) : Option Sys :=
  let r := gptpsCancel s.e h
  some { s with e := r.1, calls := s.calls ++ r.2.2.toList.map fun ev => .emitting [ev] }

/-- An unregister runs its first critical section. -/
def stepUnregister (s : Sys) (tid : ℕ) (name : Name) (mode : RemoveMode) (reentrant : Bool) :
    Option Sys :=
  if s.registering tid then none
  else
    match unregisterBegin s.e tid name mode reentrant with
    | .ok (e, r, dropped) => some { s with e := e, calls := s.calls ++ [.removing r dropped] }
    | .error _ => some s

/-- An unregister whose type has drained runs its last critical section. -/
def stepUnregisterEnd (s : Sys) (r : RegId) (dropped : List Item) (nameOk : Ptr → Bool) :
    Option Sys :=
  s.onCall (.removing r dropped) <|
    if (s.e.manual ∨ regLiveRefs s.e r = 0) ∧ s.e.activeDefines = 0 then
      some { s.swap (.removing r dropped) [.dropping r dropped (allOwned s.e r nameOk)] with
        e := unregisterEnd s.e r nameOk }
    else none

/-- The event `drain_cancelled` emits for an item, if it owes one. -/
def owedEv (e : Engine) (it : Item) : List Ev :=
  if terminalReported e it.toCore then [] else [evOf e it .failed .cancelled false]

/-- An unregister ends the next item of its backlog, and returns after the last. -/
def stepDropNext (s : Sys) (r : RegId) (dropped : List Item) (named : Bool) : Option Sys :=
  s.onCall (.dropping r dropped named) <|
    match dropped with
    | [] =>
      some { s.swap (.dropping r [] named) [] with e := if named then regDestroy s.e r else s.e }
    | it :: rest =>
      some { s.swap (.dropping r dropped named) [.dropping r rest named] with
        e := itemFree s.e it.ptr
        log := s.log ++ owedEv s.e it }

/-- A dead-letter drain takes the retained list. -/
def stepDeadDrain (s : Sys) (cb : Bool) (nameOk : Ptr → Bool) : Option Sys :=
  let r := deadLetterDrain s.e cb nameOk
  some { s with e := r.1, calls := s.calls ++ [.handing r.2] }

/-- A dead-letter drain frees the next item, and returns after the last. -/
def stepHandNext (s : Sys) (items : List Item) : Option Sys :=
  s.onCall (.handing items) <|
    match items with
    | [] => some (s.swap (.handing []) [])
    | it :: rest =>
      some { s.swap (.handing items) [.handing rest] with e := itemFree s.e it.ptr }

/-- Registrations. -/
def stepRegister (s : Sys) : Label → Option Sys
  | .register tid d =>
    if s.e.activeDefines ≠ 0 ∨ s.registering tid then none
    else
      match registerTask s.e tid d with
      | .ok (e, r) => some { s with e := e, calls := s.calls ++ [.registering r tid false] }
      | .error _ => some s
  | .registerPublish r tid =>
    s.onCall (.registering r tid false) <|
      some (s.swap (.registering r tid false) [.registering r tid true])
  | .registerDone r tid =>
    s.onCall (.registering r tid true) <|
      some { s.swap (.registering r tid true) [] with
        e := updReg s.e r fun g => { g with settling := false } }
  | .registerUndo r tid =>
    s.onCall (.registering r tid false) <|
      if s.e.activeDefines = 0 then
        some { s.swap (.registering r tid false) [] with e := registerTaskUndo s.e r }
      else none
  | _ => none

/-- The definitions an add-on does not make hold back registrations. -/
def holdDefines (e : Engine) (addon : Bool) : Engine :=
  { e with activeDefines := e.activeDefines + if addon then 0 else 1 }

/-- Definitions of resources and per-task settings. -/
def stepDefine (s : Sys) : Label → Option Sys
  | .defineBegin name budget addon =>
    if s.e.stopping then some s
    else if hasResource s.e name then some { s with e := resRebudget s.e name budget }
    else if boundedSealed s.e then some s
    else some { s with
      e := holdDefines s.e addon
      calls := s.calls ++ [.defining name budget addon] }
  | .definePublish name budget addon ok =>
    s.onCall (.defining name budget addon) <|
      match defineResource s.e name budget with
      | .ok e =>
        some { s.swap (.defining name budget addon) [.defined addon] with
          e := if ok then e else s.e }
      | .error _ => some (s.swap (.defining name budget addon) [.defined addon])
  | .defineTaskSetting =>
    some { s with e := holdDefines s.e false, calls := s.calls ++ [.defined false] }
  | .defineEnd addon =>
    s.onCall (.defined addon) <|
      some { s.swap (.defined addon) [] with
        e := { s.e with activeDefines := s.e.activeDefines - if addon then 0 else 1 } }
  | _ => none

/-- The pump has ended, and so have the workers. -/
def joined (s : Sys) : Bool :=
  (s.pump = .exited && (s.e.q .ready).isEmpty && (s.e.q .running).isEmpty) || s.pump = .idle

/-- The parts of `gptps_shutdown`. -/
def stepShutdown (s : Sys) : Label → Option Sys
  | .shutdownBegin now =>
    if s.shut = .up then
      let r := shutdownBegin s.e now
      some { s with e := r.1, shut := .draining r.2 }
    else none
  | .shutdownNext =>
    match s.shut with
    | .draining (it :: rest) =>
      some { s with
        e := itemFree s.e it.ptr, log := s.log ++ owedEv s.e it, shut := .draining rest }
    | .collecting (it :: rest) =>
      some { s with
        e := itemFree s.e it.ptr, log := s.log ++ owedEv s.e it, shut := .collecting rest }
    | _ => none
  | .shutdownCollect =>
    if s.shut = .draining [] ∧ joined s then
      let r := shutdownCollect s.e
      some { s with e := r.1, shut := .collecting r.2 }
    else none
  | .shutdownEnd =>
    if s.shut = .collecting [] ∧ joined s ∧ s.calls = [] then
      some { s with e := shutdownFree s.e, shut := .returned }
    else none
  | _ => none

/-- One step of the system; `none` where the label is not possible. -/
def step (s : Sys) (l : Label) : Option Sys :=
  if s.shut = .returned then none
  else
    match l with
    | .pass inp => stepPass s inp
    | .emit => stepEmit s
    | .stepBegin | .stepNext | .stepDry => stepManual s l
    | .take now => stepTake s now
    | .execStarted p | .execSample p | .execReturn p _ _ | .execReport p | .execPost p =>
      (runningItem s p).bind fun it => stepExec s it l
    | .submitSeal args ok => stepSubmitSeal s args ok
    | .submitTake p len => stepSubmitTake s p len
    | .submitCommit p args => stepSubmitCommit s p args
    | .callEmit evs => stepCallEmit s evs
    | .cancel h => stepCancel s h
    | .unregister tid name mode reentrant => stepUnregister s tid name mode reentrant
    | .unregisterEnd r dropped nameOk => stepUnregisterEnd s r dropped nameOk
    | .dropNext r dropped named => stepDropNext s r dropped named
    | .deadDrain cb nameOk => stepDeadDrain s cb nameOk
    | .handNext items => stepHandNext s items
    | .register .. | .registerPublish .. | .registerDone .. | .registerUndo .. => stepRegister s l
    | .defineBegin .. | .definePublish .. | .defineTaskSetting | .defineEnd .. => stepDefine s l
    | .setting x => some { s with e := applySetting s.e x }
    | .setCost tid task resource amount =>
      if s.registering tid then none
      else some { s with e := (setTaskResourceCost s.e tid task resource amount).1 }
    | .shutdownBegin .. | .shutdownNext | .shutdownCollect | .shutdownEnd => stepShutdown s l

/-- A sequence of steps. -/
def run : Sys → List Label → Option Sys
  | s, [] => some s
  | s, l :: ls => (step s l).bind fun s' => run s' ls

/-- The states an engine can get into. -/
def Reachable (s : Sys) : Prop := ∃ a ls, run (init a) ls = some s

/-- The admissions a step makes. -/
def stepAdmissions (s : Sys) : Label → List Admission
  | .pass inp => (enginePass inp s.e).admissions
  | _ => []

/-- The step in which the shutdown takes what no pump got to. -/
def collects : Label → Bool
  | .shutdownCollect => true
  | _ => false

/-- Steps compose. -/
theorem run_append (s : Sys) (ls ks : List Label) :
    run s (ls ++ ks) = (run s ls).bind fun s' => run s' ks := by
  induction ls generalizing s with
  | nil => rfl
  | cons l ls ih =>
    rw [List.cons_append, run, run]
    cases step s l with
    | none => rfl
    | some s' => exact ih s'

/-- What is reached from a reachable state is reachable. -/
theorem reachable_run {ls : List Label} (hs : Reachable s) (hrun : run s ls = some s') :
    Reachable s' := by
  obtain ⟨a, ks, hks⟩ := hs
  refine ⟨a, ks ++ ls, ?_⟩
  rw [run_append, hks]
  exact hrun

/-- One step is a run. -/
theorem run_one (hstep : step s l = some s') : run s [l] = some s' := by
  rw [run, hstep]
  rfl

/-- What one step leads to is reachable. -/
theorem reachable_step (hs : Reachable s) (hstep : step s l = some s') : Reachable s' :=
  reachable_run hs (run_one hstep)

/-- What every step of some kind keeps in the states an engine can get into, every run of such
steps keeps. -/
theorem run_kept {Q : Label → Prop}
    (hkeep : ∀ s l s', Reachable s → Q l → P s → step s l = some s' → P s') {ls : List Label}
    (hs : Reachable s) (hls : ∀ l ∈ ls, Q l) (h : P s) (hrun : run s ls = some s') : P s' := by
  induction ls generalizing s with
  | nil =>
    cases hrun
    exact h
  | cons l ls ih =>
    obtain ⟨s₁, hstep, hrest⟩ := bind_eq_some_iff.mp hrun
    exact ih (reachable_step hs hstep) (fun l' hl' => hls l' (List.mem_cons_of_mem _ hl'))
      (hkeep s l s₁ hs (hls l List.mem_cons_self) h hstep) hrest

/-- What holds at open and is kept by every step holds in every reachable state. -/
theorem reachable_invariant (hinit : ∀ a, P (init a))
    (hkeep : ∀ s l s', Reachable s → P s → step s l = some s' → P s') (h : Reachable s) : P s := by
  obtain ⟨a, ls, hrun⟩ := h
  exact run_kept (fun s l s' hs _ => hkeep s l s' hs) ⟨a, [], rfl⟩ (fun _ _ => trivial) (hinit a) hrun

section Sample

/-- The state a sequence of steps from an opened engine ends in. -/
def ranTo (a : OpenArgs) (ls : List Label) : Sys := (run (init a) ls).getD (init a)

variable {a : OpenArgs} {ls ks : List Label}

/-- It is reachable when every step of the sequence is possible. -/
theorem run_ranTo (h : (run (init a) ls).isSome = true) : run (init a) ls = some (ranTo a ls) := by
  obtain ⟨s, hs⟩ := isSome_iff_exists.mp h
  rw [ranTo, hs]
  rfl

/-- The same as reachability. -/
theorem reachable_ranTo (h : (run (init a) ls).isSome = true) : Reachable (ranTo a ls) :=
  ⟨a, ls, run_ranTo h⟩

/-- The steps that follow lead on from there. -/
theorem run_from_ranTo (h : (run (init a) (ls ++ ks)).isSome = true) :
    run (ranTo a ls) ks = some (ranTo a (ls ++ ks)) := by
  have hall := run_ranTo h
  rw [run_append] at hall
  obtain ⟨s, hs, hrest⟩ := bind_eq_some_iff.mp hall
  rw [show ranTo a ls = s by rw [ranTo, hs]; rfl]
  exact hrest

/-- The same for one step. -/
theorem step_from_ranTo (h : (run (init a) (ls ++ [l])).isSome = true) :
    step (ranTo a ls) l = some (ranTo a (ls ++ [l])) := by
  have hone := run_from_ranTo h
  obtain ⟨s, hs, hrest⟩ := bind_eq_some_iff.mp hone
  rw [hs]
  exact hrest

/-- An engine that runs one item at a time. -/
def sampleOpen (manual : Bool) (mem : UInt64) : OpenArgs :=
  { manual := manual, maxMemoryBytes := mem, maxConcurrentTasks := 1, maxIntakeDepth := 0
    maxDeadLetters := 10, shutdownGraceMs := 100, maxItems := 0, maxPayload := 0 }

/-- Where some steps lead it. -/
abbrev sampled : List Label → Sys := ranTo (sampleOpen false 1000)

/-- A task type named `a`. -/
def sampleTask (service : Bool) (mem : UInt64) : TaskDef :=
  { name := [97], exec := .inproc, defaultMem := mem, hasCost := false
    policy := ⟨0, 0, 0, .deadLetter⟩, service := service, retireOnOk := false, priority := 0 }

/-- A submit of it. -/
def sampleSubmit : SubmitArgs :=
  { tid := 1, name := [97], len := 0, cost := .ok 0, priority := none, policy := none
    timeoutMs := none, now := 5, indexOk := true }

/-- What a pass without hooks sees. -/
def samplePass (now : ℕ) : PassIn :=
  { now := now, hook := fun _ _ => (.admitted, 0), score := fun _ => 0, snapOk := fun _ => true
    trimOk := true }

/-- Register the type. -/
def sampleType (service : Bool) (mem : UInt64) : List Label :=
  [.register 1 (sampleTask service mem), .registerPublish 0 1, .registerDone 0 1]

/-- Register the type and submit it once, as handle 1. -/
def sampleStart (service : Bool) (mem : UInt64) : List Label :=
  sampleType service mem ++ [.submitTake 7 0, .submitCommit 7 sampleSubmit]

/-- A submit of it at a priority. -/
def sampleAt (p : Ptr) (priority : ℤ) : List Label :=
  [.submitTake p 0, .submitCommit p { sampleSubmit with priority := some priority }]

/-- An event of handle 1. -/
def sampleEv (kind : EvKind) (status : Status) (attempt : UInt32) : Ev :=
  { kind := kind, handle := 1, name := [97], status := status, attempt := attempt, mem := 600
    shutdown := false, selfCancelled := false }

/-- The dispatcher admits handle 1 and a worker begins it. -/
def sampleBegin : List Label :=
  [.callEmit [sampleEv .queued .ok 0], .callEmit [], .pass (samplePass 10), .take 11, .execStarted 7]

/-- A worker runs an item whose attempt ends so. -/
def sampleAttempt (p : Ptr) (st : Status) : List Label :=
  [.take 11, .execStarted p, .execReturn p st 12, .execReport p, .execPost p]

/-- Its attempt returns OK and is reported. -/
def sampleReport : List Label := [.execReturn 7 .ok 12, .execReport 7]

/-- The dispatcher accounts for it. -/
def sampleAccount : List Label := [.execPost 7, .pass (samplePass 13)]

/-- The engine is shut down. -/
def sampleEnd : List Label := [.shutdownBegin 20, .pass (samplePass 21), .shutdownCollect, .shutdownEnd]

end Sample

end Gptps.EngineSystem
