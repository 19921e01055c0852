import Gptps.EngineFrames
import Gptps.PassRetries
import Gptps.SystemInvariant

/-!
# What leaves attempts alone

Calls of the host take items out of the live queues, and ask them to stop, but they neither move an item
between these queues nor change its attempt; the events they emit are not STARTED or RETRIED. So of all
steps only five bear on the order of attempts: a pass, an emission by the pump, the start of an item, its
STARTED, and its way to `done`. An accepted submit adds a first attempt.
-/

namespace Gptps.CallsCalm

open Function EngineState EngineStore EnginePass EngineApi EngineSystem ItemLife DeskStore StoreInvariant
  List
open EngineDesk ApiDesk SystemDesk SystemInvariant PassStages PassRetries EngineFrames

variable {f : Item → Item}

section Engines

variable {x y z : Item} {r : RegId} {mode : RemoveMode} {acc : Engine × List Item}
  {reentrant : Bool}

/-- The same attempt, with STARTED out or not as before. -/
structure Near (x y : Item) : Prop extends Alike x y where
  /-- Whether STARTED is still to come. -/
  phase : y.phase = .begun ↔ x.phase = .begun
  /-- Whether it ran. -/
  started : y.started = x.started

theorem Near.trans (h : Near x y) (h' : Near y z) : Near x z :=
  ⟨h.toAlike.trans h'.toAlike, h'.phase.trans h.phase, h'.started.trans h.started⟩

/-- The same item, with the same claim on admission. -/
structure Still (x y : Item) : Prop where
  /-- The type. -/
  reg : y.reg = x.reg
  /-- The memory it declares. -/
  mem : y.costMem = x.costMem
  /-- The priority. -/
  priority : y.priority = x.priority
  /-- The ordering key. -/
  score : y.schedScore = x.schedScore
  /-- How often it was skipped. -/
  skips : y.skips = x.skips
  /-- Until when it waits. -/
  notBefore : y.notBeforeMs = x.notBeforeMs

theorem Still.refl (x : Item) : Still x x := ⟨rfl, rfl, rfl, rfl, rfl, rfl⟩

theorem Still.trans (h : Still x y) (h' : Still y z) : Still x z :=
  ⟨h'.reg.trans h.reg, h'.mem.trans h.mem, h'.priority.trans h.priority, h'.score.trans h.score,
    h'.skips.trans h.skips, h'.notBefore.trans h.notBefore⟩

/-- The same attempt with the same claim on admission. -/
structure Close (x y : Item) : Prop extends Near x y, Still x y

theorem Close.refl (x : Item) : Close x x := ⟨⟨.refl x, Iff.rfl, rfl⟩, .refl x⟩

theorem Close.trans (h : Close x y) (h' : Close y z) : Close x z :=
  ⟨h.toNear.trans h'.toNear, h.toStill.trans h'.toStill⟩

/-- Every live item was in the same queue before. -/
def Calm (e e' : Engine) : Prop := ∀ q ≠ QId.dead, ∀ y ∈ e'.q q, ∃ x ∈ e.q q, Close x y

variable {e e' e'' : Engine} {q : QId} {it : Item}

theorem Calm.refl (e : Engine) : Calm e e := fun _ _ y hy => ⟨y, hy, .refl y⟩

theorem Calm.trans (h : Calm e e') (h' : Calm e' e'') : Calm e e'' := by
  intro q hq z hz
  obtain ⟨y, hy, hyz⟩ := h' q hq z hz
  obtain ⟨x, hx, hxy⟩ := h q hq y hy
  exact ⟨x, hx, hxy.trans hyz⟩

/-- Items may leave. -/
theorem Calm.of_subset (h : ∀ q ≠ QId.dead, ∀ y ∈ e'.q q, y ∈ e.q q) : Calm e e' :=
  fun q hq y hy => ⟨y, h q hq y hy, .refl y⟩

/-- Nothing moves. -/
theorem Calm.of_q (h : e'.q = e.q) : Calm e e' := .of_subset fun _ _ _ hy => h ▸ hy

/-- The index and the dead letters do not matter. -/
theorem Calm.of_kept (h : KeptLive e e') : Calm e e' := .of_subset fun q hq _ hy => h.q q hq ▸ hy

/-- An item is unlinked. -/
theorem fifoRemove_calm (e : Engine) (q : QId) (it : Item) : Calm e (fifoRemove e q it) :=
  .of_subset fun _ _ _ hy => mem_removed hy

/-- An item leaves intake. -/
theorem intakeUnlink_calm (e : Engine) (it : Item) : Calm e (intakeUnlink e it) :=
  (fifoRemove_calm e .intake it).trans (.of_q rfl)

/-- Items are changed in place. -/
theorem mapQueue_calm (h : q = .dead ∨ ∀ x ∈ e.q q, Close x (f x)) : Calm e (mapQueue e q f) := by
  intro q' hq' y hy
  rcases mem_mapped hy with ⟨rfl, x, hx, rfl⟩ | ⟨-, hy⟩
  · exact ⟨x, hx, h.resolve_left hq' x hx⟩
  · exact ⟨y, hy, .refl y⟩

theorem stopItem_close (x : Item) : Close x (stopItem x) :=
  ⟨⟨⟨rfl, rfl, rfl⟩, Iff.rfl, rfl⟩, ⟨rfl, rfl, rfl, rfl, rfl, rfl⟩⟩

/-- One item is asked to stop. -/
theorem stopOne_calm (e : Engine) (q : QId) (p : Ptr) : Calm e (updItem e q p stopItem) := by
  refine mapQueue_calm (.inr fun x _ => ?_)
  split_ifs
  · exact stopItem_close x
  · exact .refl x

/-- `gptps_cancel`. -/
theorem gptpsCancel_calm (e : Engine) (h : Handle) : Calm e (gptpsCancel e h).1 := by
  have hcases := gptpsCancel_cancels e h
  generalize gptpsCancel e h = r at hcases ⊢
  cases hcases with
  | refused => exact .refl e
  | stop => exact stopOne_calm e _ _
  | intake => exact (intakeUnlink_calm e _).trans (.of_kept (itemDrop_kept _ _).toKeptLive)
  | delayed => exact (fifoRemove_calm e _ _).trans (.of_kept (itemDrop_kept _ _).toKeptLive)

/-- A loop whose steps are calm is calm. -/
theorem foldl_calm {g : Engine × List Item → Item → Engine × List Item}
    (hg : ∀ acc it, Calm acc.1 (g acc it).1) (k : List Item) (acc : Engine × List Item) :
    Calm acc.1 (k.foldl g acc).1 := by
  induction k generalizing acc with
  | nil => exact .refl _
  | cons it k ih => exact (hg acc it).trans (ih (g acc it))

/-- Items without budget are detached. -/
theorem detachItems_calm (q : QId) (picked : Item → Bool) (acc : Engine × List Item) :
    Calm acc.1 (detachItems q picked acc).1 := by
  refine foldl_calm (fun acc it => ?_) _ acc
  unfold detachOne
  split_ifs
  · exact fifoRemove_calm _ _ _
  · exact .refl _

/-- Items with budget are detached. -/
theorem fifoDetachRegAdmitted_calm (q : QId) (r : RegId) (acc : Engine × List Item) :
    Calm acc.1 (fifoDetachRegAdmitted q r acc).1 := by
  refine foldl_calm (fun acc it => ?_) _ acc
  unfold detachAdmittedOne
  split_ifs
  · exact (fifoRemove_calm _ _ _).trans (.of_q rfl)
  · exact .refl _

/-- The waiting items of a type are detached, which is then out of the index. -/
theorem detachWaiting_calm (e : Engine) (r : RegId) : Calm e
    (fifoDetachReg .delayed r (intakeForget (fifoDetachReg .intake r (tombstone e r true, [])).1,
      (fifoDetachReg .intake r (tombstone e r true, [])).2)).1 := by
  have hin : Calm e (fifoDetachReg .intake r (tombstone e r true, [])).1 :=
    (Calm.of_q rfl).trans (detachItems_calm .intake _ (tombstone e r true, []))
  exact (hin.trans (.of_q rfl)).trans (detachItems_calm .delayed _ _)

/-- The removal of a type of a MANUAL engine. -/
theorem unregisterManual_calm (h : unregisterManual e r mode = .ok acc) : Calm e acc.1 := by
  unfold unregisterManual at h
  split_ifs at h
  · cases h
    refine Calm.trans ?_ (.of_kept (indexDropList_kept _ _).toKeptLive)
    refine Calm.trans ?_ (fifoDetachRegAdmitted_calm .done _ _)
    exact (detachWaiting_calm e _).trans (fifoDetachRegAdmitted_calm .ready _ _)
  · cases h
    exact .of_q rfl

/-- The removal of a type of a THREADED engine. -/
theorem unregisterThreaded_calm (h : unregisterThreaded e r mode reentrant = .ok acc) :
    Calm e acc.1 := by
  unfold unregisterThreaded at h
  dsimp only at h
  split_ifs at h
  · cases h
    refine Calm.trans ?_ (mapQueue_calm (.inr fun x _ => ?_))
    · exact (detachWaiting_calm e _).trans (.of_kept (indexDropList_kept _ _).toKeptLive)
    · unfold raiseCancel
      split_ifs
      · exact ⟨⟨⟨rfl, rfl, rfl⟩, Iff.rfl, rfl⟩, ⟨rfl, rfl, rfl, rfl, rfl, rfl⟩⟩
      · exact .refl x
  all_goals
    cases h
    exact .of_q rfl

/-- `gptps_unregister_task` up to its wait. -/
theorem unregisterBegin_calm {tid : ℕ} {name : Name} {dropped : List Item}
    (h : unregisterBegin e tid name mode reentrant = .ok (e', r, dropped)) : Calm e e' := by
  rcases (unregisterBegin_ok h).taken with ⟨-, hres⟩ | ⟨-, hres⟩
  · exact unregisterManual_calm hres
  · exact unregisterThreaded_calm hres

/-- The end of an unregister. -/
theorem unregisterEnd_calm (e : Engine) (r : RegId) (nameOk : Ptr → Bool) :
    Calm e (unregisterEnd e r nameOk) := by
  unfold unregisterEnd
  dsimp only
  have hmap : Calm e (mapQueue e .dead (ownDeadLetter e r nameOk)) := mapQueue_calm (.inl rfl)
  split_ifs
  · exact hmap.trans (.of_q rfl)
  · exact hmap.trans (.of_q rfl)

/-- The service instances of a queue are stopped. -/
theorem stopService_calm (e e' : Engine) (q : QId) : Calm e' (mapQueue e' q (stopService e)) := by
  refine mapQueue_calm (.inr fun x _ => ?_)
  unfold stopService
  split_ifs
  · exact stopItem_close x
  · exact .refl x

/-- The shutdown begins. -/
theorem shutdownBegin_calm (e : Engine) (now : ℕ) : Calm e (shutdownBegin e now).1 := by
  unfold shutdownBegin stopServices
  refine Calm.trans ?_ (.of_kept (indexDropList_kept _ _).toKeptLive)
  refine Calm.trans ?_ (detachItems_calm .delayed _ _)
  refine Calm.trans ?_ (.of_q rfl)
  refine Calm.trans ?_ (detachItems_calm .intake _ _)
  refine Calm.trans ?_ (stopService_calm _ _ .done)
  refine Calm.trans ?_ (stopService_calm _ _ .ready)
  exact (Calm.of_q rfl).trans (stopService_calm _ _ .running)

/-- The shutdown collects what is left. -/
theorem shutdownCollect_calm (e : Engine) : Calm e (shutdownCollect e).1 := by
  intro q hq y hy
  rw [shutdownCollect_empty e q hq] at hy
  exact absurd hy not_mem_nil

/-- The shutdown frees the engine. -/
theorem shutdownFree_calm (e : Engine) : Calm e (shutdownFree e) := by
  refine .of_subset fun q hq y hy => ?_
  rwa [shutdownFree_q, update_of_ne hq] at hy

end Engines

section Steps

variable {l : Label} {p : Ptr} {it : Item} {args : SubmitArgs}

/-- What a call does to the live items. -/
theorem effect_calm {e e' : Engine} (h : Effect e l e') (hl : isCall l = true) : Calm e e' := by
  cases h with
  | idle => exact .refl _
  | attempt hno =>
    rw [hno] at hl
    cases hl
  | sealing hseal =>
    refine .of_q ?_
    unfold boundedSeal at hseal
    split_ifs at hseal <;> cases hseal <;> rfl
  | memory => exact .of_kept (takeItem_kept _ _).toKeptLive
  | pool htake => exact .of_kept (poolTake_kept _ _ htake).toKeptLive
  | cancel => exact gptpsCancel_calm _ _
  | unregister hbegin => exact unregisterBegin_calm hbegin
  | remove => exact unregisterEnd_calm _ _ _
  | free => exact .of_kept (itemFree_kept _ _).toKeptLive
  | drain => exact .of_kept (deadLetterTake_kept _ _ _ (e, []))
  | enrol hrest => exact .of_q (by rw [hrest])
  | @setting x => exact .of_q (congrArg Store.q (applySetting_reconfigured e x).store)
  | halt => exact shutdownBegin_calm _ _
  | collect => exact shutdownCollect_calm _
  | gone => exact shutdownFree_calm _
  | pass | take | post | submit => cases hl

/-- A step that leaves attempts alone. -/
structure Steady (s s' : Sys) : Prop extends Hushed s s' where
  /-- The live items. -/
  items : Calm s.e s'.e

variable {s s' : Sys}

/-- So does every call. -/
theorem call_steady (hc : CallsUntold s) (hstep : step s l = some s') (hl : isCall l = true) :
    Steady s s' :=
  ⟨(step_deed hstep).hushed hc hl, effect_calm (step_deed hstep).effect hl⟩

/-- An attempt past its STARTED moves on. -/
theorem exec_steady {evs : List Ev} (hs : SysInv s) (hc : CallsUntold s)
    (hit : runningItem s p = some it) (hold : it.phase ≠ .begun)
    (hnew : Alike it (f it) ∧ (f it).started = it.started ∧ (f it).phase ≠ .begun)
    (hstill : Still it (f it)) (hevs : ∀ ev ∈ evs, Untold ev) :
    Steady s { s with e := updItem s.e .running p f, log := s.log ++ evs } := by
  have hp : it.ptr = p :=
    of_decide_eq_true (find?_some (p := fun x : Item => decide (x.ptr = p)) hit)
  refine ⟨⟨rfl, ⟨evs, rfl, hevs⟩, fun ev hev => hc ev hev⟩, mapQueue_calm (.inr fun x hx => ?_)⟩
  split_ifs with hx'
  · have heq : x = it := inj_on_of_nodup_map (queue_nodup hs.desk .running) hx
      (mem_of_find?_eq_some hit) (hx'.trans hp.symm)
    subst heq
    exact ⟨⟨hnew.1, iff_of_false hnew.2.2 hold, hnew.2.1⟩, hstill⟩
  · exact .refl x

/-- What an accepted submit adds. -/
structure Submits (s s' : Sys) (it : Item) : Prop where
  /-- The handle is new. -/
  handle : it.handle = s.e.nextHandle
  /-- The attempt is the first. -/
  attempt : it.attempt = 1
  /-- It is ordered by its priority. -/
  score : it.schedScore = it.priority
  /-- It was not skipped. -/
  skips : it.skips = 0
  /-- The item joins intake. -/
  items : ∀ q ≠ QId.dead, ∀ y ∈ s'.e.q q, (∃ x ∈ s.e.q q, Close x y) ∨ q = .intake ∧ Close it y
  /-- The pump. -/
  pump : s'.pump = s.pump
  /-- The events delivered. -/
  log : s'.log = s.log
  /-- The events of calls. -/
  calls : CallsUntold s'

/-- An accepted submit. -/
theorem submitInternal_submits {e : Engine} (hsub : submitInternal s.e p args = (e, .ok it))
    (he : s'.e = e) (hpump : s'.pump = s.pump) (hlog : s'.log = s.log) (hcalls : CallsUntold s') :
    Submits s s' it := by
  have hkept := hidxReserve_kept s.e args.indexOk
  have hcases := submitInternal_submission s.e p args
  rw [hsub] at hcases
  cases hcases with
  | accepted _ hres =>
    rw [hres] at hkept
    refine ⟨hkept.next, rfl, rfl, rfl, ?_, hpump, hlog, hcalls⟩
    intro q hq y hy
    rw [he, (hidxPut_kept _ _).q q hq] at hy
    rcases mem_inserted hy with hold | ⟨rfl, rfl⟩
    · exact .inl ⟨y, hkept.q _ hq ▸ hold, .refl y⟩
    · exact .inr ⟨rfl, ⟨⟨rfl, rfl, rfl⟩, Iff.rfl, rfl⟩, ⟨rfl, rfl, rfl, rfl, rfl, rfl⟩⟩

/-- A submit's critical section. -/
theorem submitCommit_way (hc : CallsUntold s) (h : stepSubmitCommit s p args = some s') :
    Steady s s' ∨ ∃ it, Submits s s' it := by
  obtain ⟨-, h⟩ := onCall_some h
  split_ifs at h
  split at h
  · rename_i e st hsub
    cases h
    refine .inl ⟨.silent rfl rfl (untold_swap hc ?_ rfl), ?_⟩
    · exact fun _ hev => absurd hev not_mem_nil
    have hcases := submitInternal_submission s.e p args
    rw [hsub] at hcases
    cases hcases with
    | refused hgrown =>
      rcases hgrown with rfl | rfl
      · exact .of_kept (itemFree_kept _ _).toKeptLive
      · exact .of_kept ((hidxReserve_kept s.e args.indexOk).trans (itemFree_kept _ _)).toKeptLive
  · rename_i e it hsub
    cases h
    refine .inr ⟨it, submitInternal_submits hsub rfl rfl rfl (untold_swap hc ?_ rfl)⟩
    intro ev hev
    rw [flatMap_singleton] at hev
    rw [mem_singleton.mp hev]
    exact ⟨nofun, nofun⟩

/-- The pump emits an event. -/
structure Emits (ev : Ev) (buf : List Ev) (s s' : Sys) : Prop where
  /-- It was the next. -/
  next : pumpEvs s.pump = ev :: buf
  /-- The engine. -/
  engine : s'.e = s.e
  /-- The rest of the buffer. -/
  pump : pumpEvs s'.pump = buf
  /-- The events delivered. -/
  log : s'.log = s.log ++ [ev]
  /-- The calls. -/
  calls : s'.calls = s.calls

theorem stepEmit_emits (h : stepEmit s = some s') : ∃ ev buf, Emits ev buf s s' := by
  unfold stepEmit at h
  split at h
  · rename_i ev buf hpump
    cases h
    exact ⟨ev, buf, by rw [hpump]; rfl, rfl, rfl, rfl, rfl⟩
  · rename_i b ev buf more ran hpump
    cases h
    exact ⟨ev, buf, by rw [hpump]; rfl, rfl, rfl, rfl, rfl⟩
  · cases h

/-- A ready item is taken: its attempt begins, or it is passed on. -/
structure Takes (now : ℕ) (it : Item) (s s' : Sys) : Prop where
  /-- It was ready. -/
  ready : it ∈ s.e.q .ready
  /-- The items. -/
  items : ∀ q, ∀ y ∈ s'.e.q q, y ∈ s.e.q q ∨ q = .done ∧ y = { it with outcome := .cancelled } ∨
    q = .running ∧ y = startItem s.e now it
  /-- The pump's buffer. -/
  pump : pumpEvs s'.pump = pumpEvs s.pump
  /-- The events delivered. -/
  log : s'.log = s.log
  /-- The calls. -/
  calls : s'.calls = s.calls

theorem stepTake_takes {now : ℕ} (h : stepTake s now = some s') : ∃ it, Takes now it s s' := by
  unfold stepTake at h
  split_ifs at h
  obtain ⟨⟨e, it⟩, htake, hs'⟩ := Option.map_eq_some_iff.mp h
  have hrest : s'.e = e ∧ pumpEvs s'.pump = pumpEvs s.pump ∧ s'.log = s.log ∧ s'.calls = s.calls := by
    dsimp only at hs'
    split_ifs at hs' <;> subst hs'
    · exact ⟨rfl, rfl, rfl, rfl⟩
    · exact ⟨rfl, by dsimp only; cases s.pump <;> rfl, rfl, rfl⟩
  obtain ⟨rfl, hpump, hlog, hcalls⟩ := hrest
  obtain ⟨e₁, hpop, htaken⟩ := takeReady_some htake
  obtain ⟨rest, hready, -⟩ := fifoPop_q hpop
  refine ⟨it, hready ▸ mem_cons_self, fun q y hy => ?_, hpump, hlog, hcalls⟩
  rcases htaken with ⟨-, heq⟩ | ⟨-, heq⟩
  · rw [heq] at hy
    exact (mem_pushed hy).imp (mem_popped hpop) .inl
  · rw [heq] at hy
    exact (mem_pushed hy).imp (mem_popped hpop) .inr

/-- An attempt emits STARTED. -/
structure Starts (it : Item) (s s' : Sys) : Prop where
  /-- It is running. -/
  running : it ∈ s.e.q .running
  /-- STARTED was to come. -/
  begun : it.phase = .begun
  /-- The items. -/
  items : ∀ q, ∀ y ∈ s'.e.q q, y ∈ s.e.q q ∧ ¬ (q = .running ∧ y = it) ∨
    q = .running ∧ y = { it with phase := .body }
  /-- The pump. -/
  pump : s'.pump = s.pump
  /-- The events delivered. -/
  log : s'.log = s.log ++ [evOf s.e it .started .ok false]
  /-- The calls. -/
  calls : s'.calls = s.calls

theorem stepExec_starts (hs : SysInv s) (hit : runningItem s p = some it)
    (h : stepExec s it (.execStarted p) = some s') : Starts it s s' := by
  simp only [stepExec] at h
  split_ifs at h with hbegun
  cases h
  have hmem : it ∈ s.e.q .running := mem_of_find?_eq_some hit
  have hptr : it.ptr = p :=
    of_decide_eq_true (find?_some (p := fun x : Item => decide (x.ptr = p)) hit)
  refine ⟨hmem, hbegun, fun q y hy => ?_, rfl, rfl, rfl⟩
  rcases mem_mapped hy with ⟨rfl, x, hx, rfl⟩ | ⟨hq, hy⟩
  · split_ifs with hxp
    · have heq : x = it := inj_on_of_nodup_map (queue_nodup hs.desk .running) hx hmem
        (hxp.trans hptr.symm)
      exact .inr ⟨rfl, by rw [heq]⟩
    · exact .inl ⟨hx, fun hno => hxp (hno.2 ▸ hptr)⟩
  · exact .inl ⟨hy, fun hno => hq hno.1⟩

/-- An executed item is posted. -/
structure Posts (it : Item) (st : Status) (s s' : Sys) : Prop where
  /-- It was running. -/
  running : it ∈ s.e.q .running
  /-- Its end was reported. -/
  ended : it.phase = .reported st
  /-- The items. -/
  items : ∀ q, ∀ y ∈ s'.e.q q, y ∈ s.e.q q ∨ q = .done ∧ y = { it with outcome := st, phase := .idle }
  /-- The pump's buffer. -/
  pump : pumpEvs s'.pump = pumpEvs s.pump
  /-- The events delivered. -/
  log : s'.log = s.log
  /-- The calls. -/
  calls : s'.calls = s.calls

theorem stepExec_posts (hit : runningItem s p = some it) (h : stepExec s it (.execPost p) = some s') :
    ∃ st, Posts it st s s' := by
  simp only [stepExec] at h
  split at h
  · rename_i st hended
    cases h
    have hpump : pumpEvs (afterPost s.pump p) = pumpEvs s.pump := by
      unfold afterPost
      split
      · rename_i hex
        rw [hex]
        split_ifs <;> rfl
      · rfl
    refine ⟨st, mem_of_find?_eq_some hit, hended, fun q y hy => ?_, hpump, rfl, rfl⟩
    exact (mem_pushed hy).imp_left mem_removed
  · cases h

/-- What a step may do to the order of attempts. -/
inductive Way (l : Label) (s s' : Sys) : Prop
  /-- Nothing. -/
  | steady (h : Steady s s')
  /-- An item is submitted. -/
  | submits (it : Item) (h : Submits s s' it)
  /-- The pump runs a pass. -/
  | pass (inp : PassIn) (hl : l = .pass inp) (h : Passes inp s s')
  /-- The pump emits. -/
  | emit (ev : Ev) (buf : List Ev) (h : Emits ev buf s s')
  /-- A ready item is taken. -/
  | take (now : ℕ) (it : Item) (h : Takes now it s s')
  /-- An attempt emits STARTED. -/
  | started (it : Item) (h : Starts it s s')
  /-- An executed item is posted. -/
  | post (it : Item) (st : Status) (h : Posts it st s s')

/-- The parts of `execute`. -/
theorem exec_way (hs : SysInv s) (hc : CallsUntold s) (hit : runningItem s p = some it)
    (hl : l = .execStarted p ∨ l = .execSample p ∨ (∃ st now, l = .execReturn p st now) ∨
      l = .execReport p ∨ l = .execPost p)
    (hex : stepExec s it l = some s') : Way l s s' := by
  rcases hl with rfl | rfl | ⟨st, now, rfl⟩ | rfl | rfl
  · exact .started it (stepExec_starts hs hit hex)
  · simp only [stepExec] at hex
    split_ifs at hex
    cases hex
    refine .steady ⟨⟨rfl, ⟨_, rfl, ?_⟩, fun ev hev => hc ev hev⟩, .refl _⟩
    intro ev hev
    rw [mem_singleton.mp hev]
    exact ⟨fun h => (by cases h), fun h => (by cases h)⟩
  · simp only [stepExec] at hex
    split_ifs at hex with hbody
    cases hex
    have hnone : ∀ ev ∈ ([] : List Ev), Untold ev := fun _ h => absurd h not_mem_nil
    have hsteady := exec_steady hs hc hit (by rw [hbody]; intro h; cases h)
      (f := fun x => { x with phase := .ended (effective s.e now it st) it.cancel })
      ⟨⟨rfl, rfl, rfl⟩, rfl, fun h => (by cases h)⟩ ⟨rfl, rfl, rfl, rfl, rfl, rfl⟩ hnone
    rw [append_nil] at hsteady
    exact .steady hsteady
  · simp only [stepExec] at hex
    split at hex
    · rename_i st raised hended
      cases hex
      refine .steady (exec_steady hs hc hit (by rw [hended]; intro h; cases h)
        (f := fun x => { x with phase := .reported st }) ⟨⟨rfl, rfl, rfl⟩, rfl, fun h => (by cases h)⟩
        ⟨rfl, rfl, rfl, rfl, rfl, rfl⟩ ?_)
      intro ev hev
      rw [mem_singleton.mp hev]
      unfold Untold reportEv
      split_ifs <;> exact ⟨fun h => (by cases h), fun h => (by cases h)⟩
    · cases hex
  · obtain ⟨st, hposts⟩ := stepExec_posts hit hex
    exact .post it st hposts

/-- Every step does one of these. -/
theorem step_way (hs : SysInv s) (hc : CallsUntold s) (hstep : step s l = some s') : Way l s s' := by
  cases hl : isCall l with
  | true => exact .steady (call_steady hc hstep hl)
  | false =>
    have hpasses := fun inp (h : step s (.pass inp) = some s') => step_passes h
    unfold step at hstep
    split_ifs at hstep
    cases l with
    | pass inp => exact .pass inp rfl (hpasses inp (by unfold step; rwa [if_neg ‹_›]))
    | emit =>
      obtain ⟨ev, buf, hemit⟩ := stepEmit_emits hstep
      exact .emit ev buf hemit
    | take now =>
      obtain ⟨it, htake⟩ := stepTake_takes hstep
      exact .take now it htake
    | execStarted p | execSample p | execReturn p st now | execReport p | execPost p =>
      obtain ⟨it, hit, hex⟩ := Option.bind_eq_some_iff.mp hstep
      exact exec_way hs hc hit (by simp) hex
    | submitCommit p args =>
      rcases submitCommit_way hc hstep with hst | ⟨it, hsub⟩
      · exact .steady hst
      · exact .submits it hsub
    | _ => cases hl

/-- The events of calls stay about other things. -/
theorem Way.calls (h : Way l s s') (hc : CallsUntold s) : CallsUntold s' := by
  have hsame : s'.calls = s.calls → CallsUntold s' := fun heq ev hev => hc ev (heq ▸ hev)
  cases h with
  | steady h | submits it h => exact h.calls
  | pass inp _ h | emit ev buf h | take now it h | started it h | post it st h => exact hsame h.calls

/-- In every reachable state. -/
theorem reachable_untold {s : Sys} (h : Reachable s) : CallsUntold s := by
  refine reachable_invariant (fun a ev hev => absurd hev not_mem_nil) (fun s l s' hs hc hstep => ?_) h
  exact (step_way (reachable_inv hs) hc hstep).calls hc

end Steps

end Gptps.CallsCalm
