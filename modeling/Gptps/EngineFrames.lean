import Gptps.SystemDesk

/-!
# What a step leaves alone

Calls and workers move items between the queues and their local lists, and settle budgets; apart from the
store and the ledger the engine record stays as it is, and so do the retained dead letters. Every step of the
system applies one function to the engine. What holds of these functions holds of the steps.
-/

namespace Gptps.EngineFrames

open Function EngineState EngineStore EnginePass EngineApi EngineSystem ItemLife DeskStore EngineDesk
  List
open ApiDesk SystemDesk PassStages

variable {e₁ : Engine} {now : ℕ}

/-- Only the store and the ledger changed, and the dead letters did not. -/
structure Apart (e e' : Engine) : Prop where
  /-- Everything else. -/
  rest : e' = { e with
    toStore := e'.toStore, poolNres := e'.poolNres
    reservedMem := e'.reservedMem, running := e'.running, resources := e'.resources }
  /-- The dead letters. -/
  dead : e'.q .dead = e.q .dead

section Frames

variable {q : QId}

namespace Apart

variable {e e' e'' : Engine}

theorem refl (e : Engine) : Apart e e := ⟨rfl, rfl⟩

theorem trans (h : Apart e e') (h' : Apart e' e'') : Apart e e'' := by
  refine ⟨?_, h'.dead.trans h.dead⟩
  have hrest := h'.rest
  rw [h.rest] at hrest
  exact hrest

/-- The store changes, away from the list. -/
theorem of_store {s : Store} (h : s.q .dead = e.q .dead) : Apart e { e with toStore := s } := ⟨rfl, h⟩

end Apart

variable (e : Engine) (it : Item) (p : Ptr) (ok : Bool)

/-- An item enters another queue. -/
theorem fifoPush_apart (hq : q ≠ .dead) : Apart e (fifoPush e q it) :=
  .of_store (update_of_ne hq.symm _ _)

/-- An item is unlinked from another queue. -/
theorem fifoRemove_apart (hq : q ≠ .dead) : Apart e (fifoRemove e q it) :=
  .of_store (update_of_ne hq.symm _ _)

/-- Items of another queue are rewritten. -/
theorem mapQueue_apart (hq : q ≠ .dead) (f : Item → Item) : Apart e (mapQueue e q f) :=
  .of_store (update_of_ne hq.symm _ _)

/-- An item is taken from another queue. -/
theorem fifoPop_apart (hq : q ≠ .dead) (h : fifoPop e q = some (it, e₁)) : Apart e e₁ := by
  obtain ⟨rest, l, a, -, rfl⟩ := fifoPop_some h
  exact .of_store (update_of_ne hq.symm _ _)

/-- Intake. -/
theorem intakeInsert_apart : Apart e (intakeInsert e it) := .of_store rfl

theorem intakeUnlink_apart : Apart e (intakeUnlink e it) := .of_store rfl

theorem intakeResort_apart : Apart e (intakeResort e) := by
  unfold intakeResort
  split
  · exact .of_store rfl
  · exact .of_store rfl

/-- The handle index. -/
theorem hidxDel_apart : Apart e (hidxDel e it) := by
  unfold hidxDel
  split
  · split
    · exact .of_store rfl
    · split
      · exact .of_store rfl
      · exact .of_store rfl
  · exact .refl e

theorem indexDropList_apart (l : List Item) : Apart e (indexDropList e l) := by
  induction l generalizing e with
  | nil => exact .refl e
  | cons x xs ih => exact (hidxDel_apart e x).trans (ih _)

theorem hidxPut_apart : Apart e (hidxPut e it) := by
  unfold hidxPut
  split
  · exact .of_store rfl
  · exact .of_store rfl

theorem hidxRebuild_apart (n : ℕ) : Apart e (hidxRebuild e n ok).1 := by
  unfold hidxRebuild
  split
  · split
    · exact .of_store rfl
    · exact .of_store rfl
  · exact .refl e

theorem hidxReserve_apart : Apart e (hidxReserve e ok).1 := by
  unfold hidxReserve
  split
  · exact .refl e
  · exact hidxRebuild_apart e ok _

theorem hidxTrim_apart : Apart e (hidxTrim e ok) := by
  unfold hidxTrim
  split
  · exact .refl e
  · split
    · exact hidxRebuild_apart e ok _
    · exact .refl e

/-- Memory. -/
theorem itemFree_apart : Apart e (itemFree e p) := by
  unfold itemFree
  split
  · split
    · exact .of_store rfl
    · exact .refl e
  · exact .of_store rfl

theorem itemDrop_apart : Apart e (itemDrop e it) := (hidxDel_apart e it).trans (itemFree_apart _ _)

end Frames

section Calls

variable (e : Engine) {acc : Engine × List Item} {r : RegId}

/-- A loop whose rounds leave the rest alone. -/
theorem foldl_apart {g : Engine × List Item → Item → Engine × List Item}
    (hg : ∀ acc it, Apart acc.1 (g acc it).1) (k : List Item) (h : Apart e acc.1) :
    Apart e (k.foldl g acc).1 := by
  induction k generalizing acc with
  | nil => exact h
  | cons it k ih => exact ih (h.trans (hg acc it))

/-- Items are detached from another queue. -/
theorem detachItems_apart {q : QId} (hq : q ≠ .dead) {picked : Item → Bool} (h : Apart e acc.1) :
    Apart e (detachItems q picked acc).1 := by
  refine foldl_apart e (fun acc it => ?_) _ h
  unfold detachOne
  split_ifs
  · exact fifoRemove_apart _ _ hq
  · exact .refl _

/-- Items with budget are detached from another queue. -/
theorem fifoDetachRegAdmitted_apart {q : QId} (hq : q ≠ .dead) (h : Apart e acc.1) :
    Apart e (fifoDetachRegAdmitted q r acc).1 := by
  refine foldl_apart e (fun acc it => ?_) _ h
  unfold detachAdmittedOne
  split_ifs
  · exact (fifoRemove_apart _ _ hq).trans ⟨rfl, rfl⟩
  · exact .refl _

/-- `gptps_unregister_task` up to its wait tombstones the type, and leaves everything else alone. -/
theorem unregisterBegin_apart {e' : Engine} {tid : ℕ} {name : Name} {mode : RemoveMode}
    {reentrant : Bool} {dropped : List Item}
    (h : unregisterBegin e tid name mode reentrant = .ok (e', r, dropped)) :
    Apart (tombstone e r (removeMode e r mode = .cancel)) e' := by
  have hintake : Apart (tombstone e r true) (fifoDetachReg .intake r (tombstone e r true, [])).1 :=
    detachItems_apart _ (by decide) (.refl _)
  have hwaiting : Apart (tombstone e r true) (fifoDetachReg .delayed r
      (intakeForget (fifoDetachReg .intake r (tombstone e r true, [])).1,
        (fifoDetachReg .intake r (tombstone e r true, [])).2)).1 :=
    detachItems_apart _ (by decide) (hintake.trans (.of_store rfl))
  rcases (unregisterBegin_ok h).taken with ⟨-, hres⟩ | ⟨-, hres⟩
  · unfold unregisterManual at hres
    split_ifs at hres with hcancel hrun hlive
    · cases hres
      rw [decide_eq_true hcancel]
      refine Apart.trans ?_ (indexDropList_apart _ _)
      exact fifoDetachRegAdmitted_apart _ (by decide) (fifoDetachRegAdmitted_apart _ (by decide) hwaiting)
    · cases hres
      rw [decide_eq_false hcancel]
      exact .refl _
  · unfold unregisterThreaded at hres
    dsimp only at hres
    by_cases hcancel : removeMode e r mode = .cancel
    · rw [decide_eq_true hcancel]
      split at hres
      · cases hres
      split at hres
      · cases hres
      cases hres
      exact (hwaiting.trans (indexDropList_apart _ _)).trans (mapQueue_apart _ (by decide) _)
    · rw [decide_eq_false hcancel]
      split at hres
      · cases hres
      split at hres
      · cases hres
      cases hres
      exact .refl _

/-- `gptps_cancel` -/
theorem gptpsCancel_apart (n : Handle) : Apart e (gptpsCancel e n).1 := by
  have hcases := gptpsCancel_cancels e n
  generalize gptpsCancel e n = r at hcases ⊢
  cases hcases with
  | refused => exact .refl e
  | stop _ _ hq => exact mapQueue_apart _ (by rcases hq with rfl | rfl | rfl <;> decide) _
  | intake => exact (intakeUnlink_apart e _).trans (itemDrop_apart _ _)
  | delayed => exact (fifoRemove_apart e _ (by decide)).trans (itemDrop_apart _ _)

/-- A submit. -/
theorem submitInternal_apart (p : Ptr) (args : SubmitArgs) : Apart e (submitInternal e p args).1 := by
  have hgrow := hidxReserve_apart e args.indexOk
  have hcases := submitInternal_submission e p args
  generalize submitInternal e p args = r at hcases ⊢
  cases hcases with
  | refused hgrown =>
    rcases hgrown with rfl | rfl
    · exact itemFree_apart _ _
    · exact hgrow.trans (itemFree_apart _ _)
  | accepted _ hres =>
    rw [hres] at hgrow
    have hnumber : ∀ e : Engine, Apart e { e with nextHandle := e.nextHandle + 1 } := fun e => ⟨rfl, rfl⟩
    exact ((hgrow.trans (hnumber _)).trans (intakeInsert_apart _ _)).trans (hidxPut_apart _ _)

/-- The shutdown begins: apart from its flag and its deadline nothing else changes. -/
theorem shutdownBegin_apart (now : ℕ) : Apart { e with
    stopping := true
    stopDeadlineMs := if e.shutdownGraceMs ≠ 0 then now + e.shutdownGraceMs else 0 }
    (shutdownBegin e now).1 := by
  unfold shutdownBegin stopServices
  generalize ({ e with
    stopping := true
    stopDeadlineMs := if e.shutdownGraceMs ≠ 0 then now + e.shutdownGraceMs else 0 } : Engine) = e₁
  have hstopped := ((mapQueue_apart e₁ (q := .running) (by decide) (stopService e₁)).trans
    (mapQueue_apart _ (q := .ready) (by decide) (stopService e₁))).trans
    (mapQueue_apart _ (q := .done) (by decide) (stopService e₁))
  refine Apart.trans ?_ (indexDropList_apart _ _)
  refine detachItems_apart _ (by decide) ?_
  exact (detachItems_apart _ (q := .intake) (by decide) hstopped).trans (.of_store rfl)

/-- Another queue is emptied. -/
theorem takeAll_apart {q : QId} (hq : q ≠ .dead) (fuel : ℕ) (h : Apart e acc.1) :
    Apart e (takeAll q fuel acc).1 := by
  induction fuel generalizing acc with
  | zero => exact h
  | succ fuel ih =>
    rw [takeAll]
    split
    · exact h
    · rename_i hpop
      exact ih (h.trans (fifoPop_apart _ _ hq hpop))

/-- The shutdown collects what is left. -/
theorem shutdownCollect_apart : Apart e (shutdownCollect e).1 := by
  have hempty : ∀ {q : QId} {acc : Engine × List Item}, q ≠ .dead → Apart e acc.1 →
      Apart e (emptyQueue q acc).1 := fun hq h => takeAll_apart e hq _ h
  have hwaiting : Apart e (emptyQueue .intake (e, [])).1 := hempty (by decide) (.refl e)
  have hforget : Apart e (intakeForget (emptyQueue .intake (e, [])).1,
      (emptyQueue .intake (e, [])).2).1 := hwaiting.trans (.of_store rfl)
  have hall := hempty (q := .running) (by decide) (hempty (q := .done) (by decide)
    (hempty (q := .ready) (by decide) (hempty (q := .delayed) (by decide) hforget)))
  exact hall.trans (indexDropList_apart _ _)

/-- A ready item is taken. -/
theorem takeReady_apart {it : Item} (h : takeReady now e = some (e₁, it)) : Apart e e₁ := by
  obtain ⟨e₂, hpop, ⟨-, rfl⟩ | ⟨-, rfl⟩⟩ := takeReady_some h
  · exact (fifoPop_apart _ _ (by decide) hpop).trans (fifoPush_apart _ _ (by decide))
  · exact (fifoPop_apart _ _ (by decide) hpop).trans (fifoPush_apart _ _ (by decide))

/-- A bounded engine makes its working set. -/
theorem boundedSeal_apart {ok : Bool} (h : boundedSeal e ok = .ok e₁) : Apart e e₁ := by
  unfold boundedSeal at h
  split_ifs at h <;> cases h <;> exact ⟨rfl, rfl⟩

/-- A submit takes an item of the pool. -/
theorem poolTake_apart {p : Ptr} (h : poolTake e = some (p, e₁)) : Apart e e₁ := by
  unfold poolTake at h
  split at h
  · cases h
  · cases h
    exact .of_store rfl

/-- A dead-letter drain leaves live items alone. -/
theorem deadLetterTake_kept (nameOk : Ptr → Bool) (named : Bool) (fuel : ℕ) (acc : Engine × List Item) :
    KeptLive acc.1 (deadLetterTake nameOk named fuel acc).1 := by
  induction fuel generalizing acc with
  | zero => exact (Kept.refl _).toKeptLive
  | succ fuel ih =>
    unfold deadLetterTake
    split
    · exact (Kept.refl _).toKeptLive
    · rename_i it e₁ hpop
      split
      · have hcount : KeptLive e₁ { e₁ with deadLetterCount := e₁.deadLetterCount - 1 } :=
          ⟨fun _ _ => rfl, rfl, rfl, rfl, rfl⟩
        refine ((fifoPop_dead_kept _ _ hpop).trans hcount).trans ?_
        exact ih ({ e₁ with deadLetterCount := e₁.deadLetterCount - 1 }, _)
      · exact (Kept.refl _).toKeptLive

end Calls

section Effects

variable {l : Label} {c : Call} {cs : List Call} {evs : List Ev}

/-- Registrations, definitions and costs changed, and nothing else. -/
def Enrolled (e e' : Engine) : Prop :=
  e' = { e with
    reg := e'.reg, nextReg := e'.nextReg, registry := e'.registry, freed := e'.freed
    resources := e'.resources, activeDefines := e'.activeDefines }

/-- The events that calls have still to emit. -/
def CallsUntold (s : Sys) : Prop := ∀ ev ∈ s.calls.flatMap callEvs, Untold ev

/-- What a step tells of attempts: nothing. -/
structure Hushed (s s' : Sys) : Prop where
  /-- The pump's buffer. -/
  pump : pumpEvs s'.pump = pumpEvs s.pump
  /-- The events delivered. -/
  log : ∃ evs, s'.log = s.log ++ evs ∧ ∀ ev ∈ evs, Untold ev
  /-- The events of calls. -/
  calls : CallsUntold s'

/-- Whether a step is a host's call or a part of one, other than the acceptance of a submit. -/
def isCall : Label → Bool
  | .pass _ | .emit | .take _ | .execStarted _ | .execSample _ | .execReturn .. | .execReport _ | .execPost _
  | .submitCommit .. => false
  | _ => true

/-- What a step does to the engine. -/
inductive Effect (e : Engine) : Label → Engine → Prop
  /-- Nothing. -/
  | idle {l : Label} : Effect e l e
  /-- A pass; the dispatcher may let the workers go. -/
  | pass {inp : PassIn} (b : Bool) : Effect e (.pass inp) { (enginePass inp e).e with workersExit := b }
  /-- A ready item is taken. -/
  | take {now : ℕ} {e₁ : Engine} {it : Item} (h : takeReady now e = some (e₁, it)) : Effect e (.take now) e₁
  /-- An attempt moves on. -/
  | attempt {l : Label} (hl : isCall l = false) (p : Ptr) (f : Item → Item) :
    Effect e l (updItem e .running p f)
  /-- An executed item is posted. -/
  | post {p : Ptr} (it : Item) (st : Status) : Effect e (.execPost p) (postDone e it st)
  /-- A bounded engine is sealed. -/
  | sealing {args : SubmitArgs} {ok : Bool} {e₁ : Engine} (h : boundedSeal e ok = .ok e₁) :
    Effect e (.submitSeal args ok) e₁
  /-- A submit takes memory. -/
  | memory {p : Ptr} {len : ℕ} : Effect e (.submitTake p len) (takeItem e p)
  /-- A submit takes an item of the pool. -/
  | pool {p : Ptr} {len : ℕ} {e₁ : Engine} (h : poolTake e = some (p, e₁)) : Effect e (.submitTake p len) e₁
  /-- A submit. -/
  | submit {p : Ptr} {args : SubmitArgs} : Effect e (.submitCommit p args) (submitInternal e p args).1
  /-- A cancel. -/
  | cancel {n : Handle} : Effect e (.cancel n) (gptpsCancel e n).1
  /-- A removal begins. -/
  | unregister {tid : ℕ} {name : Name} {mode : RemoveMode} {reentrant : Bool} {e₁ : Engine} {r : RegId}
      {dropped : List Item} (h : unregisterBegin e tid name mode reentrant = .ok (e₁, r, dropped)) :
    Effect e (.unregister tid name mode reentrant) e₁
  /-- The type of a removal has drained. -/
  | remove {r : RegId} {dropped : List Item} {nameOk : Ptr → Bool} :
    Effect e (.unregisterEnd r dropped nameOk) (unregisterEnd e r nameOk)
  /-- A call frees an item of its list. -/
  | free {l : Label} (p : Ptr) : Effect e l (itemFree e p)
  /-- A dead-letter drain. -/
  | drain {cb : Bool} {nameOk : Ptr → Bool} : Effect e (.deadDrain cb nameOk) (deadLetterDrain e cb nameOk).1
  /-- Registrations, definitions and costs. -/
  | enrol {l : Label} {e₁ : Engine} (h : Enrolled e e₁) : Effect e l e₁
  /-- A setting is written. -/
  | setting {x : Setting} : Effect e (.setting x) (applySetting e x)
  /-- The shutdown begins. -/
  | halt {now : ℕ} : Effect e (.shutdownBegin now) (shutdownBegin e now).1
  /-- It collects what is left. -/
  | collect : Effect e .shutdownCollect (shutdownCollect e).1
  /-- It frees the engine. -/
  | gone : Effect e .shutdownEnd (shutdownFree e)

/-- What a step does to the engine, and that a call tells nothing of attempts. -/
structure Deed (s : Sys) (l : Label) (s' : Sys) : Prop where
  /-- The engine. -/
  effect : Effect s.e l s'.e
  /-- The events. -/
  hushed : CallsUntold s → isCall l = true → Hushed s s'

variable {s s' : Sys}

/-- No event is delivered. -/
theorem Hushed.silent (hpump : pumpEvs s'.pump = pumpEvs s.pump) (hlog : s'.log = s.log)
    (hcalls : CallsUntold s') : Hushed s s' :=
  ⟨hpump, ⟨[], by rw [hlog, append_nil], fun _ h => absurd h not_mem_nil⟩, hcalls⟩

/-- Nothing changes but the engine. -/
theorem Deed.plain (h : Effect s.e l s'.e) (hpump : pumpEvs s'.pump = pumpEvs s.pump)
    (hlog : s'.log = s.log) (hcalls : s'.calls = s.calls) : Deed s l s' :=
  ⟨h, fun hc _ => .silent hpump hlog fun ev hev => hc ev (hcalls ▸ hev)⟩

/-- A call without events begins. -/
theorem Deed.begun (h : Effect s.e l s'.e) (hpump : s'.pump = s.pump) (hlog : s'.log = s.log)
    (hcalls : s'.calls = s.calls ++ [c]) (hevs : callEvs c = []) : Deed s l s' := by
  refine ⟨h, fun hc _ => .silent (by rw [hpump]) hlog fun ev hev => ?_⟩
  rw [hcalls, flatMap_append, flatMap_singleton, hevs, append_nil] at hev
  exact hc ev hev

/-- A call goes on. -/
theorem untold_swap (hc : CallsUntold s) (hcs : ∀ ev ∈ cs.flatMap callEvs, Untold ev)
    (hcalls : s'.calls = s.calls.erase c ++ cs) : CallsUntold s' := by
  intro ev hev
  rw [hcalls, flatMap_append] at hev
  rcases mem_append.mp hev with h | h
  · obtain ⟨c', hc', hev'⟩ := mem_flatMap.mp h
    exact hc ev (mem_flatMap.mpr ⟨c', mem_of_mem_erase hc', hev'⟩)
  · exact hcs ev h

/-- A call without events of its own goes on. -/
theorem Deed.swapped (h : Effect s.e l s'.e) (hpump : s'.pump = s.pump) (hlog : s'.log = s.log ++ evs)
    (hevs : ∀ ev ∈ evs, Untold ev) (hcalls : s'.calls = s.calls.erase c ++ cs)
    (hcs : cs.flatMap callEvs = []) : Deed s l s' :=
  ⟨h, fun hc _ => ⟨by rw [hpump], ⟨evs, hlog, hevs⟩,
    untold_swap hc (fun _ hev => absurd (hcs ▸ hev) not_mem_nil) hcalls⟩⟩

/-- The event a discarded item owes. -/
theorem owedEv_untold (e : Engine) (it : Item) : ∀ ev ∈ owedEv e it, Untold ev := by
  intro ev hev
  unfold owedEv at hev
  split_ifs at hev
  · exact absurd hev not_mem_nil
  · rw [mem_singleton.mp hev]
    exact ⟨nofun, nofun⟩

/-- The event of a cancel. -/
theorem gptpsCancel_untold (e : Engine) (n : Handle) : ∀ ev ∈ (gptpsCancel e n).2.2, Untold ev := by
  have hcases := gptpsCancel_cancels e n
  generalize gptpsCancel e n = r at hcases ⊢
  cases hcases with
  | refused | stop => exact nofun
  | intake | delayed =>
    intro ev hev
    cases hev
    exact ⟨nofun, nofun⟩

/-- The parts of `execute`. -/
theorem exec_effect {it : Item} (h : stepExec s it l = some s') : Effect s.e l s'.e := by
  unfold stepExec at h
  split at h
  · split_ifs at h
    cases h
    exact .attempt rfl _ _
  · split_ifs at h
    cases h
    exact .idle
  · split_ifs at h
    cases h
    exact .attempt rfl _ _
  · split at h
    · cases h
      exact .attempt rfl _ _
    · cases h
  · split at h
    · cases h
      exact .post _ _
    · cases h
  · cases h

/-- Registrations. -/
theorem register_deed (h : stepRegister s l = some s') : Deed s l s' := by
  unfold stepRegister at h
  split at h
  · split_ifs at h
    split at h
    · rename_i hreg
      cases h
      refine .begun (.enrol ?_) rfl rfl rfl rfl
      unfold registerTask at hreg
      split_ifs at hreg <;> cases hreg <;> exact rfl
    · cases h
      exact .plain .idle rfl rfl rfl
  · obtain ⟨-, h⟩ := onCall_some h
    cases h
    exact .swapped .idle rfl (append_nil _).symm nofun rfl rfl
  · obtain ⟨-, h⟩ := onCall_some h
    cases h
    exact .swapped (.enrol rfl) rfl (append_nil _).symm nofun rfl rfl
  · obtain ⟨-, h⟩ := onCall_some h
    split_ifs at h
    cases h
    exact .swapped (.enrol rfl) rfl (append_nil _).symm nofun rfl rfl
  · cases h

/-- Definitions. -/
theorem define_deed (h : stepDefine s l = some s') : Deed s l s' := by
  unfold stepDefine at h
  split at h
  · split_ifs at h
    · cases h
      exact .plain .idle rfl rfl rfl
    · cases h
      exact .plain (.enrol rfl) rfl rfl rfl
    · cases h
      exact .plain .idle rfl rfl rfl
    · cases h
      exact .begun (.enrol rfl) rfl rfl rfl rfl
  · obtain ⟨-, h⟩ := onCall_some h
    split at h
    · rename_i hdef
      cases h
      refine .swapped (.enrol ?_) rfl (append_nil _).symm nofun rfl rfl
      split_ifs
      · unfold defineResource at hdef
        split_ifs at hdef <;> cases hdef <;> exact rfl
      · exact rfl
    · cases h
      exact .swapped .idle rfl (append_nil _).symm nofun rfl rfl
  · cases h
    exact .begun (.enrol rfl) rfl rfl rfl rfl
  · obtain ⟨-, h⟩ := onCall_some h
    cases h
    exact .swapped (.enrol rfl) rfl (append_nil _).symm nofun rfl rfl
  · cases h

/-- The shutdown. -/
theorem shutdown_deed (h : stepShutdown s l = some s') : Deed s l s' := by
  unfold stepShutdown at h
  split at h
  · rename_i now
    split_ifs at h
    have heffect : Effect s.e (.shutdownBegin now) (shutdownBegin s.e now).1 := .halt
    generalize shutdownBegin s.e now = r at h heffect
    cases h
    exact .plain heffect rfl rfl rfl
  · split at h
    · cases h
      exact ⟨.free _, fun hc _ => ⟨rfl, ⟨_, rfl, owedEv_untold _ _⟩, hc⟩⟩
    · cases h
      exact ⟨.free _, fun hc _ => ⟨rfl, ⟨_, rfl, owedEv_untold _ _⟩, hc⟩⟩
    · cases h
  · split_ifs at h
    have heffect : Effect s.e .shutdownCollect (shutdownCollect s.e).1 := .collect
    generalize shutdownCollect s.e = r at h heffect
    cases h
    exact .plain heffect rfl rfl rfl
  · split_ifs at h
    have heffect : Effect s.e .shutdownEnd (shutdownFree s.e) := .gone
    generalize shutdownFree s.e = e at h heffect
    cases h
    exact .plain heffect rfl rfl rfl
  · cases h

/-- The step between its parts. -/
theorem manual_deed (h : stepManual s l = some s') : Deed s l s' := by
  unfold stepManual at h
  split at h
  · split_ifs at h with hidle
    cases h
    exact .plain .idle (by rw [hidle.1]; rfl) rfl rfl
  · split at h
    · rename_i hpump
      cases h
      refine .plain .idle ?_ rfl rfl
      rw [hpump]
      unfold afterFlush
      split_ifs <;> rfl
    · cases h
  · split at h
    · rename_i hpump
      split_ifs at h
      cases h
      exact .plain .idle (by rw [hpump]; rfl) rfl rfl
    · cases h
  · cases h

/-- A call emits. -/
theorem callEmit_deed (h : stepCallEmit s evs = some s') : Deed s (.callEmit evs) s' := by
  obtain ⟨hmem, h⟩ := onCall_some h
  cases evs with
  | nil =>
    cases h
    exact .swapped .idle rfl (append_nil _).symm nofun rfl rfl
  | cons ev rest =>
    cases h
    refine ⟨.idle, fun hc _ => ?_⟩
    have hall : ∀ ev' ∈ ev :: rest, Untold ev' := fun ev' hev =>
      hc ev' (mem_flatMap.mpr ⟨_, hmem, hev⟩)
    refine ⟨rfl, ⟨[ev], rfl, ?_⟩, untold_swap hc ?_ rfl⟩
    · intro ev' hev
      rw [mem_singleton.mp hev]
      exact hall ev mem_cons_self
    · intro ev' hev
      rw [flatMap_singleton] at hev
      exact hall ev' (mem_cons_of_mem _ hev)

/-- A cancel. -/
theorem cancel_deed {n : Handle} (h : stepCancel s n = some s') : Deed s (.cancel n) s' := by
  cases h
  refine ⟨.cancel, fun hc _ => .silent rfl rfl fun ev hev => ?_⟩
  rw [flatMap_append] at hev
  rcases mem_append.mp hev with h | h
  · exact hc ev h
  · obtain ⟨c, hmem, hev'⟩ := mem_flatMap.mp h
    obtain ⟨ev', hopt, rfl⟩ := mem_map.mp hmem
    rw [mem_singleton.mp hev']
    exact gptpsCancel_untold _ _ _ (Option.mem_toList.mp hopt)

/-- A pass of the pump. -/
theorem pass_deed {inp : PassIn} (h : stepPass s inp = some s') : Deed s (.pass inp) s' := by
  refine ⟨?_, nofun⟩
  have heffect : ∀ b, Effect s.e (.pass inp) { (enginePass inp s.e).e with workersExit := b } := .pass
  simp only [stepPass] at h
  generalize enginePass inp s.e = ps at h heffect
  split at h
  · split_ifs at h
    · cases h
      exact heffect true
    · cases h
      exact heffect _
  · cases h
    exact heffect _
  · cases h

/-- A ready item is taken. -/
theorem take_deed {now : ℕ} (h : stepTake s now = some s') : Deed s (.take now) s' := by
  refine ⟨?_, nofun⟩
  simp only [stepTake] at h
  split_ifs at h
  obtain ⟨⟨e, it⟩, htake, rfl⟩ := Option.map_eq_some_iff.mp h
  split_ifs <;> exact .take htake

/-- The first submit of a bounded engine. -/
theorem submitSeal_deed {args : SubmitArgs} {ok : Bool} (h : stepSubmitSeal s args ok = some s') :
    Deed s (.submitSeal args ok) s' := by
  simp only [stepSubmitSeal] at h
  split_ifs at h
  split at h
  · rename_i hseal
    cases h
    unfold submitSeal at hseal
    split_ifs at hseal
    split at hseal
    · cases hseal
    · split_ifs at hseal
      exact .plain (.sealing hseal) rfl rfl rfl
  · cases h
    exact .plain .idle rfl rfl rfl

/-- A submit gets its memory. -/
theorem submitTake_deed {p : Ptr} {len : ℕ} (h : stepSubmitTake s p len = some s') :
    Deed s (.submitTake p len) s' := by
  simp only [stepSubmitTake] at h
  split_ifs at h
  · cases h
    exact .begun .memory rfl rfl rfl rfl
  · split at h
    · rename_i htake
      split_ifs at h with hp
      cases h
      exact .begun (.pool (hp ▸ htake)) rfl rfl rfl rfl
    · cases h

/-- The critical section of a submit. -/
theorem submitCommit_deed {p : Ptr} {args : SubmitArgs} (h : stepSubmitCommit s p args = some s') :
    Deed s (.submitCommit p args) s' := by
  refine ⟨?_, nofun⟩
  obtain ⟨-, h⟩ := onCall_some h
  split_ifs at h
  have heffect : Effect s.e (.submitCommit p args) (submitInternal s.e p args).1 := .submit
  generalize submitInternal s.e p args = r at h heffect
  split at h <;> cases h <;> exact heffect

/-- A type is to be removed. -/
theorem unregister_deed {tid : ℕ} {name : Name} {mode : RemoveMode} {reentrant : Bool}
    (h : stepUnregister s tid name mode reentrant = some s') :
    Deed s (.unregister tid name mode reentrant) s' := by
  simp only [stepUnregister] at h
  split_ifs at h
  split at h
  · rename_i hbegin
    cases h
    exact .begun (.unregister hbegin) rfl rfl rfl rfl
  · cases h
    exact .plain .idle rfl rfl rfl

/-- An item of its backlog ends. -/
theorem dropNext_deed {r : RegId} {dropped : List Item} {named : Bool}
    (h : stepDropNext s r dropped named = some s') : Deed s (.dropNext r dropped named) s' := by
  obtain ⟨-, h⟩ := onCall_some h
  split at h
  · cases h
    refine .swapped (.enrol ?_) rfl (append_nil _).symm nofun rfl rfl
    split_ifs <;> exact rfl
  · cases h
    exact .swapped (.free _) rfl rfl (owedEv_untold _ _) rfl rfl

/-- The cost of a type is set. -/
theorem setTaskResourceCost_enrolled (e : Engine) (tid : ℕ) (task resource : Name) (amount : UInt64) :
    Enrolled e (setTaskResourceCost e tid task resource amount).1 := by
  unfold setTaskResourceCost
  split
  · exact rfl
  · split <;> exact rfl

/-- Every step does one of these. -/
theorem step_deed (hstep : step s l = some s') : Deed s l s' := by
  unfold step at hstep
  split_ifs at hstep
  cases l with
  | pass => exact pass_deed hstep
  | emit =>
    refine ⟨?_, nofun⟩
    simp only [stepEmit] at hstep
    split at hstep <;> cases hstep <;> exact .idle
  | stepBegin | stepNext | stepDry => exact manual_deed hstep
  | take => exact take_deed hstep
  | execStarted p | execSample p | execReturn p st now | execReport p | execPost p =>
    obtain ⟨it, -, hex⟩ := Option.bind_eq_some_iff.mp hstep
    exact ⟨exec_effect hex, nofun⟩
  | submitSeal => exact submitSeal_deed hstep
  | submitTake => exact submitTake_deed hstep
  | submitCommit => exact submitCommit_deed hstep
  | callEmit => exact callEmit_deed hstep
  | cancel => exact cancel_deed hstep
  | unregister => exact unregister_deed hstep
  | unregisterEnd r dropped nameOk =>
    obtain ⟨-, h⟩ := onCall_some hstep
    split_ifs at h
    cases h
    exact .swapped .remove rfl (append_nil _).symm nofun rfl rfl
  | dropNext => exact dropNext_deed hstep
  | deadDrain =>
    cases hstep
    exact .begun .drain rfl rfl rfl rfl
  | handNext items =>
    obtain ⟨-, h⟩ := onCall_some hstep
    split at h
    · cases h
      exact .swapped .idle rfl (append_nil _).symm nofun rfl rfl
    · cases h
      exact .swapped (.free _) rfl (append_nil _).symm nofun rfl rfl
  | register | registerPublish | registerDone | registerUndo => exact register_deed hstep
  | defineBegin | definePublish | defineTaskSetting | defineEnd => exact define_deed hstep
  | setting =>
    cases hstep
    exact .plain .setting rfl rfl rfl
  | setCost =>
    dsimp only at hstep
    split_ifs at hstep
    cases hstep
    exact .plain (.enrol (setTaskResourceCost_enrolled ..)) rfl rfl rfl
  | shutdownBegin | shutdownNext | shutdownCollect | shutdownEnd => exact shutdown_deed hstep

/-- What a step does to the engine. -/
theorem step_effect (hstep : step s l = some s') : Effect s.e l s'.e := (step_deed hstep).effect

end Effects

section Labels

variable {s s' : Sys}

/-- A gone engine takes no step. -/
theorem step_up {l : Label} (h : step s l = some s') : s.shut ≠ .returned := by
  unfold step at h
  split_ifs at h with hret
  exact hret

/-- A pass of the pump. -/
structure Passes (inp : PassIn) (s s' : Sys) : Prop where
  /-- The pump had emitted what it had. -/
  clear : pumpEvs s.pump = []
  /-- The queues. -/
  queues : s'.e.q = (enginePass inp s.e).e.q
  /-- It has to emit what the pass buffered. -/
  pump : pumpEvs s'.pump = (enginePass inp s.e).pend
  /-- The events delivered. -/
  log : s'.log = s.log
  /-- The calls. -/
  calls : s'.calls = s.calls

theorem step_passes {inp : PassIn} (h : step s (.pass inp) = some s') : Passes inp s s' := by
  unfold step at h
  split_ifs at h
  unfold stepPass at h
  dsimp only at h
  split at h
  · rename_i hpump
    split_ifs at h with hend
    · cases h
      exact ⟨by rw [hpump]; rfl, rfl, hend.1.symm, rfl, rfl⟩
    · cases h
      exact ⟨by rw [hpump]; rfl, rfl, rfl, rfl, rfl⟩
  · rename_i hpump
    cases h
    exact ⟨by rw [hpump]; rfl, rfl, rfl, rfl, rfl⟩
  · cases h

/-- A setting changes what it names. -/
theorem setting_engine {x : Setting} (h : step s (.setting x) = some s') : s'.e = applySetting s.e x := by
  unfold step at h
  split_ifs at h
  cases h
  rfl

/-- The first part of a shutdown. -/
theorem halt_engine (h : step s (.shutdownBegin now) = some s') : s'.e = (shutdownBegin s.e now).1 := by
  simp only [step, stepShutdown] at h
  split_ifs at h
  generalize shutdownBegin s.e now = r at h ⊢
  cases h
  rfl

/-- After its last part the engine is gone. -/
theorem end_shut (h : step s .shutdownEnd = some s') : s'.shut = .returned := by
  simp only [step, stepShutdown] at h
  split_ifs at h
  generalize shutdownFree s.e = e at h
  cases h
  rfl

end Labels

section Knobs

/-- What admission and the drain of a shutdown go by. -/
def knobs (e : Engine) : Bool × UInt32 × Bool × ℕ :=
  (e.schedFn, e.reserveAfterSkips, e.stopping, e.stopDeadlineMs)

/-- Whether a step may change them. -/
def turnsKnobs : Label → Bool
  | .setting _ | .shutdownBegin _ | .shutdownEnd => true
  | _ => false

variable {e e' : Engine} {s s' : Sys} {l : Label}

theorem Apart.knobs (h : Apart e e') : knobs e' = knobs e := by
  have hrest := h.rest
  unfold EngineFrames.knobs
  rw [hrest]

theorem fixed_knobs (h : Fixed e e') : knobs e' = knobs e := by
  unfold knobs
  rw [h]

/-- The other steps leave them. -/
theorem step_knobs (hstep : step s l = some s') (hl : turnsKnobs l = false) : knobs s'.e = knobs s.e := by
  have heffect := step_effect hstep
  generalize s'.e = e at heffect ⊢
  cases heffect with
  | idle => rfl
  | @pass inp b =>
    have hpass := fixed_knobs (enginePass_fixed inp s.e)
    generalize (enginePass inp s.e).e = e₁ at hpass ⊢
    exact hpass
  | take h => exact (takeReady_apart _ h).knobs
  | attempt => exact (mapQueue_apart _ (by decide) _).knobs
  | post => exact ((fifoRemove_apart _ _ (by decide)).trans (fifoPush_apart _ _ (by decide))).knobs
  | sealing h => exact (boundedSeal_apart _ h).knobs
  | memory => rfl
  | pool h => exact (poolTake_apart _ h).knobs
  | submit => exact (submitInternal_apart _ _ _).knobs
  | cancel => exact (gptpsCancel_apart _ _).knobs
  | unregister h => exact (unregisterBegin_apart _ h).knobs
  | remove =>
    unfold unregisterEnd
    dsimp only
    split_ifs <;> rfl
  | free => exact (itemFree_apart _ _).knobs
  | drain => exact fixed_knobs (.of_kept (deadLetterTake_kept _ _ _ (s.e, [])))
  | enrol h =>
    unfold knobs
    rw [h]
  | collect => exact (shutdownCollect_apart _).knobs
  | setting | halt | gone => cases hl

end Knobs

end Gptps.EngineFrames
