import Gptps.ApiDesk
import Gptps.EngineSystem
import Gptps.PassDesk

/-!
# Every step of the system is a sequence of acts

The desk of a system state gathers what the pump, the calls under way and the
shutdown hold. Every step changes it by a sequence of acts, so what acts keep
true holds in every reachable state.
-/

namespace Gptps.SystemDesk

open Function EngineState EngineStore EnginePass EngineApi EngineSystem ItemLife List
open StoreInvariant EngineDesk DeskStore PassDesk ApiDesk

variable {w : Bool} {s : Sys} {l : Label} {e' : Engine} {p : Ptr} {c : Call}

/-- The backlog a call ends. -/
def callDropped : Call → List Item
  | .removing _ l => l
  | .dropping _ l _ => l
  | _ => []

/-- The dead letters a call hands over. -/
def callHanded : Call → List Item
  | .handing l => l
  | _ => []

/-- The memory a call has taken for an item. -/
def callFresh : Call → List Ptr
  | .submitting p => [p]
  | _ => []

/-- The events a call has still to emit. -/
def callEvs : Call → List Ev
  | .emitting evs => evs
  | _ => []

/-- The items the shutdown ends. -/
def shutDropped : Shut → List Item
  | .draining l => l
  | .collecting l => l
  | _ => []

/-- The events the pump has still to emit. -/
def pumpEvs : Pump → List Ev
  | .rest buf => buf
  | .flush _ buf _ _ => buf
  | _ => []

/-- The desk of a system state. -/
def desk (s : Sys) : Desk :=
  { e := s.e, announced := [], picked := []
    dropped := s.calls.flatMap callDropped ++ shutDropped s.shut
    handed := s.calls.flatMap callHanded, fresh := s.calls.flatMap callFresh
    evs := s.log ++ (pumpEvs s.pump ++ s.calls.flatMap callEvs), starts := s.starts
    accepted := s.accepted, stale := false, admissions := [] }

/-- Two desks that differ in the order of their lists at most. -/
theorem rearranged_of {d d' : Desk} (he : d'.e = d.e) (ha : d'.announced = d.announced)
    (hp : d'.picked = d.picked) (hd : d.dropped.Perm d'.dropped) (hh : d.handed.Perm d'.handed)
    (hf : d.fresh.Perm d'.fresh) (hevs : d.evs.Perm d'.evs) (hst : d'.starts = d.starts)
    (hacc : d'.accepted = d.accepted) (hs : d'.stale = d.stale)
    (hadm : d'.admissions = d.admissions) : Act w d d' :=
  .rearrange ⟨he, by rw [ha], by rw [hp], hd, hh, hf, hevs, by rw [hst], by rw [hacc], hs, hadm⟩

/-- The order of the calls under way does not matter. -/
theorem desk_calls {calls : List Call} (h : s.calls.Perm calls) :
    Act w (desk s) (desk { s with calls := calls }) := by
  refine rearranged_of rfl rfl rfl ?_ ?_ ?_ ?_ rfl rfl rfl rfl
  · exact (h.flatMap_right _).append_right _
  · exact h.flatMap_right _
  · exact h.flatMap_right _
  · exact ((h.flatMap_right _).append_left _).append_left _

/-- A call under way is brought to the front. -/
theorem desk_front (hc : c ∈ s.calls) : Act w (desk s) (desk { s with calls := c :: s.calls.erase c }) :=
  desk_calls (perm_cons_erase hc)

/-- What a step from a call in front does, a step of the system does. -/
theorem swap_acts {s' : Sys} {cs : List Call} (hc : c ∈ s.calls)
    (hcalls : s'.calls = s.calls.erase c ++ cs)
    (h : Acts w (desk { s with calls := c :: s.calls.erase c })
      (desk { s' with calls := cs ++ s.calls.erase c })) :
    Acts w (desk s) (desk s') := by
  have hperm : (cs ++ s.calls.erase c).Perm (s.calls.erase c ++ cs) := perm_append_comm
  have hback := desk_calls (w := w) (s := { s' with calls := cs ++ s.calls.erase c }) hperm
  have hs' : ({ s' with calls := s.calls.erase c ++ cs } : Sys) = s' := by rw [← hcalls]
  simp only [hs'] at hback
  exact (Relation.ReflTransGen.head (desk_front hc) h).tail hback

section Pump

variable {s s' : Sys}

/-- What a pass does to the desk. -/
theorem pass_acts {p : Pump} (inp : PassIn) (hd : DeskInv (desk s)) (hbuf : pumpEvs s.pump = [])
    (hp : pumpEvs p = (enginePass inp s.e).pend) :
    Acts w (desk s) { desk { s with e := (enginePass inp s.e).e, pump := p } with
      admissions := (enginePass inp s.e).admissions } := by
  have hacts := enginePass_acts (w := w) inp hd rfl rfl
  refine hacts.tail (rearranged_of rfl ?_ rfl (.refl _) (.refl _) (.refl _) ?_ rfl rfl rfl ?_)
  · exact (enginePass_announced inp s.e).symm
  · simp only [passDesk, desk, hbuf, hp, nil_append, append_assoc]
    exact perm_append_comm.append_left _
  · exact (nil_append _).symm

/-- The pump runs a pass. -/
theorem stepPass_acts {inp : PassIn} (hd : DeskInv (desk s)) (h : stepPass s inp = some s') :
    Acts w (desk s) { desk s' with admissions := (enginePass inp s.e).admissions } := by
  have hpass := fun p hbuf hp => pass_acts (w := w) (p := p) inp hd hbuf hp
  unfold stepPass at h
  generalize enginePass inp s.e = ps at h hpass
  simp only at h
  split at h
  · rename_i hpump
    have hbuf : pumpEvs s.pump = [] := by rw [hpump]; rfl
    split_ifs at h with hex
    · cases h
      refine (hpass .exited hbuf hex.1.symm).tail (.configure ?_)
      exact reconfigured_same rfl rfl rfl rfl rfl rfl rfl rfl fun _ h => h
    · cases h
      exact hpass _ hbuf rfl
  · rename_i hpump
    have hbuf : pumpEvs s.pump = [] := by rw [hpump]; rfl
    cases h
    exact hpass _ hbuf rfl
  · cases h

/-- The pump emits an event. -/
theorem stepEmit_acts (h : stepEmit s = some s') : Acts w (desk s) (desk s') := by
  have hevs : ∀ {ev : Ev} {buf rest : List Ev}, s.log ++ ((ev :: buf) ++ rest) =
      (s.log ++ [ev]) ++ (buf ++ rest) := by
    intro ev buf rest
    simp
  unfold stepEmit at h
  split at h
  · rename_i hpump
    cases h
    simp only [desk, hpump, pumpEvs, hevs]
    exact .refl
  · rename_i hpump
    cases h
    simp only [desk, hpump, pumpEvs, hevs]
    exact .refl
  · cases h

/-- The step moves on between its parts. -/
theorem stepManual_acts (h : stepManual s l = some s') : Acts w (desk s) (desk s') := by
  unfold stepManual at h
  split at h
  · split_ifs at h with hidle
    cases h
    simp only [desk, hidle.1, pumpEvs]
    exact .refl
  · split at h
    · rename_i hpump
      cases h
      have hafter : ∀ b more ran, pumpEvs (afterFlush s.e b more ran) = [] := by
        intro b more ran
        unfold afterFlush
        split_ifs <;> rfl
      simp only [desk, hpump, hafter]
      exact .refl
    · cases h
  · split at h
    · rename_i hpump
      split_ifs at h
      cases h
      simp only [desk, hpump, pumpEvs]
      exact .refl
    · cases h
  · cases h

end Pump

section Attempts

variable {s s' : Sys} {evs : List Ev} {it : Item}

/-- Events delivered at once. -/
theorem logged (h : Acts w (desk s) { desk s with e := e', evs := (desk s).evs ++ evs }) :
    Acts w (desk s) (desk { s with e := e', log := s.log ++ evs }) := by
  refine h.tail (rearranged_of rfl rfl rfl (.refl _) (.refl _) (.refl _) ?_ rfl rfl rfl rfl)
  simp only [desk, append_assoc]
  refine Perm.append_left _ ?_
  rw [← append_assoc]
  exact perm_append_comm

/-- A worker or the step takes a ready item. -/
theorem stepTake_acts {now : ℕ} (h : stepTake s now = some s') : Acts w (desk s) (desk s') := by
  unfold stepTake at h
  split_ifs at h
  obtain ⟨r, hr, heq⟩ := Option.map_eq_some_iff.mp h
  obtain ⟨e, it⟩ := r
  simp only at heq
  cases hm : mustDiscard s.e it with
  | true =>
    rw [if_pos hm] at heq
    subst heq
    exact takeReady_discard (d := desk s) hr hm
  | false =>
    rw [if_neg (Bool.eq_false_iff.mp hm)] at heq
    subst heq
    have hacts := takeReady_start (w := w) (d := desk s) hr hm
    have hbuf : pumpEvs (afterTake s.pump it.ptr) = pumpEvs s.pump := by cases s.pump <;> rfl
    simp only [desk, hbuf] at hacts ⊢
    exact hacts

/-- An attempt moves on. -/
theorem attempt_acts {f : Item → Item} {ns : List (EvKind × Status)} (hit : runningItem s p = some it)
    (hf : Retouch .running f)
    (hm : Move s.e.reg s.e.stopping (.queue .running) it.toCore (some (.queue .running)) (f it).toCore ns)
    (hev : Reports evs it.handle ns) :
    Acts w (desk s) (desk { s with e := updItem s.e .running p f, log := s.log ++ evs }) := by
  have hmem : it ∈ s.e.q .running := mem_of_find?_eq_some hit
  have hp : it.ptr = p := by
    have hfound := find?_some (p := fun x : Item => decide (x.ptr = p)) hit
    exact of_decide_eq_true hfound
  rw [← hp]
  exact logged (.single (.attempt hmem hf hm hev))

/-- Rewriting an item by itself changes nothing. -/
theorem updItem_id (e : Engine) (q : QId) (p : Ptr) : updItem e q p (fun x => x) = e := by
  have hid : ((e.q q).map fun x => if x.ptr = p then x else x) = e.q q := by simp
  unfold updItem mapQueue
  rw [hid, update_eq_self]

/-- `execute` moves on with an attempt. -/
theorem stepExec_acts (hit : runningItem s p = some it)
    (hl : l = .execStarted p ∨ l = .execSample p ∨ (∃ st now, l = .execReturn p st now) ∨
      l = .execReport p ∨ l = .execPost p)
    (h : stepExec s it l = some s') : Acts w (desk s) (desk s') := by
  rcases hl with rfl | rfl | ⟨st, now, rfl⟩ | rfl | rfl
  · simp only [stepExec] at h
    split_ifs at h with hp
    cases h
    exact attempt_acts (f := fun x => { x with phase := .body }) hit
      ⟨fun _ => rfl, fun _ => rfl, fun _ => rfl, fun h => by cases h⟩ (.begin it.toCore hp) rfl
  · simp only [stepExec] at h
    split_ifs at h
    cases h
    have hacts := attempt_acts (w := w) (f := fun x => x) hit
      ⟨fun _ => rfl, fun _ => rfl, fun _ => rfl, fun h => by cases h⟩ (.sample it.toCore)
      (show Reports [evOf s.e it .sample .ok false] it.handle [(.sample, .ok)] from rfl)
    rw [updItem_id] at hacts
    exact hacts
  · simp only [stepExec] at h
    split_ifs at h with hp
    cases h
    have hacts := attempt_acts (w := w)
      (f := fun x => { x with phase := .ended (effective s.e now it st) it.cancel }) hit
      ⟨fun _ => rfl, fun _ => rfl, fun _ => rfl, fun h => by cases h⟩
      (.ended it.toCore (effective s.e now it st) it.cancel hp)
      (show Reports [] it.handle [] from rfl)
    rw [append_nil] at hacts
    exact hacts
  · simp only [stepExec] at h
    split at h
    · rename_i st raised hp
      cases h
      exact attempt_acts (f := fun x => { x with phase := .reported st }) hit
        ⟨fun _ => rfl, fun _ => rfl, fun _ => rfl, fun h => by cases h⟩
        (.report it.toCore st raised hp) rfl
    · cases h
  · simp only [stepExec] at h
    split at h
    · rename_i st hp
      cases h
      have hacts := postDone_acts (w := w) (d := desk s) (mem_of_find?_eq_some hit) hp
      have hbuf : pumpEvs (afterPost s.pump p) = pumpEvs s.pump := by
        cases s.pump
        case exec p' ran =>
          simp only [afterPost]
          split_ifs <;> rfl
        all_goals rfl
      simp only [desk, hbuf] at hacts ⊢
      exact hacts
    · cases h

end Attempts

section Calls

variable {s s' : Sys} {args : SubmitArgs} {r : RegId} {dropped : List Item} {nameOk : Ptr → Bool}

/-- A call is begun with what it holds. -/
theorem begun (c : Call)
    (h : Acts w (desk s) { desk s with
      e := e', dropped := (desk s).dropped ++ callDropped c
      handed := (desk s).handed ++ callHanded c, fresh := callFresh c ++ (desk s).fresh
      evs := (desk s).evs ++ callEvs c }) :
    Acts w (desk s) (desk { s with e := e', calls := s.calls ++ [c] }) := by
  refine h.tail (rearranged_of rfl rfl rfl ?_ ?_ ?_ ?_ rfl rfl rfl rfl)
  · simp only [desk, flatMap_append, flatMap_cons, flatMap_nil, append_nil,
      append_assoc]
    exact perm_append_comm.append_left _
  · simp only [desk, flatMap_append, flatMap_cons, flatMap_nil, append_nil]
    exact .refl _
  · simp only [desk, flatMap_append, flatMap_cons, flatMap_nil, append_nil]
    exact perm_append_comm
  · simp only [desk, flatMap_append, flatMap_cons, flatMap_nil, append_nil,
      append_assoc]
    exact .refl _

/-- A step that needs a call under way has it. -/
theorem onCall_some {k : Option Sys} (h : s.onCall c k = some s') : c ∈ s.calls ∧ k = some s' := by
  unfold Sys.onCall at h
  split_ifs at h with hc
  exact ⟨hc, h⟩

/-- A submit takes the memory of its item. -/
theorem stepSubmitTake_acts {len : ℕ} (h : stepSubmitTake s p len = some s') :
    Acts w (desk s) (desk s') := by
  unfold stepSubmitTake at h
  have hsame : ∀ e' : Engine, Acts w (desk s) { desk s with e := e', fresh := p :: (desk s).fresh } →
      Acts w (desk s) (desk { s with e := e', calls := s.calls ++ [.submitting p] }) := by
    intro e' hacts
    refine begun (.submitting p) ?_
    simp only [callDropped, callHanded, callEvs, append_nil]
    exact hacts
  split_ifs at h with hclassic halloc hseal
  · cases h
    exact hsame _ (.single (.take hclassic (Bool.eq_false_iff.mpr halloc)))
  · cases hpool : poolTake s.e with
    | none =>
      rw [hpool] at h
      cases h
    | some r =>
      obtain ⟨p', e⟩ := r
      simp only [hpool] at h
      split_ifs at h with hp
      cases h
      subst hp
      exact hsame _ (.single (.pool hseal.1 hpool))

/-- The first submit of a bounded engine seals it. -/
theorem stepSubmitSeal_acts {ok : Bool} (h : stepSubmitSeal s args ok = some s') :
    Acts w (desk s) (desk s') := by
  unfold stepSubmitSeal at h
  split_ifs at h with hguard
  cases hseal : submitSeal s.e args ok with
  | error st =>
    rw [hseal] at h
    cases h
    exact .refl
  | ok e =>
    rw [hseal] at h
    cases h
    unfold submitSeal at hseal
    split_ifs at hseal
    split at hseal
    · cases hseal
    · split_ifs at hseal
      exact .single (.sealing (d := desk s) hguard.1 hseal)

/-- A submit runs its critical section. -/
theorem stepSubmitCommit_acts (h : stepSubmitCommit s p args = some s') : Acts w (desk s) (desk s') := by
  obtain ⟨hc, h⟩ := onCall_some h
  split_ifs at h
  have hfresh : (desk { s with calls := .submitting p :: s.calls.erase (.submitting p) }).fresh =
      p :: (s.calls.erase (.submitting p)).flatMap callFresh := rfl
  cases hsub : submitInternal s.e p args with
  | mk e res =>
    rw [hsub] at h
    cases res with
    | error st =>
      cases h
      exact swap_acts hc rfl (submitInternal_refused hfresh hsub)
    | ok it =>
      cases h
      refine swap_acts hc rfl ?_
      refine (submitInternal_accepted hfresh rfl hsub).tail
        (rearranged_of rfl rfl rfl (.refl _) (.refl _) (.refl _) ?_ rfl rfl rfl rfl)
      simp only [desk, flatMap_cons, callEvs, nil_append, append_assoc, cons_append]
      refine Perm.append_left _ (Perm.append_left _ ?_)
      exact perm_append_singleton _ _

/-- A call that holds nothing is begun, or the engine changes alone. -/
theorem begun_plain (c : Call) (hdrop : callDropped c = []) (hhand : callHanded c = [])
    (hfresh : callFresh c = []) (hevs : callEvs c = []) (h : Acts w (desk s) { desk s with e := e' }) :
    Acts w (desk s) (desk { s with e := e', calls := s.calls ++ [c] }) := by
  refine begun c ?_
  simp only [hdrop, hhand, hfresh, hevs, append_nil, nil_append]
  exact h

/-- A call emits its next event. -/
theorem stepCallEmit_acts {evs : List Ev} (h : stepCallEmit s evs = some s') :
    Acts w (desk s) (desk s') := by
  obtain ⟨hc, h⟩ := onCall_some h
  cases evs with
  | nil =>
    cases h
    exact swap_acts hc rfl .refl
  | cons ev rest =>
    cases h
    refine swap_acts hc rfl (.single ?_)
    refine rearranged_of rfl rfl rfl (.refl _) (.refl _) (.refl _) ?_ rfl rfl rfl rfl
    simp only [desk, flatMap_cons, callEvs, append_assoc, cons_append, nil_append]
    exact Perm.append_left _ perm_middle

/-- A cancel runs its critical section. -/
theorem stepCancel_acts {h : Handle} (hstep : stepCancel s h = some s') : Acts w (desk s) (desk s') := by
  have hacts := gptpsCancel_acts (w := w) (d := desk s) h rfl
  cases hstep
  simp only [desk] at hacts
  generalize gptpsCancel s.e h = r at hacts ⊢
  obtain ⟨e', st, ev⟩ := r
  cases ev with
  | none =>
    simp only [Option.toList_none, map_nil, append_nil] at hacts ⊢
    exact hacts
  | some ev =>
    refine begun (.emitting [ev]) ?_
    simp only [callDropped, callHanded, callFresh, callEvs, append_nil, nil_append]
    exact hacts

/-- An unregister runs its first critical section. -/
theorem stepUnregister_acts {tid : ℕ} {name : Name} {mode : RemoveMode} {reentrant : Bool}
    (hd : DeskInv (desk s)) (h : stepUnregister s tid name mode reentrant = some s') :
    Acts w (desk s) (desk s') := by
  unfold stepUnregister at h
  split_ifs at h
  cases hbegin : unregisterBegin s.e tid name mode reentrant with
  | error st =>
    rw [hbegin] at h
    cases h
    exact .refl
  | ok r =>
    obtain ⟨e', r, l⟩ := r
    rw [hbegin] at h
    cases h
    refine begun (.removing r l) ?_
    simp only [callDropped, callHanded, callFresh, callEvs, append_nil, nil_append]
    exact unregisterBegin_acts hd rfl rfl rfl hbegin

/-- An unregister runs its last critical section. -/
theorem stepUnregisterEnd_acts (h : stepUnregisterEnd s r dropped nameOk = some s') :
    Acts w (desk s) (desk s') := by
  obtain ⟨hc, h⟩ := onCall_some h
  split_ifs at h
  cases h
  exact swap_acts hc rfl (unregisterEnd_acts (d := desk { s with
    calls := .removing r dropped :: s.calls.erase (.removing r dropped) }) r nameOk)

/-- The event an ended item owes. -/
theorem owedEv_reports (e : Engine) (it : Item) :
    Reports (owedEv e it) it.handle (owed e.reg it.toCore) := by
  cases ht : terminalReported e it.toCore with
  | true =>
    have howed : owed e.reg it.toCore = [] := if_pos ht
    rw [owedEv, if_pos ht, howed]
    rfl
  | false =>
    have howed : owed e.reg it.toCore = [(.failed, .cancelled)] := if_neg (Bool.eq_false_iff.mp ht)
    rw [owedEv, if_neg (Bool.eq_false_iff.mp ht), howed]
    rfl

/-- An unregister ends the next item of its backlog. -/
theorem stepDropNext_acts {named : Bool} (h : stepDropNext s r dropped named = some s') :
    Acts w (desk s) (desk s') := by
  obtain ⟨hc, h⟩ := onCall_some h
  cases dropped with
  | nil =>
    cases h
    refine swap_acts hc rfl ?_
    cases named with
    | true =>
      exact .single (.configure (reconfigured_same rfl rfl rfl rfl rfl rfl rfl rfl fun _ h => h))
    | false => exact .refl
  | cons it rest =>
    cases h
    refine swap_acts hc rfl ?_
    refine (Relation.ReflTransGen.single (.drain rfl (owedEv_reports s.e it))).tail ?_
    refine rearranged_of rfl rfl rfl (.refl _) (.refl _) (.refl _) ?_ rfl rfl rfl rfl
    simp only [desk, flatMap_cons, callEvs, append_assoc, cons_append, nil_append]
    refine Perm.append_left _ ?_
    rw [← append_assoc]
    exact perm_append_comm

/-- A dead-letter drain takes the retained list. -/
theorem stepDeadDrain_acts {cb : Bool} (h : stepDeadDrain s cb nameOk = some s') :
    Acts w (desk s) (desk s') := by
  have hacts := deadLetterDrain_acts (w := w) cb nameOk (desk s)
  cases h
  refine begun (.handing (deadLetterDrain s.e cb nameOk).2) ?_
  simp only [callDropped, callHanded, callFresh, callEvs, append_nil, nil_append]
  exact hacts

/-- A dead-letter drain frees the next item. -/
theorem stepHandNext_acts {items : List Item} (h : stepHandNext s items = some s') :
    Acts w (desk s) (desk s') := by
  obtain ⟨hc, h⟩ := onCall_some h
  cases items with
  | nil =>
    cases h
    exact swap_acts hc rfl .refl
  | cons it rest =>
    cases h
    exact swap_acts hc rfl (.single (.handOver rfl))

end Calls

section Setup

variable {s s' : Sys}

/-- A registration moves on. -/
theorem stepRegister_acts (h : stepRegister s l = some s') : Acts w (desk s) (desk s') := by
  unfold stepRegister at h
  split at h
  · rename_i tid t
    split_ifs at h
    cases hreg : registerTask s.e tid t with
    | error st =>
      rw [hreg] at h
      cases h
      exact .refl
    | ok r =>
      rw [hreg] at h
      cases h
      exact begun_plain (.registering r.2 tid false) rfl rfl rfl rfl
        (.single (.configure (registerTask_reconfigured hreg)))
  · obtain ⟨hc, h⟩ := onCall_some h
    cases h
    exact swap_acts hc rfl .refl
  · rename_i r tid
    obtain ⟨hc, h⟩ := onCall_some h
    cases h
    exact swap_acts hc rfl (.single (.configure (updReg_reconfigured s.e r
      (fun g => { g with settling := false }) fun _ => ⟨rfl, rfl, rfl, rfl⟩)))
  · rename_i r tid
    obtain ⟨hc, h⟩ := onCall_some h
    split_ifs at h
    cases h
    exact swap_acts hc rfl (.single (.configure (registerTaskUndo_reconfigured s.e r)))
  · cases h

/-- A definition moves on. -/
theorem stepDefine_acts (h : stepDefine s l = some s') : Acts w (desk s) (desk s') := by
  have hold : ∀ addon, Acts w (desk s) { desk s with e := holdDefines s.e addon } := fun addon =>
    .single (.configure (reconfigured_same rfl rfl rfl rfl rfl rfl rfl rfl fun _ h => h))
  unfold stepDefine at h
  split at h
  · rename_i name budget addon
    split_ifs at h
    · cases h
      exact .refl
    · cases h
      exact .single (.configure (resRebudget_reconfigured s.e name budget))
    · cases h
      exact .refl
    · cases h
      exact begun_plain (.defining name budget addon) rfl rfl rfl rfl (hold addon)
  · rename_i name budget addon ok
    obtain ⟨hc, h⟩ := onCall_some h
    cases hdef : defineResource s.e name budget with
    | error st =>
      rw [hdef] at h
      cases h
      exact swap_acts hc rfl .refl
    | ok e =>
      rw [hdef] at h
      cases h
      refine swap_acts hc rfl ?_
      cases ok with
      | true => exact .single (.configure (defineResource_reconfigured hdef))
      | false => exact .refl
  · cases h
    exact begun_plain (.defined false) rfl rfl rfl rfl (hold false)
  · obtain ⟨hc, h⟩ := onCall_some h
    cases h
    exact swap_acts hc rfl (.single (.configure
      (reconfigured_same rfl rfl rfl rfl rfl rfl rfl rfl fun _ h => h)))
  · cases h

end Setup

section Shutdown

variable {s s' : Sys} {shut : Shut}

/-- The shutdown ends an item of its list. -/
theorem shutdownNext_acts {it : Item} {rest : List Item} (hold : shutDropped s.shut = it :: rest)
    (hnew : shutDropped shut = rest) :
    Acts w (desk s) (desk { s with
      e := itemFree s.e it.ptr, log := s.log ++ owedEv s.e it, shut := shut }) := by
  have hfront : Act w (desk s) { desk s with
      dropped := it :: (s.calls.flatMap callDropped ++ rest) } := by
    refine rearranged_of rfl rfl rfl ?_ (.refl _) (.refl _) (.refl _) rfl rfl rfl rfl
    simp only [desk, hold]
    exact perm_middle
  refine ((Relation.ReflTransGen.single hfront).tail (.drain rfl (owedEv_reports s.e it))).tail ?_
  refine rearranged_of rfl rfl rfl ?_ (.refl _) (.refl _) ?_ rfl rfl rfl rfl
  · simp only [desk, hnew]
    exact .refl _
  · simp only [desk, append_assoc]
    refine Perm.append_left _ ?_
    rw [← append_assoc]
    exact perm_append_comm

/-- The shutdown takes items to end. -/
theorem shutTaken {l : List Item} (hold : shutDropped s.shut = []) (hnew : shutDropped shut = l)
    (h : Acts w (desk s) { desk s with e := e', dropped := (desk s).dropped ++ l }) :
    Acts w (desk s) (desk { s with e := e', shut := shut }) := by
  simp only [desk, hold, hnew, append_nil] at h ⊢
  exact h

/-- The parts of the shutdown. -/
theorem stepShutdown_acts (hd : DeskInv (desk s)) (hrun : joined s = true → s.e.q .running = [])
    (h : stepShutdown s l = some s') : Acts (collects l) (desk s) (desk s') := by
  unfold stepShutdown at h
  split at h
  · rename_i now
    split_ifs at h with hup
    cases h
    have hold : shutDropped s.shut = [] := by rw [hup]; rfl
    exact shutTaken hold rfl (shutdownBegin_acts now hd rfl rfl rfl)
  · split at h
    · rename_i hshut
      cases h
      exact shutdownNext_acts (by rw [hshut]; rfl) rfl
    · rename_i hshut
      cases h
      exact shutdownNext_acts (by rw [hshut]; rfl) rfl
    · cases h
  · split_ifs at h with hjoin
    cases h
    have hold : shutDropped s.shut = [] := by rw [hjoin.1]; rfl
    exact shutTaken hold rfl (shutdownCollect_acts (d := desk s) (hrun hjoin.2) rfl rfl)
  · split_ifs at h with hend
    cases h
    have hhand : (desk s).handed = [] := by
      simp only [desk, hend.2.2, flatMap_nil]
    have hold : shutDropped s.shut = [] := by rw [hend.1]; rfl
    have hacts := shutdownFree_acts (w := false) hhand
    simp only [desk, hold] at hacts ⊢
    exact hacts
  · cases h

end Shutdown

/-- Every step is a sequence of acts. -/
theorem step_acts {s' : Sys} (hd : DeskInv (desk s)) (hrun : joined s = true → s.e.q .running = [])
    (h : step s l = some s') :
    Acts (collects l) (desk s) { desk s' with admissions := stepAdmissions s l } := by
  have hexec : ∀ {p : Ptr}, (l = .execStarted p ∨ l = .execSample p ∨
      (∃ st now, l = .execReturn p st now) ∨ l = .execReport p ∨ l = .execPost p) →
      ((runningItem s p).bind fun it => stepExec s it l) = some s' → Acts false (desk s) (desk s') := by
    intro p hl hbind
    obtain ⟨it, hit, hex⟩ := Option.bind_eq_some_iff.mp hbind
    exact stepExec_acts hit hl hex
  unfold step at h
  split_ifs at h
  cases l with
  | pass inp => exact stepPass_acts hd h
  | emit => exact stepEmit_acts h
  | stepBegin | stepNext | stepDry => exact stepManual_acts h
  | take now => exact stepTake_acts h
  | execStarted p => exact hexec (.inl rfl) h
  | execSample p => exact hexec (.inr (.inl rfl)) h
  | execReturn p st now => exact hexec (.inr (.inr (.inl ⟨st, now, rfl⟩))) h
  | execReport p => exact hexec (.inr (.inr (.inr (.inl rfl)))) h
  | execPost p => exact hexec (.inr (.inr (.inr (.inr rfl)))) h
  | submitSeal args ok => exact stepSubmitSeal_acts h
  | submitTake p len => exact stepSubmitTake_acts h
  | submitCommit p args => exact stepSubmitCommit_acts h
  | callEmit evs => exact stepCallEmit_acts h
  | cancel h' => exact stepCancel_acts h
  | unregister tid name mode reentrant => exact stepUnregister_acts hd h
  | unregisterEnd r dropped nameOk => exact stepUnregisterEnd_acts h
  | dropNext r dropped named => exact stepDropNext_acts h
  | deadDrain cb nameOk => exact stepDeadDrain_acts h
  | handNext items => exact stepHandNext_acts h
  | register tid t | registerPublish r tid | registerDone r tid | registerUndo r tid =>
    exact stepRegister_acts h
  | defineBegin name budget addon | definePublish name budget addon ok | defineTaskSetting
  | defineEnd addon => exact stepDefine_acts h
  | setting x =>
    cases h
    exact .single (.configure (applySetting_reconfigured s.e x))
  | setCost tid task resource amount =>
    simp only at h
    split_ifs at h
    cases h
    exact setTaskResourceCost_acts (d := desk s) tid task resource amount
  | shutdownBegin now | shutdownNext | shutdownCollect | shutdownEnd => exact stepShutdown_acts hd hrun h

end Gptps.SystemDesk
