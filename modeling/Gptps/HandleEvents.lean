import Gptps.SystemInvariant

/-!
# The events of every handle

What a host may rely on for each accepted submit: one event closes the handle,
no attempt starts after it, and a stop that was asked for is final. The events
decided so far are those delivered and those still buffered by the pump or a
call; when `gptps_shutdown` has returned, all of them were delivered.
-/

namespace Gptps.HandleEvents

open Function EngineState EngineStore EnginePass EngineApi EngineSystem ItemLife ItemHistory List
open StoreInvariant EngineDesk DeskStore DeskLife ApiDesk SystemDesk SystemInvariant

/-- The events decided so far, delivered or on their way. -/
def decided (s : Sys) : List Ev := (desk s).evs

/-- How many events of a list close a handle; FINISHED does so unless the instance is
always up. -/
def closingEvents (up : Bool) (evs : List Ev) (h : Handle) : ℕ :=
  evs.countP fun ev => ev.handle = h ∧ closes up ev.kind ev.status = true

/-- How many runs a list of events ends without closing an always-up instance. -/
def runEnds (evs : List Ev) (h : Handle) : ℕ :=
  evs.countP fun ev => ev.handle = h ∧ plainEnd ev.kind ev.status = true

/-- How many retries, dead letters and drops a list of events announces. -/
def decisionEvents (evs : List Ev) (h : Handle) : ℕ :=
  evs.countP fun ev => ev.handle = h ∧ (!quiet ev.kind) = true

section Notes

variable (evs : List Ev) (h : Handle)

/-- Counting events is counting what they say. -/
theorem countP_notes (f : EvKind → Status → Bool) :
    (evs.map noteOf : Multiset Note).countP (fun n => n.handle = h ∧ f n.kind n.status = true) =
      evs.countP fun ev => ev.handle = h ∧ f ev.kind ev.status = true := by
  rw [Multiset.coe_countP, countP_map]
  rfl

/-- Closing events. -/
theorem closings_evs (up : Bool) :
    closings up ↑(evs.map noteOf) h = closingEvents up evs h := countP_notes evs h (closes up)

/-- Ends of runs. -/
theorem ends_evs : ends ↑(evs.map noteOf) h = runEnds evs h := countP_notes evs h plainEnd

/-- Decisions. -/
theorem decisions_evs : decisions ↑(evs.map noteOf) h = decisionEvents evs h :=
  countP_notes evs h fun k _ => !quiet k

end Notes

section Runs

variable {s s' : Sys} {ls : List Label}

/-- A run is a sequence of steps in the life of items. -/
theorem run_life (hs : SysInv s) (h : run s ls = some s') :
    Steps (life (desk s)) (life (desk s')) ∧ SysInv s' := by
  induction ls generalizing s with
  | nil =>
    cases h
    exact ⟨.refl, hs⟩
  | cons l ls ih =>
    obtain ⟨s₁, hstep, hrest⟩ := Option.bind_eq_some_iff.mp h
    obtain ⟨w, adm, hacts⟩ := hs.step_progress hstep
    obtain ⟨hsteps, hinv⟩ := ih (hs.step hstep) hrest
    exact ⟨(acts_life hs.desk hacts).trans hsteps, hinv⟩

/-- Whatever an engine does, its items take the steps of their lives. -/
theorem engine_refines_life {a : OpenArgs} (hrun : run (init a) ls = some s) :
    Steps (life (desk (init a))) (life (desk s)) :=
  (run_life (init_inv a) hrun).1

/-- An item is submitted, admitted, attempted, reported and accounted for. -/
theorem engine_refines_life_sample : Steps (life (desk (init (sampleOpen false 1000))))
    (life (desk (sampled (sampleStart false 600 ++ sampleBegin ++ sampleReport ++ sampleAccount)))) :=
  engine_refines_life (run_ranTo (by decide +kernel))

/-- Nothing has happened to any item when an engine is opened. -/
theorem init_life (a : OpenArgs) : Inv (life (desk (init a))) ∧ History (life (desk (init a))) := by
  have hitems : (life (desk (init a))).items = 0 := rfl
  have hnone : ∀ x, x ∉ (life (desk (init a))).items := fun x => hitems ▸ Multiset.notMem_zero x
  have hnotes : (life (desk (init a))).notes = 0 := by
    simp only [life, desk, init]
    cases a.manual <;> rfl
  refine ⟨⟨?_, ?_, ?_, ?_, ?_, ?_, ?_, ?_, ?_, ?_⟩, ⟨?_, ?_, ?_, ?_⟩⟩
  · exact Multiset.nodup_zero
  · exact fun x hx => absurd hx (hnone x)
  · exact fun x hx => absurd hx (hnone x)
  · exact fun x hx => absurd hx (hnone x)
  · exact fun x hx => absurd hx (Multiset.notMem_zero x)
  · exact Multiset.nodup_zero
  · exact fun x hx => absurd (hnotes ▸ hx) (Multiset.notMem_zero x)
  · exact fun x hx => absurd hx (Multiset.notMem_zero x)
  · exact fun r hr => absurd hr (Nat.not_lt_zero r)
  · exact fun x hx => absurd hx (Multiset.notMem_zero x)
  · exact fun x hx => absurd hx (hnone x)
  · exact fun x hx => absurd hx (Multiset.notMem_zero x)
  · intro h
    rw [hnotes]
    exact ⟨Nat.zero_le _, Nat.zero_le _⟩
  · exact fun x hx => absurd hx (hnone x)

/-- The life of items in every reachable state. -/
theorem reachable_life (h : Reachable s) :
    SysInv s ∧ Inv (life (desk s)) ∧ History (life (desk s)) := by
  obtain ⟨a, ls, hrun⟩ := h
  obtain ⟨hinv, hhist⟩ := init_life a
  obtain ⟨hsteps, hs⟩ := run_life (init_inv a) hrun
  exact ⟨hs, steps_inv hsteps hinv, steps_history hinv hhist hsteps⟩

/-- When the shutdown has returned, no item is left and every event was delivered. -/
structure Over (s : Sys) : Prop where
  /-- No item is left. -/
  items : (life (desk s)).items = 0
  /-- Nothing is buffered. -/
  log : decided s = s.log

/-- The end of the shutdown leaves nothing behind. -/
theorem shutdownEnd_over (hs : SysInv s) (hstep : stepShutdown s .shutdownEnd = some s') : Over s' := by
  simp only [stepShutdown] at hstep
  split_ifs at hstep with hend
  cases hstep
  obtain ⟨hshut, hjoin, hcalls⟩ := hend
  have hq := hs.quiet (.inr (by rw [hshut]; rfl))
  have hpump : pumpEvs s.pump = [] := by
    simp only [joined, Bool.or_eq_true, Bool.and_eq_true, decide_eq_true_eq] at hjoin
    rcases hjoin with ⟨⟨hex, -⟩, -⟩ | hidle
    · rw [hex]
      rfl
    · rw [hidle]
      rfl
  have hempty : ∀ q, (shutdownFree s.e).q q = [] := by
    intro q
    rw [shutdownFree_q]
    by_cases hd : q = .dead
    · rw [hd, update_self]
    · rw [update_of_ne hd]
      exact hq.empty q hd
  refine ⟨?_, ?_⟩
  · refine Multiset.eq_zero_of_forall_notMem ?_
    intro x hx
    rcases mem_items.mp hx with ⟨q, it, hit, -⟩ | ⟨it, hit, -⟩ | ⟨it, hit, -⟩ | ⟨it, hit, -⟩ |
      ⟨it, hit, -⟩
    · have hnil := hempty q
      simp only [desk] at hit
      rw [hnil] at hit
      cases hit
    · cases hit
    · cases hit
    · simp only [desk, hcalls] at hit
      cases hit
    · simp only [desk, hcalls] at hit
      cases hit
  · simp only [decided, desk, hpump, hcalls, flatMap_nil, append_nil]

/-- The shutdown returns in its last step. -/
theorem label_of_returned {l : Label} (hstep : stepShutdown s l = some s') (hr : s'.shut = .returned) :
    l = .shutdownEnd := by
  unfold stepShutdown at hstep
  split at hstep
  · split_ifs at hstep
    cases hstep
    cases hr
  · split at hstep
    · cases hstep
      cases hr
    · cases hstep
      cases hr
    · cases hstep
  · split_ifs at hstep
    cases hstep
    cases hr
  · rfl
  · cases hstep

/-- Once the shutdown has returned. -/
theorem reachable_over (h : Reachable s) (hr : s.shut = .returned) : Over s := by
  refine reachable_invariant (P := fun s => s.shut = .returned → Over s) ?_ ?_ h hr
  · intro a hno
    cases hno
  · intro s l s' hs _ hstep hr'
    rcases step_shut hstep with hsame | hshut
    · rw [hr'] at hsame
      unfold step at hstep
      rw [if_pos hsame.symm] at hstep
      cases hstep
    · have hl := label_of_returned hshut hr'
      subst hl
      exact shutdownEnd_over (reachable_inv hs) hshut

end Runs

section Cancel

variable {e : Engine} {h : Handle} {p : Ptr} {loose : List Ptr} {q : QId} {it : Item}

/-- What an accepted cancel does: an admitted item is asked to stop, a waiting one is
dropped. -/
theorem gptpsCancel_ok (hok : (gptpsCancel e h).2.1 = .ok) :
    ∃ p q, hidxFind e h = some p ∧ e.whereIs p = .queue q ∧ q ≠ .dead ∧
      ((Place.queue q).waiting = false ∧ (gptpsCancel e h).1 = updItem e q p stopItem ∧
          (gptpsCancel e h).2.2 = none ∨
        ∃ it ∈ e.q q, it.ptr = p ∧ (gptpsCancel e h).1.nextHandle = e.nextHandle ∧
          (gptpsCancel e h).1.q = update e.q q ((e.q q).eraseP fun x => x.ptr = it.ptr) ∧
          (gptpsCancel e h).2.2 = some (evOf e it .failed .cancelled false)) := by
  have hcases := gptpsCancel_cancels e h
  generalize gptpsCancel e h = r at hok hcases ⊢
  cases hcases with
  | refused hno => exact absurd hok hno
  | stop hfind hw hq =>
    rcases hq with rfl | rfl | rfl
    all_goals exact ⟨_, _, hfind, hw, by decide, .inl ⟨rfl, rfl, rfl⟩⟩
  | @intake it hfind hw hit | @delayed it hfind hw hit =>
    refine ⟨_, _, hfind, hw, by decide, .inr ⟨it, hit, rfl, ?_⟩⟩
    exact ⟨(itemDrop_kept _ it).next, (itemDrop_kept _ it).queues, rfl⟩

/-- The index names the item of a handle, and the `where` byte its queue. -/
theorem place_of_handle (hst : StoreInv e.toStore [] loose) (hfind : hidxFind e h = some p) {q₀ : QId}
    (hwhere : e.whereIs p = .queue q₀) (hq : q ≠ .dead) (hit : it ∈ e.q q) (hh : it.handle = h) :
    it.ptr = p ∧ q = q₀ := by
  have hkey : (h, it.ptr) ∈ (live e.toStore ++ []).map key := by
    rw [append_nil]
    exact mem_map.mpr ⟨it, mem_live.mpr ⟨q, hq, hit⟩, by rw [key, hh]⟩
  have hfound := (hidxFind_iff hst.index h it.ptr).mpr hkey
  rw [hfind] at hfound
  have hp := (Option.some.inj hfound).symm
  have hnamed := hst.layout.queued q it.ptr (mem_map.mpr ⟨it, hit, rfl⟩)
  rw [hp, hwhere] at hnamed
  exact ⟨hp, (Where.queue.inj hnamed).symm⟩

/-- An item the index names is live. -/
theorem item_of_find (hst : StoreInv e.toStore [] loose) (hfind : hidxFind e h = some p) :
    ∃ q, q ≠ QId.dead ∧ ∃ it ∈ e.q q, it.handle = h ∧ it.ptr = p := by
  have hkey := (hidxFind_iff hst.index h p).mp hfind
  rw [append_nil] at hkey
  obtain ⟨it, hit, hk⟩ := mem_map.mp hkey
  obtain ⟨q, hq, hmem⟩ := mem_live.mp hit
  exact ⟨q, hq, it, hmem, congrArg Prod.fst hk, congrArg Prod.snd hk⟩

/-- After an accepted cancel, the item of the handle is to stop or gone from the queues. -/
theorem cancel_stops (hst : StoreInv e.toStore [] loose) (hok : (gptpsCancel e h).2.1 = .ok)
    (hq : q ≠ .dead) (hit : it ∈ (gptpsCancel e h).1.q q) (hh : it.handle = h) :
    (Place.queue q).waiting = false ∧ it.cancelled = true := by
  obtain ⟨p, q₀, hfind, hwhere, -, ⟨hw, he, -⟩ | ⟨old, hold, hptr, -, heq, -⟩⟩ := gptpsCancel_ok hok
  · rw [he, updItem, mapQueue] at hit
    simp only at hit
    by_cases hsame : q = q₀
    · subst hsame
      rw [update_self] at hit
      obtain ⟨x, hx, rfl⟩ := mem_map.mp hit
      have hxh : x.handle = h := by
        rw [← hh]
        split_ifs <;> rfl
      rw [if_pos (place_of_handle hst hfind hwhere hq hx hxh).1]
      exact ⟨hw, rfl⟩
    · rw [update_of_ne hsame] at hit
      exact absurd (place_of_handle hst hfind hwhere hq hit hh).2 hsame
  · rw [heq] at hit
    by_cases hsame : q = q₀
    · subst hsame
      rw [update_self] at hit
      have hmem := mem_of_mem_eraseP hit
      have hp := (place_of_handle hst hfind hwhere hq hmem hh).1.trans hptr.symm
      have hnd := (hst.layout.rep q).nodup
      rw [inj_on_of_nodup_map hnd hmem hold hp] at hit
      exact absurd hit (not_mem_eraseP hnd hold)
    · rw [update_of_ne hsame] at hit
      exact absurd (place_of_handle hst hfind hwhere hq hit hh).2 hsame

variable {s s₁ : Sys}

/-- A cancel is one critical section; an event it decides is emitted after it. -/
theorem step_cancel (hstep : step s (.cancel h) = some s₁) :
    s₁ = { s with
      e := (gptpsCancel s.e h).1
      calls := s.calls ++ (gptpsCancel s.e h).2.2.toList.map fun ev => .emitting [ev] } := by
  unfold step at hstep
  split_ifs at hstep
  simp only [stepCancel, Option.some.injEq] at hstep
  exact hstep.symm

/-- An accepted cancel decides no more than a failure. -/
theorem cancel_decided (hok : (gptpsCancel s.e h).2.1 = .ok) (hstep : step s (.cancel h) = some s₁)
    (k : Handle) : decisionEvents (decided s₁) k = decisionEvents (decided s) k := by
  rw [step_cancel hstep]
  obtain ⟨p, q, -, -, -, ⟨-, -, hev⟩ | ⟨it, -, -, -, -, hev⟩⟩ := gptpsCancel_ok hok
  · rw [hev]
    simp only [Option.toList_none, map_nil, append_nil]
    rfl
  · rw [hev]
    simp only [decided, desk, Option.toList_some, map_cons, map_nil, flatMap_append,
      flatMap_singleton, callEvs, decisionEvents, countP_append, countP_singleton,
      evOf, quiet, Bool.not_true, Bool.false_eq_true, and_false, decide_false, if_false,
      add_zero]

/-- An accepted cancel silences the handle, whose item was live. -/
theorem cancel_silenced (hs : SysInv s) (hi : Inv (life (desk s)))
    (hok : (gptpsCancel s.e h).2.1 = .ok) (hstep : step s (.cancel h) = some s₁) :
    Silenced (life (desk s₁)) h ∧
      ∃ x ∈ (life (desk s)).items, x.2.handle = h ∧ x.1.live = true := by
  have hst : StoreInv s.e.toStore [] _ := hs.desk.store
  obtain ⟨p, q₀, hfind, -⟩ := gptpsCancel_ok hok
  obtain ⟨q, hq, it, hit, hh, -⟩ := item_of_find hst hfind
  have hlive : (located (.queue q) it) ∈ (life (desk s)).items :=
    mem_items.mpr (.inl ⟨q, it, hit, rfl⟩)
  refine ⟨⟨?_, ?_⟩, located (.queue q) it, hlive, hh, ?_⟩
  · rw [step_cancel hstep]
    have hnext : (gptpsCancel s.e h).1.nextHandle = s.e.nextHandle := by
      obtain ⟨p', q', -, -, -, ⟨-, he, -⟩ | ⟨it', -, -, hn, -⟩⟩ := gptpsCancel_ok hok
      · rw [he]
        rfl
      · exact hn
    have hlt := hi.given _ hlive
    simp only [located, hh] at hlt
    exact Nat.lt_of_lt_of_eq hlt hnext.symm
  · rw [step_cancel hstep]
    intro x hx hxh
    rcases mem_items.mp hx with ⟨q', y, hy, rfl⟩ | ⟨y, hy, rfl⟩ | ⟨y, hy, rfl⟩ | ⟨y, hy, rfl⟩ |
      ⟨y, hy, rfl⟩
    · by_cases hd : q' = .dead
      · subst hd
        exact ⟨rfl, fun ha => by cases ha⟩
      · obtain ⟨hw, hc⟩ := cancel_stops hst hok hd hy hxh
        exact ⟨hw, fun _ => hc⟩
    · cases hy
    · cases hy
    · exact ⟨rfl, fun ha => by cases ha⟩
    · exact ⟨rfl, fun ha => by cases ha⟩
  · cases q
    case dead => exact absurd rfl hq
    all_goals rfl

end Cancel

section Contract

variable {s s' : Sys} {ls : List Label} {a : Handle × RegId}

/-- The life of items from a reachable state on. -/
theorem later_life (hs : Reachable s) (hrun : run s ls = some s') :
    Steps (life (desk s)) (life (desk s')) ∧ Inv (life (desk s')) ∧ History (life (desk s')) := by
  obtain ⟨hsys, hinv, hhist⟩ := reachable_life hs
  have hsteps := (run_life hsys hrun).1
  exact ⟨hsteps, steps_inv hsteps hinv, steps_history hinv hhist hsteps⟩

/-- Every accepted handle is closed at most once, and exactly once when the shutdown has
returned. -/
theorem closed_once (hs : Reachable s) (hrun : run s ls = some s') (ha : a ∈ s.accepted) :
    closingEvents (upType s.e.reg a.2) (decided s') a.1 ≤ 1 ∧
      (s'.shut = .returned → closingEvents (upType s.e.reg a.2) s'.log a.1 = 1) := by
  obtain ⟨hsteps, hinv', -⟩ := later_life hs hrun
  obtain ⟨ha', hup⟩ := accepted_forever (reachable_life hs).2.1 hsteps (Multiset.mem_coe.mpr ha)
  have hbal := hinv'.balance a ha'
  have hclose : closings (upType (life (desk s')).reg a.2) (life (desk s')).notes a.1 =
      closingEvents (upType s.e.reg a.2) (decided s') a.1 := by
    rw [hup]
    exact closings_evs _ _ _
  refine ⟨by omega, ?_⟩
  intro hret
  have hover := reachable_over (reachable_run hs hrun) hret
  have hdebt : (life (desk s')).debts a.1 = 0 := by
    rw [Life.debts, hover.items]
    rfl
  rw [← hover.log]
  omega

/-- The handle of a one-shot or RETIRE_ON_OK item whose submit was accepted gets one
event that closes it by the time the shutdown has returned and never a second one, and
no attempt of it starts once that event was decided. -/
theorem one_shot_closed_once (hs : Reachable s) (hrun : run s ls = some s') {a : Handle × RegId}
    (ha : a ∈ s.accepted) (hkind : (s.e.reg a.2).service = false ∨ (s.e.reg a.2).retireOnOk = true) :
    closingEvents false (decided s') a.1 ≤ 1 ∧
      (s'.shut = .returned → closingEvents false s'.log a.1 = 1) ∧
      (0 < closingEvents false (decided s) a.1 → s'.starts.count a.1 = s.starts.count a.1) := by
  have hup : upType s.e.reg a.2 = false := by
    rcases hkind with hk | hk
    · rw [upType, hk, Bool.false_and]
    · rw [upType, hk, Bool.not_true, Bool.and_false]
  have honce := closed_once hs hrun ha
  rw [hup] at honce
  refine ⟨honce.1, honce.2, ?_⟩
  intro hclosed
  have hpos : 0 < closings (upType (life (desk s)).reg a.2) (life (desk s)).notes a.1 := by
    have heq : closings (upType (life (desk s)).reg a.2) (life (desk s)).notes a.1 =
        closingEvents (upType s.e.reg a.2) (decided s) a.1 := closings_evs _ _ _
    rw [heq, hup]
    exact hclosed
  have hcount := (closed_forever (reachable_life hs).2.1 (later_life hs hrun).1
    (Multiset.mem_coe.mpr ha) hpos).1
  simpa [life, desk] using hcount

/-- A one-shot item that finishes is closed by that, and not again by the shutdown. -/
theorem one_shot_closed_once_sample :
    closingEvents false (sampled
      (sampleStart false 600 ++ (sampleBegin ++ sampleReport) ++ (sampleAccount ++ sampleEnd))).log 1
      = 1 := by
  have hs : Reachable (sampled
      (sampleStart false 600 ++ (sampleBegin ++ sampleReport))) := reachable_ranTo (by decide +kernel)
  have hrun : run (sampled
      (sampleStart false 600 ++ (sampleBegin ++ sampleReport))) (sampleAccount ++ sampleEnd) =
      some _ := run_from_ranTo (by decide +kernel)
  exact (one_shot_closed_once hs hrun (a := (1, 0)) (by decide +kernel)
    (.inl (by decide +kernel))).2.1 (by decide +kernel)

/-- No attempt of a handle starts after its cancel was accepted. -/
theorem cancelled_starts (hs : Reachable s) {h : Handle} (hok : (gptpsCancel s.e h).2.1 = .ok)
    {s₁ : Sys} (hstep : step s (.cancel h) = some s₁) (hrun : run s₁ ls = some s') :
    s'.starts.count h = s₁.starts.count h ∧
      decisionEvents (decided s') h = decisionEvents (decided s₁) h ∧ Silenced (life (desk s')) h := by
  obtain ⟨hsys, hinv, -⟩ := reachable_life hs
  have hsil := (cancel_silenced hsys hinv hok hstep).1
  have hsteps := (later_life (reachable_step hs hstep) hrun).1
  obtain ⟨hsil', hcount, hdec⟩ := silenced_forever hsil hsteps
  refine ⟨by simpa [life, desk] using hcount, ?_, hsil'⟩
  rw [← decisions_evs, ← decisions_evs]
  exact hdec

/-- An instance of an always-up service gets one event that closes it by the end of the
shutdown, a cancellation or a refusal by admission, and until then the engine holds it;
every other end of a run is of one run only; and it is not run again once it was
cancelled, its type removed or the shutdown begun. -/
theorem always_up_closed_once (hs : Reachable s) (hrun : run s ls = some s') {a : Handle × RegId}
    (ha : a ∈ s.accepted) (hserv : (s.e.reg a.2).service = true)
    (hup : (s.e.reg a.2).retireOnOk = false) :
    closingEvents true (decided s') a.1 ≤ 1 ∧
      (s'.shut = .returned → closingEvents true s'.log a.1 = 1) ∧
      (∀ ev ∈ decided s', ev.handle = a.1 → closes true ev.kind ev.status = true →
        ev.kind = .failed ∧ ev.status = .cancelled ∨
          ev.kind = .deadLettered ∧ (ev.status = .budget ∨ ev.status = .denied)) ∧
      (closingEvents true (decided s') a.1 = 0 →
        ∃ x ∈ (life (desk s')).items, x.2.handle = a.1 ∧ x.1.buried = false) ∧
      (runEnds (decided s') a.1 ≤ s'.starts.count a.1 ∧
        s'.starts.count a.1 ≤ runEnds (decided s') a.1 + 1) ∧
      ((s.e.reg a.2).removed = true ∨ s.e.stopping = true →
        s'.starts.count a.1 = s.starts.count a.1) ∧
      ∀ s₁ s₂ ks, (gptpsCancel s.e a.1).2.1 = .ok → step s (.cancel a.1) = some s₁ →
        run s₁ ks = some s₂ → s₂.starts.count a.1 = s₁.starts.count a.1 := by
  have hkind : upType s.e.reg a.2 = true := by rw [upType, hserv, hup]; rfl
  have honce := closed_once hs hrun ha
  rw [hkind] at honce
  have hinv := (reachable_life hs).2.1
  obtain ⟨hsteps, hinv', hhist'⟩ := later_life hs hrun
  obtain ⟨ha', hsame⟩ := accepted_forever hinv hsteps (Multiset.mem_coe.mpr ha)
  have hkind' : upType (life (desk s')).reg a.2 = true := hsame.trans hkind
  refine ⟨honce.1, honce.2, ?_, ?_, ?_, ?_, ?_⟩
  · intro ev hev hh hcl
    have hnote : noteOf ev ∈ (life (desk s')).notes :=
      Multiset.mem_coe.mpr (mem_map.mpr ⟨ev, hev, rfl⟩)
    have href := hhist'.refused a ha' hkind' (noteOf ev) hnote hh
    cases hk : ev.kind with
    | failed =>
      rw [hk] at hcl
      exact .inl ⟨rfl, by simpa [closes] using hcl⟩
    | deadLettered | dropped =>
      have hburied : burial (noteOf ev).kind (noteOf ev).status = true := by rw [noteOf, hk]; rfl
      exact .inr (hk ▸ href hburied)
    | _ =>
      rw [hk] at hcl
      cases hcl
  · intro hopen
    have hbal := hinv'.balance a ha'
    have hclose : closings true (life (desk s')).notes a.1 = 0 :=
      (closings_evs _ _ _).trans hopen
    rw [hkind', hclose] at hbal
    have hpos : 0 < (life (desk s')).debts a.1 := by omega
    obtain ⟨x, hx, hh, how⟩ := Multiset.countP_pos.mp hpos
    exact ⟨x, hx, hh, not_buried_of_owing how⟩
  · have hb := hhist'.bounded a.1
    rw [show (life (desk s')).notes = ↑((decided s').map noteOf) from rfl, ends_evs] at hb
    simpa [life, desk] using hb
  · intro hstop
    have hdoomed := doomed_of_stop hinv (Multiset.mem_coe.mpr ha) hserv hstop
    have hcount := (doomed_forever hinv hdoomed hsteps).2
    simpa [life, desk] using hcount
  · intro s₁ s₂ ks hok hstep hks
    exact (cancelled_starts hs hok hstep hks).1

/-- A service instance that ended one run and was cancelled before the next is closed by
the cancellation. -/
theorem always_up_closed_once_sample :
    closingEvents true (sampled
      (sampleStart true 600 ++ (sampleBegin ++ sampleReport ++ sampleAccount) ++
        ([.cancel 1, .callEmit [sampleEv .failed .cancelled 1], .callEmit []] ++ sampleEnd))).log 1
      = 1 := by
  have hs : Reachable (sampled
      (sampleStart true 600 ++ (sampleBegin ++ sampleReport ++ sampleAccount))) :=
    reachable_ranTo (by decide +kernel)
  have hrun : run (sampled
      (sampleStart true 600 ++ (sampleBegin ++ sampleReport ++ sampleAccount)))
      ([.cancel 1, .callEmit [sampleEv .failed .cancelled 1], .callEmit []] ++ sampleEnd) =
      some _ := run_from_ranTo (by decide +kernel)
  exact (always_up_closed_once hs hrun (a := (1, 0)) (by decide +kernel) (by decide +kernel)
    (by decide +kernel)).2.1 (by decide +kernel)

/-- A cancel that was accepted is final, whatever happens later: no new attempt of the
handle starts, no retry, restart, dead letter or drop is decided for it, its item never
waits again, and the handle is closed by one FINISHED or FAILED/CANCELLED event. -/
theorem cancel_final (hs : Reachable s) {h : Handle} (hok : (gptpsCancel s.e h).2.1 = .ok)
    {s₁ : Sys} (hstep : step s (.cancel h) = some s₁) (hrun : run s₁ ls = some s') :
    s'.starts.count h = s₁.starts.count h ∧
      decisionEvents (decided s') h = decisionEvents (decided s₁) h ∧
      (∀ it ∈ s'.e.q .intake ++ s'.e.q .delayed, it.handle ≠ h) ∧
      ∃ r, (h, r) ∈ s.accepted ∧
        closingEvents (upType s.e.reg r) (decided s') h ≤ 1 ∧
        (∀ ev ∈ decided s', ev.handle = h → closes (upType s.e.reg r) ev.kind ev.status = true →
          ev.kind = .finished ∨ ev.kind = .failed ∧ ev.status = .cancelled) ∧
        (s'.shut = .returned → closingEvents (upType s.e.reg r) s'.log h = 1) := by
  obtain ⟨hsys, hinv, hhist⟩ := reachable_life hs
  obtain ⟨hcount, hdec, hsil⟩ := cancelled_starts hs hok hstep hrun
  obtain ⟨-, x, hx, hxh, hxl⟩ := cancel_silenced hsys hinv hok hstep
  have hbury := not_buried_of_live hxl
  obtain ⟨r, hr⟩ := Option.isSome_iff_exists.mp ((hinv.items x hx).typed hbury)
  have hacc : (h, r) ∈ s.accepted := Multiset.mem_coe.mp (hxh ▸ hinv.typed x hx r hr)
  have hwhole : run s (.cancel h :: ls) = some s' := by
    rw [run, hstep]
    exact hrun
  have honce := closed_once hs hwhole hacc
  have hnone : burials (life (desk s')).notes h = 0 := by
    have hdec' : decisions (life (desk s')).notes h = decisions (life (desk s)).notes h := by
      have hcan := cancel_decided hok hstep h
      rw [← decisions_evs, ← decisions_evs] at hcan hdec
      exact hdec.trans hcan
    rw [burials_eq (steps_notes_le (later_life hs hwhole).1) hdec', ← hxh]
    exact hhist.unburied x hx hbury
  refine ⟨hcount, hdec, ?_, r, hacc, honce.1, ?_, honce.2⟩
  · intro it hit hh
    have hnot {q : QId} (hq : it ∈ s'.e.q q) : (Place.queue q).waiting = false :=
      (hsil.items (located (.queue q) it) (mem_items.mpr (.inl ⟨q, it, hq, rfl⟩)) hh).1
    rcases mem_append.mp hit with hq | hq
    · cases hnot hq
    · cases hnot hq
  · intro ev hev hh hcl
    have hnot : ¬ burial ev.kind ev.status = true := by
      intro hb
      have hnote : noteOf ev ∈ (life (desk s')).notes :=
        Multiset.mem_coe.mpr (mem_map.mpr ⟨ev, hev, rfl⟩)
      exact Multiset.countP_eq_zero.mp hnone (noteOf ev) hnote ⟨hh, hb⟩
    cases hk : ev.kind with
    | finished => exact .inl rfl
    | failed =>
      rw [hk] at hcl
      exact .inr ⟨rfl, by simpa [closes] using hcl⟩
    | deadLettered | dropped =>
      rw [hk] at hnot
      exact absurd rfl hnot
    | _ =>
      rw [hk] at hcl
      cases hcl

/-- A running item is cancelled, and runs to the end of its attempt and no more. -/
theorem cancel_final_sample :
    (sampled (sampleStart false 600 ++ sampleBegin ++ [.cancel 1] ++
        (sampleReport ++ sampleAccount ++ sampleEnd))).starts.count 1 =
      (sampled
        (sampleStart false 600 ++ sampleBegin ++ [.cancel 1])).starts.count 1 := by
  have hs : Reachable (sampled (sampleStart false 600 ++ sampleBegin)) :=
    reachable_ranTo (by decide +kernel)
  have hstep : step (sampled (sampleStart false 600 ++ sampleBegin))
      (.cancel 1) = some _ := step_from_ranTo (by decide +kernel)
  have hrun : run (sampled (sampleStart false 600 ++ sampleBegin ++ [.cancel 1]))
      (sampleReport ++ sampleAccount ++ sampleEnd) = some _ := run_from_ranTo (by decide +kernel)
  exact (cancel_final hs (by decide +kernel) hstep hrun).1

end Contract

end Gptps.HandleEvents
