import Gptps.EngineBudget
import Gptps.PassOrigins
import Gptps.PassRest
import Gptps.RetryOrder

/-!
# Retries that are due keep their place

A retry without backoff is due in the pass that decides it, but only the next pass may promote it, since its
RETRIED has to be out first. The pass tallies such retries and admits work below the best of them only where
it fits beside all of them. The next pass promotes every one that was not ended meanwhile before it admits
anything.
-/

namespace Gptps.HeldRetries

open Function EngineState EngineStore EnginePass EngineApi EngineSystem ItemLife DeskStore EngineDesk
  List
open ApiDesk PassDesk PassRetries PassStages PassRest SystemDesk SystemInvariant CallsCalm ItemOrigins
open EngineFrames HandleEvents RetryOrder EngineBudget PassOrigins

variable {e : Engine}

section Tallies

/-- The retries among these that are due already. -/
def dueAmong (now : ℕ) (l : List Item) : List Item := l.filter fun it => it.notBeforeMs ≤ now

/-- The tallies of a pass are those of its retries that are due already. -/
structure Tally (now : ℕ) (ps : PassState) (l : List Item) : Prop where
  /-- Their number. -/
  held : ps.held = (dueAmong now l).length
  /-- Their memory, up to the largest number. -/
  mem : ps.heldMem = min ((dueAmong now l).map fun it => it.costMem.toNat).sum (2 ^ 64 - 1)
  /-- The score is one of theirs. -/
  reached : ps.held ≠ 0 → ∃ x ∈ dueAmong now l, x.schedScore = ps.heldScore
  /-- None of theirs is higher. -/
  top : ∀ x ∈ dueAmong now l, x.schedScore ≤ ps.heldScore

variable {now : ℕ} {ps : PassState} {l : List Item}

/-- One more retry is parked. -/
theorem Tally.park (h : Tally now ps l) (it : Item) : Tally now (parkOne now ps it) (l ++ [it]) := by
  unfold parkOne
  by_cases hdue : it.notBeforeMs ≤ now
  · have hmore : dueAmong now (l ++ [it]) = dueAmong now l ++ [it] := by
      unfold dueAmong
      rw [filter_append, filter_singleton, decide_eq_true hdue]
      rfl
    rw [if_pos hdue]
    refine ⟨?_, ?_, ?_, ?_⟩
    · rw [hmore, length_append, ← h.held]
      rfl
    · have hmem := h.mem
      rw [hmore, map_append, sum_append, map_singleton, sum_singleton]
      dsimp only
      omega
    · intro _
      rw [hmore]
      by_cases hnew : ps.held = 0 ∨ ps.heldScore < it.schedScore
      · rw [if_pos hnew]
        exact ⟨it, mem_append_right _ mem_cons_self, rfl⟩
      · rw [if_neg hnew]
        obtain ⟨x, hx, hscore⟩ := h.reached fun hzero => hnew (.inl hzero)
        exact ⟨x, mem_append_left _ hx, hscore⟩
    · intro x hx
      rw [hmore] at hx
      rcases mem_append.mp hx with hx | hx
      · have hle := h.top x hx
        split_ifs with hnew
        · rcases hnew with hzero | hlt
          · rw [h.held, length_eq_zero_iff] at hzero
            rw [hzero] at hx
            exact absurd hx not_mem_nil
          · exact Int.le_trans hle (Int.le_of_lt hlt)
        · exact hle
      · rw [mem_singleton.mp hx]
        split_ifs with hnew
        · exact Int.le_refl _
        · exact Int.not_lt.mp fun hlt => hnew (.inr hlt)
  · have hsame : dueAmong now (l ++ [it]) = dueAmong now l := by
      unfold dueAmong
      rw [filter_append, filter_singleton, decide_eq_false hdue]
      exact append_nil _
    rw [if_neg hdue]
    refine ⟨?_, ?_, ?_, ?_⟩
    · rw [hsame]
      exact h.held
    · rw [hsame]
      exact h.mem
    · rw [hsame]
      exact h.reached
    · rw [hsame]
      exact h.top

/-- All of them. -/
theorem Tally.parked (k : List Item) (h : Tally now ps l) :
    Tally now (k.foldl (parkOne now) ps) (l ++ k) := by
  induction k generalizing ps l with
  | nil =>
    rw [append_nil]
    exact h
  | cons it k ih =>
    have hnext := ih (h.park it)
    rw [append_assoc] at hnext
    exact hnext

end Tallies

section Carried

/-- The tallies are the same. -/
structure Carried (ps ps' : PassState) : Prop where
  /-- The number of retries. -/
  held : ps'.held = ps.held
  /-- Their memory. -/
  mem : ps'.heldMem = ps.heldMem
  /-- Their best score. -/
  score : ps'.heldScore = ps.heldScore

namespace Carried

variable {ps ps' ps'' : PassState}

theorem refl (ps : PassState) : Carried ps ps := ⟨rfl, rfl, rfl⟩

theorem trans (h : Carried ps ps') (h' : Carried ps' ps'') : Carried ps ps'' :=
  ⟨h'.held.trans h.held, h'.mem.trans h.mem, h'.score.trans h.score⟩

end Carried

variable {inp : PassIn} {ps ps' : PassState}

/-- Step 3b ends waiting items. -/
theorem drainWaiting_carried (fuel : ℕ) (ps : PassState) : Carried ps (drainWaiting fuel ps) := by
  refine drainWaiting_rule (M := Carried ps) ?_ fuel (.refl _)
  intro ps₁ q it e₁ hps _ _
  unfold endWaiting
  dsimp only
  split_ifs <;> exact hps.trans ⟨rfl, rfl, rfl⟩

/-- Steps 3 and 3b. -/
theorem settle_carried (inp : PassIn) (e : Engine) : Carried (passParked inp e) (passSettle inp e) := by
  rw [passSettle_eq]
  have hdeadlines : Carried (passParked inp e) (enforceDeadlines inp.now (passParked inp e)) :=
    ⟨rfl, rfl, rfl⟩
  unfold boundDrain
  split_ifs
  · exact (hdeadlines.trans (drainWaiting_carried _ _)).trans ⟨rfl, rfl, rfl⟩
  · exact hdeadlines.trans ⟨rfl, rfl, rfl⟩
  · exact hdeadlines

/-- Rescoring. -/
theorem rescore_carried (inp : PassIn) (ps : PassState) : Carried ps (rescore inp ps) := by
  unfold rescore
  split_ifs <;> exact ⟨rfl, rfl, rfl⟩

/-- The loop. -/
theorem visits_carried (h : Visits inp ps ps') : Carried ps ps' ∧ Fixed ps.e ps'.e := by
  induction h with
  | here => exact ⟨.refl _, .refl _⟩
  | @next ps₁ ps₂ _ _ _ hgo ih =>
    have hround : Carried ps₁ ps₂ := by cases hgo <;> exact ⟨rfl, rfl, rfl⟩
    exact ⟨ih.1.trans hround, ih.2.trans (round_fixed hgo)⟩

/-- What is delayed stays so in the loop. -/
theorem visits_delayed (h : Visits inp ps ps') : ∀ x ∈ ps.e.q .delayed, x ∈ ps'.e.q .delayed := by
  induction h with
  | here => exact fun x hx => hx
  | next _ _ hgo ih =>
    intro x hx
    rcases (round_goes hgo).delayed with ⟨heq, -⟩ | ⟨it, n, -, heq, -⟩
    · rw [heq]
      exact ih x hx
    · rw [heq]
      exact mem_append_left _ (ih x hx)

end Carried

section Guard

variable {inp : PassIn} {ps : PassState} {it : Item}

/-- The subtractions of the test do not wrap. -/
structure NoWrap (e : Engine) (it : Item) : Prop where
  /-- The free slots. -/
  slots : e.running ≤ e.maxConcurrentTasks
  /-- The free memory. -/
  mem : e.reservedMem.toNat ≤ e.maxMemoryBytes.toNat
  /-- What the item leaves of it. -/
  cost : it.costMem.toNat ≤ (e.maxMemoryBytes - e.reservedMem).toNat
  /-- The result is the difference. -/
  headroom : (e.maxMemoryBytes - e.reservedMem - it.costMem).toNat =
    e.maxMemoryBytes.toNat - e.reservedMem.toNat - it.costMem.toNat

/-- An item that fits makes the test exact. -/
theorem noWrap_of_fits (hfree : e.running < e.maxConcurrentTasks) (hfits : fitsNow e it.toCore = true)
    (hsum : e.reservedMem.toNat + it.costMem.toNat < 2 ^ 64) : NoWrap e it := by
  unfold fitsNow at hfits
  rw [Bool.and_eq_true, decide_eq_true_eq] at hfits
  have hle := fits_toNat hfits.1 hsum
  have hmem : e.reservedMem.toNat ≤ e.maxMemoryBytes.toNat := by omega
  have hsub : (e.maxMemoryBytes - e.reservedMem).toNat = e.maxMemoryBytes.toNat - e.reservedMem.toNat :=
    UInt64.toNat_sub_of_le _ _ (UInt64.le_iff_toNat_le.mpr hmem)
  have hcost : it.costMem.toNat ≤ (e.maxMemoryBytes - e.reservedMem).toNat := by omega
  refine ⟨hfree.le, hmem, hcost, ?_⟩
  rw [UInt64.toNat_sub_of_le _ _ (UInt64.le_iff_toNat_le.mpr hcost), hsub]

/-- An item below the retries that is let through fits beside all of them. -/
theorem room_beside (h : heldBack ps it = false) (hheld : ps.held ≠ 0)
    (hscore : it.schedScore < ps.heldScore) (hwrap : NoWrap ps.e it) :
    ps.e.manual = false ∧ ps.e.running + 1 + ps.held ≤ ps.e.maxConcurrentTasks ∧
      ps.e.reservedMem.toNat + it.costMem.toNat + ps.heldMem ≤ ps.e.maxMemoryBytes.toNat := by
  obtain ⟨hslots, hmem, hcost, hroom⟩ := hwrap
  unfold heldBack at h
  rw [decide_eq_true hheld, decide_eq_true hscore, Bool.true_and, Bool.true_and, Bool.or_eq_false_iff,
    Bool.or_eq_false_iff, decide_eq_false_iff_not, decide_eq_false_iff_not] at h
  obtain ⟨⟨hmanual, hfree⟩, hleft⟩ := h
  have hsub : (ps.e.maxMemoryBytes - ps.e.reservedMem).toNat =
      ps.e.maxMemoryBytes.toNat - ps.e.reservedMem.toNat :=
    UInt64.toNat_sub_of_le _ _ (UInt64.le_iff_toNat_le.mpr hmem)
  refine ⟨hmanual, ?_, ?_⟩
  · omega
  · omega

/-- The memory a round reserves is that of the item found. -/
theorem round_reserved {ps' : PassState} {top : Item} (h : Round inp ps top (ps', true)) :
    ps'.e.reservedMem = ps.e.reservedMem ∨ ∃ it, scanIntake ps.e (ps.e.q .intake) = .best it ∧
      ps'.e.reservedMem = ps.e.reservedMem + it.costMem := by
  have hbury : ∀ e x, (deadLetterPush e x).reservedMem = e.reservedMem := fun e x => by
    rw [(deadLetterPush_kept e x).rest]
  cases h with
  | strand | deny => exact .inl (hbury _ _)
  | defer => exact .inl rfl
  | @admission it snap n hscan =>
    refine .inr ⟨it, hscan, ?_⟩
    unfold admitItem
    split_ifs <;> rfl

/-- No sum of the loop wraps when the budget and the highest cost together do not. -/
theorem visits_sums {c : ℕ} {ps' : PassState} (hcost : ∀ x ∈ ps.e.q .intake, x.costMem.toNat ≤ c)
    (hin : ps.e.reservedMem.toNat ≤ ps.e.maxMemoryBytes.toNat)
    (hsum : ps.e.maxMemoryBytes.toNat + c < 2 ^ 64) (h : Visits inp ps ps') :
    ∀ x ∈ ps'.e.q .intake, ps'.e.reservedMem.toNat + x.costMem.toNat < 2 ^ 64 := by
  have hall : (∀ x ∈ ps'.e.q .intake, x.costMem.toNat ≤ c) ∧
      ps'.e.reservedMem.toNat ≤ ps.e.maxMemoryBytes.toNat := by
    induction h with
    | here => exact ⟨hcost, hin⟩
    | next hvisits hat hgo ih =>
      rename_i ps₁ ps₂ top
      refine ⟨?_, ?_⟩
      · intro y hy
        cases round_brings hgo .intake (by decide) y hy with
        | stay hy => exact ih.1 y hy
        | @charge x hx =>
          unfold chargeSkip
          split_ifs <;> exact ih.1 x hx
      · rcases round_reserved hgo with heq | ⟨it, hscan, heq⟩
        · rw [heq]
          exact ih.2
        · have hbelow := ih.1 it (scanIntake_mem hscan)
          have hmax : ps₁.e.maxMemoryBytes = ps.e.maxMemoryBytes := by
            have hfixed := (visits_carried hvisits).2
            rw [hfixed]
          have hwrap := noWrap_of_fits hat.free (scanIntake_fits hscan)
            (lt_of_le_of_lt (Nat.add_le_add ih.2 hbelow) hsum)
          have hmem := hwrap.mem
          have hleft := hwrap.cost
          rw [UInt64.toNat_sub_of_le _ _ (UInt64.le_iff_toNat_le.mpr hmem), hmax] at hleft
          rw [heq, UInt64.toNat_add, Nat.mod_eq_of_lt (by omega)]
          omega
  intro x hx
  exact lt_of_le_of_lt (Nat.add_le_add hall.2 (hall.1 x hx)) hsum

end Guard

section Between

variable {s s' : Sys} {x : Item} {ls : List Label}

/-- Whether a step may end a waiting item with this handle: a pass, its cancel, the removal of a type, or the
shutdown. -/
def mayEnd (h : Handle) : Label → Bool
  | .pass _ => true
  | .cancel n => n = h
  | .unregister .. => true
  | .shutdownBegin _ => true
  | .shutdownCollect => true
  | _ => false

/-- A cancel of another handle leaves a delayed item where it is. -/
theorem cancel_delayed (hs : SysInv s) {n : Handle} (hne : n ≠ x.handle) (hx : x ∈ s.e.q .delayed) :
    x ∈ (gptpsCancel s.e n).1.q .delayed := by
  have hupd : ∀ q p, q ≠ QId.delayed → x ∈ (updItem s.e q p stopItem).q .delayed := by
    intro q p hq
    simp only [updItem, mapQueue, update_of_ne hq.symm]
    exact hx
  have hcases := gptpsCancel_cancels s.e n
  generalize gptpsCancel s.e n = r at hcases ⊢
  cases hcases with
  | refused => exact hx
  | stop _ _ hq => exact hupd _ _ (by rcases hq with rfl | rfl | rfl <;> decide)
  | intake =>
    rw [(itemDrop_kept _ _).q _ (by decide), unlink_others _ _ (by decide)]
    exact hx
  | @delayed it hfind =>
    rw [(itemDrop_kept _ _).q _ (by decide)]
    refine mem_eraseP hx fun hptr => ?_
    -- the item found at that address is the one with the handle
    obtain ⟨q, hq, y, hy, hyh, hyp⟩ := (hidxFind_live hs n it.ptr).mp hfind
    have hwx := hs.desk.store.layout.queued .delayed x.ptr (mem_map.mpr ⟨x, hx, rfl⟩)
    have hwy := hs.desk.store.layout.queued q y.ptr (mem_map.mpr ⟨y, hy, rfl⟩)
    rw [hyp, ← hptr, hwx] at hwy
    cases hwy
    have heq : y = x := inj_on_of_nodup_map (queue_nodup hs.desk .delayed) hy hx
      (hyp.trans hptr.symm)
    exact hne (hyh.symm.trans (congrArg (fun z : Item => z.handle) heq))

/-- Submits do not touch what is delayed. -/
theorem submitInternal_delayed (e : Engine) (p : Ptr) (args : SubmitArgs) :
    (submitInternal e p args).1.q .delayed = e.q .delayed := by
  have hgrow := hidxReserve_kept e args.indexOk
  have hcases := submitInternal_submission e p args
  generalize submitInternal e p args = r at hcases ⊢
  cases hcases with
  | refused hgrown =>
    rcases hgrown with rfl | rfl
    · exact (itemFree_kept _ _).q _ (by decide)
    · exact (hgrow.trans (itemFree_kept _ _)).q _ (by decide)
  | accepted _ hres =>
    rw [hres] at hgrow
    rw [(hidxPut_kept _ _).q _ (by decide)]
    exact hgrow.q _ (by decide)

/-- Nor does taking a ready item. -/
theorem takeReady_delayed {now : ℕ} {e₁ : Engine} {it : Item} (h : takeReady now e = some (e₁, it)) :
    e₁.q .delayed = e.q .delayed := by
  obtain ⟨e₂, hpop, htaken⟩ := takeReady_some h
  obtain ⟨rest, -, hq⟩ := fifoPop_q hpop
  rcases htaken with ⟨-, rfl⟩ | ⟨-, rfl⟩
  · simp [fifoPush, hq]
  · simp [fifoPush, hq]

/-- A delayed item stays where it is until a step that may end it. -/
theorem step_delayed (hs : Reachable s) {l : Label} (hl : mayEnd x.handle l = false)
    (hx : x ∈ s.e.q .delayed) (hstep : step s l = some s') : x ∈ s'.e.q .delayed := by
  have hkept : ∀ {e : Engine}, KeptLive s.e e → x ∈ e.q .delayed := fun hk => hk.q .delayed (by decide) ▸ hx
  have heffect := step_effect hstep
  generalize s'.e = e at heffect ⊢
  cases heffect with
  | pass | unregister | halt | collect => cases hl
  | idle | attempt | post | memory => exact hx
  | take h => exact takeReady_delayed h ▸ hx
  | sealing h =>
    unfold boundedSeal at h
    split_ifs at h <;> cases h <;> exact hx
  | pool h => exact hkept (poolTake_kept _ _ h).toKeptLive
  | submit => exact submitInternal_delayed s.e _ _ ▸ hx
  | cancel => exact cancel_delayed (reachable_inv hs) (of_decide_eq_false hl) hx
  | remove =>
    unfold unregisterEnd
    dsimp only
    split_ifs <;> exact hx
  | free => exact hkept (itemFree_kept _ _).toKeptLive
  | drain => exact hkept (deadLetterTake_kept _ _ _ (s.e, []))
  | enrol h =>
    rw [h]
    exact hx
  | @setting y => cases y <;> exact hx
  | gone =>
    rw [shutdownFree_q, update_of_ne (by decide)]
    exact hx

/-- Nor until several such steps. -/
theorem run_delayed (hs : Reachable s) (hl : ∀ l ∈ ls, mayEnd x.handle l = false)
    (hx : x ∈ s.e.q .delayed) (hrun : run s ls = some s') : x ∈ s'.e.q .delayed :=
  run_kept (P := fun s => x ∈ s.e.q .delayed) (fun _ _ _ hs hl hx => step_delayed hs hl hx) hs hl hx hrun

/-- The item is delayed unless it was ended. -/
structure Waits (x : Item) (s : Sys) : Prop where
  /-- Its handle was given out. -/
  given : x.handle < s.e.nextHandle
  /-- A live item with the handle is delayed, and due when it was. -/
  live : ∀ q ≠ QId.dead, ∀ y ∈ s.e.q q, y.handle = x.handle → q = .delayed ∧ y.notBeforeMs = x.notBeforeMs

/-- It stays so between passes. -/
theorem Waits.step (h : Waits x s) (hs : Reachable s) {l : Label} (hl : isPass l = false)
    (hstep : EngineSystem.step s l = some s') : Waits x s' := by
  refine ⟨lt_of_lt_of_le h.given (next_step hs hstep), fun q hq y hy hh => ?_⟩
  rcases step_older hs hl hstep q hq y hy with ⟨q', hq', z, hz, hlead, hyz, hst⟩ | ⟨-, hfresh⟩
  · obtain ⟨rfl, hdue⟩ := h.live q' hq' z hz (hyz.symm.trans hh)
    exact ⟨hlead.of_waiting (.inl rfl), hst.notBefore.trans hdue⟩
  · exact absurd (hh.symm.trans hfresh.handle) (ne_of_lt h.given)

theorem Waits.run (h : Waits x s) (hs : Reachable s) (hl : ∀ l ∈ ls, isPass l = false)
    (hrun : EngineSystem.run s ls = some s') : Waits x s' :=
  run_kept (fun _ _ _ hs hl h => h.step hs hl) hs hl h hrun

/-- A delayed item waits. -/
theorem waits_of_delayed (hs : Reachable s) (hx : x ∈ s.e.q .delayed) : Waits x s := by
  obtain ⟨-, hi, -⟩ := reachable_life hs
  refine ⟨?_, fun q hq y hy hh => ?_⟩
  · exact hi.given _ (located_mem hx)
  · obtain ⟨rfl, -⟩ := same_place hi hy hx hh
    exact ⟨rfl, by rw [same_item hi hy hx hh]⟩

end Between

section Passes

variable {s s₁ s₂ : Sys} {inp inp' : PassIn} {x : Item}

/-- The scan of step 2 in a reachable state. -/
theorem promoted_reachable (hs : Reachable s) (inp : PassIn) :
    Promoted inp.now (passDrained inp s.e) (passPromoted inp s.e) ((passDrained inp s.e).e.q .delayed) :=
  promoted_spec (d := desk s) (reachable_inv hs).desk rfl rfl

/-- Before step 2b nothing is tallied. -/
theorem promoted_clear (hs : Reachable s) (inp : PassIn) : (passPromoted inp s.e).held = 0 ∧
    (passPromoted inp s.e).heldMem = 0 := by
  obtain ⟨hframe, -⟩ := drainDone_frame inp.now (s.e.q .done).length (passStart s.e)
  have hrest := (promoted_reachable hs inp).rest
  constructor
  · rw [hrest]
    exact congrArg PassState.held hframe
  · rw [hrest]
    exact congrArg PassState.heldMem hframe

/-- The tallies the admission loop works with. -/
theorem scored_tally (hs : Reachable s) (inp : PassIn) :
    Tally inp.now (passScored inp s.e) (passPromoted inp s.e).announced := by
  obtain ⟨hheld, hmem⟩ := promoted_clear hs inp
  have hbase : Tally inp.now { passPromoted inp s.e with announced := [] } [] := by
    refine ⟨hheld, ?_, fun hne => absurd hheld hne, fun x hx => absurd hx not_mem_nil⟩
    show (passPromoted inp s.e).heldMem = _
    rw [hmem]
    rfl
  have htally : Tally inp.now (passParked inp s.e) (passPromoted inp s.e).announced :=
    hbase.parked (passPromoted inp s.e).announced
  obtain ⟨hh, hm, hsc⟩ := (settle_carried inp s.e).trans (rescore_carried inp (passSettle inp s.e))
  refine ⟨hh.trans htally.held, hm.trans htally.mem, ?_, ?_⟩
  · intro hne
    obtain ⟨x, hx, hxs⟩ := htally.reached fun hzero => hne (hh.trans hzero)
    exact ⟨x, hx, hxs.trans hsc.symm⟩
  · intro x hx
    exact Int.le_trans (htally.top x hx) (Int.le_of_eq hsc.symm)

/-- Before the grace is over, step 3b changes nothing. -/
theorem boundDrain_before {now : ℕ} {ps : PassState} (h : (boundDrain now ps).pastGrace = false) :
    (boundDrain now ps).e = ps.e := by
  unfold boundDrain at h ⊢
  split_ifs with hstop hpast
  · rw [if_pos hstop, if_pos hpast] at h
    cases h
  · rfl
  · rfl

/-- Unless the grace is over, the retries of a pass are delayed at its end. -/
theorem announced_delayed (hgrace : (passSettle inp s.e).pastGrace = false)
    (hx : x ∈ (passPromoted inp s.e).announced) : x ∈ (enginePass inp s.e).e.q .delayed := by
  have hparked : x ∈ (passParked inp s.e).e.q .delayed := by
    unfold passParked
    rw [park_queues, update_self]
    exact mem_append_right _ hx
  have hsettled : x ∈ (passSettle inp s.e).e.q .delayed := by
    rw [passSettle_eq] at hgrace ⊢
    rw [boundDrain_before hgrace]
    exact hparked
  have hscored : x ∈ (passScored inp s.e).e.q .delayed := by
    unfold passScored
    rw [rescore_queues inp _ (by decide)]
    exact hsettled
  obtain ⟨ps, hvisits, hq⟩ := pass_visits inp s.e
  rw [hq .delayed (by decide)]
  exact visits_delayed hvisits x hscored

/-- Step 1 only adds to what is delayed. -/
theorem drainDone_delayed (now fuel : ℕ) (ps : PassState) (hx : x ∈ ps.e.q .delayed) :
    x ∈ (drainDone now fuel ps).e.q .delayed := by
  refine drainDone_decides (M := fun ps' => x ∈ ps'.e.q .delayed) ?_ fuel hx
  intro ps₁ it e₁ ps' hx hpop hd
  obtain ⟨rest, -, hq⟩ := fifoPop_q hpop
  have hfree : x ∈ (release e₁ it.toCore).q .delayed := by
    show x ∈ e₁.q .delayed
    rw [hq, update_of_ne (by decide)]
    exact hx
  cases hd with
  | again =>
    exact mem_append_left _ hfree
  | drop y =>
    rw [(itemDrop_kept _ y).q .delayed (by decide)]
    exact hfree
  | bury y =>
    rw [(deadLetterPush_kept _ y).q .delayed (by decide)]
    exact hfree
  | retry => exact hfree

/-- What is due at the beginning of a pass is in intake after its step 2. -/
theorem due_promoted (hs : Reachable s) (inp : PassIn) (hx : x ∈ s.e.q .delayed) (hdue :
    x.notBeforeMs ≤ inp.now) :
    ∃ z ∈ (passPromoted inp s.e).e.q .intake, z.handle = x.handle := by
  have hdrained : x ∈ (passDrained inp s.e).e.q .delayed :=
    drainDone_delayed inp.now (s.e.q .done).length (passStart s.e) hx
  obtain ⟨n, hn⟩ := (promoted_reachable hs inp).due x hdrained hdue
  exact ⟨_, hn, rfl⟩

/-- Retries that are due keep their place. A pass that decided such retries admits an item scoring below the
best of them only if slots and memory for all of them are left, and none in MANUAL mode; the test it makes
does not wrap; and the next pass promotes each of them that was not ended meanwhile before it admits
anything. -/
theorem held_retries_keep_place {ls : List Label} (hs : Reachable s)
    (hsums : ∀ ps, Visits inp (passScored inp s.e) ps → ∀ x ∈ ps.e.q .intake,
      ps.e.reservedMem.toNat + x.costMem.toNat < 2 ^ 64)
    (hpass : step s (.pass inp) = some s₁) (hrun : run s₁ ls = some s₂)
    (hbetween : ∀ l ∈ ls, isPass l = false) (hclock : inp.now ≤ inp'.now) :
    Tally inp.now (passScored inp s.e) (passPromoted inp s.e).announced ∧
    (∀ ps top it, Visits inp (passScored inp s.e) ps → AtItem ps top →
      scanIntake ps.e (ps.e.q .intake) = .best it → NoWrap ps.e it) ∧
    (∀ a ∈ (enginePass inp s.e).admissions, (passScored inp s.e).held ≠ 0 →
      a.best.schedScore < (passScored inp s.e).heldScore → s.e.manual = false ∧
        a.before.running + 1 + (passScored inp s.e).held ≤ s.e.maxConcurrentTasks ∧
        a.before.reservedMem.toNat + a.best.costMem.toNat + (passScored inp s.e).heldMem ≤
          s.e.maxMemoryBytes.toNat) ∧
    ∀ x ∈ dueAmong inp.now (passPromoted inp s.e).announced,
      ((passSettle inp s.e).pastGrace = false → x ∈ s₁.e.q .delayed) ∧
      (x ∈ s₁.e.q .delayed →
        ((∀ l ∈ ls, mayEnd x.handle l = false) → ∃ y ∈ s₂.e.q .delayed, y.handle = x.handle) ∧
        ((∃ q ≠ QId.dead, ∃ y ∈ s₂.e.q q, y.handle = x.handle) →
          (∃ z ∈ (passPromoted inp' s₂.e).e.q .intake, z.handle = x.handle) ∧
            (passPromoted inp' s₂.e).admissions = [])) := by
  have htally := scored_tally hs inp
  have hwrap : ∀ ps top it, Visits inp (passScored inp s.e) ps → AtItem ps top →
      scanIntake ps.e (ps.e.q .intake) = .best it → NoWrap ps.e it := fun ps top it hvisits hat hscan =>
    noWrap_of_fits hat.free (scanIntake_fits hscan) (hsums ps hvisits it (scanIntake_mem hscan))
  refine ⟨htally, hwrap, ?_, ?_⟩
  · intro a ha hheld hscore
    obtain ⟨ps, hvisits, hadm⟩ := pass_admits ha
    obtain ⟨⟨hh, hm, hsc⟩, hf⟩ := visits_carried hvisits
    have hroom := room_beside hadm.held (hh ▸ hheld) (hsc ▸ hscore)
      (hwrap ps a.top a.best hvisits hadm.place hadm.scan)
    have hall : Fixed s.e ps.e := (scored_settling inp s.e).fixed.trans hf
    have hmanual : ps.e.manual = s.e.manual := by rw [hall]
    have hslots : ps.e.maxConcurrentTasks = s.e.maxConcurrentTasks := by rw [hall]
    have hbytes : ps.e.maxMemoryBytes = s.e.maxMemoryBytes := by rw [hall]
    rw [hh, hm, hmanual, hslots, hbytes] at hroom
    rw [hadm.before]
    exact hroom
  · intro x hx
    obtain ⟨hann, hdue⟩ := mem_filter.mp hx
    have hq := (step_passes hpass).queues
    have hs₁ := reachable_step hs hpass
    have hs₂ := reachable_run hs₁ hrun
    refine ⟨fun hgrace => ?_, fun hdelayed => ⟨fun hends => ?_, fun hlive => ?_⟩⟩
    · rw [hq]
      exact announced_delayed hgrace hann
    · exact ⟨x, run_delayed hs₁ hends hdelayed hrun, rfl⟩
    · have hwaits := (waits_of_delayed hs₁ hdelayed).run hs₁ hbetween hrun
      obtain ⟨q, hqd, y, hy, hyh⟩ := hlive
      obtain ⟨rfl, hyn⟩ := hwaits.live q hqd y hy hyh
      have hydue : y.notBeforeMs ≤ inp'.now := by
        rw [hyn]
        exact le_trans (of_decide_eq_true hdue) hclock
      obtain ⟨z, hz, hzh⟩ := due_promoted hs₂ inp' hy hydue
      exact ⟨⟨z, hz, hzh.trans hyh⟩, (promoted_settling inp' s₂.e).none⟩

/-- A retry without backoff, and a submit of lower priority. -/
def heldRun : List Label :=
  retryBefore ++ [.submitCommit 7 retrySubmit, .submitTake 8 0,
    .submitCommit 8 { retrySubmit with priority := some (-1) }, .pass (samplePass 10)] ++
    sampleAttempt 7 .timeout

/-- The retry is delayed until the next pass, which promotes it first; the other submit waits meanwhile. -/
theorem held_retries_keep_place_sample :
    ((dueAmong 13 (passPromoted (samplePass 13) (sampled heldRun).e).announced).map
      (·.handle) = [1]) ∧
    ((passScored (samplePass 13) (sampled heldRun).e).e.q .intake).map (·.handle) = [2] ∧
    (enginePass (samplePass 13) (sampled heldRun).e).admissions.length = 0 ∧
    ∃ z ∈ (passPromoted (samplePass 14) (sampled
      (heldRun ++ [.pass (samplePass 13), .emit])).e).e.q .intake, z.handle = 1 := by
  have hdue : (dueAmong 13 (passPromoted (samplePass 13)
      (sampled heldRun).e).announced).map (·.handle) = [1] := by decide +kernel
  refine ⟨hdue, by decide +kernel, by decide +kernel, ?_⟩
  have hs : Reachable (sampled heldRun) := reachable_ranTo (by decide +kernel)
  have hpass : step (sampled heldRun) (.pass (samplePass 13)) = some _ :=
    step_from_ranTo (by decide +kernel)
  have hrun : run (sampled (heldRun ++ [.pass (samplePass 13)])) [.emit] = some _ :=
    run_from_ranTo (by decide +kernel)
  have hcost : ∀ x ∈ (passScored (samplePass 13) (sampled heldRun).e).e.q .intake,
      x.costMem.toNat ≤ 600 := by decide +kernel
  obtain ⟨x, hx, hxh⟩ : ∃ x ∈ dueAmong 13 (passPromoted (samplePass 13)
      (sampled heldRun).e).announced, x.handle = 1 := by
    refine mem_map.mp ?_
    exact mem_singleton_self 1
  obtain ⟨-, -, -, hplace⟩ := held_retries_keep_place hs
    (fun ps hvisits => visits_sums hcost (by decide +kernel) (by decide +kernel) hvisits) hpass hrun
    (by decide) (show (samplePass 13).now ≤ (samplePass 14).now by decide)
  obtain ⟨hstays, hnext⟩ := hplace x hx
  obtain ⟨hkept, hpromoted⟩ := hnext (hstays (by decide +kernel))
  obtain ⟨y, hy, hyh⟩ := hkept (by intro l hl; rw [mem_singleton.mp hl]; rfl)
  obtain ⟨⟨z, hz, hzh⟩, -⟩ := hpromoted ⟨.delayed, by decide, y, hy, hyh⟩
  refine ⟨z, ?_, hzh.trans hxh⟩
  exact hz

end Passes

end Gptps.HeldRetries
