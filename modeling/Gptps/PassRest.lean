import Gptps.SystemInvariant

/-!
# A pass that reports nothing to do

A pass without a scheduler hook that buffers no event, owes no further pass and names the instant `w` to wake
at has left nothing for a pass before `w` to do: such a pass changes nothing but the size of the handle
index, asks no hook and buffers no event. So the dispatcher may sleep until `w` or a signal.
-/

namespace Gptps.PassRest

open Function EngineState EngineStore EnginePass EngineApi EngineSystem ItemLife DeskStore EngineDesk
  List
open ApiDesk PassDesk PassStages SystemDesk SystemInvariant

/-- The shutdown grace is over and has been acted on. -/
structure Ended (now : ℕ) (e : Engine) : Prop where
  /-- The deadline has passed. -/
  past : e.stopDeadlineMs ≤ now
  /-- No item waits for a backoff. -/
  delayed : e.q .delayed = []
  /-- Nor for admission. -/
  intake : e.q .intake = []
  /-- No run of scores is remembered. -/
  runs : e.runs = []
  /-- Every running item was asked to stop. -/
  running : ∀ x ∈ e.q .running, x.cancelled = true ∧ x.cancel = true

/-- What steps 1 to 3b of a pass before the instant `w` find nothing to do with. -/
structure Rested (now w : ℕ) (e : Engine) : Prop where
  /-- Nothing is finished. -/
  done : e.q .done = []
  /-- What is delayed is not due before. -/
  delayed : ∀ x ∈ e.q .delayed, Wakes w x.notBeforeMs
  /-- A deadline has been enforced or does not pass before. -/
  running : ∀ x ∈ e.q .running, x.deadlineMs ≠ 0 →
    x.deadlineMs ≤ now ∧ x.cancel = true ∨ Wakes w x.deadlineMs
  /-- So has the shutdown grace. -/
  stop : e.stopping = true → e.stopDeadlineMs ≠ 0 → Wakes w e.stopDeadlineMs ∨ Ended now e

/-- Why the admission loop ends at once. -/
inductive Blocked (e : Engine) : Prop
  /-- Nothing is queued. -/
  | empty (h : e.q .intake = [])
  /-- No slot is free. -/
  | full (h : e.maxConcurrentTasks ≤ e.running)
  /-- Nothing fits. -/
  | unfit (h : scanIntake e (e.q .intake) = .nothing)
  /-- Room is kept for the first item. -/
  | reserved {top it : Item} {rest : List Item} (hq : e.q .intake = top :: rest)
      (hscan : scanIntake e (e.q .intake) = .best it) (hne : it.ptr ≠ top.ptr)
      (hskips : e.reserveAfterSkips ≤ top.skips)

section Second

variable {now w : ℕ} {e e' : Engine} {inp : PassIn}

/-- The handle index does not matter to the first steps of a pass. -/
theorem Rested.kept (h : Rested now w e) (hk : Kept e e') : Rested now w e' := by
  have hstopping : e'.stopping = e.stopping := by rw [hk.rest]
  have hdeadline : e'.stopDeadlineMs = e.stopDeadlineMs := by rw [hk.rest]
  refine ⟨?_, ?_, ?_, ?_⟩
  · rw [hk.q .done (by decide)]
    exact h.done
  · rw [hk.q .delayed (by decide)]
    exact h.delayed
  · rw [hk.q .running (by decide)]
    exact h.running
  · rw [hstopping, hdeadline]
    intro hstop hne
    refine (h.stop hstop hne).imp_right fun hend => ⟨?_, ?_, ?_, ?_, ?_⟩
    · rw [hdeadline]
      exact hend.past
    · rw [hk.q .delayed (by decide)]
      exact hend.delayed
    · rw [hk.q .intake (by decide)]
      exact hend.intake
    · rw [hk.runs]
      exact hend.runs
    · rw [hk.q .running (by decide)]
      exact hend.running

/-- The walk over intake reads the limits, the ledger and the task table alone. -/
theorem scanIntake_kept (hk : Kept e e') (l : List Item) : scanIntake e' l = scanIntake e l := by
  have hnever : ∀ c, resNeverFits e' c = resNeverFits e c := fun c => by rw [hk.rest]; rfl
  have hfits : ∀ c, fitsNow e' c = fitsNow e c := fun c => by rw [hk.rest]; rfl
  induction l with
  | nil => rfl
  | cons it l ih => rw [scanIntake, scanIntake, hnever, hfits, ih]

/-- Nor to the end of the admission loop. -/
theorem Blocked.kept (h : Blocked e) (hk : Kept e e') : Blocked e' := by
  have hq := hk.q .intake (by decide)
  cases h with
  | empty h => exact .empty (hq.trans h)
  | full h =>
    refine .full ?_
    rw [hk.rest]
    exact h
  | unfit h =>
    refine .unfit ?_
    rw [scanIntake_kept hk, hq]
    exact h
  | reserved htop hscan hne hskips =>
    refine .reserved (hq.trans htop) ?_ hne ?_
    · rw [scanIntake_kept hk, hq]
      exact hscan
    · rw [hk.rest]
      exact hskips

/-- Nothing is due before the instant woken at. -/
theorem not_due {t u : ℕ} (h : Wakes w u) (hw : w ≠ 0 → t < w) : t < u :=
  lt_of_lt_of_le (hw h.1) h.2

/-- A scan that finds nothing due changes the wake alone. -/
theorem promote_none (t : ℕ) (l : List Item) (ps : PassState) (h : ∀ x ∈ l, t < x.notBeforeMs) :
    ∃ v, l.foldl (promoteOne t) ps = { ps with nextWake := v } := by
  induction l generalizing ps with
  | nil => exact ⟨ps.nextWake, rfl⟩
  | cons it l ih =>
    have hone : promoteOne t ps it = { ps with nextWake := minNonzero ps.nextWake it.notBeforeMs } :=
      if_neg (Nat.not_le.mpr (h it mem_cons_self))
    rw [foldl_cons, hone]
    exact ih { ps with nextWake := minNonzero ps.nextWake it.notBeforeMs }
      fun x hx => h x (mem_cons_of_mem _ hx)

/-- Rewriting items by themselves changes nothing. -/
theorem mapQueue_fixed {q : QId} {f : Item → Item} (h : ∀ x ∈ e.q q, f x = x) : mapQueue e q f = e := by
  have hid : (e.q q).map f = e.q q := (map_congr_left h).trans (map_id _)
  unfold mapQueue
  rw [hid, update_eq_self]

/-- An item that was asked to stop is not changed by being asked again. -/
theorem stopItem_fixed {x : Item} (hcancelled : x.cancelled = true) (hcancel : x.cancel = true) :
    stopItem x = x := by
  cases x
  cases ‹Core›
  cases hcancelled
  cases hcancel
  rfl

/-- Steps 1 to 3b find nothing to do. -/
theorem settle_rested (hr : Rested now w e) (hw : w ≠ 0 → inp.now < w) :
    ∃ v g, passSettle inp e = { passStart e with nextWake := v, pastGrace := g } := by
  have hdrained : passDrained inp e = passStart e := by
    unfold passDrained
    rw [hr.done]
    show { passStart e with more := !(e.q .done).isEmpty } = passStart e
    rw [hr.done]
    rfl
  obtain ⟨v, hpromoted⟩ := promote_none inp.now (e.q .delayed) (passStart e)
    fun x hx => not_due (hr.delayed x hx) hw
  have hparked : passParked inp e = { passStart e with nextWake := v } := by
    unfold passParked passPromoted
    rw [hdrained]
    show ((e.q .delayed).foldl (promoteOne inp.now) (passStart e)).announced.foldl (parkOne inp.now)
      { (e.q .delayed).foldl (promoteOne inp.now) (passStart e) with announced := [] } = _
    rw [hpromoted]
    rfl
  have hdeadlines : ∀ x ∈ e.q .running, checkDeadline inp.now x = x := by
    intro x hx
    unfold checkDeadline
    split_ifs with hpast
    · rcases hr.running x hx hpast.1 with ⟨-, hcancel⟩ | hwake
      · rw [← hcancel]
      · exact absurd hpast.2 (Nat.not_le.mpr (not_due hwake hw))
    · rfl
  obtain ⟨v', henforced⟩ : ∃ v', enforceDeadlines inp.now { passStart e with nextWake := v } =
      { passStart e with nextWake := v' } := by
    refine ⟨(e.q .running).foldl (deadlineWake inp.now) v, ?_⟩
    unfold enforceDeadlines
    dsimp only [passStart]
    rw [mapQueue_fixed hdeadlines]
  rw [passSettle_eq, hparked, henforced]
  unfold boundDrain
  split_ifs with hstop hpast
  · rcases hr.stop hstop.1 hstop.2 with hwake | hend
    · exact absurd hpast (Nat.not_le.mpr (not_due hwake hw))
    · refine ⟨v', true, ?_⟩
      have hforget : intakeForget e = e := by
        unfold intakeForget
        rw [← hend.runs]
      have hstopped : mapQueue e .running stopItem = e := by
        refine mapQueue_fixed fun x hx => ?_
        obtain ⟨hcancelled, hcancel⟩ := hend.running x hx
        exact stopItem_fixed hcancelled hcancel
      dsimp only [passStart]
      rw [hend.delayed, hend.intake]
      show ({ passStart e with
        nextWake := v'
        more := false || !((intakeForget e).q .delayed).isEmpty || !((intakeForget e).q .intake).isEmpty
        pastGrace := true
        e := mapQueue (intakeForget e) .running stopItem } : PassState) = _
      rw [hforget, hstopped, hend.delayed, hend.intake]
      rfl
  · exact ⟨_, false, rfl⟩
  · exact ⟨v', false, rfl⟩

/-- Neither does the admission loop. -/
theorem admitLoop_blocked {ps : PassState} (hb : Blocked ps.e) (hheld : ps.held = 0) :
    admitLoop inp (ps.e.q .intake).length ps = ps := by
  have hnot : ∀ it, heldBack ps it = false := by
    intro it
    simp [heldBack, hheld]
  cases hq : ps.e.q .intake with
  | nil => rfl
  | cons top rest =>
    rw [length_cons, admitLoop, hq]
    split_ifs with hcond
    · rfl
    · cases hb with
      | empty h =>
        rw [h] at hq
        cases hq
      | full h => exact absurd (.inr h) hcond
      | unfit h =>
        unfold admitOnce
        rw [h]
      | @reserved top' it rest' hq' hscan hne hskips =>
        obtain ⟨rfl, rfl⟩ := cons.inj (hq'.symm.trans hq)
        unfold admitOnce
        rw [hscan]
        dsimp only
        rw [hnot it, if_neg Bool.false_ne_true, if_pos ⟨hne, hskips⟩]

/-- So the pass changes nothing but the index. -/
theorem pass_rested (hr : Rested now w e) (hb : Blocked e) (hsched : e.schedFn = false)
    (hw : w ≠ 0 → inp.now < w) :
    ∃ v g, enginePass inp e =
      { passStart e with e := hidxTrim e inp.trimOk, nextWake := v, pastGrace := g } := by
  obtain ⟨v, g, hsettle⟩ := settle_rested hr hw
  refine ⟨v, g, ?_⟩
  have hscored : rescore inp (passSettle inp e) = { passStart e with nextWake := v, pastGrace := g } := by
    rw [hsettle]
    unfold rescore
    rw [if_pos (.inr (.inl (by simp [passStart, hsched])))]
  unfold enginePass
  rw [hscored]
  have hloop : admitLoop inp _ { passStart e with nextWake := v, pastGrace := g } =
      { passStart e with nextWake := v, pastGrace := g } := admitLoop_blocked hb rfl
  dsimp only
  rw [hloop]
  rfl

end Second

section First

variable {now : ℕ} {e : Engine} {inp : PassIn} {ps : PassState}

/-- What holds from the end of step 3b on, as long as nothing was buffered. -/
structure Settled (now : ℕ) (ps : PassState) : Prop where
  /-- Nothing is left for a pass before the wake. -/
  rested : Rested now ps.nextWake ps.e
  /-- No retry is kept room for. -/
  held : ps.held = 0
  /-- There is no scheduler hook. -/
  sched : ps.e.schedFn = false
  /-- Past the grace nothing is queued. -/
  past : ps.pastGrace = true → ps.e.q .intake = []

/-- The instants the deadlines of running items add. -/
theorem deadlines_wake (l : List Item) (v : ℕ) :
    (∀ u, Wakes v u → Wakes (l.foldl (deadlineWake now) v) u) ∧
      ∀ x ∈ l, now < x.deadlineMs → Wakes (l.foldl (deadlineWake now) v) x.deadlineMs := by
  induction l generalizing v with
  | nil => exact ⟨fun _ h => h, fun x hx => absurd hx not_mem_nil⟩
  | cons it l ih =>
    obtain ⟨hkeep, hnew⟩ := ih (deadlineWake now v it)
    refine ⟨fun u hu => hkeep u ?_, fun x hx hlate => ?_⟩
    · unfold deadlineWake
      split_ifs
      · exact hu.keep _
      · exact hu
    · rcases mem_cons.mp hx with rfl | hx
      · refine hkeep _ ?_
        have hne : x.deadlineMs ≠ 0 := by omega
        rw [deadlineWake, if_pos ⟨hne, hlate⟩]
        exact wakes_new v hne
      · exact hnew x hx hlate

/-- Step 3 leaves no deadline without a wake. -/
theorem enforce_wakes (ps : PassState) : ∀ x ∈ (enforceDeadlines now ps).e.q .running, x.deadlineMs ≠ 0 →
    x.deadlineMs ≤ now ∧ x.cancel = true ∨ Wakes (enforceDeadlines now ps).nextWake x.deadlineMs := by
  intro x hx hne
  obtain ⟨y, hy, rfl⟩ := mem_map.mp hx
  by_cases hpast : y.deadlineMs ≠ 0 ∧ y.deadlineMs ≤ now
  · rw [checkDeadline, if_pos hpast]
    exact .inl ⟨hpast.2, rfl⟩
  · have hsame : checkDeadline now y = y := if_neg hpast
    rw [hsame] at hne ⊢
    exact .inr ((deadlines_wake (ps.e.q .running) ps.nextWake).2 y hy
      (lt_of_not_ge fun hle => hpast ⟨hne, hle⟩))

/-- If the loop over waiting items buffers nothing, there were none. -/
theorem drainWaiting_nothing {fuel : ℕ} (hf : fuel ≠ 0) (h : (drainWaiting fuel ps).pend = []) :
    popWaiting ps.e = none ∧ drainWaiting fuel ps = ps := by
  obtain ⟨fuel, rfl⟩ := Nat.exists_eq_succ_of_ne_zero hf
  have hpend : ps.pend = [] := prefix_nil.mp (h ▸ drainWaiting_pend _ ps)
  have hroom : ps.pend.length < pendingCap := by
    rw [hpend]
    decide
  rw [drainWaiting, if_pos hroom] at h ⊢
  cases hpop : popWaiting ps.e with
  | none => exact ⟨rfl, rfl⟩
  | some r =>
    rw [hpop] at h
    obtain ⟨ev, hev⟩ := endWaiting_pend { ps with e := r.2 } r.1
    have hmore := drainWaiting_pend fuel (endWaiting { ps with e := r.2 } r.1)
    rw [h, hev] at hmore
    exact absurd (prefix_nil.mp hmore) (append_ne_nil_of_right_ne_nil _ (cons_ne_nil _ _))

/-- Nothing to pop means that both queues are empty. -/
theorem popWaiting_none (h : popWaiting e = none) : e.q .delayed = [] ∧ e.q .intake = [] := by
  unfold popWaiting at h
  split at h
  · cases h
  · rename_i hd
    exact ⟨fifoPop_none hd, fifoPop_none h⟩

/-- Step 3b leaves nothing to be done before its deadline, or nothing at all. -/
theorem boundDrain_settled (hpend : (boundDrain now ps).pend = []) (hdone : ps.e.q .done = [])
    (hdelayed : ∀ x ∈ ps.e.q .delayed, Wakes ps.nextWake x.notBeforeMs)
    (hrunning : ∀ x ∈ ps.e.q .running, x.deadlineMs ≠ 0 →
      x.deadlineMs ≤ now ∧ x.cancel = true ∨ Wakes ps.nextWake x.deadlineMs)
    (hheld : ps.held = 0) (hsched : ps.e.schedFn = false) (hpast : ps.pastGrace = false) :
    Settled now (boundDrain now ps) := by
  unfold boundDrain at hpend ⊢
  split_ifs at hpend ⊢ with hstop hover
  · have hempty : ps.e.q .delayed = [] ∧ ps.e.q .intake = [] ∧
        drainWaiting ((ps.e.q .delayed).length + (ps.e.q .intake).length) ps = ps := by
      by_cases hf : (ps.e.q .delayed).length + (ps.e.q .intake).length = 0
      · have hlen := Nat.add_eq_zero_iff.mp hf
        exact ⟨length_eq_zero_iff.mp hlen.1, length_eq_zero_iff.mp hlen.2, by rw [hf]; rfl⟩
      · obtain ⟨hpop, hsame⟩ := drainWaiting_nothing hf hpend
        obtain ⟨hd, hi⟩ := popWaiting_none hpop
        exact ⟨hd, hi, hsame⟩
    obtain ⟨hd, hi, hsame⟩ := hempty
    rw [hsame]
    have hq : ∀ q, q ≠ .running → (mapQueue (intakeForget ps.e) .running stopItem).q q = ps.e.q q :=
      fun q hne => update_of_ne hne _ _
    have hr : ∀ x ∈ (mapQueue (intakeForget ps.e) .running stopItem).q .running,
        ∃ y ∈ ps.e.q .running, x = stopItem y := by
      intro x hx
      obtain ⟨y, hy, rfl⟩ := mem_map.mp hx
      exact ⟨y, hy, rfl⟩
    refine ⟨⟨(hq _ (by decide)).trans hdone, ?_, ?_, ?_⟩, hheld, hsched, ?_⟩
    · intro x hx
      rw [hq _ (by decide), hd] at hx
      exact absurd hx not_mem_nil
    · intro x hx hne
      obtain ⟨y, hy, rfl⟩ := hr x hx
      exact (hrunning y hy hne).imp (fun h => ⟨h.1, rfl⟩) id
    · intro _ _
      refine .inr ⟨hover, (hq _ (by decide)).trans hd, (hq _ (by decide)).trans hi, rfl, ?_⟩
      intro x hx
      obtain ⟨y, -, rfl⟩ := hr x hx
      exact ⟨rfl, rfl⟩
    · intro _
      exact (hq _ (by decide)).trans hi
  · refine ⟨⟨hdone, fun x hx => (hdelayed x hx).keep _, ?_, ?_⟩, hheld, hsched, ?_⟩
    · exact fun x hx hne => (hrunning x hx hne).imp id fun h => h.keep _
    · exact fun _ hne => .inl (wakes_new _ hne)
    · intro h
      rw [hpast] at h
      cases h
  · refine ⟨⟨hdone, hdelayed, hrunning, ?_⟩, hheld, hsched, ?_⟩
    · exact fun hs hne => absurd ⟨hs, hne⟩ hstop
    · intro h
      rw [hpast] at h
      cases h

/-- A round of admission that goes on without buffering keeps that. -/
theorem Settled.goes {ps' : PassState} (hs : Settled inp.now ps) (hne : ps.e.q .intake ≠ [])
    (h : Goes inp ps ps') : Settled inp.now ps' := by
  have hpast : ps.pastGrace ≠ true := fun hp => hne (hs.past hp)
  have hkeep : ∀ u, Wakes ps.nextWake u → Wakes ps'.nextWake u := by
    intro u hu
    rcases h.delayed with ⟨-, hw⟩ | ⟨it, n, -, -, hw⟩
    · exact hw ▸ hu
    · exact hw ▸ hu.keep _
  refine ⟨⟨h.done.trans hs.rested.done, ?_, ?_, ?_⟩, h.held.trans hs.held, h.sched.trans hs.sched, ?_⟩
  · intro x hx
    rcases h.delayed with ⟨hd, -⟩ | ⟨it, n, hn, hd, hw⟩
    · exact hkeep _ (hs.rested.delayed x (hd ▸ hx))
    · rw [hd] at hx
      rcases mem_append.mp hx with hx | hx
      · exact hkeep _ (hs.rested.delayed x hx)
      · rw [mem_singleton.mp hx, hw]
        exact wakes_new _ (by omega)
  · intro x hx hd
    exact (hs.rested.running x (h.running ▸ hx) hd).imp id (hkeep _)
  · intro hstop hdl
    rcases hs.rested.stop (h.stopping ▸ hstop) (h.stopDeadline ▸ hdl) with hw | hend
    · exact .inl (h.stopDeadline ▸ hkeep _ hw)
    · exact absurd hend.intake hne
  · intro hp
    exact absurd (h.past ▸ hp) hpast

/-- When the loop has ended without an event and owes no pass, it has ended for good. -/
theorem admitLoop_settled (hsnap : ∀ n, inp.snapOk n = true) (fuel : ℕ) (hs : Settled inp.now ps)
    (hf : (ps.e.q .intake).length ≤ fuel) (hpend : (admitLoop inp fuel ps).pend = [])
    (hmore : (admitLoop inp fuel ps).more = false) :
    Settled inp.now (admitLoop inp fuel ps) ∧ Blocked (admitLoop inp fuel ps).e := by
  induction fuel generalizing ps with
  | zero => exact ⟨hs, .empty (length_eq_zero_iff.mp (Nat.le_zero.mp hf))⟩
  | succ fuel ih =>
    rw [admitLoop] at hpend hmore ⊢
    cases hq : ps.e.q .intake with
    | nil => exact ⟨hs, .empty hq⟩
    | cons top rest =>
      rw [hq] at hpend hmore
      dsimp only at hpend hmore ⊢
      split_ifs at hpend hmore ⊢ with hcond
      · rcases hcond with hpast | hfull
        · rw [hs.past hpast] at hq
          cases hq
        · exact ⟨hs, .full hfull⟩
      · have hround := admitOnce_round inp ps top
        generalize admitOnce inp ps top = r at hround hpend hmore ⊢
        obtain ⟨ps', b⟩ := r
        cases b with
        | true =>
          have hgoes := round_goes hround
          have hne : ps.e.q .intake ≠ [] := hq ▸ cons_ne_nil _ _
          exact ih (hs.goes hne hgoes) (by have := hgoes.intake; omega) hpend hmore
        | false =>
          cases hround with
          | nothing hscan => exact ⟨hs, .unfit hscan⟩
          | stuck | denyStuck => cases hmore
          | held hscan hheld =>
            simp [heldBack, hs.held] at hheld
          | reserve hscan hheld hne hskips => exact ⟨hs, .reserved hq hscan hne hskips⟩
          | starved hscan hheld hturn hhook hno =>
            rw [hsnap] at hno
            cases hno

/-- The scan of step 2 leaves only what the pass wakes for. -/
theorem promoted_spec {d : Desk} (hd : DeskInv d) (ha : d.announced = []) (hs : d.stale = false) :
    Promoted inp.now (passDrained inp d.e) (passPromoted inp d.e) ((passDrained inp d.e).e.q .delayed) := by
  have hacts := drainDone_acts (w := false) (d := d) inp.now (d.e.q .done).length (passStart d.e)
  rw [passDesk_start ha hs] at hacts
  have hnd : (((passDrained inp d.e).e.q .delayed).map (·.ptr)).Nodup :=
    queue_nodup (acts_inv hd hacts) .delayed
  exact promote_spec inp.now _ _ hnd hnd fun _ h => h

/-- Steps 1 to 3b of a pass that buffers nothing. -/
theorem settle_settled {d : Desk} (hd : DeskInv d) (ha : d.announced = []) (hs : d.stale = false)
    (hsched : d.e.schedFn = false) (hpend : (passSettle inp d.e).pend = []) :
    Settled inp.now (passSettle inp d.e) := by
  obtain ⟨hdone, hann⟩ := drained_clear (drained_pend hpend)
  have hpro : Promoted inp.now (passDrained inp d.e) (passPromoted inp d.e) _ := promoted_spec hd ha hs
  obtain ⟨hframe, hfixed⟩ := drainDone_frame inp.now (d.e.q .done).length (passStart d.e)
  have hstart : (passDrained inp d.e).held = 0 ∧ (passDrained inp d.e).pastGrace = false ∧
      (passDrained inp d.e).e.schedFn = false := by
    refine ⟨?_, ?_, ?_⟩
    · exact congrArg PassState.held hframe
    · exact congrArg PassState.pastGrace hframe
    · exact (congrArg Engine.schedFn hfixed).trans hsched
  have hparked : passParked inp d.e = { passPromoted inp d.e with announced := [] } := by
    have hnone : (passPromoted inp d.e).announced = [] := by
      rw [hpro.rest]
      exact hann
    unfold passParked
    rw [hnone]
    rfl
  rw [passSettle_eq, hparked] at hpend ⊢
  have hq : ∀ q, q ≠ .running →
      (enforceDeadlines inp.now { passPromoted inp d.e with announced := [] }).e.q q =
        (passPromoted inp d.e).e.q q := fun q hne => update_of_ne hne _ _
  refine boundDrain_settled hpend ?_ ?_ (enforce_wakes _) ?_ ?_ ?_
  · rw [hq _ (by decide), hpro.others _ (by decide) (by decide)]
    exact hdone
  · intro x hx
    obtain ⟨hmem, hlate⟩ := hpro.delayed x hx
    exact (deadlines_wake _ _).1 _ (hpro.wakes x hmem (hlate hmem))
  · show (passPromoted inp d.e).held = 0
    rw [hpro.rest]
    exact hstart.1
  · show (passPromoted inp d.e).e.schedFn = false
    rw [hpro.rest]
    exact hstart.2.2
  · show (passPromoted inp d.e).pastGrace = false
    rw [hpro.rest]
    exact hstart.2.1

/-- A pass without scheduler hook and without a failed allocation that buffers no event and owes no further
pass is followed by nothing before the instant it wakes at: a pass then leaves every queue, the ledger, the
flags and the skip counts as they are, asks no constraint hook and buffers no event. -/
theorem idle_pass_changes_nothing {s : Sys} {inp inp' : PassIn} (hs : Reachable s)
    (hsched : s.e.schedFn = false) (hsnap : ∀ n, inp.snapOk n = true)
    (hpend : (enginePass inp s.e).pend = []) (hmore : (enginePass inp s.e).more = false)
    (hwake : (enginePass inp s.e).nextWake ≠ 0 → inp'.now < (enginePass inp s.e).nextWake) :
    (enginePass inp' (enginePass inp s.e).e).e = hidxTrim (enginePass inp s.e).e inp'.trimOk ∧
      (enginePass inp' (enginePass inp s.e).e).pend = [] ∧
      (enginePass inp' (enginePass inp s.e).e).more = false ∧
      (enginePass inp' (enginePass inp s.e).e).asked = 0 ∧
      (enginePass inp' (enginePass inp s.e).e).admissions = [] := by
  have hd : DeskInv (desk s) := (reachable_inv hs).desk
  have hsettled : Settled inp.now (passSettle inp s.e) :=
    settle_settled (d := desk s) hd rfl rfl hsched (settle_pend hpend)
  have hscored : rescore inp (passSettle inp s.e) = passSettle inp s.e := by
    unfold rescore
    rw [if_pos (.inr (.inl (by simp [hsettled.sched])))]
  have hkept := (hidxTrim_kept
    (admitLoop inp ((passSettle inp s.e).e.q .intake).length (passSettle inp s.e)).e inp.trimOk)
  have heq : enginePass inp s.e =
      { admitLoop inp ((passSettle inp s.e).e.q .intake).length (passSettle inp s.e) with
        e := hidxTrim (admitLoop inp ((passSettle inp s.e).e.q .intake).length
          (passSettle inp s.e)).e inp.trimOk } := by
    unfold enginePass
    rw [hscored]
  rw [heq] at hpend hmore hwake ⊢
  obtain ⟨hend, hblocked⟩ := admitLoop_settled hsnap _ hsettled le_rfl hpend hmore
  generalize admitLoop inp ((passSettle inp s.e).e.q .intake).length (passSettle inp s.e) = ps
    at hkept hpend hmore hwake hend hblocked ⊢
  generalize hidxTrim ps.e inp.trimOk = e' at hkept ⊢
  have hsched' : e'.schedFn = false := by
    rw [hkept.rest]
    exact hend.sched
  obtain ⟨v, g, hpass⟩ := pass_rested (hend.rested.kept hkept) (hblocked.kept hkept) hsched' hwake
  rw [hpass]
  exact ⟨rfl, rfl, rfl, rfl, rfl⟩

/-- An item that may take 50 ms is running since the clock showed 11. -/
def idleRun : List Label :=
  (sampleStart false 600).dropLast ++
    .submitCommit 7 { sampleSubmit with timeoutMs := some 50 } :: sampleBegin

/-- A pass over a running item alone wakes at the end of its attempt and finds nothing to do, and neither
does a pass before that end. -/
theorem idle_pass_changes_nothing_running :
    (enginePass (samplePass 12) (sampled idleRun).e).nextWake = 61 ∧
      (enginePass (samplePass 60)
        (enginePass (samplePass 12) (sampled idleRun).e).e).pend = [] := by
  have hs : Reachable (sampled idleRun) := reachable_ranTo (by decide +kernel)
  have hwake : (enginePass (samplePass 12) (sampled idleRun).e).nextWake = 61 := by
    decide +kernel
  have hidle : _ ∧ (enginePass (samplePass 60)
      (enginePass (samplePass 12) (sampled idleRun).e).e).pend = [] ∧ _ :=
    idle_pass_changes_nothing hs (by decide +kernel) (fun _ => rfl) (by decide +kernel)
      (by decide +kernel) fun _ => by rw [hwake]; decide
  exact ⟨hwake, hidle.2.1⟩

end First

end Gptps.PassRest
