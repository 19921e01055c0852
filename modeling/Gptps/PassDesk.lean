import Gptps.PassStages

/-!
# A pass is a sequence of acts

Every step of `engine_pass` is one act, and each of its loops a sequence of
them. The desk of a pass keeps its buffered events, the retries it announced and
its admissions beside the engine.
-/

namespace Gptps.PassDesk

open Function EngineState EngineStore EnginePass EngineApi ItemLife IntakeOrder List
open StoreInvariant EngineDesk DeskStore PassStages

variable {w : Bool} {d : Desk} {p' : Option Place} {b : Bool} {ns : List (EvKind × Status)}
  {evs : List Ev}

/-- The desk while a pass is under way. -/
def passDesk (d : Desk) (ps : PassState) (b : Bool) : Desk :=
  { d with
    e := ps.e, announced := ps.announced, evs := d.evs ++ ps.pend, stale := b
    admissions := d.admissions ++ ps.admissions }

/-- An item moves between places, told in the terms of a pass. -/
theorem pass_move {d' : Desk} {ps : PassState} {q : QId} {it : Item} {e₁ e₂ : Engine} {b' : Bool}
    (it' : Item) (hq : q ≠ .dead) (hl : Leaves (passDesk d ps b) q it e₁ b')
    (hc : Charge e₁ it.toCore (Place.queue q).admitted (p'.any Place.admitted) e₂ it'.resReserved)
    (hk : key it' = key it) (hmem : it'.costMem = it.costMem)
    (hm : Move e₁.reg e₁.stopping (.queue q) it.toCore p' it'.toCore ns) (hev : Reports evs it.handle ns)
    (hland : Lands (passDesk d { ps with e := e₂, pend := ps.pend ++ evs } b') it' p' d') :
    Act w (passDesk d ps b) d' := by
  have hreg : e₁.reg = ps.e.reg := by rw [leaves_rest hl]; rfl
  have hstop : e₁.stopping = ps.e.stopping := by rw [leaves_rest hl]; rfl
  rw [hreg, hstop] at hm
  refine Act.move hq hl hc hk hmem hm hev ?_
  have hevs : (passDesk d ps b).evs ++ evs = d.evs ++ (ps.pend ++ evs) := append_assoc _ _ _
  rw [hevs]
  exact hland

section Decide

variable {d d' : Desk} {ps : PassState} {it : Item} {e₁ : Engine}

/-- A finished item is taken from `done` and what it held released. -/
theorem decide_move (it' : Item) (hpop : fifoPop ps.e .done = some (it, e₁))
    (hp : p'.any Place.admitted = false) (hk : key it' = key it) (hmem : it'.costMem = it.costMem)
    (hres : it'.resReserved = none)
    (hm : Move e₁.reg e₁.stopping (.queue .done) it.toCore p' it'.toCore ns)
    (hev : Reports evs it.handle ns)
    (hland : Lands (passDesk d { ps with e := release e₁ it.toCore, pend := ps.pend ++ evs } false) it' p' d') :
    Act w (passDesk d ps false) d' := by
  have hl : Leaves (passDesk d ps false) .done it e₁ false := .head hpop
  refine pass_move it' (by decide) hl ?_ hk hmem hm hev hland
  rw [hp, hres]
  exact .release

/-- The same without an event. -/
theorem decide_silent (it' : Item) (hpop : fifoPop ps.e .done = some (it, e₁))
    (hp : p'.any Place.admitted = false) (hk : key it' = key it) (hmem : it'.costMem = it.costMem)
    (hres : it'.resReserved = none)
    (hm : Move e₁.reg e₁.stopping (.queue .done) it.toCore p' it'.toCore [])
    (hland : Lands (passDesk d { ps with e := release e₁ it.toCore } false) it' p' d') :
    Act w (passDesk d ps false) d' := by
  have hrep : Reports [] it.handle [] := rfl
  refine decide_move it' hpop hp hk hmem hres hm hrep ?_
  rw [append_nil]
  exact hland

/-- The same with one event. -/
theorem decide_noted {kind : EvKind} {st : Status} {ev : Ev} (it' : Item)
    (hroom : ps.pend.length < pendingCap) (hpop : fifoPop ps.e .done = some (it, e₁))
    (hp : p'.any Place.admitted = false) (hk : key it' = key it) (hmem : it'.costMem = it.costMem)
    (hres : it'.resReserved = none)
    (hm : Move e₁.reg e₁.stopping (.queue .done) it.toCore p' it'.toCore [(kind, st)])
    (hev : noteOf ev = ⟨it.handle, kind, st⟩)
    (hland : Lands (passDesk d { ps with
      e := release e₁ it.toCore, pend := pushEv ps.pend ev } false) it' p' d') :
    Act w (passDesk d ps false) d' := by
  have hrep : Reports [ev] it.handle [(kind, st)] := congrArg (· :: []) hev
  rw [pushEv_room hroom] at hland
  exact decide_move it' hpop hp hk hmem hres hm hrep hland

/-- A decided item that owes its closing event, or has reported it, is freed. -/
theorem dropOwing_act (hroom : ps.pend.length < pendingCap)
    (hpop : fifoPop ps.e .done = some (it, e₁)) :
    Act w (passDesk d ps false) (passDesk d (dropOwing { ps with e := e₁ } (release e₁ it.toCore)
      { it with resReserved := none }) false) := by
  have hmove : Move e₁.reg e₁.stopping (.queue .done) it.toCore none
      { it.toCore with resReserved := none } (owed e₁.reg it.toCore) := .close it.toCore
  unfold dropOwing
  cases ht : terminalReported (release e₁ it.toCore) { it.toCore with resReserved := none } with
  | true =>
    have howed : owed e₁.reg it.toCore = [] := if_pos ht
    rw [howed] at hmove
    exact decide_silent { it with resReserved := none } hpop rfl rfl rfl rfl hmove .drop
  | false =>
    have howed : owed e₁.reg it.toCore = [(.failed, .cancelled)] := if_neg (Bool.eq_false_iff.mp ht)
    rw [howed] at hmove
    exact decide_noted { it with resReserved := none } hroom hpop rfl rfl rfl rfl hmove rfl .drop

/-- The policy discards an item. -/
theorem discard_act (hroom : ps.pend.length < pendingCap)
    (hpop : fifoPop ps.e .done = some (it, e₁)) (hun : Undecided it.toCore)
    (hp : it.policy.onFailure = .drop) :
    Act w (passDesk d ps false) (passDesk d { ps with
      pend := pushEv ps.pend (evOf (release e₁ it.toCore) { it with resReserved := none }
        .dropped it.outcome false)
      e := itemDrop (release e₁ it.toCore) { it with resReserved := none } } false) :=
  decide_noted { it with resReserved := none } hroom hpop rfl rfl rfl rfl
    (.discard it.toCore hun hp) rfl .drop

/-- An item becomes a dead letter. -/
theorem giveUp_act (st : Status) (shutdown : Bool) (hroom : ps.pend.length < pendingCap)
    (hpop : fifoPop ps.e .done = some (it, e₁)) (hun : Undecided it.toCore)
    (hp : (removed e₁.reg it.toCore = true ∧ cancelling e₁.reg it.toCore = false) ∨
      it.policy.onFailure = .deadLetter ∨ e₁.stopping = true) :
    Act w (passDesk d ps false) (passDesk d { ps with
      pend := pushEv ps.pend (evOf (release e₁ it.toCore)
        { it with resReserved := none, outcome := st } .deadLettered st shutdown)
      e := deadLetterPush (release e₁ it.toCore)
        { it with resReserved := none, outcome := st } } false) :=
  decide_noted { it with resReserved := none, outcome := st } hroom hpop rfl rfl rfl rfl
    (.giveUp it.toCore st hun hp) rfl .bury

/-- An item is tried again after a pause. -/
theorem again_act (at' : ℕ) (hpop : fifoPop ps.e .done = some (it, e₁))
    (hm : Move e₁.reg e₁.stopping (.queue .done) it.toCore (some (.queue .delayed))
      { it.toCore with resReserved := none, attempt := 1 } []) :
    Act w (passDesk d ps false) (passDesk d { ps with
      e := fifoPush (release e₁ it.toCore) .delayed
        { it with resReserved := none, attempt := 1, notBeforeMs := at' } } false) :=
  decide_silent { it with resReserved := none, attempt := 1, notBeforeMs := at' } hpop rfl rfl rfl
    rfl hm (.push .delayed (by decide) (by decide))

/-- Deciding one finished item is one act. -/
theorem decideDone_act (now : ℕ) (hroom : ps.pend.length < pendingCap)
    (hpop : fifoPop ps.e .done = some (it, e₁)) :
    Act w (passDesk d ps false) (passDesk d (decideDone now { ps with e := e₁ } it) false) := by
  have hdrop := dropOwing_act (w := w) (d := d) hroom hpop
  unfold decideDone
  simp only
  split_ifs with hok hup hcan hself hrem hcancelling honfail hretry hst
  · obtain ⟨hup, hcan, hrem, hst⟩ := hup
    exact again_act _ hpop (.restart it.toCore hok hup (Bool.eq_false_iff.mpr hcan)
      (Bool.eq_false_iff.mpr hrem) (Bool.eq_false_iff.mpr hst))
  · exact hdrop
  · exact hdrop
  · exact decide_silent { it with resReserved := none } hpop rfl rfl rfl rfl
      (.selfCancelled it.toCore hself.1 hself.2) .drop
  · exact hdrop
  all_goals have hun : Undecided it.toCore := ⟨hok, Bool.eq_false_iff.mpr hcan, hself⟩
  · exact discard_act hroom hpop hun honfail
  · exact giveUp_act it.outcome false hroom hpop hun
      (.inl ⟨hrem, Bool.eq_false_iff.mpr hcancelling⟩)
  · exact decide_noted { it with
      resReserved := none, attempt := it.attempt + 1
      notBeforeMs := now + it.policy.retryBackoffSeconds * 1000 } hroom hpop rfl rfl rfl rfl
      (.retry it.toCore hun (Bool.eq_false_iff.mpr hrem) hretry) rfl .announce
  · cases hp : it.policy.onFailure with
    | requeue => exact giveUp_act .shutdown true hroom hpop hun (.inr (.inr hst))
    | drop => exact discard_act hroom hpop hun hp
    | deadLetter => exact giveUp_act it.outcome false hroom hpop hun (.inr (.inl hp))
  · cases hp : it.policy.onFailure with
    | requeue =>
      exact again_act _ hpop (.requeue it.toCore hun (Bool.eq_false_iff.mpr hrem)
        (Bool.eq_false_iff.mpr hst))
    | drop => exact discard_act hroom hpop hun hp
    | deadLetter => exact giveUp_act it.outcome false hroom hpop hun (.inr (.inl hp))

end Decide

section Settle

variable {d : Desk} {q : QId}

/-- Step 1 is a sequence of acts. -/
theorem drainDone_acts (now fuel : ℕ) (ps : PassState) :
    Acts w (passDesk d ps false) (passDesk d (drainDone now fuel ps) false) :=
  drainDone_rule (M := fun ps' => Acts w (passDesk d ps false) (passDesk d ps' false))
    (fun _ _ _ h hroom hpop => h.tail (decideDone_act now hroom hpop)) fuel .refl

/-- Step 2 is a sequence of acts: what it walks over is still delayed when its turn comes. -/
theorem promote_acts (now : ℕ) (l : List Item) (ps : PassState)
    (hl : ∀ it ∈ l, it ∈ ps.e.q .delayed) (hnd : (l.map (·.ptr)).Nodup) :
    Acts w (passDesk d ps false) (passDesk d (l.foldl (promoteOne now) ps) false) := by
  induction l generalizing ps with
  | nil => exact .refl
  | cons it l ih =>
    rw [map_cons, nodup_cons] at hnd
    rw [foldl_cons]
    by_cases hdue : it.notBeforeMs ≤ now
    · have hone : promoteOne now ps it = { ps with
          e := intakeInsert (fifoRemove ps.e .delayed it) { it with started := false } } := if_pos hdue
      have hact : Act w (passDesk d ps false) (passDesk d (promoteOne now ps it) false) := by
        have hleave : Leaves (passDesk d ps false) .delayed it (fifoRemove ps.e .delayed it) false :=
          .inside (hl it mem_cons_self)
        have hrep : Reports [] it.handle [] := rfl
        rw [hone]
        refine pass_move { it with started := false } (by decide) hleave (.keep false) rfl rfl
          (.promote it.toCore) hrep ?_
        rw [append_nil]
        exact .entry rfl
      refine .head hact (ih _ ?_ hnd.2)
      have hkeep : (promoteOne now ps it).e.q .delayed =
          (ps.e.q .delayed).eraseP fun y => y.ptr = it.ptr := by
        rw [hone]
        simp only [intakeInsert, fifoRemove, update_of_ne (show QId.delayed ≠ .intake by decide),
          update_self]
      rw [hkeep]
      exact still_queued hl hnd.1
    · have hone : promoteOne now ps it =
          { ps with nextWake := minNonzero ps.nextWake it.notBeforeMs } := if_neg hdue
      rw [hone]
      exact ih { ps with nextWake := minNonzero ps.nextWake it.notBeforeMs }
        (fun x hx => hl x (mem_cons_of_mem _ hx)) hnd.2

/-- Step 2b is a sequence of acts. -/
theorem park_acts (now : ℕ) (l : List Item) (ps : PassState) :
    Acts w (passDesk d { ps with announced := l } false)
      (passDesk d (l.foldl (parkOne now) { ps with announced := [] }) false) := by
  induction l generalizing ps with
  | nil => exact .refl
  | cons it l ih =>
    have hone : (parkOne now { ps with announced := [] } it) =
        { parkOne now ps it with announced := [] } := by
      unfold parkOne
      split_ifs <;> rfl
    have hact : Act w (passDesk d { ps with announced := it :: l } false)
        (passDesk d { parkOne now ps it with announced := l } false) := by
      have hpark := Act.park (w := w) (d := passDesk d { ps with announced := it :: l } false) rfl
      unfold parkOne
      split_ifs <;> exact hpark
    rw [foldl_cons, hone]
    exact .head hact (ih (parkOne now ps it))

/-- Step 3 is one act. -/
theorem enforceDeadlines_act (now : ℕ) (ps : PassState) :
    Act w (passDesk d ps false) (passDesk d (enforceDeadlines now ps) false) := by
  have hcore : ∀ it, (checkDeadline now it).toCore = it.toCore := by
    intro it
    unfold checkDeadline
    split_ifs <;> rfl
  have hkey : ∀ it, key (checkDeadline now it) = key it := by
    intro it
    unfold checkDeadline
    split_ifs <;> rfl
  have hf : Retouch .running (checkDeadline now) := by
    refine ⟨hkey, ?_, ?_, ?_⟩
    · exact fun it => congrArg Core.costMem (hcore it)
    · exact fun it => congrArg Core.resReserved (hcore it)
    · intro h
      cases h
  exact Act.touch hf fun it _ => .inl (hcore it)

/-- Step 3b ends one waiting item. -/
theorem endWaiting_act {ps : PassState} {it : Item} {e₁ : Engine} (hst : ps.e.stopping = true)
    (hq : q = .delayed ∨ q = .intake) (hpop : fifoPop ps.e q = some (it, e₁)) :
    Act w (passDesk d ps b) (passDesk d (endWaiting { ps with e := e₁ } it) (b || q = .intake)) := by
  have hst₁ : e₁.stopping = true := by
    rw [fifoPop_rest hpop]
    exact hst
  have hl : Leaves (passDesk d ps b) q it e₁ (b || q = .intake) := .head hpop
  have hdead : q ≠ .dead := by rcases hq with rfl | rfl <;> decide
  have hout : (Place.queue q).admitted = false := by rcases hq with rfl | rfl <;> rfl
  have hkeep : Charge e₁ it.toCore (Place.queue q).admitted false e₁ it.resReserved := by
    rw [hout]
    exact .keep false
  unfold endWaiting
  simp only
  split_ifs with hp
  · have hrep : Reports [evOf e₁ { it with outcome := .shutdown } .dropped .shutdown true]
        it.handle [(.dropped, .shutdown)] := rfl
    refine pass_move { it with outcome := .shutdown } hdead hl ?_ rfl rfl
      (.graceDrop it.toCore q hq hst₁) hrep .drop
    exact hkeep
  · have hrep : Reports [evOf e₁ { it with outcome := .shutdown } .deadLettered .shutdown true]
        it.handle [(.deadLettered, .shutdown)] := rfl
    refine pass_move { it with outcome := .shutdown } hdead hl ?_ rfl rfl
      (.graceDead it.toCore q hq hst₁) hrep .bury
    exact hkeep

/-- Ending a waiting item does not end the shutdown. -/
theorem endWaiting_stopping {ps : PassState} {it : Item} {e₁ : Engine}
    (hpop : fifoPop ps.e q = some (it, e₁)) :
    (endWaiting { ps with e := e₁ } it).e.stopping = ps.e.stopping := by
  have hst₁ : e₁.stopping = ps.e.stopping := by rw [fifoPop_rest hpop]
  unfold endWaiting
  simp only
  split_ifs
  · rw [← hst₁]
    exact (congrArg Engine.stopping (itemDrop_kept e₁ { it with outcome := .shutdown }).rest).trans rfl
  · rw [← hst₁]
    exact (congrArg Engine.stopping
      (deadLetterPush_kept e₁ { it with outcome := .shutdown }).rest).trans rfl

/-- The loop of step 3b is a sequence of acts that may leave the cache out of date. -/
theorem drainWaiting_acts (fuel : ℕ) (ps : PassState) (b : Bool) (hst : ps.e.stopping = true) :
    ∃ b', Acts w (passDesk d ps b) (passDesk d (drainWaiting fuel ps) b') := by
  have hall := drainWaiting_rule (M := fun ps' => ps'.e.stopping = true ∧
    ∃ b', Acts w (passDesk d ps b) (passDesk d ps' b')) ?_ fuel ⟨hst, b, .refl⟩
  · exact hall.2
  · rintro ps₁ q it e₁ ⟨hst₁, b', hacts⟩ hq hpop
    exact ⟨(endWaiting_stopping hpop).trans hst₁, _, hacts.tail (endWaiting_act hst₁ hq hpop)⟩

/-- Step 3b is a sequence of acts. -/
theorem boundDrain_acts (now : ℕ) (ps : PassState) :
    Acts w (passDesk d ps false) (passDesk d (boundDrain now ps) false) := by
  unfold boundDrain
  split_ifs with hst hnow
  · obtain ⟨b', hacts⟩ := drainWaiting_acts (d := d)
      ((ps.e.q .delayed).length + (ps.e.q .intake).length) ps false hst.1
    refine (hacts.tail .forget).tail ?_
    exact Act.touch (stopItem_retouch (by decide)) fun it _ =>
      .inr (.stop it.toCore .running (.inr (.inl rfl)))
  · exact .refl
  · exact .refl

end Settle

section Admit

variable {d : Desk} {ps : PassState} {top it : Item} {rest : List Item}

/-- Admission refuses an item for good. -/
theorem refuse_act (st : Status) (hst : st = .budget ∨ st = .denied)
    (hroom : ps.pend.length < pendingCap) (hm : it ∈ ps.e.q .intake) :
    Act w (passDesk d ps false) (passDesk d { ps with
      pend := pushEv ps.pend (evOf (intakeUnlink ps.e it) { it with outcome := st }
        .deadLettered st false)
      e := deadLetterPush (intakeUnlink ps.e it) { it with outcome := st } } false) := by
  have hl : Leaves (passDesk d ps false) .intake it (intakeUnlink ps.e it) false := .ordered hm rfl
  have hrep : Reports [evOf (intakeUnlink ps.e it) { it with outcome := st } .deadLettered st false]
      it.handle [(.deadLettered, st)] := rfl
  rw [pushEv_room hroom]
  exact pass_move { it with outcome := st } (by decide) hl (.keep false) rfl rfl
    (.refuse it.toCore st hst) hrep .bury

/-- A hook defers an item. -/
theorem defer_act (at' : ℕ) (hm : it ∈ ps.e.q .intake) :
    Act w (passDesk d ps false) (passDesk d { ps with
      e := fifoPush (intakeUnlink ps.e it) .delayed { it with notBeforeMs := at' } } false) := by
  have hl : Leaves (passDesk d ps false) .intake it (intakeUnlink ps.e it) false := .ordered hm rfl
  have hrep : Reports [] it.handle [] := rfl
  refine pass_move { it with notBeforeMs := at' } (by decide) hl (.keep false) rfl rfl
    (.defer it.toCore) hrep ?_
  rw [append_nil]
  exact .push .delayed (by decide) (by decide)

/-- An item is admitted. -/
theorem admitItem_act {snap : Option (List UInt64)} (ht : ps.e.q .intake = top :: rest)
    (hb : scanIntake ps.e (ps.e.q .intake) = .best it)
    (hr : ps.e.running < ps.e.maxConcurrentTasks) (hsnap : SnapOf ps.e it.toCore snap) :
    Act w (passDesk d ps false) (passDesk d (admitItem ps top it snap) false) := by
  have hact := Act.admission (w := w) (d := passDesk d ps false) rfl ht hb hr hsnap
  have hadm : (passDesk d ps false).admissions ++ [⟨ps.e, top, it⟩] =
      d.admissions ++ (ps.admissions ++ [⟨ps.e, top, it⟩]) := append_assoc _ _ _
  simp only [passDesk] at hact hadm
  rw [hadm] at hact
  exact hact

/-- One round of admission is at most one act. -/
theorem admitOnce_acts (inp : PassIn) (ht : ps.e.q .intake = top :: rest)
    (hr : ps.e.running < ps.e.maxConcurrentTasks) :
    Acts w (passDesk d ps false) (passDesk d (admitOnce inp ps top).1 false) := by
  unfold admitOnce
  cases hscan : scanIntake ps.e (ps.e.q .intake) with
  | nothing => exact .refl
  | stranded it =>
    simp only
    split_ifs with hcap
    · exact .refl
    · exact .single (refuse_act .budget (.inl rfl) (lt_of_not_ge hcap)
        (scanIntake_stranded_mem hscan))
  | best it =>
    have hm := scanIntake_mem hscan
    simp only
    by_cases hheld : heldBack ps it = true
    · rw [if_pos hheld]
      exact .refl
    by_cases hskip : it.ptr ≠ top.ptr ∧ ps.e.reserveAfterSkips ≤ top.skips
    · rw [if_neg hheld, if_pos hskip]
      exact .refl
    rw [if_neg hheld, if_neg hskip]
    cases hverdict : runConstraints ps.e (inp.hook ps.asked) with
    | defer retryAfter => exact .single (defer_act (inp.now + retryAfter) hm)
    | deny =>
      simp only
      split_ifs with hcap
      · exact .refl
      · exact .single (refuse_act .denied (.inr rfl) (lt_of_not_ge hcap) hm)
    | admitted =>
      cases hcost : costOf ps.e it.toCore with
      | none =>
        have hsnap : SnapOf ps.e it.toCore none := by rw [SnapOf, hcost, Option.map_none]
        exact .single (admitItem_act ht hscan hr hsnap)
      | some cost =>
        have hsnap : SnapOf ps.e it.toCore (some (takeSnapshot ps.e cost)) := by
          rw [SnapOf, hcost, Option.map_some]
        simp only
        split_ifs
        · exact .single (admitItem_act ht hscan hr hsnap)
        · exact .refl

/-- Step 4 is a sequence of acts. -/
theorem admitLoop_acts (inp : PassIn) (fuel : ℕ) (ps : PassState) :
    Acts w (passDesk d ps false) (passDesk d (admitLoop inp fuel ps) false) := by
  refine admitLoop_rule (M := fun ps' => Acts w (passDesk d ps false) (passDesk d ps' false))
    (fun ps₁ top h hat => ?_) fuel .refl
  obtain ⟨rest, hrest⟩ := head?_eq_some_iff.mp hat.first
  exact h.trans (admitOnce_acts inp hrest hat.free)

/-- The rescoring of step 4 is at most one act. -/
theorem rescore_acts (inp : PassIn) (ps : PassState) :
    Acts w (passDesk d ps false) (passDesk d (rescore inp ps) false) := by
  unfold rescore
  split_ifs
  · exact .refl
  · exact .single .rescore

end Admit

/-- The desk as a pass begins. -/
theorem passDesk_start (ha : d.announced = []) (hs : d.stale = false) :
    passDesk d (passStart d.e) false = d := by
  cases d
  simp only at ha hs
  subst ha hs
  simp [passDesk, passStart]

/-- Everything before admission is a sequence of acts. -/
theorem passSettle_acts (inp : PassIn) (hd : DeskInv d) (ha : d.announced = []) (hs : d.stale = false) :
    Acts w d (passDesk d (passSettle inp d.e) false) := by
  have hdrain := drainDone_acts (w := w) (d := d) inp.now (d.e.q .done).length (passStart d.e)
  rw [passDesk_start ha hs] at hdrain
  unfold passSettle
  generalize drainDone inp.now (d.e.q .done).length (passStart d.e) = ps₁ at hdrain ⊢
  have hnd : ((ps₁.e.q .delayed).map (·.ptr)).Nodup :=
    ((acts_inv hd hdrain).store.layout.rep .delayed).nodup
  have hpromote := promote_acts (w := w) (d := d) inp.now (ps₁.e.q .delayed)
    { ps₁ with more := !(ps₁.e.q .done).isEmpty } (fun _ h => h) hnd
  simp only
  generalize (ps₁.e.q .delayed).foldl (promoteOne inp.now)
    { ps₁ with more := !(ps₁.e.q .done).isEmpty } = ps₂ at hpromote ⊢
  have hpark := park_acts (w := w) (d := d) inp.now ps₂.announced ps₂
  exact ((hdrain.trans hpromote).trans hpark).trans
    (.head (enforceDeadlines_act inp.now _) (boundDrain_acts inp.now _))

/-- A pass is a sequence of acts. -/
theorem enginePass_acts (inp : PassIn) (hd : DeskInv d) (ha : d.announced = []) (hs : d.stale = false) :
    Acts w d (passDesk d (enginePass inp d.e) false) := by
  have hsettle := passSettle_acts (w := w) inp hd ha hs
  exact (((hsettle.trans (rescore_acts inp _)).trans (admitLoop_acts inp _ _)).tail .trim)

section Announced

/-- Parking takes every announced retry with it. -/
theorem park_announced (now : ℕ) (l : List Item) (ps : PassState) :
    (l.foldl (parkOne now) ps).announced = ps.announced := by
  induction l generalizing ps with
  | nil => rfl
  | cons it l ih =>
    rw [foldl_cons, ih]
    unfold parkOne
    simp only
    split_ifs <;> rfl

/-- Step 3b announces nothing. -/
theorem drainWaiting_announced (fuel : ℕ) (ps : PassState) :
    (drainWaiting fuel ps).announced = ps.announced := by
  refine drainWaiting_rule (M := fun ps' => ps'.announced = ps.announced) ?_ fuel rfl
  intro ps₁ q it e₁ h _ _
  unfold endWaiting
  dsimp only
  split_ifs <;> exact h

/-- Step 4 announces nothing. -/
theorem admitLoop_announced (inp : PassIn) (fuel : ℕ) (ps : PassState) :
    (admitLoop inp fuel ps).announced = ps.announced := by
  refine admitLoop_rule (M := fun ps' => ps'.announced = ps.announced) (fun ps₁ top h _ => ?_) fuel rfl
  have hround := admitOnce_round inp ps₁ top
  generalize admitOnce inp ps₁ top = r at hround
  cases hround <;> exact h

/-- No retry is left announced at the end of a pass. -/
theorem enginePass_announced (inp : PassIn) (e : Engine) : (enginePass inp e).announced = [] := by
  have hsettle : (passSettle inp e).announced = [] := by
    have hbound : ∀ ps, (boundDrain inp.now ps).announced = ps.announced := by
      intro ps
      unfold boundDrain
      split_ifs
      · exact drainWaiting_announced _ ps
      · rfl
      · rfl
    unfold passSettle
    simp only
    rw [hbound]
    exact park_announced _ _ _
  have hscore : (rescore inp (passSettle inp e)).announced = [] := by
    unfold rescore
    split_ifs
    · exact hsettle
    · exact hsettle
  exact (admitLoop_announced _ _ _).trans hscore

end Announced

end Gptps.PassDesk
