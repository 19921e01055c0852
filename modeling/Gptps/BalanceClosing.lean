import Gptps.BalanceRuns

/-!
# Closing a balanced pool

While the pool is closed shard by shard, later shards still deliver events, and the router hands work
over whenever an event makes room. A shard that was freed has the least load of all, so it would be
chosen first. It is not, as long as nothing waits; and nothing waits when the first shard is freed,
unless a callback put it there.
-/

namespace Gptps.BalanceClosing

open Function ProbeMap ArrayHeap Balancer BalanceBooks BalanceSystem BalanceRuns
open EngineState hiding Item Engine Phase
open List hiding lookup

variable {l : Label}

section Orderly

/-- No item of a list was taken by an engine. -/
def untaken (w : World) (fails : List Handle) : Bool :=
  fails.all fun bh => (w.b.items bh).all fun it => it.eh = 0

/-- The thread is one of shard `i`. -/
def Thread.ofShard (i : ℕ) : Thread → Bool
  | .shard j _ => i = j
  | .host _ => false

/-- A call that may be in progress while the pool is closed: neither a submit nor a cancel, of the host
or of an item that an engine took and the router could not track, and an event on a thread of its own
shard. -/
def calm (w : World) (t : Thread) : Frame → Bool
  | .submitting .. | .announcing _ | .announced | .forwarding .. | .within _ | .withdrawing .. => false
  | .hearing i .. => Thread.ofShard i t
  | .failing fails => untaken w fails
  | .failed _ rest => untaken w rest
  | .telling _ _ _ fails => untaken w fails
  | .told _ _ fails => untaken w fails
  | .cancelling _ | .calledBack => true

/-- A step is orderly: once the close of the pool began, no balanced work is submitted or cancelled and
only calm calls are in progress. -/
def orderly (s : Sys) (l : Label) : Bool :=
  s.pool = none || (s.calls.all fun c => calm s.w c.1 c.2) &&
    match l with
    | .submit .. | .cancel .. => false
    | _ => true

/-- All steps of a run are orderly. -/
def runOrderly : Sys → List Label → Bool
  | _, [] => true
  | s, l :: ls => orderly s l && (s.step l).all fun s' => runOrderly s' ls

/-- What an orderly step says while the pool is closed. -/
theorem orderly_closing {s : Sys} (ho : orderly s l = true) (hpool : s.pool ≠ none) :
    (∀ c ∈ s.calls, calm s.w c.1 c.2 = true) ∧ ∀ t task payload prio found,
      l ≠ .submit t task payload prio found := by
  unfold orderly at ho
  simp only [Bool.or_eq_true, Bool.and_eq_true, decide_eq_true_eq, all_eq_true] at ho
  rcases ho with hnone | ⟨hcalm, hl⟩
  · exact absurd hnone hpool
  · refine ⟨hcalm, ?_⟩
    rintro t task payload prio found rfl
    cases hl

end Orderly

section Invariant

variable {s' : Sys} {t : Thread} {w : World} {f : Frame} {i : ℕ}

/-- No engine was called after it was freed, and once one was freed nothing waits. -/
structure Safe (s : Sys) : Prop where
  /-- The calls. -/
  calls : ∀ i, Act.called i true ∉ s.w.trace
  /-- Nothing waits. -/
  empty : ∀ i, (s.w.eng i).phase = .freed → s.w.b.queued = 0

variable {s : Sys}

/-- No engine was freed before the close of the pool began. -/
theorem none_freed (hi : Inv s) (hpool : s.pool = none) (i : ℕ) : (s.w.eng i).phase ≠ .freed := by
  intro hfreed
  obtain ⟨j, hj, -⟩ := (hi.freed i).mp hfreed
  rw [hpool] at hj
  cases hj

/-- Calls into engines none of which was freed are safe. -/
theorem Safe.before (hs : Safe s) (hi : Inv s) (hpool : s.pool = none)
    (hphases : ∀ i, (s'.w.eng i).phase ≠ .freed)
    (hcalls : ∀ i x, Act.called i x ∈ s'.w.trace → Act.called i x ∈ s.w.trace ∨
      x = decide ((s.w.eng i).phase = .freed)) :
    Safe s' := by
  refine ⟨fun i hmem => ?_, fun i hi' => absurd hi' (hphases i)⟩
  rcases hcalls i true hmem with hold | hx
  · exact hs.calls i hold
  · exact none_freed hi hpool i (of_decide_eq_true hx.symm)

/-- Handing work over is safe once nothing waits when an engine was freed. -/
theorem Safe.quiet (hs : Safe s) (hq : Quiet s.w s'.w) : Safe s' := by
  refine ⟨fun i hmem => ?_, fun i hfreed => ?_⟩
  · rcases hq.calls i true hmem with hold | ⟨hne, -, hx⟩
    · exact hs.calls i hold
    · exact hne (hs.empty i (of_decide_eq_true hx.symm))
  · have hzero := hs.empty i ((hq.phases i).symm.trans hfreed)
    have hle := hq.queued
    omega

/-- A calm call only hands work over. -/
theorem calm_tame (hc : calm w t f = true) : f.tame w := by
  cases f with
  | submitting task payload prio => cases hc
  | forwarding i eh => cases hc
  | failing fails =>
    cases fails with
    | nil => trivial
    | cons bh rest =>
      intro it hit
      have hall := all_eq_true.mp hc bh mem_cons_self
      rw [hit] at hall
      exact of_decide_eq_true hall
  | announcing bh => trivial
  | announced => trivial
  | withdrawing i bh rest => trivial
  | failed bh rest => trivial
  | cancelling bh => trivial
  | calledBack => trivial
  | within i => trivial
  | hearing i eh k st => trivial
  | telling bh k st fails => trivial
  | told bh last fails => trivial

/-- A calm call will not hand over anything it put into the queue. -/
theorem calm_not_pending (hc : calm w t f = true) : f.pending ≠ true := by
  cases f <;> first | exact Bool.false_ne_true | cases hc

/-- The shard that is shut down holds nothing when it is freed, so nothing waits. -/
theorem Inv.nothing_waits (hi : Inv s) (hlt : i < s.w.b.sh.length) (hlive : (s.w.eng i).live = [])
    (hidle : s.shardIdle i = true) (hcalm : ∀ c ∈ s.calls, calm s.w c.1 c.2 = true) :
    s.w.b.queued = 0 := by
  obtain ⟨out, hb⟩ := hi.books
  have hset : Settled s.w.b := by
    rcases hi.settled with hset | ⟨c, hc, hp⟩
    · exact hset
    · exact absurd hp (calm_not_pending (hcalm c hc))
  have hs := getElem?_eq_getElem hlt
  -- no event of the shard is on its way, since none of its threads is in a call
  have hrows : rows i out = [] := by
    refine eq_nil_iff_forall_not_mem.mpr fun row hrow => ?_
    obtain ⟨eh, bh⟩ := row
    rcases hb.reach _ (mem_rows hrow) with hl | hfl
    · have hl' : eh ∈ (s.w.eng i).live := hl
      rw [hlive] at hl'
      cases hl'
    · obtain ⟨c, hc, hbr⟩ := mem_flatMap.mp hfl
      obtain ⟨t, f⟩ := c
      cases f with
      | hearing j eh' k st =>
        have hown : Thread.ofShard j t = true := hcalm _ hc
        have hidle' := all_eq_true.mp hidle _ hc
        have hij : i ≠ j := by
          cases t with
          | host n => cases hown
          | shard j' n =>
            have hj : j = j' := of_decide_eq_true hown
            exact hj ▸ of_decide_eq_true hidle'
        have hbr' : (i, eh) ∈ if lastEvent k st then [(j, eh')] else [] := hbr
        split_ifs at hbr' with hk
        · exact hij (Prod.mk.inj (mem_singleton.mp hbr')).1
        · cases hbr'
      | _ => cases hbr
  have hload := (hb.shards i _ hs).load
  rw [hrows] at hload
  exact hi.none_queued hset (mem_of_getElem? hs) hload

/-- A submit looks its task up. -/
theorem Safe.submit (hs : Safe s) (hi : Inv s) (hpool : s.pool = none) {task : Name}
    {payload : List UInt8} {prio : ℤ} {found : Lookup}
    (hact : s.act (.submit t task payload prio found) = some s') : Safe s' := by
  cases hact
  have hlookup : (lookup s.w task found).1.eng = s.w.eng ∧
      ∀ i x, Act.called i x ∈ (lookup s.w task found).1.trace → Act.called i x ∈ s.w.trace ∨
        x = decide ((s.w.eng i).phase = .freed) := by
    unfold lookup
    split_ifs
    · exact ⟨rfl, fun _ _ h => .inl h⟩
    · exact ⟨rfl, call_noted⟩
    · exact ⟨rfl, fun i x hx => (call_noted i x hx).elim (call_noted i x) .inr⟩
  refine hs.before hi hpool (fun i => ?_) hlookup.2
  show ((lookup s.w task found).1.eng i).phase ≠ .freed
  rw [hlookup.1]
  exact none_freed hi hpool i

/-- A cancel takes the lock and drops it. -/
theorem Safe.cancel (hs : Safe s) (hi : Inv s) {h : Handle} (hact : s.act (.cancel t h) = some s') :
    Safe s' := by
  obtain ⟨out, hb⟩ := hi.books
  obtain ⟨p, hp, rfl⟩ := Option.map_eq_some_iff.mp hact
  refine hs.quiet ?_
  show Quiet s.w p.1
  rcases hb.cancelLocked h with hnone | ⟨w', hwait, heng, hsh, hq, htrace, -⟩ | ⟨i, eh, hshard, -⟩
  · cases hnone.symm.trans hp
    exact .refl s.w
  · cases hwait.symm.trans hp
    exact .of_eq (congrArg (map Shard.cap) hsh) heng (hq ▸ Nat.sub_le _ _) fun _ _ h => htrace ▸ h
  · cases hshard.symm.trans hp
    exact .refl s.w

/-- An event is on its way. -/
theorem Safe.event (hs : Safe s) {eh : Handle} {k : EvKind} {st : Status}
    (ha : s.allowed (.event t i eh k st) = true) (hact : s.act (.event t i eh k st) = some s') :
    Safe s' := by
  unfold Sys.allowed at ha
  simp only [Bool.and_eq_true, decide_eq_true_eq] at ha
  obtain ⟨⟨⟨-, hphase⟩, -⟩, -⟩ := ha
  rw [Sys.act] at hact
  by_cases hk : k = .queued
  · rw [if_pos hk] at hact
    cases hact
    exact hs
  · rw [if_neg hk] at hact
    cases hact
    refine hs.quiet ?_
    cases hlast : lastEvent k st with
    | true => exact ⟨steady_event hphase eh, le_rfl, fun _ _ h => .inl h⟩
    | false => exact .refl s.w

/-- A call goes on. -/
theorem Safe.resume (hs : Safe s) (hi : Inv s) {n : ℕ} {c : Choice} (ha : s.allowed (.resume n c) = true)
    (ho : orderly s (.resume n c) = true) (hact : s.act (.resume n c) = some s') : Safe s' := by
  obtain ⟨t, f, w', r, hget, hact', -, hadv⟩ := hi.resume ha
  cases hact'.symm.trans hact
  by_cases hpool : s.pool = none
  · refine hs.before hi hpool (fun i => ?_) hadv.calls
    show (w'.eng i).phase ≠ .freed
    rw [hadv.steady.phases]
    exact none_freed hi hpool i
  · have hcalm := (orderly_closing ho hpool).1 _ (mem_of_getElem? hget)
    exact hs.quiet (hadv.quiet (calm_tame hcalm))

/-- An orderly step is safe. -/
theorem Safe.act (hs : Safe s) (hi : Inv s) (ha : s.allowed l = true) (ho : orderly s l = true)
    (hact : s.act l = some s') : Safe s' := by
  cases l with
  | submit t task payload prio found =>
    by_cases hpool : s.pool = none
    · exact hs.submit hi hpool hact
    · exact absurd rfl ((orderly_closing ho hpool).2 t task payload prio found)
  | cancel t h => exact hs.cancel hi hact
  | event t i eh k st => exact hs.event ha hact
  | direct i a =>
    cases hact
    exact hs.quiet ⟨steady_answered a rfl rfl, le_rfl, fun _ _ h => .inl h⟩
  | resume n c => exact hs.resume hi ha ho hact
  | poolClose =>
    obtain ⟨s'', hact', hinv⟩ := hi.poolClose ha
    cases hact'.symm.trans hact
    have hpool : s.pool = none := by
      unfold Sys.allowed at ha
      simp only [Bool.and_eq_true, decide_eq_true_eq] at ha
      exact ha.1.2
    obtain ⟨eng, heq, -⟩ := stop_eq s 0
    have hs' : s' = { s with w := { s.w with eng := eng }, pool := some 0 } :=
      (Option.some.inj hact).symm.trans heq
    refine hs.before hi hpool (fun i hfreed => ?_) fun i x hx => .inl ?_
    · obtain ⟨j, hj, hlt⟩ := (hinv.freed i).mp hfreed
      rw [hs'] at hj
      cases hj
      exact Nat.not_lt_zero i hlt
    · rw [hs'] at hx
      exact hx
  | poolNext =>
    by_cases hno : s.close = .no
    · obtain ⟨i, s'', hpool, hlt, hlive, hidle, hact', hinv, hb', htrace, -⟩ := hi.poolNext hno ha
      cases hact'.symm.trans hact
      have hcalm := (orderly_closing ho (by rw [hpool]; exact Option.some_ne_none i)).1
      have hzero := Inv.nothing_waits hi hlt hlive hidle hcalm
      exact ⟨fun j hmem => hs.calls j (htrace ▸ hmem), fun _ _ => by rw [hb']; exact hzero⟩
    · obtain ⟨-, hpool, -⟩ := hi.closing hno
      unfold Sys.allowed at ha
      rw [hpool] at ha
      simp only [Bool.and_eq_true, decide_eq_true_eq, lt_irrefl, false_and] at ha
  | balanceClose =>
    cases hact
    exact ⟨hs.calls, hs.empty⟩
  | closeStep =>
    obtain ⟨s'', hact', -, htrace, -, -, hq, -⟩ := hi.closeStep ha
    cases hact'.symm.trans hact
    exact ⟨fun j hmem => hs.calls j (htrace ▸ hmem), fun _ _ => hq⟩

theorem Safe.run (hs : Safe s) (hi : Inv s) {ls : List Label} (ho : runOrderly s ls = true)
    (hrun : s.run ls = some s') : Safe s' := by
  induction ls generalizing s with
  | nil =>
    cases hrun
    exact hs
  | cons l ls ih =>
    obtain ⟨s₁, hstep, hrest⟩ := Option.bind_eq_some_iff.mp hrun
    have hstep' := hstep
    unfold Sys.step at hstep'
    split_ifs at hstep' with ha
    unfold runOrderly at ho
    rw [hstep, Bool.and_eq_true] at ho
    exact ih (hs.act hi ha ho.1 hstep') (hi.step hstep) ho.2 hrest

end Invariant

section Results

/-- In every run whose steps are orderly no engine is called after its shutdown returned. -/
theorem no_call_after_shutdown (depth : ℕ) (pool : List Workers) (s₀ s : Sys) (ls : List Label)
    (hopen : gptpsBalanceOpen depth pool = some s₀) (ho : runOrderly s₀ ls = true)
    (hrun : s₀.run ls = some s) (i : ℕ) : Act.called i true ∉ s.w.trace := by
  have hi := reached_inv hopen (show s₀.run [] = some s₀ from rfl)
  have hs : Safe s₀ := by
    unfold gptpsBalanceOpen at hopen
    split_ifs at hopen with hp
    cases hopen
    exact ⟨fun _ h => (nomatch h), fun _ _ => rfl⟩
  exact (hs.run hi ho hrun).calls i

/-- Two items go to two shards, and the pool is closed while they run. -/
def twoShards : List Label :=
  [.submit (.host 0) [97] [] 0 {}, .resume 0 {}, .resume 0 {}, .resume 0 {}, .resume 0 {},
    .submit (.host 0) [97] [] 0 {}, .resume 0 {}, .resume 0 {}, .resume 0 {}, .resume 0 {},
    .poolClose, .event (.shard 0 0) 0 1 .finished .ok, .resume 0 {}, .resume 0 {}, .resume 0 {},
    .resume 0 {}, .poolNext, .event (.shard 1 0) 1 1 .finished .ok, .resume 0 {}, .resume 0 {}]

theorem no_call_after_shutdown_two : ∃ s, (opened 1 [two, two]).run twoShards = some s ∧
    (s.w.eng 0).phase = .freed ∧ Act.called 0 true ∉ s.w.trace := by
  have hrun : ((opened 1 [two, two]).run twoShards).map (fun s => (s.w.eng 0).phase) = some .freed := by
    decide +kernel
  obtain ⟨s, hs, hfreed⟩ := Option.map_eq_some_iff.mp hrun
  exact ⟨s, hs, hfreed, no_call_after_shutdown 1 [two, two] _ s twoShards rfl (by decide +kernel) hs 0⟩

/-- The engine of shard 0 was called after its shutdown returned. -/
def calledLate : Act → Bool
  | .called i freed => i = 0 && freed
  | _ => false

/-- The callback of the second item's last event submits an item: the lookup goes to shard 0, which
was freed. -/
theorem callback_reaches_freed_shard : ∃ s, (opened 1 [two, two]).run
    (twoShards ++ [.submit (.shard 1 0) [97] [] 0 {}]) = some s ∧ Act.called 0 true ∈ s.w.trace := by
  have hrun : ((opened 1 [two, two]).run (twoShards ++ [.submit (.shard 1 0) [97] [] 0 {}])).map
      (fun s => s.w.trace.any calledLate) = some true := by decide +kernel
  obtain ⟨s, hs, hany⟩ := Option.map_eq_some_iff.mp hrun
  obtain ⟨a, ha, hlate⟩ := any_eq_true.mp hany
  refine ⟨s, hs, ?_⟩
  cases a with
  | called i freed =>
    have hlate' : (i = 0 && freed) = true := hlate
    rw [Bool.and_eq_true, decide_eq_true_eq] at hlate'
    obtain ⟨rfl, rfl⟩ := hlate'
    exact ha
  | accepted bh | event bh k st | handed b e i => cases hlate

end Results

end Gptps.BalanceClosing
