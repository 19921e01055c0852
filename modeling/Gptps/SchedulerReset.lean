import Gptps.AdmissionOrder
import Gptps.PassOrigins

/-!
# Taking the scheduler hook away

The key that orders intake is stored in each item: a submit sets it to the priority, and a pass with a hook
installed writes the hook's score over it. `gptps_set_scheduler` without a hook only clears the hook; no pass
scores an item again, so what the hook wrote stays in force for every item it scored. If each live item is at
its priority when the hook goes, every later admission takes the item of highest priority that fits, and the
oldest of these.
-/

namespace Gptps.SchedulerReset

open EngineState EngineStore EnginePass EngineApi EngineSystem DeskStore SystemInvariant List
open IntakeOrder AdmissionOrder ItemOrigins PassStages PassOrigins EngineFrames

/-- Every live item is ordered by its priority. -/
def Unscored (e : Engine) : Prop := ∀ q ≠ QId.dead, ∀ x ∈ e.q q, x.schedScore = x.priority

/-- The order without a hook. -/
def Outranks (a b : Item) : Prop :=
  b.priority < a.priority ∨ a.priority = b.priority ∧ a.intakeSeq < b.intakeSeq

/-- Whether a step installs a hook. -/
def installs : Label → Bool
  | .setting (.scheduler v) => v
  | _ => false

section Passes

variable {inp : PassIn} {e : Engine} {ps ps' : PassState}

/-- Without a hook nothing is scored. -/
theorem scored_unscored (hno : e.schedFn = false) (h : Unscored e) : Unscored (passScored inp e).e := by
  have hcarries : Carries fun _ x => x.schedScore = x.priority :=
    ⟨fun q x y hkin hx => hkin.score.trans (hx.trans hkin.priority.symm), fun x hx => hx, fun x hx => hx⟩
  have hfixed := (settle_settling inp e).fixed
  have hno' : (passSettle inp e).e.schedFn = false := by
    rw [hfixed]
    exact hno
  have hsame : passScored inp e = passSettle inp e := by
    unfold passScored rescore
    rw [if_pos (.inr (.inl (by rw [hno']; exact Bool.false_ne_true)))]
  rw [hsame]
  exact (settle_every hcarries inp h).queues

/-- Rounds of admission do not score either. -/
theorem visits_unscored (hv : Visits inp ps ps') (h : Unscored ps.e) : Unscored ps'.e := by
  induction hv with
  | here => exact h
  | @next ps₁ ps₂ top _ _ hgo ih =>
    intro q hq y hy
    cases round_brings hgo q hq y hy with
    | stay hy => exact ih q hq y hy
    | @charge x hx =>
      unfold chargeSkip
      split_ifs <;> exact ih .intake (by decide) x hx
    | @defer it _ hit | @admitted it _ hit => exact ih .intake (by decide) it hit

/-- Nor does a pass. -/
theorem pass_unscored (inp : PassIn) (hno : e.schedFn = false) (h : Unscored e) :
    Unscored (enginePass inp e).e := by
  obtain ⟨ps, hvisits, hq⟩ := pass_visits inp e
  intro q hne y hy
  rw [hq q hne] at hy
  exact visits_unscored hvisits (scored_unscored hno h) q hne y hy

end Passes

section Runs

variable {s s' s'' : Sys} {l : Label} {ls : List Label} {inp : PassIn}

/-- No hook is installed and none is to be seen. -/
def Plain (s : Sys) : Prop := s.shut = .returned ∨ s.e.schedFn = false ∧ Unscored s.e

/-- Only one step installs a hook. -/
theorem step_unhooked (hstep : step s l = some s') (hl : installs l = false)
    (hno : s.e.schedFn = false) : s'.shut = .returned ∨ s'.e.schedFn = false := by
  cases hturns : turnsKnobs l with
  | false => exact .inr ((congrArg Prod.fst (step_knobs hstep hturns)).trans hno)
  | true =>
    unfold turnsKnobs at hturns
    split at hturns
    · rename_i x
      rw [setting_engine hstep]
      cases x with
      | scheduler v =>
        cases v with
        | false => exact .inr rfl
        | true => cases hl
      | _ => exact .inr hno
    · rename_i now
      have hrest := (shutdownBegin_apart s.e now).knobs
      rw [← halt_engine hstep] at hrest
      exact .inr ((congrArg Prod.fst hrest).trans hno)
    · exact .inl (end_shut hstep)
    · cases hturns

/-- Every other step leaves the order by priority. -/
theorem Plain.step (hs : Reachable s) (h : Plain s) (hl : installs l = false)
    (hstep : EngineSystem.step s l = some s') : Plain s' := by
  obtain ⟨hno, hscores⟩ := h.resolve_left (step_up hstep)
  rcases step_unhooked hstep hl hno with hret | hno'
  · exact .inl hret
  refine .inr ⟨hno', ?_⟩
  cases hpass : isPass l with
  | false =>
    intro q hq y hy
    rcases step_older hs hpass hstep q hq y hy with ⟨q', hq', x, hx, -, -, hstill⟩ | ⟨-, hfresh⟩
    · rw [hstill.score, hstill.priority]
      exact hscores q' hq' x hx
    · exact hfresh.score
  | true =>
    unfold isPass at hpass
    split at hpass
    · rename_i inp
      intro q hq y hy
      rw [(step_passes hstep).queues] at hy
      exact pass_unscored inp hno hscores q hq y hy
    · cases hpass

/-- So does every other run. -/
theorem Plain.run (hs : Reachable s) (h : Plain s) (hls : ∀ l ∈ ls, installs l = false)
    (hrun : EngineSystem.run s ls = some s') : Plain s' :=
  run_kept (fun _ _ _ hs hl h => h.step hs hl) hs hls h hrun

/-- The first item a scan of intake finds comes before all that it could have found. -/
theorem scan_first {P : Item → Bool} {l : List Item} {b : Item} (h : Ordered l) (hf :
    fullScan P l = some b) :
    b ∈ l ∧ P b = true ∧ ∀ y ∈ l, P y = true → y = b ∨ Precedes b y := by
  rw [fullScan_eq h] at hf
  obtain ⟨hb, as, bs, rfl, hbefore⟩ := find?_eq_some_iff_append.mp hf
  refine ⟨mem_append_right _ mem_cons_self, hb, ?_⟩
  intro y hy hyP
  rcases mem_append.mp hy with hy | hy
  · have hno := hbefore y hy
    rw [hyP] at hno
    cases hno
  · rcases mem_cons.mp hy with rfl | hy
    · exact .inl rfl
    · exact .inr (rel_of_pairwise_cons (pairwise_append.mp h).2.1 hy)

/-- Where every live item was at its priority when the hook was taken away, and no hook is installed
again, each admission compares the queued item of highest priority, the oldest of these, with the one
of highest priority among those that fit, the oldest of these. -/
theorem reset_restores_priority_order {s₀ : Sys} (hs : Reachable s₀) (hscores : Unscored s₀.e)
    (hreset : step s₀ (.setting (.scheduler false)) = some s)
    (hls : ∀ l ∈ ls, installs l = false) (hrun : run s ls = some s')
    (hpass : step s' (.pass inp) = some s'') :
    ∀ a ∈ stepAdmissions s' (.pass inp),
      (a.top ∈ a.before.q .intake ∧ ∀ y ∈ a.before.q .intake, y = a.top ∨ Outranks a.top y) ∧
      (a.best ∈ a.before.q .intake ∧ fitsNow a.before a.best.toCore = true ∧
        ∀ y ∈ a.before.q .intake, fitsNow a.before y.toCore = true → y = a.best ∨ Outranks a.best y) := by
  have hs₁ := reachable_step hs hreset
  have hplain : Plain s := by
    right
    rw [setting_engine hreset]
    exact ⟨rfl, hscores⟩
  obtain ⟨hno, hunscored⟩ := (hplain.run hs₁ hls hrun).resolve_left (step_up hpass)
  intro a ha
  obtain ⟨hordered, htop, hbest⟩ := step_ruled (reachable_run hs₁ hrun) hpass a ha
  obtain ⟨ps, hvisits, hadm⟩ := pass_admits ha
  have hkeys : ∀ y ∈ a.before.q .intake, y.schedScore = y.priority := by
    rw [hadm.before]
    exact visits_unscored hvisits (scored_unscored hno hunscored) .intake (by decide)
  have hrank : ∀ x y, x ∈ a.before.q .intake → y ∈ a.before.q .intake → Precedes x y → Outranks x y := by
    intro x y hx hy hp
    unfold Precedes at hp
    rw [hkeys x hx, hkeys y hy] at hp
    exact hp
  obtain ⟨htmem, -, htfirst⟩ := scan_first hordered htop
  obtain ⟨hbmem, hbfits, hbfirst⟩ := scan_first hordered hbest
  refine ⟨⟨htmem, fun y hy => ?_⟩, hbmem, hbfits, fun y hy hfits => ?_⟩
  · exact (htfirst y hy rfl).imp_right (hrank a.top y htmem hy)
  · exact (hbfirst y hy hfits).imp_right (hrank a.best y hbmem hy)

/-- Two items are queued under a hook, and a pass admits one of them. -/
def hookedRun (score : Item → ℤ) : List Label :=
  sampleType false 600 ++ sampleAt 7 0 ++ sampleAt 8 5 ++
    [.setting (.scheduler true), .pass { samplePass 10 with score := score }]

/-- An item of a priority between the two is submitted, and the one admitted ends. -/
def unhookedRun (p : Ptr) : List Label := sampleAt 9 3 ++ sampleAttempt p .ok

/-- Where the hook gave each item its priority, the item of higher priority goes first after it. -/
theorem reset_restores_priority_order_queued :
    ((sampled (hookedRun fun it => it.priority)).e.q .intake).map (·.priority) = [0] ∧
    (stepAdmissions (sampled (hookedRun (fun it => it.priority) ++ [.setting (.scheduler false)] ++
      unhookedRun 8)) (.pass (samplePass 20))).map (·.best.priority) = [3] ∧
    ∀ a ∈ stepAdmissions (sampled (hookedRun (fun it => it.priority) ++ [.setting (.scheduler false)] ++
      unhookedRun 8)) (.pass (samplePass 20)),
      (a.top ∈ a.before.q .intake ∧ ∀ y ∈ a.before.q .intake, y = a.top ∨ Outranks a.top y) ∧
      (a.best ∈ a.before.q .intake ∧ fitsNow a.before a.best.toCore = true ∧
        ∀ y ∈ a.before.q .intake, fitsNow a.before y.toCore = true → y = a.best ∨ Outranks a.best y) := by
  have hscores : ∀ q, ∀ x ∈ (sampled (hookedRun fun it => it.priority)).e.q q,
      x.schedScore = x.priority := by
    intro q
    cases q <;> decide +kernel
  exact ⟨by decide +kernel, by decide +kernel,
    reset_restores_priority_order (reachable_ranTo (by decide +kernel)) (fun q _ => hscores q)
      (step_from_ranTo (by decide +kernel)) (by decide) (run_from_ranTo (by decide +kernel))
      (step_from_ranTo (by decide +kernel))⟩

/-- A hook that puts the second item last. -/
def lastScore (it : Item) : ℤ := if it.handle = 1 then 1 else -1

/-- A pass admits the item of priority 3 where the one of priority 5 fits as well. -/
theorem reset_keeps_hook_scores : ∃ s₀ s s' : Sys, Reachable s₀ ∧
    step s₀ (.setting (.scheduler false)) = some s ∧ run s (unhookedRun 7) = some s' ∧
    (∀ l ∈ unhookedRun 7, installs l = false) ∧ (step s' (.pass (samplePass 20))).isSome = true ∧
    ∃ a ∈ stepAdmissions s' (.pass (samplePass 20)), ∃ y ∈ a.before.q .intake,
      fitsNow a.before y.toCore = true ∧ a.best.priority = 3 ∧ y.priority = 5 := by
  refine ⟨sampled (hookedRun lastScore), _, _, reachable_ranTo (by decide +kernel),
    step_from_ranTo (by decide +kernel), run_from_ranTo (by decide +kernel), by decide,
    by decide +kernel, ?_⟩
  have hany : (stepAdmissions (sampled
      (hookedRun lastScore ++ [.setting (.scheduler false)] ++ unhookedRun 7)) (.pass (samplePass 20))).any
      (fun a => (a.before.q .intake).any fun y => fitsNow a.before y.toCore = true ∧
        a.best.priority = 3 ∧ y.priority = 5) = true := by decide +kernel
  obtain ⟨a, ha, hy⟩ := any_eq_true.mp hany
  obtain ⟨y, hy, hrest⟩ := any_eq_true.mp hy
  exact ⟨a, ha, y, hy, of_decide_eq_true hrest⟩

end Runs

end Gptps.SchedulerReset
