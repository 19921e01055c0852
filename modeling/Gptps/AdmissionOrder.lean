import Gptps.SystemInvariant

/-!
# Ordered intake refines the scan of the whole queue

Admission used to look at every queued item for the best one. Intake is now kept
in admission order, with a bounded cache of run tails, so the first item is the
best of all and the first that fits is the best of those that fit. Both the order
and the cache hold after every sequence of the operations on intake, and so at
every admission of every run.
-/

namespace Gptps.AdmissionOrder

open Function LinkedQueue EngineState EngineStore EnginePass EngineApi EngineSystem ItemLife List
open IntakeOrder StoreInvariant EngineDesk DeskStore DeskLife ApiDesk SystemDesk SystemInvariant

/-- A candidate takes the place of the best so far: a higher score, or the same and an
earlier entry. -/
def better (cur best : Item) : Bool :=
  best.schedScore < cur.schedScore ||
    (cur.schedScore = best.schedScore && cur.intakeSeq < best.intakeSeq)

/-- One item of the scan. -/
def scanOne (P : Item → Bool) (best : Option Item) (cur : Item) : Option Item :=
  if P cur then
    match best with
    | none => some cur
    | some b => if better cur b then some cur else some b
  else best

/-- The scan of the whole queue for the best item with a property. -/
def fullScan (P : Item → Bool) (l : List Item) : Option Item := l.foldl (scanOne P) none

section Scan

variable {P : Item → Bool} {l : List Item} {e : Engine} {it : Item}

/-- What stands behind the best so far does not replace it. -/
theorem scan_keeps {b : Item} (h : ∀ x ∈ l, Precedes b x) : l.foldl (scanOne P) (some b) = some b := by
  induction l with
  | nil => rfl
  | cons x xs ih =>
    have hx : better x b = false := by
      have hp := h x mem_cons_self
      unfold Precedes at hp
      simp only [better, Bool.or_eq_false_iff, Bool.and_eq_false_iff, decide_eq_false_iff_not]
      omega
    have hone : scanOne P (some b) x = some b := by
      simp only [scanOne, hx, Bool.false_eq_true, if_false, ite_self]
    rw [foldl_cons, hone]
    exact ih fun y hy => h y (mem_cons_of_mem _ hy)

/-- In admission order, the scan of the whole queue finds the first item. -/
theorem fullScan_eq (h : Ordered l) : fullScan P l = l.find? P := by
  induction l with
  | nil => rfl
  | cons x xs ih =>
    obtain ⟨hx, hxs⟩ := pairwise_cons.mp h
    unfold fullScan
    rw [foldl_cons]
    cases hp : P x with
    | false =>
      have hone : scanOne P none x = none := by rw [scanOne, hp]; rfl
      rw [hone, find?_cons_of_neg (by rw [hp]; decide)]
      exact ih hxs
    | true =>
      have hone : scanOne P none x = some x := by rw [scanOne, hp]; rfl
      rw [hone, find?_cons_of_pos hp]
      exact scan_keeps hx

/-- The walk stops at the first item that fits, if nothing up to it can never fit. -/
theorem scanIntake_best (e : Engine) (l : List Item) (it : Item) :
    scanIntake e l = .best it ↔ ∃ l₁ l₂, l = l₁ ++ it :: l₂ ∧
      (∀ x ∈ l₁ ++ [it], resNeverFits e x.toCore = false) ∧
      (∀ x ∈ l₁, fitsNow e x.toCore = false) ∧ fitsNow e it.toCore = true := by
  induction l with
  | nil =>
    constructor
    · intro h
      cases h
    · intro h
      obtain ⟨l₁, l₂, hl, -⟩ := h
      cases l₁ <;> cases hl
  | cons x xs ih =>
    unfold scanIntake
    constructor
    · intro h
      split_ifs at h with hnever hfits
      · cases h
        refine ⟨[], xs, rfl, ?_, forall_mem_nil _, hfits⟩
        intro y hy
        rw [mem_singleton.mp hy]
        exact Bool.eq_false_of_not_eq_true hnever
      · obtain ⟨l₁, l₂, hl, hnone, hno, hit⟩ := ih.mp h
        refine ⟨x :: l₁, l₂, by rw [hl]; rfl, ?_, ?_, hit⟩
        · intro y hy
          rcases mem_cons.mp hy with rfl | hy
          · exact Bool.eq_false_of_not_eq_true hnever
          · exact hnone y hy
        · intro y hy
          rcases mem_cons.mp hy with rfl | hy
          · exact Bool.eq_false_of_not_eq_true hfits
          · exact hno y hy
    · intro h
      obtain ⟨l₁, l₂, hl, hnone, hno, hit⟩ := h
      cases l₁ with
      | nil =>
        cases hl
        rw [hnone it mem_cons_self, hit]
        rfl
      | cons y ys =>
        cases hl
        rw [hnone x mem_cons_self, hno x mem_cons_self]
        exact ih.mpr ⟨ys, l₂, rfl, fun z hz => hnone z (mem_cons_of_mem _ hz),
          fun z hz => hno z (mem_cons_of_mem _ hz), hit⟩

/-- Admission's walk over ordered intake picks what the scan of the whole queue for an
item that fits would, when no item up to that one can never fit. -/
theorem scan_refines (h : Ordered l) (hnd : (l.map (·.ptr)).Nodup) : scanIntake e l = .best it ↔
    fullScan (fun x => fitsNow e x.toCore) l = some it ∧
      ∃ l₁ l₂, l = l₁ ++ it :: l₂ ∧ ∀ x ∈ l₁ ++ [it], resNeverFits e x.toCore = false := by
  rw [scanIntake_best, fullScan_eq h]
  constructor
  · intro hscan
    obtain ⟨l₁, l₂, hl, hnone, hno, hit⟩ := hscan
    refine ⟨?_, l₁, l₂, hl, hnone⟩
    rw [find?_eq_some_iff_append]
    refine ⟨hit, l₁, l₂, hl, ?_⟩
    intro x hx
    rw [hno x hx]
    rfl
  · intro hfull
    obtain ⟨hfind, k₁, k₂, hk, hnone⟩ := hfull
    obtain ⟨hit, l₁, l₂, hl, hno⟩ := find?_eq_some_iff_append.mp hfind
    rw [hl] at hnd
    obtain ⟨rfl, -, rfl⟩ := split_unique hnd (hl.symm.trans hk) rfl
    refine ⟨k₁, k₂, hl, hnone, ?_, hit⟩
    intro x hx
    exact Bool.eq_false_of_not_eq_true fun hf => by simpa [hf] using hno x hx

end Scan

/-- The operations on intake. -/
inductive IntakeOp
  /-- An item enters in order. -/
  | insert (it : Item)
  /-- The item at an address is unlinked. -/
  | unlink (p : Ptr)
  /-- Up to `n` items are popped off the head, and the cache is reset behind them. -/
  | popHeads (n : ℕ)
  /-- The cache is reset. -/
  | forget
  /-- The scheduler hook gives every item a score, and intake is sorted again. -/
  | rescore (score : Item → ℤ)

/-- Pop items off the head of intake. -/
def popIntake : ℕ → Engine → Engine
  | 0, e => e
  | n + 1, e =>
    match fifoPop e .intake with
    | none => e
    | some r => popIntake n r.2

/-- Run one operation; an item is inserted only while it is in no queue, and unlinked
only while it is in intake. -/
def IntakeOp.run (e : Engine) : IntakeOp → Option Engine
  | .insert it => if it.ptr ∈ addrs (e.q .intake) then none else some (intakeInsert e it)
  | .unlink p => ((e.q .intake).find? fun it => it.ptr = p).map (intakeUnlink e)
  | .popHeads n => some (intakeForget (popIntake n e))
  | .forget => some (intakeForget e)
  | .rescore f => some (intakeResort (mapQueue e .intake fun it => { it with schedScore := f it }))

/-- Run a sequence of operations. -/
def runOps (e : Engine) : List IntakeOp → Option Engine
  | [] => some e
  | op :: ops => (op.run e).bind fun e' => runOps e' ops

/-- Intake is in order, its cache describes it, its links represent it, and every sort so
far has ended. -/
structure Intake (e : Engine) : Prop where
  /-- Order and cache. -/
  ok : IntakeOk (e.q .intake) e.runs e.intakeSeq
  /-- The links. -/
  rep : Rep e.links (e.anchor .intake) (addrs (e.q .intake))
  /-- No sort hangs. -/
  ends : e.hung = false

section Ops

variable {e e' : Engine}

/-- Popping the head. -/
theorem popIntake_spec (n : ℕ) (h : Intake e) : (popIntake n e).intakeSeq = e.intakeSeq ∧
    (popIntake n e).hung = false ∧ ((popIntake n e).q .intake).Sublist (e.q .intake) ∧
    Rep (popIntake n e).links ((popIntake n e).anchor .intake) (addrs ((popIntake n e).q .intake)) := by
  have hgen : ∀ n (e : Engine), e.hung = false → Rep e.links (e.anchor .intake) (addrs (e.q .intake)) →
      (popIntake n e).intakeSeq = e.intakeSeq ∧ (popIntake n e).hung = false ∧
        ((popIntake n e).q .intake).Sublist (e.q .intake) ∧
        Rep (popIntake n e).links ((popIntake n e).anchor .intake)
          (addrs ((popIntake n e).q .intake)) := by
    intro n
    induction n with
    | zero => exact fun e he hrep => ⟨rfl, he, .refl _, hrep⟩
    | succ n ih =>
      intro e he hrep
      unfold popIntake fifoPop
      cases hq : e.q .intake with
      | nil =>
        exact ⟨rfl, he, by rw [hq], hrep⟩
      | cons it rest =>
        have hrep' : Rep e.links (e.anchor .intake) ([] ++ it.ptr :: addrs rest) := by
          rw [hq] at hrep
          exact hrep
        have hpop := remove_rep hrep'
        rw [← pop_eq_remove hrep'] at hpop
        simp only
        obtain ⟨hseq, hh, hsub, hr⟩ := ih { e with
          q := update e.q .intake rest
          links := (pop e.links (e.anchor .intake)).1
          anchor := update e.anchor .intake (pop e.links (e.anchor .intake)).2
          whereIs := update e.whereIs it.ptr .none } he
          (by simp only [update_self]; exact hpop)
        exact ⟨hseq, hh, hsub.trans (sublist_cons_self it rest), hr⟩
  exact hgen n e h.ends h.rep

/-- Rescoring ends, permutes intake and puts it in order. -/
theorem rescore_intake (h : Intake e) (f : Item → ℤ) :
    Intake (intakeResort (mapQueue e .intake fun it => { it with schedScore := f it })) ∧
      ((intakeResort (mapQueue e .intake fun it => { it with schedScore := f it })).q .intake).Perm
        ((e.q .intake).map fun it => { it with schedScore := f it }) := by
  have hent : Entered ((mapQueue e .intake fun it => { it with schedScore := f it }).q .intake)
      e.intakeSeq := by
    simp only [mapQueue, update_self]
    refine ⟨?_, ?_, ?_⟩
    · intro x hx
      obtain ⟨y, hy, rfl⟩ := mem_map.mp hx
      exact h.ok.stamped y hy
    · rw [map_map]
      exact h.ok.entries
    · rw [map_map]
      exact h.ok.nodup
  have hrep : Rep (mapQueue e .intake fun it => { it with schedScore := f it }).links
      ((mapQueue e .intake fun it => { it with schedScore := f it }).anchor .intake)
      (((mapQueue e .intake fun it => { it with schedScore := f it }).q .intake).map (·.ptr)) := by
    simp only [mapQueue, update_self, map_map]
    exact h.rep
  obtain ⟨m, a, k, heq, hperm, hord, hrep', -⟩ := intakeResort_spec hent hrep
  rw [heq]
  refine ⟨⟨?_, ?_, h.ends⟩, ?_⟩
  · exact resort_ok hent hperm hord
  · exact hrep'
  · exact hperm

/-- Every operation keeps intake in order. -/
theorem op_intake {op : IntakeOp} (h : Intake e) (hop : op.run e = some e') : Intake e' := by
  cases op with
  | insert it =>
    simp only [IntakeOp.run] at hop
    split_ifs at hop with hp
    cases hop
    refine ⟨intakeInsert_ok h.ok hp, ?_, h.ends⟩
    obtain ⟨l₁, l₂, hl, -, -, heq⟩ := intakeInsert_eq h.ok it
    have hrep := h.rep
    have haddr : addrs (e.q .intake) = addrs l₁ ++ addrs l₂ := by rw [hl]; exact map_append
    rw [haddr] at hrep hp
    have hnew := insertAfter_rep hrep hp
    rw [heq]
    simpa [addrs] using hnew
  | unlink p =>
    obtain ⟨it, hfind, rfl⟩ := Option.map_eq_some_iff.mp hop
    have hit := mem_of_find?_eq_some hfind
    refine ⟨intakeUnlink_ok h.ok hit, ?_, h.ends⟩
    obtain ⟨l₁, l₂, hl⟩ := append_of_mem hit
    rw [intakeUnlink_q h.ok.nodup hl]
    have hrep := h.rep
    rw [hl, addrs, map_append, map_cons] at hrep
    have hnew := remove_rep hrep
    rw [← map_append] at hnew
    exact hnew
  | popHeads n =>
    cases hop
    obtain ⟨hseq, hh, hsub, hrep⟩ := popIntake_spec n h
    refine ⟨?_, hrep, hh⟩
    have hok := h.ok.forget hsub
    rw [← hseq] at hok
    exact hok
  | forget =>
    cases hop
    exact ⟨h.ok.forget (.refl _), h.rep, h.ends⟩
  | rescore f =>
    cases hop
    exact (rescore_intake h f).1

/-- Every sequence of operations does. -/
theorem ops_intake {ops : List IntakeOp} (h : Intake e) (hops : runOps e ops = some e') : Intake e' := by
  induction ops generalizing e with
  | nil =>
    cases hops
    exact h
  | cons op ops ih =>
    obtain ⟨e₁, hop, hrest⟩ := Option.bind_eq_some_iff.mp hops
    exact ih (op_intake h hop) hrest

end Ops

section Admissions

variable {w : Bool} {d d' : Desk}

/-- An admission compared the best item of all and the best of those that fit. -/
def Chosen (a : Admission) : Prop :=
  fullScan (fun _ => true) (a.before.q .intake) = some a.top ∧
    fullScan (fun it => fitsNow a.before it.toCore) (a.before.q .intake) = some a.best

/-- An admission chosen so from intake in admission order. -/
def Ruled (a : Admission) : Prop := Ordered (a.before.q .intake) ∧ Chosen a

/-- Every admission of an act was. -/
theorem act_ruled (hd : DeskInv d) (h : Act w d d') : ∀ a ∈ d'.admissions, a ∈ d.admissions ∨ Ruled a := by
  have hsame : d'.admissions = d.admissions → ∀ a ∈ d'.admissions, a ∈ d.admissions ∨ Ruled a :=
    fun heq a ha => .inl (heq ▸ ha)
  cases h with
  | move hq hl hc hk hmem hm hev hland =>
    refine hsame ?_
    cases hland <;> rfl
  | @admission top it rest snap hs ht hb hr hsnap =>
    intro a ha
    rcases mem_append.mp ha with ha | ha
    · exact .inl ha
    · rw [mem_singleton.mp ha]
      refine .inr ⟨hd.sorted.ordered, ?_, ?_⟩
      · simp only
        rw [fullScan_eq hd.sorted.ordered, ht]
        rfl
      · exact ((scan_refines hd.sorted.ordered hd.sorted.entered.nodup).mp hb).1
  | rearrange hre => exact hsame hre.admissions
  | _ => exact hsame rfl

/-- Every admission of a sequence of acts. -/
theorem acts_ruled (hd : DeskInv d) (h : Acts w d d') : ∀ a ∈ d'.admissions, a ∈ d.admissions ∨
    Ruled a := by
  induction h with
  | refl => exact fun a ha => .inl ha
  | tail hacts hact ih =>
    intro a ha
    rcases act_ruled (acts_inv hd hacts) hact a ha with ha | hch
    · exact ih a ha
    · exact .inr hch

/-- Every admission of a step. -/
theorem step_ruled {s s' : Sys} {l : Label} (hs : Reachable s) (hstep : step s l = some s') :
    ∀ a ∈ stepAdmissions s l, Ruled a := by
  intro a ha
  have hinv := reachable_inv hs
  rcases acts_ruled hinv.desk (step_acts hinv.desk hinv.joined_running hstep) a ha with hno | hruled
  · cases hno
  · exact hruled

/-- Every sequence of inserts, unlinks, head pops with their cache reset, cache resets and
rescorings of an opened engine leaves intake in admission order with a cache that
describes it; at every admission of every run the two items compared are the ones a scan
of the whole queue would pick; the walk over ordered intake finds the best item that
fits exactly when nothing up to it can never fit; and the sort of a rescoring ends and
only permutes. -/
theorem intake_refines_full_scan :
    (∀ a ops e, runOps (openEngine a) ops = some e →
      Ordered (e.q .intake) ∧ CacheOk (e.q .intake) e.runs ∧ e.hung = false) ∧
    (∀ s, Reachable s → Ordered (s.e.q .intake) ∧ CacheOk (s.e.q .intake) s.e.runs) ∧
    (∀ s l s', Reachable s → step s l = some s' → ∀ a ∈ stepAdmissions s l, Chosen a) ∧
    (∀ e l it, Ordered l → (l.map (·.ptr)).Nodup → (scanIntake e l = .best it ↔
      fullScan (fun x => fitsNow e x.toCore) l = some it ∧
        ∃ l₁ l₂, l = l₁ ++ it :: l₂ ∧ ∀ x ∈ l₁ ++ [it], resNeverFits e x.toCore = false)) ∧
    (∀ a ops e f e', runOps (openEngine a) ops = some e → (IntakeOp.rescore f).run e = some e' →
      e'.hung = false ∧
        (e'.q .intake).Perm ((e.q .intake).map fun it => { it with schedScore := f it })) := by
  have hopen : ∀ a, Intake (openEngine a) := by
    intro a
    have hd := (init_inv a).desk
    exact ⟨hd.sorted.ok, hd.store.layout.rep .intake, hd.store.index.ends⟩
  refine ⟨?_, ?_, ?_, ?_, ?_⟩
  · intro a ops e hops
    have h := ops_intake (hopen a) hops
    exact ⟨h.ok.ordered, h.ok.cache, h.ends⟩
  · intro s hs
    have h := (reachable_inv hs).desk.sorted
    exact ⟨h.ordered, h.cache rfl⟩
  · exact fun s l s' hs hstep a ha => (step_ruled hs hstep a ha).2
  · exact fun e l it h hnd => scan_refines h hnd
  · intro a ops e f e' hops hop
    have h := ops_intake (hopen a) hops
    cases hop
    obtain ⟨hend, hperm⟩ := rescore_intake h f
    exact ⟨hend.ends, hperm⟩

/-- Two items of different priority are queued. -/
def queuedRun : List Label := sampleType false 600 ++ sampleAt 7 0 ++ sampleAt 8 5

/-- Of two queued items the later one of higher priority is chosen. -/
theorem intake_refines_full_scan_sample :
    (stepAdmissions (sampled queuedRun) (.pass (samplePass 10))).map (·.best.priority) = [5] ∧
    ∀ a ∈ stepAdmissions (sampled queuedRun) (.pass (samplePass 10)), Chosen a := by
  have hs : Reachable (sampled queuedRun) := reachable_ranTo (by decide +kernel)
  exact ⟨by decide +kernel,
    intake_refines_full_scan.2.2.1 _ _ _ hs (step_from_ranTo (by decide +kernel))⟩

end Admissions

end Gptps.AdmissionOrder
