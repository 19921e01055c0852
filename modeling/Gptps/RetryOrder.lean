import Gptps.CallsCalm
import Gptps.HandleEvents

/-!
# Retries in order

The STARTED and RETRIED events of one handle, in the order they are delivered, are cycles of attempts:
STARTED of the first, then for each further one RETRIED before STARTED, as many as the policy allows.
Another cycle follows only where the policy requeues the item. A RETRIED is delivered before the pass
begins in which its attempt can be admitted.
-/

namespace Gptps.RetryOrder

open Function EngineState EngineStore EnginePass EngineApi EngineSystem ItemLife DeskLife EngineDesk DeskStore
  List
open SystemDesk SystemInvariant HandleEvents ApiDesk PassStages PassRetries EngineFrames
open CallsCalm

section Scripts

variable {n : ℕ} {l : List (EvKind × ℕ)}

/-- One cycle of attempts with `m` retries, as it is told. -/
def cycle (m : ℕ) : List (EvKind × ℕ) :=
  (.started, 1) :: (range m).flatMap fun i => [(.retried, i + 2), (.started, i + 2)]

/-- So many cycles. -/
def cycles (k m : ℕ) : List (EvKind × ℕ) := (replicate k (cycle m)).flatten

/-- What is to come next. -/
inductive Pos
  /-- An attempt that was announced, or the first. -/
  | due (n : ℕ)
  /-- What follows from an attempt. -/
  | ran (n : ℕ)
  deriving DecidableEq, Repr

/-- What may be told of an item with a policy, and what is to come then. -/
inductive Script (p : Policy) : List (EvKind × ℕ) → Pos → Prop
  /-- The first attempt is to come. -/
  | nil : Script p [] (.due 1)
  /-- An attempt starts. -/
  | started {l : List (EvKind × ℕ)} {n : ℕ} (h : Script p l (.due n)) :
    Script p (l ++ [(.started, n)]) (.ran n)
  /-- A retry is announced. -/
  | retried {l : List (EvKind × ℕ)} {n : ℕ} (h : Script p l (.ran n)) (hn : n ≤ p.maxRetries.toNat) :
    Script p (l ++ [(.retried, n + 1)]) (.due (n + 1))
  /-- A new cycle begins. -/
  | again {l : List (EvKind × ℕ)} {n : ℕ} (h : Script p l (.ran n)) (hn : ¬ n ≤ p.maxRetries.toNat)
      (hp : p.onFailure = .requeue) : Script p l (.due 1)

theorem cycle_succ (m : ℕ) : cycle (m + 1) = cycle m ++ [(.retried, m + 2), (.started, m + 2)] := by
  rw [cycle, cycle, range_succ, flatMap_append]
  rfl

theorem cycle_le {m : ℕ} (h : n ≤ m) : cycle n <+: cycle m := by
  induction m with
  | zero => rw [Nat.le_zero.mp h]
  | succ m ih =>
    rcases Nat.lt_or_eq_of_le h with h | rfl
    · exact (ih (Nat.le_of_lt_succ h)).trans (by rw [cycle_succ]; exact prefix_append ..)
    · exact prefix_rfl

/-- What was told since the last cycle ended. -/
inductive Since (m : ℕ) : Pos → List (EvKind × ℕ) → Prop
  /-- Nothing. -/
  | nil : Since m (.due 1) []
  /-- The attempts up to one. -/
  | ran {n : ℕ} (hn : n ≤ m) : Since m (.ran (n + 1)) (cycle n)
  /-- And the retry that follows. -/
  | due {n : ℕ} (hn : n < m) : Since m (.due (n + 2)) (cycle n ++ [(.retried, n + 2)])

/-- What may be told is whole cycles and the beginning of one. -/
theorem Script.split {p : Policy} {x : Pos} (h : Script p l x) :
    ∃ k r, l = cycles k p.maxRetries.toNat ++ r ∧ Since p.maxRetries.toNat x r ∧
      (p.onFailure ≠ .requeue → k = 0) := by
  induction h with
  | nil => exact ⟨0, [], rfl, .nil, fun _ => rfl⟩
  | started h ih =>
    obtain ⟨k, r, rfl, hr, hk⟩ := ih
    refine ⟨k, r ++ [(.started, _)], by rw [append_assoc], ?_, hk⟩
    cases hr with
    | nil => exact .ran (Nat.zero_le _)
    | due hn =>
      rw [append_assoc]
      have := Since.ran (m := p.maxRetries.toNat) hn
      rwa [cycle_succ] at this
  | retried h hn ih =>
    obtain ⟨k, r, rfl, hr, hk⟩ := ih
    refine ⟨k, r ++ [(.retried, _)], by rw [append_assoc], ?_, hk⟩
    cases hr with
    | ran _ => exact .due hn
  | again h hn hp ih =>
    obtain ⟨k, r, rfl, hr, hk⟩ := ih
    cases hr with
    | @ran n hle =>
      have heq : n = p.maxRetries.toNat := by omega
      subst heq
      refine ⟨k + 1, [], ?_, .nil, fun hne => absurd hp hne⟩
      rw [cycles, cycles, replicate_succ', flatten_append, append_nil]
      simp

/-- So it is a beginning of cycles, and of one if the policy does not requeue. -/
theorem Script.prefix_cycles {p : Policy} {x : Pos} (h : Script p l x) :
    ∃ k, l <+: cycles k p.maxRetries.toNat ∧ (p.onFailure ≠ .requeue → k = 1) := by
  obtain ⟨k, r, rfl, hr, hk⟩ := h.split
  refine ⟨k + 1, ?_, fun hne => by rw [hk hne]⟩
  have hstep : cycles (k + 1) p.maxRetries.toNat =
      cycles k p.maxRetries.toNat ++ cycle p.maxRetries.toNat := by
    rw [cycles, cycles, replicate_succ', flatten_append]
    simp
  rw [hstep, prefix_append_right_inj]
  cases hr with
  | nil => exact nil_prefix
  | ran hn => exact cycle_le hn
  | due hn =>
    refine IsPrefix.trans ?_ (cycle_le hn)
    rw [cycle_succ]
    exact (prefix_append_right_inj _).mpr ⟨[(.started, _)], rfl⟩

/-- A retry that is due was announced last. -/
theorem Script.last {p : Policy} (h : Script p l (.due n)) (hn : n ≠ 1) :
    l.getLast? = some (.retried, n) := by
  cases h with
  | nil | again => exact absurd rfl hn
  | retried h hle => rw [getLast?_concat]

end Scripts

section Doomed

variable {L L' : Life}

/-- A finished item that was not started is discarded. -/
def Doomed (L : Life) : Prop :=
  ∀ x ∈ L.items, x.1 = .queue .done → x.2.started = false →
    x.2.outcome = .cancelled ∧ unstartable L.reg x.2 = true

variable {reg : RegId → Reg} {stopping : Bool} {p : Place} {c c' : Core} {ns : List (EvKind × Status)}

/-- The moves to `done`. -/
theorem Move.doomed (h : Move reg stopping p c (some (.queue .done)) c' ns)
    (hok : ItemOk reg stopping p c)
    (hold : p = .queue .done → c.started = false → c.outcome = .cancelled ∧ unstartable reg c = true)
    (hs : c'.started = false) : c'.outcome = .cancelled ∧ unstartable reg c' = true := by
  cases h with
  | skip _ hm => exact ⟨rfl, hm⟩
  | post => exact absurd (hok.ran rfl) (Bool.eq_false_iff.mp hs)
  | stop => exact ⟨(hold rfl hs).1, rfl⟩

/-- Every step keeps it. -/
theorem doomed_step (hi : Inv L) (hd : Doomed L) (h : Step L L') : Doomed L' := by
  intro x hx hq hs
  cases ItemHistory.step_origin h hx with
  | stayed hx =>
    obtain ⟨hrem, hcan, -⟩ := ItemHistory.removed_mono hi h hx
    obtain ⟨ho, hu⟩ := hd x hx hq hs
    exact ⟨ho, ItemHistory.unstartable_mono hrem hcan hu⟩
  | moved hmem hm hreg hstop =>
    rw [hreg]
    rw [hq] at hm
    exact Move.doomed hm (hi.items _ hmem) (fun hp => hd _ hmem hp) hs
  | started hmem hst hx =>
    subst hx
    cases hq
  | entered hx =>
    rw [hx] at hq
    cases hq

/-- So does a sequence of steps. -/
theorem doomed_steps (hi : Inv L) (hd : Doomed L) (h : Steps L L') : Inv L' ∧ Doomed L' := by
  induction h with
  | refl => exact ⟨hi, hd⟩
  | tail _ hstep ih => exact ⟨hstep.inv ih.1, doomed_step ih.1 ih.2 hstep⟩

/-- In every reachable state. -/
theorem reachable_doomed {s : Sys} (h : Reachable s) : Doomed (life (desk s)) := by
  obtain ⟨a, ls, hrun⟩ := h
  obtain ⟨hsteps, -⟩ := run_life (init_inv a) hrun
  exact (doomed_steps (init_life a).1 (fun x hx => absurd hx (Multiset.notMem_zero x)) hsteps).2

end Doomed

section Items

variable {s : Sys} {q q' : QId} {x y : Item}

/-- One queue's items are among all. -/
theorem located_mem (hx : x ∈ s.e.q q) : located (.queue q) x ∈ (life (desk s)).items :=
  mem_items.mpr (.inl ⟨q, x, hx, rfl⟩)

/-- A handle is of one item. -/
theorem same_place (hi : Inv (life (desk s))) (hx : x ∈ s.e.q q) (hy : y ∈ s.e.q q')
    (hh : x.handle = y.handle) : q = q' ∧ x.toCore = y.toCore := by
  have heq := Multiset.inj_on_of_nodup_map hi.uniq _ (located_mem hx) _ (located_mem hy) hh
  simp only [located, Prod.mk.injEq, Place.queue.injEq] at heq
  exact heq

/-- And of one entry of its queue. -/
theorem handles_nodup (hi : Inv (life (desk s))) (q : QId) : ((s.e.q q).map (·.handle)).Nodup := by
  have hsub : (s.e.q q).map (located (.queue q)) ≤ (life (desk s)).items := by
    obtain ⟨rest, hold, -⟩ := queued_update s.e.q q (s.e.q q)
    have hle : group (.queue q) (s.e.q q) ≤ queued s.e.q := hold ▸ Multiset.le_add_right _ _
    exact hle.trans (Multiset.le_add_right _ _)
  have hnd := Multiset.nodup_of_le (Multiset.map_le_map hsub) hi.uniq
  rw [Multiset.map_coe, Multiset.coe_nodup, map_map] at hnd
  exact hnd

/-- Items of one queue with one handle are the same. -/
theorem same_item (hi : Inv (life (desk s))) (hx : x ∈ s.e.q q) (hy : y ∈ s.e.q q)
    (hh : x.handle = y.handle) : x = y :=
  inj_on_of_nodup_map (handles_nodup hi q) hx hy hh

end Items

section Track

variable {z it : Item} {ev : Ev} {evs : List Ev} {e : Engine}

/-- What an event tells of the attempts of a handle. -/
def told (h : Handle) (ev : Ev) : Option (EvKind × ℕ) :=
  if ev.handle = h ∧ (ev.kind = .started ∨ ev.kind = .retried) then some (ev.kind, ev.attempt.toNat)
  else none

/-- What events tell of them, in order. -/
def story (h : Handle) (evs : List Ev) : List (EvKind × ℕ) := evs.filterMap (told h)

/-- Where an item of the handle can be. -/
def Fits (buf : List (EvKind × ℕ)) (x : Pos) : QId → Item → Prop
  | .intake, y => x = .due y.attempt.toNat ∧ buf = []
  | .ready, y => x = .due y.attempt.toNat ∧ buf = []
  | .delayed, y => x = .due y.attempt.toNat ∧ buf = [] ∨ buf = [(.retried, y.attempt.toNat)]
  | .running, y =>
    (if y.phase = .begun then x = .due y.attempt.toNat else x = .ran y.attempt.toNat) ∧ buf = []
  | .done, y => y.started = true → x = .ran y.attempt.toNat ∧ buf = []
  | .dead, _ => True

/-- What holds of a handle with a policy in every state. -/
structure Track (h : Handle) (p : Policy) (s : Sys) (x : Pos) : Prop where
  /-- What was told. -/
  script : Script p (story h s.log) x
  /-- What the pump has still to tell is the next retry, if anything. -/
  buffer : story h (pumpEvs s.pump) = [] ∨
    ∃ n, x = .ran n ∧ n ≤ p.maxRetries.toNat ∧ story h (pumpEvs s.pump) = [(.retried, n + 1)]
  /-- The item, as long as it is live. -/
  items : ∀ q ≠ QId.dead, ∀ y ∈ s.e.q q, y.handle = h →
    y.policy = p ∧ Fits (story h (pumpEvs s.pump)) x q y

variable {h : Handle} {p : Policy} {s s' : Sys} {x : Pos}

theorem story_append (evs evs' : List Ev) : story h (evs ++ evs') = story h evs ++ story h evs' :=
  filterMap_append

/-- An event about something else tells nothing. -/
theorem told_untold (hev : Untold ev) : told h ev = none :=
  if_neg fun hcond => hcond.2.elim hev.1 hev.2

/-- Nor does one of another handle. -/
theorem told_other (hev : ev.handle ≠ h) : told h ev = none := if_neg fun hcond => hev hcond.1

/-- Events that tell nothing. -/
theorem story_nil (hevs : ∀ ev ∈ evs, told h ev = none) : story h evs = [] :=
  filterMap_eq_nil_iff.mpr hevs

/-- The place depends on the attempt alone, and on whether it started. -/
theorem Fits.near {buf : List (EvKind × ℕ)} {q : QId} {y : Item} (hf : Fits buf x q y) (hn : Near y z) :
    Fits buf x q z := by
  cases q with
  | dead => trivial
  | _ =>
    simp only [Fits, hn.attempt, hn.phase, hn.started] at hf ⊢
    exact hf

variable (ht : Track h p s x)

include ht

/-- A step that leaves attempts alone. -/
theorem Track.steady (hst : Steady s s') : Track h p s' x := by
  obtain ⟨evs, hlog, hevs⟩ := hst.log
  refine ⟨?_, ?_, ?_⟩
  · rw [hlog, story_append, story_nil fun ev hev => told_untold (hevs ev hev), append_nil]
    exact ht.script
  · rw [hst.pump]
    exact ht.buffer
  · intro q hq z hz hh
    obtain ⟨y, hy, hn⟩ := hst.items q hq z hz
    obtain ⟨hpol, hf⟩ := ht.items q hq y hy (hn.handle.symm.trans hh)
    rw [hst.pump]
    exact ⟨hn.policy.trans hpol, hf.near hn.toNear⟩

/-- A submit of another handle. -/
theorem Track.submits (hsub : Submits s s' it) (hne : it.handle ≠ h) : Track h p s' x := by
  refine ⟨?_, ?_, ?_⟩
  · rw [hsub.log]
    exact ht.script
  · rw [hsub.pump]
    exact ht.buffer
  · intro q hq z hz hh
    rw [hsub.pump]
    rcases hsub.items q hq z hz with ⟨y, hy, hn⟩ | ⟨-, hn⟩
    · obtain ⟨hpol, hf⟩ := ht.items q hq y hy (hn.handle.symm.trans hh)
      exact ⟨hn.policy.trans hpol, hf.near hn.toNear⟩
    · exact absurd (hn.handle.symm.trans hh) hne

/-- The pump delivers an event that tells nothing. -/
theorem Track.emit {buf : List Ev} (hemit : Emits ev buf s s') : ∃ x', Track h p s' x' := by
  obtain ⟨hbuf, he, hpump, hlog, -⟩ := hemit
  have hstory : story h (pumpEvs s.pump) = story h [ev] ++ story h buf := by
    rw [hbuf, ← story_append, singleton_append]
  cases hev : told h ev with
  | none =>
    have hnil : story h [ev] = [] := story_nil fun ev' hev' => mem_singleton.mp hev' ▸ hev
    rw [hnil, nil_append] at hstory
    refine ⟨x, ?_, ?_, ?_⟩
    · rw [hlog, story_append, hnil, append_nil]
      exact ht.script
    · rw [hpump, ← hstory]
      exact ht.buffer
    · rw [hpump, he, ← hstory]
      exact ht.items
  | some r =>
    have hone : story h [ev] = [r] := by
      rw [story, filterMap_cons_some hev]
      rfl
    rw [hone] at hstory
    rcases ht.buffer with hb | ⟨n, rfl, hn, hb⟩
    · rw [hb] at hstory
      cases hstory
    · rw [hb] at hstory
      obtain ⟨rfl, hrest⟩ := cons.inj hstory
      refine ⟨.due (n + 1), ?_, .inl ?_, ?_⟩
      · rw [hlog, story_append, hone]
        exact ht.script.retried hn
      · rw [hpump]
        exact hrest.symm
      · intro q hq y hy hh
        obtain ⟨hpol, hf⟩ := ht.items q hq y (he ▸ hy) hh
        refine ⟨hpol, ?_⟩
        rw [hb] at hf
        rw [hpump, show story h buf = [] from hrest.symm]
        cases q with
        | intake | ready | running => cases hf.2
        | delayed =>
          rcases hf with ⟨-, hno⟩ | hf
          · cases hno
          · have hnum : n + 1 = y.attempt.toNat := congrArg Prod.snd (cons.inj hf).1
            exact .inl ⟨by rw [hnum], rfl⟩
        | done =>
          intro hs
          cases (hf hs).2
        | dead => exact absurd rfl hq

/-- A ready item is taken. -/
theorem Track.take {now : ℕ} (hi : Inv (life (desk s))) (htake : Takes now it s s') :
    Track h p s' x := by
  refine ⟨htake.log ▸ ht.script, htake.pump ▸ ht.buffer, ?_⟩
  rw [htake.pump]
  intro q hq y hy hh
  rcases htake.items q y hy with hy | ⟨rfl, rfl⟩ | ⟨rfl, rfl⟩
  · exact ht.items q hq y hy hh
  · -- it was not started, so nothing is asked of it in done
    refine ⟨(ht.items .ready (by decide) it htake.ready hh).1, fun hs => ?_⟩
    have hfresh := (hi.items _ (located_mem htake.ready)).fresh (.inr rfl)
    exact absurd hs (Bool.eq_false_iff.mp hfresh)
  · exact ht.items .ready (by decide) it htake.ready hh

/-- An executed item is posted. -/
theorem Track.post {st : Status} (hpost : Posts it st s s') : Track h p s' x := by
  refine ⟨hpost.log ▸ ht.script, hpost.pump ▸ ht.buffer, ?_⟩
  rw [hpost.pump]
  intro q hq y hy hh
  rcases hpost.items q y hy with hy | ⟨rfl, rfl⟩
  · exact ht.items q hq y hy hh
  · obtain ⟨hpol, hf⟩ := ht.items .running (by decide) it hpost.running hh
    refine ⟨hpol, fun _ => ?_⟩
    simp only [Fits, hpost.ended, reduceCtorEq, if_false] at hf
    exact hf

/-- An attempt emits STARTED. -/
theorem Track.started (hi : Inv (life (desk s))) (hstart : Starts it s s') : ∃ x', Track h p s' x' := by
  by_cases hh : it.handle = h
  · obtain ⟨hpol, hf⟩ := ht.items .running (by decide) it hstart.running hh
    simp only [Fits, hstart.begun, if_true] at hf
    have htold : story h [evOf s.e it .started .ok false] = [(.started, it.attempt.toNat)] := by
      simp [story, told, evOf, hh]
    refine ⟨.ran it.attempt.toNat, ?_, .inl (hstart.pump ▸ hf.2), ?_⟩
    · rw [hstart.log, story_append, htold]
      exact (hf.1 ▸ ht.script).started
    · rw [hstart.pump]
      intro q hq y hy hyh
      rcases hstart.items q y hy with ⟨hold, hno⟩ | ⟨rfl, rfl⟩
      · obtain ⟨rfl, -⟩ := same_place hi hold hstart.running (hyh.trans hh.symm)
        exact absurd ⟨rfl, same_item hi hold hstart.running (hyh.trans hh.symm)⟩ hno
      · exact ⟨hpol, rfl, hf.2⟩
  · have htold : story h [evOf s.e it .started .ok false] = [] :=
      story_nil fun ev hev => told_other (by rw [mem_singleton.mp hev]; exact hh)
    refine ⟨x, ?_, hstart.pump ▸ ht.buffer, ?_⟩
    · rw [hstart.log, story_append, htold, append_nil]
      exact ht.script
    · rw [hstart.pump]
      intro q hq y hy hyh
      rcases hstart.items q y hy with ⟨hold, -⟩ | ⟨-, rfl⟩
      · exact ht.items q hq y hold hyh
      · exact absurd hyh hh

omit ht

/-- Among entries with different keys one at most has a given key. -/
theorem filter_key {α β : Type} [DecidableEq β] {f : α → β} {l : List α} (hnd : (l.map f).Nodup) (b : β) :
    (l.filter fun a => f a = b) = [] ∨ ∃ a ∈ l, f a = b ∧ (l.filter fun a => f a = b) = [a] := by
  induction l with
  | nil => exact .inl rfl
  | cons a l ih =>
    rw [map_cons, nodup_cons] at hnd
    by_cases hab : f a = b
    · have hrest : (l.filter fun a => f a = b) = [] := by
        refine filter_eq_nil_iff.mpr fun c hc hcb => hnd.1 ?_
        rw [hab, ← of_decide_eq_true hcb]
        exact mem_map_of_mem hc
      exact .inr ⟨a, mem_cons_self, hab, by
        rw [filter_cons_of_pos (by simpa using hab), hrest]⟩
    · rw [filter_cons_of_neg (by simpa using hab)]
      exact (ih hnd.2).imp id fun ⟨c, hc, h⟩ => ⟨c, mem_cons_of_mem a hc, h⟩

/-- Events without STARTED tell of retries alone. -/
theorem story_retried (hq : ∀ ev ∈ evs, ev.kind ≠ .started) :
    story h evs = ((evs.filter isRetried).filter fun ev => ev.handle = h).map
      fun ev => (ev.kind, ev.attempt.toNat) := by
  induction evs with
  | nil => rfl
  | cons ev evs ih =>
    have htail := ih fun ev' hev => hq ev' (mem_cons_of_mem _ hev)
    have hne := hq ev mem_cons_self
    unfold story at htail ⊢
    by_cases hr : ev.kind = .retried
    · by_cases hh : ev.handle = h
      · simp [told, isRetried, hr, hh, htail]
      · simp [told, isRetried, hr, hh, htail]
    · simp [told, isRetried, hr, hne, htail]

/-- What the buffer of a pass tells of a handle. -/
theorem pend_story {ps : PassState} {l : List Item} {parked : Bool} (h : Handle)
    (hp : Passing e ps l parked) (hnd : (l.map (·.handle)).Nodup) :
    story h ps.pend = [] ∨ ∃ z ∈ l, z.handle = h ∧ Retry e z ∧
      story h ps.pend = [(.retried, (z.attempt + 1).toNat)] := by
  rw [story_retried hp.quiet]
  rcases filter_key (f := fun ev : Ev => ev.handle) (hnd.sublist hp.once) h with hnil | ⟨ev, hev, hh, hone⟩
  · exact .inl (by rw [hnil]; rfl)
  · obtain ⟨hpend, hkind⟩ := mem_filter.mp hev
    obtain ⟨z, hz, hretry, hann⟩ := hp.told ev hpend (of_decide_eq_true hkind)
    refine .inr ⟨z, hz, hann.handle.symm.trans hh, hretry, ?_⟩
    rw [hone, map_singleton, hann.kind, hann.attempt]

/-- A retry leaves room for its number. -/
theorem attempt_succ {a m : UInt32} (h : a ≤ m) (hm : m.toNat < 2 ^ 32 - 1) :
    (a + 1).toNat = a.toNat + 1 := by
  have hle : a.toNat ≤ m.toNat := UInt32.le_iff_toNat_le.mp h
  rw [UInt32.toNat_add, UInt32.toNat_one]
  exact Nat.mod_eq_of_lt (by omega)

/-- No item is both tried again and begun anew. -/
theorem not_again_of_retry (hr : Retry e z) : ¬ Again e z := by
  rintro (⟨hok, -⟩ | ⟨-, -, hno, -⟩)
  · exact hr.failed.1 hok
  · exact hno hr.left

/-- A finished item that is to go on was started. -/
theorem started_of_decided (hd : Doomed (life (desk s))) (hz : z ∈ s.e.q .done)
    (hgo : Retry s.e z ∨ Again s.e z) : z.started = true := by
  by_contra hs
  obtain ⟨hout, hun⟩ := hd _ (located_mem hz) rfl (Bool.eq_false_iff.mpr hs)
  have hkept : Undecided z.toCore → isRemoved s.e z.toCore = false → False := by
    intro hfail hrem
    have hno : unstartable s.e.reg z.toCore = false := by
      unfold unstartable
      rw [hfail.2.1, show removed s.e.reg z.toCore = false from hrem]
      rfl
    exact Bool.false_ne_true (hno.symm.trans hun)
  rcases hgo with hretry | ⟨hok, -⟩ | ⟨hfail, hrem, -⟩
  · exact hkept hretry.failed hretry.kept
  · have hout' : z.outcome = .cancelled := hout
    rw [hok] at hout'
    cases hout'
  · exact hkept hfail hrem

/-- A new cycle follows the last attempt of a policy that requeues. -/
theorem again_policy (hi : Inv (life (desk s))) (hz : z ∈ s.e.q .done) (h : Again s.e z) :
    ¬ z.attempt.toNat ≤ z.policy.maxRetries.toNat ∧ z.policy.onFailure = .requeue := by
  rcases h with ⟨-, hup, -⟩ | ⟨-, -, hno, hreq⟩
  · have hserv : service s.e.reg z.toCore = true := by
      unfold isAlwaysUp regOf at hup
      unfold service
      cases hreg : z.reg.map s.e.reg with
      | none =>
        rw [hreg] at hup
        cases hup
      | some g =>
        rw [hreg] at hup
        exact (Bool.and_eq_true_iff.mp hup).1
    obtain ⟨hreq, hmax, hatt⟩ := (hi.items _ (located_mem hz)).policy rfl hserv
    refine ⟨?_, hreq⟩
    simp only [located] at hmax hatt
    rw [hmax, hatt]
    decide
  · exact ⟨fun hle => hno (UInt32.le_iff_toNat_le.mpr hle), hreq⟩

/-- Where an item that waits may be. -/
theorem Fits.due {q : QId} {y : Item} (hq : q = .intake ∨ q = .ready ∨ q = .delayed)
    (hx : x = .due y.attempt.toNat) : Fits [] x q y := by
  rcases hq with rfl | rfl | rfl
  · exact ⟨hx, rfl⟩
  · exact ⟨hx, rfl⟩
  · exact .inl ⟨hx, rfl⟩

section Drained

variable {l : List Item} {ps : PassState} {y z : Item} {q : QId} (hi : Inv (life (desk s)))
  (hp : Passing s.e ps l true)

include hi hp

/-- An item of the handle that was drained was nowhere else. -/
theorem drained_alone (hz : z ∈ l) (hzh : z.handle = h) (hq : q ≠ .done) (hy : y ∈ s.e.q q) :
    y.handle ≠ h := fun hyh =>
  hq (same_place hi hy (hp.done ▸ mem_append_left _ hz) (hyh.trans hzh.symm)).1

variable (hitems : ∀ q ≠ QId.dead, ∀ y ∈ s.e.q q, y.handle = h → y.policy = p ∧ Fits [] x q y)

include hitems

omit hi in
/-- One that goes on ran last. -/
theorem drained_ran (hd : Doomed (life (desk s))) (hz : z ∈ l) (hzh : z.handle = h)
    (hgo : Retry s.e z ∨ Again s.e z) : z.policy = p ∧ x = .ran z.attempt.toNat := by
  have hdone : z ∈ s.e.q .done := hp.done ▸ mem_append_left _ hz
  obtain ⟨hpol, hf⟩ := hitems .done (by decide) z hdone hzh
  exact ⟨hpol, (hf (started_of_decided hd hdone hgo)).1⟩

/-- What waited when the pass began, or begins anew. -/
theorem old_due (hyh : y.handle = h) (hy : Old s.e l y) :
    (y.policy = p ∧ x = .due y.attempt.toNat ∧ ∀ z ∈ l, z.handle ≠ h) ∨
      ∃ z ∈ l, z.handle = h ∧ Again s.e z ∧ y.policy = z.policy ∧ y.attempt = 1 := by
  rcases hy with ⟨w, hw, hal⟩ | ⟨z, hz, hagain, hh, hpol, hatt⟩
  · have hwh : w.handle = h := hal.handle.symm.trans hyh
    have hwaits : ∃ q, q ≠ .done ∧ w ∈ s.e.q q ∧ w.policy = p ∧ x = .due w.attempt.toNat := by
      rcases mem_append.mp hw with hw | hw
      · rcases mem_append.mp hw with hw | hw <;> obtain ⟨hpol, hf⟩ := hitems _ (by decide) w hw hwh
        · exact ⟨_, by decide, hw, hpol, hf.1⟩
        · exact ⟨_, by decide, hw, hpol, hf.1⟩
      · obtain ⟨hpol, hf⟩ := hitems _ (by decide) w hw hwh
        exact ⟨_, by decide, hw, hpol, (hf.resolve_right nofun).1⟩
    obtain ⟨q, hqd, hw, hpol, hx⟩ := hwaits
    rw [hal.policy, hal.attempt]
    exact .inl ⟨hpol, hx, fun z hz hzh => drained_alone hi hp hz hzh hqd hw hwh⟩
  · exact .inr ⟨z, hz, hh.symm.trans hyh, hagain, hpol, hatt⟩

/-- What the items are after the pass, given what those that waited and the retries are. -/
theorem passed_items {x' : Pos} {buf : List (EvKind × ℕ)}
    (hwait : ∀ q y, (q = .intake ∨ q = .ready ∨ q = .delayed) → y.handle = h → Old s.e l y →
      y.policy = p ∧ Fits buf x' q y)
    (hretry : ∀ y, y.handle = h → Retried s.e l ps.pend y → y.policy = p ∧ Fits buf x' .delayed y)
    (hrest : (∃ z ∈ l, z.handle = h) ∨ x' = x ∧ buf = []) :
    ∀ q ≠ QId.dead, ∀ y ∈ ps.e.q q, y.handle = h → y.policy = p ∧ Fits buf x' q y := by
  intro q hqd y hy hyh
  cases q with
  | intake => exact hwait _ y (.inl rfl) hyh (hp.front y (mem_append_left _ hy))
  | ready => exact hwait _ y (.inr (.inl rfl)) hyh (hp.front y (mem_append_right _ hy))
  | delayed =>
    rcases hp.delayed y hy with hy | ⟨-, hy⟩
    · exact hwait _ y (.inr (.inr rfl)) hyh hy
    · exact hretry y hyh hy
  | running =>
    obtain ⟨w, hw, hsame⟩ := hp.running y hy
    have hwh := hsame.handle.symm.trans hyh
    rcases hrest with ⟨z, hz, hzh⟩ | ⟨rfl, rfl⟩
    · exact absurd hwh (drained_alone hi hp hz hzh (by decide) hw)
    · obtain ⟨hpol, hf⟩ := hitems _ hqd w hw hwh
      exact ⟨hsame.policy.trans hpol, hf.near ⟨hsame.toAlike, by rw [hsame.phase], hsame.started⟩⟩
  | done =>
    rcases hrest with ⟨z, hz, hzh⟩ | ⟨rfl, rfl⟩
    · have hall := handles_nodup hi .done
      rw [hp.done, map_append] at hall
      exact absurd (hzh.trans hyh.symm)
        ((nodup_append.mp hall).2.2 _ (mem_map_of_mem hz) _ (mem_map_of_mem hy))
    · exact hitems _ hqd y (hp.done ▸ mem_append_right _ hy) hyh
  | dead => exact absurd rfl hqd

end Drained

/-- A pass that buffers nothing of a handle decides no retry of it. -/
theorem not_retried {l : List Item} {pend : List Ev} {y : Item} (hnone : story h pend = [])
    (hyh : y.handle = h) : ¬ Retried s.e l pend y := by
  rintro ⟨w, -, -, hw, -, -, ev, hev, hann⟩
  have htold : told h ev = none := (filterMap_eq_nil_iff.mp hnone) ev hev
  unfold told at htold
  rw [if_pos ⟨hann.handle.trans (hw.symm.trans hyh), .inr hann.kind⟩] at htold
  cases htold

/-- The pump runs a pass. -/
theorem Track.pass {inp : PassIn} (ht : Track h p s x) (hi : Inv (life (desk s)))
    (hd : Doomed (life (desk s))) (hmax : p.maxRetries.toNat < 2 ^ 32 - 1) (hpass : Passes inp s s') :
    ∃ x', Track h p s' x' := by
  obtain ⟨hbuf, hq, hpump, hlog, -⟩ := hpass
  obtain ⟨l, hp⟩ := enginePass_passing inp s.e
  generalize enginePass inp s.e = ps at hp hq hpump
  have hitems := ht.items
  rw [hbuf, show story h [] = [] from rfl] at hitems
  have hdone : ∀ z ∈ l, z ∈ s.e.q .done := fun z hz => hp.done ▸ mem_append_left _ hz
  have hall := handles_nodup hi .done
  rw [hp.done, map_append] at hall
  rcases pend_story h hp (nodup_append.mp hall).1 with hnone | ⟨z, hz, hzh, hretry, hone⟩
  · by_cases hagain : ∃ z ∈ l, z.handle = h ∧ Again s.e z
    · obtain ⟨z, hz, hzh, hz'⟩ := hagain
      obtain ⟨hpol, hx⟩ := drained_ran hp hitems hd hz hzh (.inr hz')
      obtain ⟨hno, hreq⟩ := again_policy hi (hdone z hz) hz'
      refine ⟨.due 1, ?_, .inl (hpump ▸ hnone), ?_⟩
      · rw [hlog]
        exact Script.again (hx ▸ ht.script) (hpol ▸ hno) (hpol ▸ hreq)
      · rw [hpump, hnone, hq]
        refine passed_items hi hp hitems (fun q y hwq hyh hy => ?_)
          (fun y hyh hy => absurd hy (not_retried hnone hyh)) (.inl ⟨z, hz, hzh⟩)
        rcases old_due hi hp hitems hyh hy with ⟨-, -, hnot⟩ | ⟨w, hw, hwh, hwa, hwp, hatt⟩
        · exact absurd hzh (hnot z hz)
        · exact ⟨hwp ▸ (drained_ran hp hitems hd hw hwh (.inr hwa)).1, .due hwq (by rw [hatt]; rfl)⟩
    · refine ⟨x, hlog ▸ ht.script, .inl (hpump ▸ hnone), ?_⟩
      rw [hpump, hnone, hq]
      refine passed_items hi hp hitems (fun q y hwq hyh hy => ?_)
        (fun y hyh hy => absurd hy (not_retried hnone hyh)) (.inr ⟨rfl, rfl⟩)
      rcases old_due hi hp hitems hyh hy with ⟨hyp, hyx, -⟩ | ⟨w, hw, hwh, hwa, -⟩
      · exact ⟨hyp, .due hwq hyx⟩
      · exact absurd ⟨w, hw, hwh, hwa⟩ hagain
  · obtain ⟨hpol, hx⟩ := drained_ran hp hitems hd hz hzh (.inl hretry)
    have hsucc := attempt_succ (hpol ▸ hretry.left) hmax
    have hle : z.attempt.toNat ≤ p.maxRetries.toNat :=
      UInt32.le_iff_toNat_le.mp (hpol ▸ hretry.left)
    have hthat : ∀ w ∈ l, w.handle = h → w = z := fun w hw hwh =>
      same_item hi (hdone w hw) (hdone z hz) (hwh.trans hzh.symm)
    refine ⟨x, hlog ▸ ht.script, .inr ⟨z.attempt.toNat, hx, hle, ?_⟩, ?_⟩
    · rw [hpump, hone, hsucc]
    · rw [hpump, hone, hq]
      refine passed_items hi hp hitems (fun q y _ hyh hy => ?_) (fun y hyh hy => ?_) (.inl ⟨z, hz, hzh⟩)
      · rcases old_due hi hp hitems hyh hy with ⟨-, -, hno⟩ | ⟨w, hw, hwh, hwa, -⟩
        · exact absurd hzh (hno z hz)
        · exact absurd (hthat w hw hwh ▸ hwa) (not_again_of_retry hretry)
      · obtain ⟨w, hw, -, hwh, hwp, hatt, -⟩ := hy
        have hwz := hthat w hw (hwh.symm.trans hyh)
        subst hwz
        exact ⟨hwp.trans hpol, .inr (by rw [hatt])⟩

end Track

section Runs

variable {h : Handle} {p : Policy} {s s' : Sys} {x : Pos} {ls : List Label} {r : Ptr}
  {args : SubmitArgs}

/-- Every step keeps what holds of a handle. -/
theorem Track.step {l : Label} (ht : Track h p s x) (hs : Reachable s) (hlt : h < s.e.nextHandle)
    (hmax : p.maxRetries.toNat < 2 ^ 32 - 1) (hstep : EngineSystem.step s l = some s') :
    ∃ x', Track h p s' x' := by
  obtain ⟨hsys, hi, -⟩ := reachable_life hs
  cases step_way hsys (reachable_untold hs) hstep with
  | steady hst => exact ⟨x, ht.steady hst⟩
  | submits it hsub => exact ⟨x, ht.submits hsub (hsub.handle ▸ Nat.ne_of_gt hlt)⟩
  | pass inp _ hpass => exact ht.pass hi (reachable_doomed hs) hmax hpass
  | emit ev buf hemit => exact ht.emit hemit
  | take now it htake => exact ⟨x, ht.take hi htake⟩
  | started it hstart => exact ht.started hi hstart
  | post it st hpost => exact ⟨x, ht.post hpost⟩

/-- Handles are given out in order. -/
theorem next_steps {L L' : Life} (hsteps : Steps L L') : L.next ≤ L'.next := by
  induction hsteps with
  | refl => exact le_rfl
  | tail _ hstep ih =>
    refine le_trans ih ?_
    cases hstep with
    | submit => exact Nat.le_succ _
    | _ => exact le_rfl

/-- So they are by the engine. -/
theorem next_step (hs : Reachable s) (hstep : EngineSystem.step s l = some s') :
    s.e.nextHandle ≤ s'.e.nextHandle :=
  next_steps (run_life (reachable_inv hs) (run_one hstep)).1

/-- So does every run. -/
theorem Track.run (ht : Track h p s x) (hs : Reachable s) (hlt : h < s.e.nextHandle)
    (hmax : p.maxRetries.toNat < 2 ^ 32 - 1) (hrun : EngineSystem.run s ls = some s') :
    ∃ x', Track h p s' x' := by
  refine (run_kept (P := fun s => h < s.e.nextHandle ∧ ∃ x, Track h p s x) (Q := fun _ => True) ?_ hs
    (fun _ _ => trivial) ⟨hlt, x, ht⟩ hrun).2
  rintro s l s' hs - ⟨hlt, x, ht⟩ hstep
  exact ⟨lt_of_lt_of_le hlt (next_step hs hstep), ht.step hs hlt hmax hstep⟩

/-- An accepted submit, and that its handle was given out. -/
theorem submitCommit_accepted {it : Item} (hs : Reachable s)
    (hstep : EngineSystem.step s (.submitCommit r args) = some s')
    (hit : (submitInternal s.e r args).2 = .ok it) : Submits s s' it ∧ it.handle < s'.e.nextHandle := by
  have hs' := reachable_step hs hstep
  unfold EngineSystem.step at hstep
  split_ifs at hstep
  obtain ⟨-, hstep⟩ := onCall_some hstep
  split_ifs at hstep
  split at hstep
  · rename_i e st hsub
    rw [hsub] at hit
    cases hit
  · rename_i e it' hsub
    rw [hsub] at hit
    cases hit
    have hmem : (it.handle, it.reg.getD 0) ∈ s'.accepted := by
      cases hstep
      exact mem_append_right _ (mem_singleton_self _)
    refine ⟨submitInternal_submits hsub ?_ ?_ ?_ (reachable_untold hs'), ?_⟩
    · cases hstep
      rfl
    · cases hstep
      rfl
    · cases hstep
      rfl
    · exact ((reachable_life hs').2.1.known _ hmem).1

/-- A new handle has nothing behind it. -/
theorem Track.init {it : Item} (hs : Reachable s) (hsub : Submits s s' it) :
    Track it.handle it.policy s' (.due 1) := by
  obtain ⟨-, hi, -⟩ := reachable_life hs
  have hnotes : ∀ ev ∈ (desk s).evs, told it.handle ev = none := by
    intro ev hev
    have hlt : ev.handle < s.e.nextHandle := hi.noted (noteOf ev) (mem_map_of_mem hev)
    exact told_other (hsub.handle ▸ ne_of_lt hlt)
  have hbuf : story it.handle (pumpEvs s'.pump) = [] := by
    rw [hsub.pump]
    exact story_nil fun ev hev =>
      hnotes ev (mem_append_right _ (mem_append_left _ hev))
  refine ⟨?_, .inl hbuf, ?_⟩
  · rw [hsub.log, story_nil fun ev hev => hnotes ev (mem_append_left _ hev)]
    exact .nil
  · intro q hq y hy hh
    rw [hbuf]
    rcases hsub.items q hq y hy with ⟨w, hw, hn⟩ | ⟨rfl, hn⟩
    · have hlt := hi.given _ (located_mem hw)
      have heq : w.handle = s.e.nextHandle := (hn.handle.symm.trans hh).trans hsub.handle
      exact absurd heq (ne_of_lt hlt)
    · refine ⟨hn.policy, ?_, rfl⟩
      rw [hn.attempt, hsub.attempt]
      rfl

/-- An attempt that waits when a pass can begin was announced last, unless it is the first. -/
theorem Track.announced (ht : Track h p s x) (hbuf : pumpEvs s.pump = []) {y : Item}
    (hy : y ∈ s.e.q .intake ++ s.e.q .ready ++ s.e.q .delayed) (hh : y.handle = h)
    (hone : y.attempt.toNat ≠ 1) :
    (story h s.log).getLast? = some (.retried, y.attempt.toNat) := by
  have hitems := ht.items
  rw [hbuf, show story h [] = [] from rfl] at hitems
  have hdue : x = .due y.attempt.toNat := by
    rcases mem_append.mp hy with hy | hy
    · rcases mem_append.mp hy with hy | hy
      · exact (hitems _ (by decide) y hy hh).2.1
      · exact (hitems _ (by decide) y hy hh).2.1
    · rcases (hitems _ (by decide) y hy hh).2 with hf | hf
      · exact hf.1
      · cases hf
  exact (hdue ▸ ht.script).last hone

/-- The attempts of an accepted submit are told in order: cycles of STARTED of the first attempt and, as
often as the policy allows, RETRIED and STARTED of the next; another cycle only if the policy requeues.
And whenever a pass begins, an attempt after the first that is waiting, or that this pass admits, was
announced by the last of these events. -/
theorem attempts_in_order {r : Ptr} {args : SubmitArgs} {it : Item} {s₁ : Sys} {ls : List Label}
    (hs : Reachable s) (hstep : step s (.submitCommit r args) = some s₁)
    (hit : (submitInternal s.e r args).2 = .ok it)
    (hmax : it.policy.maxRetries.toNat < 2 ^ 32 - 1) (hrun : run s₁ ls = some s') :
    (∃ k, story it.handle s'.log <+: cycles k it.policy.maxRetries.toNat ∧
      (it.policy.onFailure ≠ .requeue → k = 1)) ∧
    ∀ inp s₂, step s' (.pass inp) = some s₂ →
      ∀ y ∈ s'.e.q .intake ++ s'.e.q .ready ++ s'.e.q .delayed ++
          (stepAdmissions s' (.pass inp)).map (·.best),
        y.handle = it.handle → y.attempt.toNat ≠ 1 →
          (story it.handle s'.log).getLast? = some (.retried, y.attempt.toNat) := by
  obtain ⟨hsub, hlt⟩ := submitCommit_accepted hs hstep hit
  have hs₁ := reachable_step hs hstep
  obtain ⟨x, ht⟩ := (Track.init hs hsub).run hs₁ hlt hmax hrun
  refine ⟨ht.script.prefix_cycles, ?_⟩
  intro inp s₂ hpass y hy hh hone
  have hbuf := (step_passes hpass).clear
  rcases mem_append.mp hy with hy | hy
  · exact ht.announced hbuf hy hh hone
  · obtain ⟨a, ha, rfl⟩ := mem_map.mp hy
    obtain ⟨l, hp⟩ := enginePass_passing inp s'.e
    rcases hp.admitted a ha with ⟨w, hw, hal⟩ | ⟨w, -, -, -, -, hatt⟩
    · rw [hal.attempt] at hone ⊢
      exact ht.announced hbuf hw (hal.handle.symm.trans hh) hone
    · rw [hatt] at hone
      exact absurd rfl hone

/-- A submit with one retry and no backoff. -/
def retrySubmit : SubmitArgs := { sampleSubmit with policy := some ⟨0, 1, 0, .deadLetter⟩ }

/-- The steps before it is accepted. -/
def retryBefore : List Label := sampleType false 600 ++ [.submitTake 7 0]

/-- Its first attempt fails, and the retry is announced. -/
def retryAfter : List Label :=
  .pass (samplePass 10) :: sampleAttempt 7 .timeout ++ [.pass (samplePass 13), .emit]

/-- A retry without backoff is announced after the attempt that failed and before the next. -/
theorem attempts_in_order_retry :
    story 1 (sampled
      ((retryBefore ++ [.submitCommit 7 retrySubmit]) ++ retryAfter)).log =
        [(.started, 1), (.retried, 2)] ∧
      ∃ k, [(EvKind.started, 1), (.retried, 2)] <+: cycles k 1 := by
  have hlog : story 1 (sampled
      ((retryBefore ++ [.submitCommit 7 retrySubmit]) ++ retryAfter)).log =
        [(.started, 1), (.retried, 2)] := by decide +kernel
  have hs : Reachable (sampled retryBefore) := reachable_ranTo (by decide +kernel)
  have hstep : step (sampled retryBefore) (.submitCommit 7 retrySubmit) = some _ :=
    step_from_ranTo (by decide +kernel)
  have hrun : run (sampled (retryBefore ++ [.submitCommit 7 retrySubmit]))
      retryAfter = some _ := run_from_ranTo (by decide +kernel)
  have hitem : ((submitInternal (sampled retryBefore).e 7 retrySubmit).2.toOption.map
      fun it => (it.handle, it.policy.maxRetries)) = some (1, 1) := by decide +kernel
  obtain ⟨it, hopt, heq⟩ := Option.map_eq_some_iff.mp hitem
  obtain ⟨hh, hm⟩ := Prod.mk.inj heq
  have hit : (submitInternal (sampled retryBefore).e 7 retrySubmit).2 = .ok it := by
    generalize (submitInternal (sampled retryBefore).e 7 retrySubmit).2 = r at hopt ⊢
    cases r with
    | error st => cases hopt
    | ok it' =>
      cases hopt
      rfl
  obtain ⟨k, hk, -⟩ := (attempts_in_order hs hstep hit (by rw [hm]; decide) hrun).1
  rw [hh, hm, hlog] at hk
  exact ⟨hlog, k, hk⟩

end Runs

end Gptps.RetryOrder
