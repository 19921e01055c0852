import Gptps.BalanceSystem

/-!
# What holds in every run of the load balancer

Whatever the threads do, the books of the router are right whenever its lock is free, and a handle has
its last event exactly once when the pool and the router are closed.
-/

namespace Gptps.BalanceRuns

open Function ProbeMap ArrayHeap Balancer BalanceBooks BalanceSystem
open List hiding lookup
open EngineState hiding Item Engine Phase

section Invariant

variable {w' : World}

/-- What the calls in progress will free. -/
def held (calls : List (Thread × Frame)) : List Handle := calls.flatMap fun c => c.2.holds

/-- The last events the calls in progress owe. -/
def owing (calls : List (Thread × Frame)) : List Handle := calls.flatMap fun c => c.2.owes

/-- The last events the calls in progress bring. -/
def flight (calls : List (Thread × Frame)) : List (ℕ × Handle) := calls.flatMap fun c => c.2.brings

/-- What holds whenever the lock is free. -/
structure Inv (s : Sys) : Prop where
  /-- The books. -/
  books : ∃ out, Books s.w [] out (held s.calls) (owing s.calls) (flight s.calls)
  /-- Nothing waits that a shard has room for, unless a call will hand it over. -/
  settled : Settled s.w.b ∨ ∃ c ∈ s.calls, c.2.pending = true
  /-- The events come from shards that exist. -/
  aimed : ∀ c ∈ s.calls, c.2.aimed s.w.b.sh.length
  /-- There are shards. -/
  some_shard : 0 < s.w.b.sh.length
  /-- Every shard may hold something. -/
  roomy : ∀ n ∈ caps s.w.b, 0 < n
  /-- A shard that was freed owes nothing. -/
  dead : ∀ i, (s.w.eng i).phase = .freed → (s.w.eng i).live = []
  /-- The shards that were freed are those the pool's close is past. -/
  freed : ∀ i, (s.w.eng i).phase = .freed ↔ ∃ j, s.pool = some j ∧ i < j
  /-- The pool's close does not go past the last. -/
  within : ∀ j, s.pool = some j → j ≤ s.w.b.sh.length
  /-- The router is closed after the pool, when nothing calls in. -/
  closing : s.close ≠ .no → s.calls = [] ∧ s.pool = some s.w.b.sh.length ∧ s.w.b.queued = 0

variable {s : Sys} {t : Thread} {f : Frame} {calls : List (Thread × Frame)}

theorem length_caps (b : Balance) : (caps b).length = b.sh.length := length_map _

/-- The shards stay. -/
theorem steady_length {w : World} (h : Steady w w') : w'.b.sh.length = w.b.sh.length := by
  rw [← length_caps, h.caps, length_caps]

/-- The invariant after a step that leaves the caps and the phases, with the closes where they were. -/
theorem Inv.steady (hi : Inv s) {calls' : List (Thread × Frame)} (hst : Steady s.w w')
    (hbooks : ∃ out, Books w' [] out (held calls') (owing calls') (flight calls'))
    (hset : Settled w'.b ∨ ∃ c ∈ calls', c.2.pending = true)
    (haim : ∀ c ∈ calls', c.2.aimed s.w.b.sh.length) (hno : s.close = .no) :
    Inv { s with w := w', calls := calls' } where
  books := hbooks
  settled := hset
  aimed := by
    show ∀ c ∈ calls', c.2.aimed w'.b.sh.length
    rwa [steady_length hst]
  some_shard := by
    show 0 < w'.b.sh.length
    rw [steady_length hst]
    exact hi.some_shard
  roomy := by
    show ∀ n ∈ caps w'.b, 0 < n
    rw [hst.caps]
    exact hi.roomy
  dead := fun i hfreed => by
    have hphase : (s.w.eng i).phase = .freed := (hst.phases i).symm.trans hfreed
    have hsame : w'.eng i = s.w.eng i := hst.dead i hphase
    show (w'.eng i).live = []
    rw [hsame]
    exact hi.dead i hphase
  freed := fun i => by
    show (w'.eng i).phase = .freed ↔ _
    rw [hst.phases i]
    exact hi.freed i
  within := fun j hj => by
    show j ≤ w'.b.sh.length
    rw [steady_length hst]
    exact hi.within j hj
  closing := fun hc => absurd hno hc

/-- A call more that owes nothing does not change the books. -/
theorem Inv.begin (hi : Inv s) (hst : Steady s.w w') (hsh : w'.b.sh = s.w.b.sh)
    (hq : w'.b.queued ≤ s.w.b.queued)
    (hbooks : ∃ out, Books w' [] out (f.holds ++ held s.calls) (f.owes ++ owing s.calls)
      (f.brings ++ flight s.calls))
    (haim : f.aimed s.w.b.sh.length) (hno : s.close = .no) (t : Thread) :
    Inv { s with w := w', calls := (t, f) :: s.calls } := by
  refine hi.steady hst hbooks ?_ (forall_mem_cons.mpr ⟨haim, hi.aimed⟩) hno
  rcases hi.settled with hs | ⟨c, hc, hp⟩
  · exact .inl (settled_of_eq hsh hq hs)
  · exact .inr ⟨c, mem_cons_of_mem _ hc, hp⟩

/-- The same calls go on. -/
theorem Inv.same (hi : Inv s) (hst : Steady s.w w') (hsh : w'.b.sh = s.w.b.sh)
    (hq : w'.b.queued ≤ s.w.b.queued)
    (hbooks : ∃ out, Books w' [] out (held s.calls) (owing s.calls) (flight s.calls))
    (hno : s.close = .no) : Inv { s with w := w' } := by
  refine hi.steady hst hbooks ?_ hi.aimed hno
  exact hi.settled.imp_left (settled_of_eq hsh hq)

end Invariant

section Steps

variable {s : Sys} {t : Thread} {c : Choice}

/-- A balanced submit begins. -/
theorem Inv.submit (hi : Inv s) (hno : s.close = .no) (t : Thread) (task : Name) (payload : List UInt8)
    (prio : ℤ) (found : Lookup) :
    ∃ s', s.act (.submit t task payload prio found) = some s' ∧ Inv s' := by
  obtain ⟨out, hb⟩ := hi.books
  have hlookup : Steady s.w (lookup s.w task found).1 ∧ (lookup s.w task found).1.b = s.w.b ∧
      Books (lookup s.w task found).1 [] out (held s.calls) (owing s.calls) (flight s.calls) := by
    unfold lookup
    split_ifs
    · exact ⟨⟨rfl, fun _ => rfl, fun _ _ => rfl⟩, rfl, hb⟩
    · exact ⟨⟨rfl, fun _ => rfl, fun _ _ => rfl⟩, rfl, hb.call 0⟩
    · exact ⟨⟨rfl, fun _ => rfl, fun _ _ => rfl⟩, rfl, (hb.call 0).call 0⟩
  obtain ⟨hst, hsame, hbooks⟩ := hlookup
  have hsh : (lookup s.w task found).1.b.sh = s.w.b.sh := by rw [hsame]
  have hq : (lookup s.w task found).1.b.queued ≤ s.w.b.queued := le_of_eq (by rw [hsame])
  refine ⟨_, rfl, ?_⟩
  cases hgo : (lookup s.w task found).2 with
  | false => exact hi.same hst hsh hq ⟨out, hbooks⟩ hno
  | true => exact hi.begin (f := .submitting task payload prio) hst hsh hq ⟨out, hbooks⟩ trivial hno t

/-- A balanced cancel begins. -/
theorem Inv.cancel (hi : Inv s) (hno : s.close = .no) (t : Thread) (h : Handle) :
    ∃ s', s.act (.cancel t h) = some s' ∧ Inv s' := by
  obtain ⟨out, hb⟩ := hi.books
  have hrefl : Steady s.w s.w := (Quiet.refl s.w).toSteady
  rw [Sys.act]
  rcases hb.cancelLocked h with hnone | ⟨w', hwait, heng, hsh, hq, -, hbooks⟩ | ⟨i, eh, hshard, -⟩
  · rw [hnone]
    exact ⟨_, rfl, hi⟩
  · rw [hwait]
    refine ⟨_, rfl, hi.begin (f := .cancelling h) ⟨congrArg (map Shard.cap) hsh,
      fun _ => by rw [heng], fun _ _ => by rw [heng]⟩ hsh ?_ ⟨out, hbooks⟩ trivial hno t⟩
    rw [hq]
    exact Nat.sub_le _ _
  · rw [hshard]
    exact ⟨_, rfl, hi.begin (f := .forwarding i eh) hrefl rfl le_rfl ⟨out, hb⟩ trivial hno t⟩

/-- An engine that was not freed delivers an event. -/
theorem steady_event {w : World} {i : ℕ} (hphase : (w.eng i).phase ≠ .freed) (eh : Handle) :
    Steady w { w with eng := update w.eng i ((w.eng i).ended eh) } :=
  steady_update rfl rfl (by rw [Engine.ended]) fun hdead => absurd hdead hphase

/-- A shard delivers an event. -/
theorem Inv.event (hi : Inv s) {t : Thread} {i : ℕ} {eh : Handle} {k : EvKind} {st : Status}
    (ha : s.allowed (.event t i eh k st) = true) :
    ∃ s', s.act (.event t i eh k st) = some s' ∧ Inv s' := by
  obtain ⟨out, hb⟩ := hi.books
  unfold Sys.allowed at ha
  simp only [Bool.and_eq_true, decide_eq_true_eq] at ha
  obtain ⟨⟨⟨⟨hno, hlt⟩, hphase⟩, -⟩, -⟩ := ha
  have hcall : (Frame.hearing i eh k st).aimed s.w.b.sh.length := hlt
  have hbrings : (Frame.hearing i eh k st).brings = if lastEvent k st then [(i, eh)] else [] := rfl
  rw [Sys.act]
  by_cases hk : k = .queued
  · rw [if_pos hk]
    exact ⟨s, rfl, hi⟩
  · rw [if_neg hk]
    refine ⟨_, rfl, ?_⟩
    cases hlast : lastEvent k st with
    | true =>
      refine hi.begin (f := .hearing i eh k st) (steady_event hphase eh) rfl le_rfl
        ⟨out, ?_⟩ hcall hno t
      rw [hbrings, hlast]
      exact hb.depart i eh
    | false =>
      refine hi.begin (f := .hearing i eh k st) (Quiet.refl s.w).toSteady rfl le_rfl
        ⟨out, ?_⟩ hcall hno t
      rw [hbrings, hlast]
      exact hb

/-- A host submits to an engine on its own. -/
theorem Inv.direct (hi : Inv s) (hno : s.close = .no) (i : ℕ) (a : Answer) :
    ∃ s', s.act (.direct i a) = some s' ∧ Inv s' := by
  obtain ⟨out, hb⟩ := hi.books
  exact ⟨_, rfl, hi.same (steady_answered a rfl rfl) rfl le_rfl ⟨out, hb.answered i a⟩ hno⟩

/-- Which order the calls are listed in does not matter to the books. -/
theorem books_perm {w : World} {out : List Hand} {calls calls' : List (Thread × Frame)}
    (hp : calls.Perm calls') (hb : Books w [] out (held calls) (owing calls) (flight calls)) :
    Books w [] out (held calls') (owing calls') (flight calls') :=
  (hb.perm (hp.flatMap_right _) (hp.flatMap_right _)).flight_mono
    fun _ hx => (hp.flatMap_right _).mem_iff.mp hx

/-- The other calls while the `n`-th goes on. -/
theorem call_perm {calls : List (Thread × Frame)} {n : ℕ} {c : Thread × Frame}
    (hc : calls[n]? = some c) : calls.Perm (c :: calls.eraseIdx n) := by
  obtain ⟨hlt, hget⟩ := List.getElem?_eq_some_iff.mp hc
  rw [← hget]
  exact (getElem_cons_eraseIdx_perm hlt).symm

/-- The calls once one went on. -/
theorem wentOn_perm {calls : List (Thread × Frame)} {n : ℕ} {c : Thread × Frame}
    (hc : calls[n]? = some c) (t : Thread) (r : Option Frame) :
    (wentOn calls n t r).Perm ((r.map fun f => (t, f)).toList ++ calls.eraseIdx n) := by
  cases r with
  | none => exact .refl _
  | some f => exact set_perm_cons_eraseIdx (List.getElem?_eq_some_iff.mp hc).1 (t, f)

/-- A call goes on. -/
theorem Inv.resume (hi : Inv s) {n : ℕ} (ha : s.allowed (.resume n c) = true) :
    ∃ t f w' r, s.calls[n]? = some (t, f) ∧
      s.act (.resume n c) = some { s with w := w', calls := wentOn s.calls n t r } ∧
      Inv { s with w := w', calls := wentOn s.calls n t r } ∧
      Advanced s.w f (held (s.calls.eraseIdx n)) (owing (s.calls.eraseIdx n))
        (flight (s.calls.eraseIdx n)) w' r := by
  obtain ⟨out, hb⟩ := hi.books
  unfold Sys.allowed Sys.onTop at ha
  simp only [Bool.and_eq_true, decide_eq_true_eq] at ha
  obtain ⟨hno, htop⟩ := ha
  cases hc : s.calls[n]? with
  | none =>
    rw [hc] at htop
    cases htop
  | some p =>
    obtain ⟨t, f⟩ := p
    have hp := call_perm hc
    have hmem : (t, f) ∈ s.calls := hp.mem_iff.mpr mem_cons_self
    obtain ⟨w', r, hadv, hspec⟩ := advance_some f (books_perm hp hb) (hi.aimed _ hmem) c
    have hafter := wentOn_perm hc t r
    obtain ⟨out', hb'⟩ := hspec.books
    -- who will hand over what waits
    have hpend : Settled s.w.b ∨ f.pending = true ∨ ∃ c ∈ s.calls.eraseIdx n, c.2.pending = true := by
      rcases hi.settled with hset | ⟨c, hm, hc⟩
      · exact .inl hset
      · rcases mem_cons.mp (hp.mem_iff.mp hm) with rfl | hm
        · exact .inr (.inl hc)
        · exact .inr (.inr ⟨c, hm, hc⟩)
    refine ⟨t, f, w', r, rfl, ?_, hi.steady hspec.steady ⟨out', ?_⟩ ?_ ?_ hno, hspec⟩
    · rw [Sys.act, hc, Option.bind_some, hadv, Option.map_some]
    · refine books_perm hafter.symm ?_
      cases r with
      | none | some g => exact hb'
    · rcases hspec.settled _ hpend with hset | hg | ⟨c, hm, hc⟩
      · exact .inl hset
      · cases r with
        | none => cases hg
        | some g => exact .inr ⟨(t, g), hafter.mem_iff.mpr mem_cons_self, hg⟩
      · exact .inr ⟨c, hafter.mem_iff.mpr (mem_append_right _ hm), hc⟩
    · intro c hm
      rcases mem_append.mp (hafter.mem_iff.mp hm) with hm | hm
      · cases r with
        | none => cases hm
        | some g =>
          cases mem_singleton.mp hm
          exact hspec.aimed
      · exact hi.aimed c (hp.mem_iff.mpr (mem_cons_of_mem _ hm))

/-- An engine once a phase was set. -/
theorem setPhase_eng (w : World) (i : ℕ) (p : Balancer.Phase) (k : ℕ) :
    (World.setPhase w i p).eng k = { w.eng k with phase := if k = i then p else (w.eng k).phase } := by
  show update w.eng i { w.eng i with phase := p } k = _
  by_cases hk : k = i
  · subst hk
    rw [update_self, if_pos rfl]
  · rw [update_of_ne hk, if_neg hk]

/-- The close of the pool is past the shards before `j`. -/
theorem Inv.past (hi : Inv s) {eng : ℕ → Engine} {j : ℕ}
    (hsame : ∀ k, ∃ p, eng k = { s.w.eng k with phase := p })
    (hfreed : ∀ k, (eng k).phase = .freed ↔ k < j) (hdead : ∀ k, k < j → (s.w.eng k).live = [])
    (hj : j ≤ s.w.b.sh.length) (hno : s.close = .no) :
    Inv { s with w := { s.w with eng := eng }, pool := some j } := by
  obtain ⟨out, hb⟩ := hi.books
  have hlast : ∀ k, (eng k).last = (s.w.eng k).last := fun k => by
    obtain ⟨p, hp⟩ := hsame k
    rw [hp]
  have hlive : ∀ k, (eng k).live = (s.w.eng k).live := fun k => by
    obtain ⟨p, hp⟩ := hsame k
    rw [hp]
  refine { hi with
    books := ⟨out, hb.engines (fun k => le_of_eq (hlast k).symm) fun k x hx => by rwa [hlive k]⟩
    dead := fun k hk => (hlive k).trans (hdead k ((hfreed k).mp hk))
    freed := fun k => (hfreed k).trans ⟨fun h => ⟨j, rfl, h⟩, fun ⟨j', hj', h⟩ => ?_⟩
    within := fun j' hj' => ?_
    closing := fun hc => absurd hno hc }
  · cases hj'
    exact h
  · cases hj'
    exact hj

/-- Shutting down shard `i`, if there is one, changes phases only. -/
theorem stop_eq (s : Sys) (i : ℕ) :
    ∃ eng, s.stop i = { s with w := { s.w with eng := eng }, pool := some i } ∧
      ∀ k, ∃ p, eng k = { s.w.eng k with phase := p } ∧
      (p = (s.w.eng k).phase ∨ k = i ∧ p = .stopping ∧ i < s.w.b.sh.length) ∧
      (k = i → i < s.w.b.sh.length → p = .stopping) := by
  unfold Sys.stop
  split_ifs with hlt
  · refine ⟨_, rfl, fun k => ⟨_, setPhase_eng s.w i .stopping k, ?_, fun hk _ => if_pos hk⟩⟩
    by_cases hk : k = i
    · rw [if_pos hk]
      exact .inr ⟨hk, rfl, hlt⟩
    · rw [if_neg hk]
      exact .inl rfl
  · exact ⟨_, rfl, fun k => ⟨_, rfl, .inl rfl, fun _ h => absurd h hlt⟩⟩

variable (hi : Inv s)

include hi

/-- The pool begins to close. -/
theorem Inv.poolClose (ha : s.allowed .poolClose = true) :
    ∃ s', s.act .poolClose = some s' ∧ Inv s' := by
  unfold Sys.allowed at ha
  simp only [Bool.and_eq_true, decide_eq_true_eq] at ha
  obtain ⟨⟨hno, hpool⟩, -⟩ := ha
  obtain ⟨eng, heq, heng⟩ := stop_eq s 0
  refine ⟨_, rfl, ?_⟩
  rw [heq]
  refine hi.past (fun k => ?_) (fun k => ⟨fun hk => ?_, fun hk => absurd hk (Nat.not_lt_zero k)⟩)
    (fun k hk => absurd hk (Nat.not_lt_zero k)) (Nat.zero_le _) hno
  · obtain ⟨p, hp, -⟩ := heng k
    exact ⟨p, hp⟩
  · obtain ⟨p, hp, hphase, -⟩ := heng k
    rw [hp] at hk
    have hk' : p = .freed := hk
    rcases hphase with hphase | ⟨-, hphase, -⟩
    · obtain ⟨j, hj, -⟩ := (hi.freed k).mp (hphase.symm.trans hk')
      rw [hpool] at hj
      cases hj
    · cases hphase.symm.trans hk'

/-- A shard is gone, and the next is shut down. -/
theorem Inv.poolNext (hno : s.close = .no) (ha : s.allowed .poolNext = true) :
    ∃ i s', s.pool = some i ∧ i < s.w.b.sh.length ∧ (s.w.eng i).live = [] ∧ s.shardIdle i = true ∧
      s.act .poolNext = some s' ∧ Inv s' ∧ s'.w.b = s.w.b ∧ s'.w.trace = s.w.trace ∧
      s'.calls = s.calls := by
  unfold Sys.allowed at ha
  cases hpool : s.pool with
  | none =>
    rw [hpool] at ha
    cases ha
  | some i =>
    rw [hpool] at ha
    simp only [Bool.and_eq_true, decide_eq_true_eq] at ha
    obtain ⟨⟨hlt, hlive⟩, hidle⟩ := ha
    obtain ⟨eng, heq, heng⟩ := stop_eq { s with w := World.setPhase s.w i .freed } (i + 1)
    have hphase : ∀ k, ∃ p, eng k = { s.w.eng k with phase := p } ∧ (p = .freed ↔ k < i + 1) := by
      intro k
      obtain ⟨p, hp, hcase, -⟩ := heng k
      have hset : (World.setPhase s.w i .freed).eng k =
        { s.w.eng k with phase := if k = i then .freed else (s.w.eng k).phase } := setPhase_eng ..
      have hp' : eng k = { (World.setPhase s.w i .freed).eng k with phase := p } := hp
      rw [hset] at hp'
      refine ⟨p, hp', ?_⟩
      have hold : (s.w.eng k).phase = .freed ↔ k < i := by
        rw [hi.freed k]
        exact ⟨fun ⟨j, hj, h⟩ => by rw [hpool] at hj; cases hj; exact h, fun h => ⟨i, hpool, h⟩⟩
      rcases hcase with hcase | ⟨rfl, rfl, -⟩
      · have hcase' : p = if k = i then .freed else (s.w.eng k).phase :=
          hcase.trans (congrArg Engine.phase hset)
        by_cases hk : k = i
        · rw [if_pos hk] at hcase'
          exact ⟨fun _ => by omega, fun _ => hcase'⟩
        · rw [if_neg hk] at hcase'
          rw [hcase', hold]
          omega
      · exact ⟨nofun, fun h => absurd h (lt_irrefl _)⟩
    refine ⟨i, { s with w := { s.w with eng := eng }, pool := some (i + 1) }, rfl, hlt, hlive, hidle,
      Option.map_eq_some_iff.mpr ⟨i, hpool, heq⟩, ?_, rfl, rfl, rfl⟩
    refine hi.past (fun k => ?_) (fun k => ?_) (fun k hk => ?_) hlt hno
    · obtain ⟨p, hp, -⟩ := hphase k
      exact ⟨p, hp⟩
    · obtain ⟨p, hp, hfreed⟩ := hphase k
      rw [hp]
      exact hfreed
    · rcases Nat.lt_succ_iff_lt_or_eq.mp hk with hk | rfl
      · exact hi.dead k ((hi.freed k).mpr ⟨i, hpool, hk⟩)
      · exact hlive

/-- Nothing waits while a shard holds nothing: it is not at its cap. -/
theorem Inv.none_queued {sh : Shard} (hset : Settled s.w.b) (hmem : sh ∈ s.w.b.sh) (hload : sh.load = 0) :
    s.w.b.queued = 0 := by
  rcases hset with hq | hfull
  · exact hq
  · have hcap := hfull _ hmem
    have hpos := hi.roomy _ (mem_map_of_mem hmem)
    omega

/-- Once the pool is closed and no call is in progress everything had its last event. -/
theorem Inv.drained (hcalls : s.calls = []) (hpool : s.pool = some s.w.b.sh.length) :
    s.w.b.queued = 0 ∧ Books s.w [] [] [] [] [] := by
  obtain ⟨out, hb⟩ := hi.books
  have hset := hi.settled
  rw [hcalls] at hb hset
  have hout : out = [] := by
    cases out with
    | nil => rfl
    | cons h out =>
      have hlt := hb.range h mem_cons_self
      have hdead := hi.dead h.shard ((hi.freed _).mpr ⟨_, hpool, hlt⟩)
      rcases hb.reach h mem_cons_self with hlive | hfl
      · rw [hdead] at hlive
        cases hlive
      · cases hfl
  subst hout
  refine ⟨?_, hb⟩
  rcases hset with hset | ⟨c, hc, -⟩
  · have hs := getElem?_eq_getElem hi.some_shard
    exact hi.none_queued hset (mem_of_getElem? hs) (hb.shards 0 _ hs).load
  · cases hc

/-- The balancer begins to close. -/
theorem Inv.balanceClose (ha : s.allowed .balanceClose = true) :
    ∃ s', s.act .balanceClose = some s' ∧ Inv s' := by
  unfold Sys.allowed at ha
  simp only [Bool.and_eq_true, decide_eq_true_eq, List.isEmpty_iff] at ha
  obtain ⟨⟨-, hpool⟩, hcalls⟩ := ha
  exact ⟨_, rfl, { hi with closing := fun _ => ⟨hcalls, hpool, (hi.drained hcalls hpool).1⟩ }⟩

/-- It drops the next item of its queue, or is done. -/
theorem Inv.closeStep (ha : s.allowed .closeStep = true) :
    ∃ s', s.act .closeStep = some s' ∧ Inv s' ∧ s'.w.trace = s.w.trace ∧ s'.w.eng = s.w.eng ∧
      s'.pool = s.pool ∧ s'.w.b.queued = 0 ∧ s'.calls = s.calls ∧
      (s'.close = .done ∨ s'.close = .busy ∧ s'.w.b.q.a.length < s.w.b.q.a.length) := by
  have hbusy : s.close = .busy := of_decide_eq_true ha
  obtain ⟨hcalls, hpool, hq⟩ := hi.closing (by rw [hbusy]; decide)
  obtain ⟨-, hb⟩ := hi.drained hcalls hpool
  rw [Sys.act]
  rcases hb.closePass hq with hend | ⟨w', hpass, hsh, hq', htrace, heng, hlen, hb'⟩
  · rw [hend]
    refine ⟨_, rfl, { hi with closing := fun _ => ⟨hcalls, hpool, hq⟩ }, rfl, rfl, rfl, hq, rfl, .inl rfl⟩
  · rw [hpass]
    have hcaps : caps w'.b = caps s.w.b := congrArg (map Shard.cap) hsh
    refine ⟨_, rfl, ⟨⟨[], ?_⟩, .inl (.inl hq'), ?_, ?_, ?_, ?_, ?_, ?_, ?_⟩, htrace, heng, rfl, hq', rfl,
      .inr ⟨rfl, hlen⟩⟩
    · rw [hcalls]
      exact hb'
    · rw [hcalls]
      exact fun c hc => nomatch hc
    · exact hsh ▸ hi.some_shard
    · exact hcaps ▸ hi.roomy
    · exact heng ▸ hi.dead
    · exact heng ▸ hi.freed
    · exact hsh ▸ hi.within
    · exact fun _ => ⟨hcalls, hsh ▸ hpool, hq'⟩

/-- Every step that is allowed ends and keeps the invariant. -/
theorem Inv.act {l : Label} (ha : s.allowed l = true) : ∃ s', s.act l = some s' ∧ Inv s' := by
  have hopen : ∀ {b : Bool}, (decide (s.close = .no) && b) = true → s.close = .no := fun h =>
    of_decide_eq_true (Bool.and_eq_true_iff.mp h).1
  cases l with
  | submit t task payload prio found => exact hi.submit (hopen ha) t task payload prio found
  | cancel t h => exact hi.cancel (hopen ha) t h
  | event t i eh k st => exact hi.event ha
  | direct i a => exact hi.direct (of_decide_eq_true ha) i a
  | resume n c =>
    obtain ⟨t, f, w', r, -, hact, hinv, -⟩ := hi.resume ha
    exact ⟨_, hact, hinv⟩
  | poolClose => exact hi.poolClose ha
  | poolNext =>
    by_cases hno : s.close = .no
    · obtain ⟨i, s', -, -, -, -, hact, hinv, -⟩ := hi.poolNext hno ha
      exact ⟨s', hact, hinv⟩
    · -- the pool's close was past the last shard
      obtain ⟨-, hpool, -⟩ := hi.closing hno
      unfold Sys.allowed at ha
      rw [hpool] at ha
      simp only [Bool.and_eq_true, decide_eq_true_eq, lt_irrefl, false_and] at ha
  | balanceClose => exact hi.balanceClose ha
  | closeStep =>
    obtain ⟨s', hact, hinv, -⟩ := hi.closeStep ha
    exact ⟨s', hact, hinv⟩

/-- Every step keeps the invariant. -/
theorem Inv.step {l : Label} {s' : Sys} (h : s.step l = some s') : Inv s' := by
  unfold Sys.step at h
  split_ifs at h with ha
  obtain ⟨s'', hact, hinv⟩ := hi.act ha
  cases hact.symm.trans h
  exact hinv

/-- So does every run. -/
theorem Inv.run {ls : List Label} {s' : Sys} (h : s.run ls = some s') : Inv s' := by
  induction ls generalizing s with
  | nil =>
    cases h
    exact hi
  | cons l ls ih =>
    obtain ⟨s₁, hstep, hrest⟩ := Option.bind_eq_some_iff.mp h
    exact ih (hi.step hstep) hrest

omit hi

end Steps

section Open

/-- A shard is given room when the router is opened. -/
theorem shardCap_pos (depth : ℕ) (k : Workers) : 0 < shardCap depth k := by
  have hpos := k.pos
  have hfew := k.few
  unfold shardCap
  split_ifs with hd
  · omega
  · omega

/-- It holds of a balancer that was just opened. -/
theorem opened_inv (depth : ℕ) {pool : List Workers} (hp : pool ≠ []) : Inv (opened depth pool) where
  books := by
    refine ⟨[], ⟨?_, nodup_nil, nofun, nofun, nofun, rfl, fun i s hs => ?_, nofun, maps_empty,
      .refl _, nodup_nil, nofun, nofun, nofun, nofun, nofun⟩⟩
    · exact fun _ _ _ _ h => nomatch h
    · have hs' : (pool.map fun k => (⟨shardCap depth k, 0, .empty⟩ : Shard))[i]? = some s := hs
      rw [getElem?_map] at hs'
      obtain ⟨k, -, rfl⟩ := Option.map_eq_some_iff.mp hs'
      exact ⟨maps_empty, rfl, Nat.zero_le _⟩
  settled := .inl (.inl rfl)
  aimed := nofun
  some_shard := by
    show 0 < (pool.map _).length
    rw [length_map]
    exact length_pos_iff.mpr hp
  roomy := by
    intro n hn
    have hn' : n ∈ (pool.map fun k => (⟨shardCap depth k, 0, .empty⟩ : Shard)).map Shard.cap := hn
    rw [map_map] at hn'
    obtain ⟨k, -, rfl⟩ := mem_map.mp hn'
    exact shardCap_pos depth k
  dead := fun _ _ => rfl
  freed := fun _ => ⟨nofun, fun ⟨_, h, _⟩ => nomatch h⟩
  within := nofun
  closing := fun h => absurd rfl h

/-- The invariant of every state a router that was opened comes to. -/
theorem reached_inv {depth : ℕ} {pool : List Workers} {s₀ s : Sys} {ls : List Label}
    (hopen : gptpsBalanceOpen depth pool = some s₀) (hrun : s₀.run ls = some s) : Inv s := by
  unfold gptpsBalanceOpen at hopen
  split_ifs at hopen with hp
  cases hopen
  exact (opened_inv depth hp).run hrun

end Open

section Results

variable {s : Sys}

/-- `gptps_balance_close` returns. -/
theorem Inv.close_ends (hi : Inv s) (hbusy : s.close = .busy) :
    ∃ n s', s.run (replicate n .closeStep) = some s' ∧ s'.close = .done := by
  -- each pass takes an entry off the queue
  induction hm : s.w.b.q.a.length using Nat.strongRecOn generalizing s with
  | ind m ih =>
    have ha : s.allowed .closeStep = true := decide_eq_true hbusy
    obtain ⟨s', hact, hinv, -, -, -, -, -, hnext⟩ := hi.closeStep ha
    have hstep : s.step .closeStep = some s' := by rw [Sys.step, if_pos ha, hact]
    rcases hnext with hdone | ⟨hgo, hlen⟩
    · exact ⟨1, s', by rw [replicate_one, Sys.run, hstep]; rfl, hdone⟩
    · obtain ⟨n, s'', hrun, hdone⟩ := ih _ (hm ▸ hlen) hinv hgo rfl
      exact ⟨n + 1, s'', by rw [replicate_succ, Sys.run, hstep]; exact hrun, hdone⟩

/-- After both closes every handle had its last event once. -/
theorem Inv.exactly_once (hi : Inv s) (hdone : s.close = .done) :
    ∀ bh ∈ accepted s.w.trace, (ended s.w.trace).count bh = 1 := by
  obtain ⟨hcalls, hpool, hq⟩ := hi.closing (by rw [hdone]; decide)
  obtain ⟨-, hb⟩ := hi.drained hcalls hpool
  have hlive : s.w.b.live = [] := eq_nil_of_length_eq_zero (hb.queued.symm.trans hq)
  have hledger := hb.ledger
  rw [hlive] at hledger
  have hperm : (ended s.w.trace).Perm (accepted s.w.trace) := hledger
  intro bh hbh
  rw [hperm.count_eq]
  exact count_eq_one_of_mem hb.once hbh

/-- The load balancer, in every state in which its lock is free: a shard's load is the size of its map
and within its cap, `queued` counts the live items of the queue, and what was handed over was the first
live item and went to a shard of least load among those below their caps. When no call is in progress
and something waits, every shard is at its cap; when the pool and the router were closed, every handle
that was given out had exactly one last event. Every call goes on to its end, and so does the close. -/
theorem balance_exact (depth : ℕ) (pool : List Workers) (s₀ s : Sys) (ls : List Label)
    (hopen : gptpsBalanceOpen depth pool = some s₀) (hrun : s₀.run ls = some s) :
    (∀ sh ∈ s.w.b.sh, (∃ l, Maps sh.byEh l ∧ sh.load = l.length) ∧ sh.load ≤ sh.cap) ∧
      s.w.b.queued = s.w.b.live.length ∧
      (∀ b e i, Act.handed b e i ∈ s.w.trace → Best b e i) ∧
      (s.calls = [] → 0 < s.w.b.queued → ∀ sh ∈ s.w.b.sh, sh.load = sh.cap) ∧
      (s.close = .done → ∀ bh ∈ accepted s.w.trace, (ended s.w.trace).count bh = 1) ∧
      (∀ l, s.allowed l = true → ∃ s', s.step l = some s') ∧
      (s.close = .busy → ∃ n s', s.run (replicate n .closeStep) = some s' ∧ s'.close = .done) := by
  have hi := reached_inv hopen hrun
  obtain ⟨out, hb⟩ := hi.books
  have hbook : ∀ sh ∈ s.w.b.sh, ∃ l, ShardBook sh l := fun sh hsh => by
    obtain ⟨i, hget⟩ := getElem?_of_mem hsh
    exact ⟨_, hb.shards i sh hget⟩
  refine ⟨fun sh hsh => ?_, hb.queued, hb.best, fun hcalls hq sh hsh => ?_, hi.exactly_once,
    fun l ha => ?_, hi.close_ends⟩
  · obtain ⟨l, hl⟩ := hbook sh hsh
    exact ⟨⟨l, hl.maps, hl.load⟩, hl.room⟩
  · have hset := hi.settled
    rw [hcalls] at hset
    obtain ⟨l, hl⟩ := hbook sh hsh
    rcases hset with (hno | hfull) | ⟨c, hc, -⟩
    · omega
    · exact le_antisymm hl.room (hfull sh hsh)
    · cases hc
  · obtain ⟨s', hact, -⟩ := hi.act ha
    exact ⟨s', by rw [Sys.step, if_pos ha, hact]⟩

/-- A shard with two threads. -/
def two : Workers := ⟨2, by decide, by decide⟩

/-- An item is handed to one shard and one is cancelled in the queue; then the pool and the router are
closed. -/
def closedRun : List Label :=
  [.submit (.host 0) [97] [1] 0 {}, .resume 0 {}, .resume 0 {}, .resume 0 {}, .resume 0 {},
    .submit (.host 0) [97] [] 5 {}, .resume 0 {}, .resume 0 {}, .resume 0 {}, .resume 0 {},
    .cancel (.host 1) 2, .resume 0 {}, .resume 0 {},
    .poolClose, .event (.shard 0 0) 0 1 .finished .ok, .resume 0 {}, .resume 0 {}, .resume 0 {},
    .resume 0 {}, .poolNext, .balanceClose, .closeStep, .closeStep]

theorem balance_exact_closed : ∃ s, (opened 1 [two]).run closedRun = some s ∧ s.close = .done ∧
    (∀ bh ∈ accepted s.w.trace, (ended s.w.trace).count bh = 1) := by
  have hrun : ((opened 1 [two]).run closedRun).map Sys.close = some .done := by decide +kernel
  obtain ⟨s, hs, hdone⟩ := Option.map_eq_some_iff.mp hrun
  exact ⟨s, hs, hdone, (balance_exact 1 [two] _ s closedRun rfl hs).2.2.2.2.1 hdone⟩

end Results

end Gptps.BalanceRuns
