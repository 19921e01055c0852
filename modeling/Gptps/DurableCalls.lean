import Gptps.DurableOpen
import Gptps.DurableStep

/-!
# The calls under way and the table

Between its critical sections a submit counts on finding its records again and a retraction on
being counted at its record. Both hold in every state of every run, whatever the journal held at
the open, and with them the invariant of the table.
-/

namespace Gptps.DurableCalls

open JournalFormat DurableRecords DurableIndex DurableState DurableApi DurableSystem DurableTable
  List
open DurableChange DurableOpen DurableStep

variable {rc : DqRec} {items : List Item} {id first : ℕ} {batch : Bool}

section Calls

variable {q₁ : Dq}

/-- Whether a call is a retraction of record `s` that has not acted yet. -/
def retracts (s : ℕ) (c : Call) : Bool := decide (Call.items c = 0 ∧ c.first = s ∧ c.pc ≠ .engine)

/-- How the calls under way and the table agree. -/
structure CallsInv (q : Dq) (next : ℕ) : Prop where
  /-- The calls have identities of their own. -/
  ids : (q.calls.map Call.id).Nodup
  /-- The identities have been given. -/
  below : ∀ c ∈ q.calls, c.id < next
  /-- The numbers have been given. -/
  first : ∀ c ∈ q.calls, c.first < q.nextSeq
  /-- Only retractions tell the engine. -/
  engine : ∀ c ∈ q.calls, c.pc = .engine → Call.items c = 0
  /-- The records of a submit are in the table. -/
  commits : ∀ c ∈ q.calls, Committing q c.first (Call.items c)
  /-- No two submits are about one record. -/
  apart : ∀ c ∈ q.calls, ∀ c' ∈ q.calls, ∀ k < Call.items c, ∀ k' < Call.items c',
    c.first + k = c'.first + k' → c.id = c'.id
  /-- What is being made durable belongs to a submit. -/
  owned : ∀ rc ∈ q.recs, rc.committing = true →
    ∃ c ∈ q.calls, ∃ k < Call.items c, rc.seq = c.first + k
  /-- The retractions of a record are counted at it. -/
  counts : ∀ rc ∈ q.recs, rc.retracting = q.calls.countP (retracts rc.seq)

variable {q q' : Dq} {next : ℕ} {c : Call} {pc : Pc} {calls : List Call}

/-- The places of a call in the list, moved and dropped. -/
theorem calls_split (hn : (calls.map Call.id).Nodup) (hc : c ∈ calls) (pc : Pc) :
    ∃ l₁ l₂, calls = l₁ ++ c :: l₂ ∧ movePc calls c.id pc = l₁ ++ { c with pc := pc } :: l₂ ∧
      dropCall calls c.id = l₁ ++ l₂ := by
  obtain ⟨l₁, l₂, rfl⟩ := append_of_mem hc
  rw [map_append, map_cons, nodup_append, nodup_cons] at hn
  obtain ⟨-, ⟨hright, -⟩, hleft⟩ := hn
  have h₁ : ∀ x ∈ l₁, x.id ≠ c.id :=
    fun x hx => hleft _ (mem_map_of_mem hx) _ mem_cons_self
  have h₂ : ∀ x ∈ l₂, x.id ≠ c.id := fun x hx heq => hright (heq ▸ mem_map_of_mem hx)
  refine ⟨l₁, l₂, rfl, ?_, ?_⟩
  · unfold movePc
    rw [map_append, map_cons, if_pos rfl]
    have hsame : ∀ l : List Call, (∀ x ∈ l, x.id ≠ c.id) →
        l.map (fun x => if x.id = c.id then { x with pc := pc } else x) = l := by
      intro l hl
      exact (map_congr_left fun x hx => if_neg (hl x hx)).trans (map_id _)
    rw [hsame l₁ h₁, hsame l₂ h₂]
  · unfold dropCall
    rw [filter_append, filter_cons_of_neg (by simp)]
    rw [filter_eq_self.mpr fun x hx => decide_eq_true (h₁ x hx),
      filter_eq_self.mpr fun x hx => decide_eq_true (h₂ x hx)]

theorem map_id_movePc (id : ℕ) : (movePc calls id pc).map Call.id = calls.map Call.id := by
  unfold movePc
  rw [map_map]
  refine map_congr_left fun c _ => ?_
  rw [Function.comp_apply]
  split_ifs <;> rfl

theorem items_eq {c c' : Call} (h : c'.kind = c.kind) : Call.items c' = Call.items c := by
  unfold Call.items
  rw [h]

theorem mem_dropCall : c ∈ dropCall calls id ↔ c ∈ calls ∧ c.id ≠ id := by
  unfold dropCall
  rw [mem_filter, decide_eq_true_eq]

/-- Two calls that differ in their place alone. -/
structure SameCall (c c' : Call) : Prop where
  /-- Their identity. -/
  id : c'.id = c.id
  /-- What they are. -/
  kind : c'.kind = c.kind
  /-- Their first record. -/
  first : c'.first = c.first

/-- The calls change: every call was there before, no submit is lost, and only retractions tell the
engine. -/
structure Recast (q : Dq) (calls : List Call) : Prop where
  /-- The calls have identities of their own. -/
  ids : (calls.map Call.id).Nodup
  /-- Every call was there before. -/
  back : ∀ c' ∈ calls, ∃ c ∈ q.calls, SameCall c c'
  /-- No submit is lost. -/
  keep : ∀ c ∈ q.calls, 0 < Call.items c → ∃ c' ∈ calls, SameCall c c'
  /-- Only retractions tell the engine. -/
  engine : ∀ c' ∈ calls, c'.pc = .engine → Call.items c' = 0

/-- The calls and the records change: the agreement is kept if the retractions left are counted. -/
theorem CallsInv.update {R : DqRec → DqRec → Prop} (hc : CallsInv q next) (hf : Frame R q q₁)
    (hR : ∀ rc rc', R rc rc' → rc'.seq = rc.seq ∧ rc'.committing = rc.committing)
    (hrecs : q'.recs = q₁.recs) (hnext : q'.nextSeq = q₁.nextSeq) (hcalls : Recast q q'.calls)
    (hcount : ∀ rc ∈ q.recs, ∀ rc', R rc rc' → rc'.retracting = q'.calls.countP (retracts rc.seq)) :
    CallsInv q' next := by
  obtain ⟨hids, hback, hkeep, hengine⟩ := hcalls
  refine ⟨hids, ?_, ?_, hengine, ?_, ?_, ?_, ?_⟩
  · intro c' hc'
    obtain ⟨c₀, hc₀, hsame⟩ := hback c' hc'
    rw [hsame.id]
    exact hc.below c₀ hc₀
  · intro c' hc'
    obtain ⟨c₀, hc₀, hsame⟩ := hback c' hc'
    rw [hsame.first, hnext, hf.nextSeq]
    exact hc.first c₀ hc₀
  · intro c' hc' k hk
    obtain ⟨c₀, hc₀, hsame⟩ := hback c' hc'
    rw [items_eq hsame.kind] at hk
    obtain ⟨rc, hrc, hseq, hcommit⟩ := hc.commits c₀ hc₀ k hk
    obtain ⟨rc', hrc', hrel⟩ := hf.mem_left hrc
    obtain ⟨hseq', hcommit'⟩ := hR rc rc' hrel
    rw [hrecs, hsame.first]
    exact ⟨rc', hrc', hseq'.trans hseq, hcommit'.trans hcommit⟩
  · intro c₁ hc₁ c₂ hc₂
    obtain ⟨x₁, hx₁, hs₁⟩ := hback c₁ hc₁
    obtain ⟨x₂, hx₂, hs₂⟩ := hback c₂ hc₂
    rw [hs₁.id, hs₂.id, hs₁.first, hs₂.first, items_eq hs₁.kind, items_eq hs₂.kind]
    exact hc.apart x₁ hx₁ x₂ hx₂
  · rw [hrecs]
    intro rc' hrc' hcommit
    obtain ⟨rc, hrc, hrel⟩ := hf.mem_right hrc'
    obtain ⟨hseq', hcommit'⟩ := hR rc rc' hrel
    obtain ⟨c₀, hc₀, k, hk, hseq⟩ := hc.owned rc hrc (hcommit'.symm.trans hcommit)
    obtain ⟨c', hc', hsame⟩ := hkeep c₀ hc₀ (lt_of_le_of_lt (Nat.zero_le k) hk)
    exact ⟨c', hc', k, by rw [items_eq hsame.kind]; exact hk, by rw [hsame.first, hseq', hseq]⟩
  · rw [hrecs]
    intro rc' hrc'
    obtain ⟨rc, hrc, hrel⟩ := hf.mem_right hrc'
    rw [(hR rc rc' hrel).1]
    exact hcount rc hrc rc' hrel

theorem CallsInv.recast (hc : CallsInv q next) : Recast q q.calls :=
  ⟨hc.ids, fun c hc => ⟨c, hc, rfl, rfl, rfl⟩, fun c hc _ => ⟨c, hc, rfl, rfl, rfl⟩, hc.engine⟩

/-- The records change in a way no call sees, and the calls stay. -/
theorem CallsInv.same (hc : CallsInv q next) (hf : Frame Same q q₁) (hrecs : q'.recs = q₁.recs)
    (hnext : q'.nextSeq = q₁.nextSeq) (hcalls : q'.calls = q.calls) : CallsInv q' next := by
  refine hc.update hf (fun _ _ h => ⟨h.seq, h.committing⟩) hrecs hnext (hcalls ▸ hc.recast) ?_
  intro rc hrc rc' hsame
  rw [hcalls, hsame.retracting]
  exact hc.counts rc hrc

theorem CallsInv.congr (hc : CallsInv q next) (hrecs : q'.recs = q.recs)
    (hnext : q'.nextSeq = q.nextSeq) (hcalls : q'.calls = q.calls) : CallsInv q' next :=
  hc.same (.refl .refl q) hrecs hnext hcalls

theorem sameCall_move (id : ℕ) (pc : Pc) (c : Call) :
    SameCall c (if c.id = id then { c with pc := pc } else c) := by
  split_ifs <;> exact ⟨rfl, rfl, rfl⟩

theorem movePc_back (id : ℕ) : ∀ c' ∈ movePc calls id pc, ∃ c ∈ calls, SameCall c c' := by
  intro c' hc'
  obtain ⟨c, hmem, rfl⟩ := mem_map.mp hc'
  exact ⟨c, hmem, sameCall_move id pc c⟩

/-- A call moved on is a retraction if it tells the engine. -/
theorem CallsInv.moved (hc : CallsInv q next) (hmem : c ∈ q.calls)
    (hnew : pc = .engine → Call.items c = 0) : Recast q (movePc q.calls c.id pc) := by
  refine ⟨(map_id_movePc c.id).symm ▸ hc.ids, movePc_back c.id,
    fun x hx _ => ⟨_, mem_map_of_mem hx, sameCall_move c.id pc x⟩, fun c' hc' hpc => ?_⟩
  obtain ⟨x, hx, rfl⟩ := mem_map.mp hc'
  split_ifs at hpc ⊢ with hid
  · obtain rfl : x = c := inj_on_of_nodup_map hc.ids hx hmem hid
    exact hnew hpc
  · exact hc.engine x hx hpc

theorem nodup_dropCall (hn : (calls.map Call.id).Nodup) (id : ℕ) :
    ((dropCall calls id).map Call.id).Nodup :=
  hn.sublist (filter_sublist.map _)

variable (hc : CallsInv q next)

include hc

/-- Another call than a retraction stays. -/
theorem CallsInv.dropped (hmem : c ∈ q.calls) (hzero : Call.items c = 0) :
    Recast q (dropCall q.calls c.id) := by
  refine ⟨nodup_dropCall hc.ids c.id, fun c' hc' => ⟨c', (mem_dropCall.mp hc').1, rfl, rfl, rfl⟩,
    fun x hx hpos => ⟨x, mem_dropCall.mpr ⟨hx, fun hid => ?_⟩, rfl, rfl, rfl⟩,
    fun c' hc' => hc.engine c' (mem_dropCall.mp hc').1⟩
  have heq : x = c := inj_on_of_nodup_map hc.ids hx hmem hid
  rw [heq, hzero] at hpos
  cases hpos

/-- The call's place changes, but it does not act. -/
theorem CallsInv.move (hmem : c ∈ q.calls) (hold : c.pc ≠ .engine) (hnew : pc ≠ .engine)
    (hcalls : q'.calls = movePc q.calls c.id pc) (hrecs : q'.recs = q.recs)
    (hnext : q'.nextSeq = q.nextSeq) : CallsInv q' next := by
  obtain ⟨l₁, l₂, hsplit, hmove, -⟩ := calls_split hc.ids hmem pc
  refine hc.update (.refl Same.refl q) (fun _ _ h => ⟨h.seq, h.committing⟩) hrecs hnext
    (hcalls ▸ hc.moved hmem fun hpc => absurd hpc hnew) ?_
  intro rc hrc rc' hsame
  rw [hsame.retracting, hc.counts rc hrc, hcalls, hmove, hsplit, countP_split, countP_split]
  congr 2
  exact decide_eq_decide.mpr ⟨fun h => ⟨h.1, h.2.1, hnew⟩, fun h => ⟨h.1, h.2.1, hold⟩⟩

/-- A retraction that has not acted is counted at its record. -/
theorem CallsInv.retracting_pos (hmem : c ∈ q.calls) (hzero : Call.items c = 0) (hpc : c.pc ≠ .engine)
    (hrc : rc ∈ q.recs) (hseq : rc.seq = c.first) : 0 < rc.retracting := by
  rw [hc.counts rc hrc]
  exact countP_pos_iff.mpr ⟨c, hmem, decide_eq_true ⟨hzero, hseq.symm, hpc⟩⟩

/-- A retraction is over, and its end was counted at its record before. -/
theorem CallsInv.tell (hmem : c ∈ q.calls) (hpc : c.pc = .engine)
    (hcalls : q'.calls = dropCall q.calls c.id) (hrecs : q'.recs = q.recs)
    (hnext : q'.nextSeq = q.nextSeq) : CallsInv q' next := by
  obtain ⟨l₁, l₂, hsplit, -, hdrop⟩ := calls_split hc.ids hmem .engine
  refine hc.update (.refl Same.refl q) (fun _ _ h => ⟨h.seq, h.committing⟩) hrecs hnext
    (hcalls ▸ hc.dropped hmem (hc.engine c hmem hpc)) ?_
  intro rc hrc rc' hsame
  have hno : retracts rc.seq c = false := decide_eq_false fun h => h.2.2 hpc
  rw [hsame.retracting, hc.counts rc hrc, hcalls, hdrop, hsplit, countP_split, hno,
    countP_append]
  rfl

/-- A retraction has acted, and its end is counted at its record if that is still in the table. -/
theorem CallsInv.acted (hmem : c ∈ q.calls) (hzero : Call.items c = 0) (hpc : c.pc ≠ .engine)
    (hf : Frame (ReleasedAt c.first) q q₁)
    (hcalls : q'.calls = movePc q.calls c.id .engine ∨ q'.calls = dropCall q.calls c.id)
    (hrecs : q'.recs = q₁.recs) (hnext : q'.nextSeq = q₁.nextSeq) : CallsInv q' next := by
  obtain ⟨l₁, l₂, hsplit, hmove, hdrop⟩ := calls_split hc.ids hmem .engine
  have hleft : ∀ s, q'.calls.countP (retracts s) = l₁.countP (retracts s) + l₂.countP (retracts s) := by
    intro s
    rcases hcalls with hcalls | hcalls
    · have hno : retracts s { c with pc := .engine } = false := decide_eq_false fun h => h.2.2 rfl
      rw [hcalls, hmove, countP_split, hno]
      rfl
    · rw [hcalls, hdrop, countP_append]
  have hrecast : Recast q q'.calls := by
    rcases hcalls with hcalls | hcalls
    · exact hcalls ▸ hc.moved hmem fun _ => hzero
    · exact hcalls ▸ hc.dropped hmem hzero
  refine hc.update hf (fun _ _ h => ⟨h.seq, h.committing⟩) hrecs hnext hrecast ?_
  intro rc hrc rc' hrel
  have hold := hc.counts rc hrc
  rw [hsplit, countP_split] at hold
  rw [hrel.retracting, hleft]
  split_ifs with hseq
  · have hyes : retracts rc.seq c = true := decide_eq_true ⟨hzero, hseq.symm, hpc⟩
    rw [hyes, Bool.toNat_true] at hold
    omega
  · have hno : retracts rc.seq c = false := decide_eq_false fun h => hseq h.2.1.symm
    rw [hno, Bool.toNat_false] at hold
    omega

/-- A submit has settled its records and is over. -/
theorem CallsInv.settled (hmem : c ∈ q.calls) (hpos : 0 < Call.items c)
    (hf : Frame (SettledAt c.first (Call.items c)) q₁ q') (hcalls : q₁.calls = dropCall q.calls c.id)
    (hrecs : q₁.recs = q.recs) (hnext : q₁.nextSeq = q.nextSeq) : CallsInv q' next := by
  obtain ⟨l₁, l₂, hsplit, -, hdrop⟩ := calls_split hc.ids hmem .engine
  have hcalls' : q'.calls = dropCall q.calls c.id := hf.calls.trans hcalls
  refine ⟨?_, ?_, ?_, ?_, ?_, ?_, ?_, ?_⟩
  · rw [hcalls']
    exact nodup_dropCall hc.ids c.id
  · rw [hcalls']
    exact fun x hx => hc.below x (mem_dropCall.mp hx).1
  · rw [hcalls', hf.nextSeq, hnext]
    exact fun x hx => hc.first x (mem_dropCall.mp hx).1
  · rw [hcalls']
    exact fun x hx => hc.engine x (mem_dropCall.mp hx).1
  · rw [hcalls']
    intro x hx k hk
    obtain ⟨hx, hne⟩ := mem_dropCall.mp hx
    obtain ⟨rc, hrc, hseq, hcommit⟩ := hc.commits x hx k hk
    obtain ⟨rc', hrc', hrel⟩ := hf.mem_left (hrecs ▸ hrc)
    refine ⟨rc', hrc', hrel.seq.trans hseq, ?_⟩
    rw [hrel.committing, hcommit, Bool.true_and]
    have hout : ¬(c.first ≤ rc.seq ∧ rc.seq < c.first + Call.items c) := by
      rintro ⟨hlo, hhi⟩
      refine hne (hc.apart x hx c hmem k hk (rc.seq - c.first) ?_ ?_)
      · omega
      · omega
    rw [decide_eq_false hout]
    rfl
  · rw [hcalls']
    exact fun x hx y hy => hc.apart x (mem_dropCall.mp hx).1 y (mem_dropCall.mp hy).1
  · rw [hcalls']
    intro rc' hrc' hcommit
    obtain ⟨rc, hrc, hrel⟩ := hf.mem_right hrc'
    rw [hrel.committing, Bool.and_eq_true, Bool.not_eq_true', decide_eq_false_iff_not] at hcommit
    obtain ⟨x, hx, k, hk, hseq⟩ := hc.owned rc (hrecs ▸ hrc) hcommit.1
    refine ⟨x, mem_dropCall.mpr ⟨hx, fun hid => hcommit.2 ?_⟩, k, hk, hrel.seq.trans hseq⟩
    obtain rfl : x = c := inj_on_of_nodup_map hc.ids hx hmem hid
    omega
  · rw [hcalls']
    intro rc' hrc'
    obtain ⟨rc, hrc, hrel⟩ := hf.mem_right hrc'
    have hno : retracts rc.seq c = false :=
      decide_eq_false fun h => Nat.ne_of_gt hpos h.1
    rw [hrel.retracting, hrel.seq, hc.counts rc (hrecs ▸ hrc), hdrop, hsplit, countP_split, hno,
      countP_append]
    rfl

omit hc

/-- A compaction drops closed records, and no submit is about one. -/
theorem CallsInv.purge (hq : TableInv q) (hc : CallsInv q next)
    (hrecs : q'.recs = q.recs.filter fun rc => !rc.done) (hcalls : q'.calls = q.calls)
    (hnext : q'.nextSeq = q.nextSeq) : CallsInv q' next := by
  have hmem : ∀ rc ∈ q'.recs, rc ∈ q.recs := by
    intro rc hrc
    rw [hrecs] at hrc
    exact (mem_filter.mp hrc).1
  refine ⟨hcalls ▸ hc.ids, hcalls ▸ hc.below, ?_, hcalls ▸ hc.engine, ?_, hcalls ▸ hc.apart, ?_, ?_⟩
  · rw [hcalls, hnext]
    exact hc.first
  · rw [hcalls]
    intro c hmem k hk
    obtain ⟨rc, hrc, hseq, hcommit⟩ := hc.commits c hmem k hk
    refine ⟨rc, ?_, hseq, hcommit⟩
    rw [hrecs, mem_filter, (isOpen_iff.mp (hq.commit hrc hcommit).opened).1]
    exact ⟨hrc, rfl⟩
  · rw [hcalls]
    exact fun rc hrc => hc.owned rc (hmem rc hrc)
  · rw [hcalls]
    exact fun rc hrc => hc.counts rc (hmem rc hrc)

/-- Draining the quarantine is no call's business. -/
theorem CallsInv.drain (hc : CallsInv q next) : CallsInv (drainQuarantine q).1 next := by
  let R : DqRec → DqRec → Prop := fun rc rc' =>
    rc'.seq = rc.seq ∧ rc'.committing = rc.committing ∧ rc'.retracting = rc.retracting
  have hf : Frame R q (drainQuarantine q).1 := by
    refine ⟨rfl, rfl, rfl, rfl, fun _ hx => hx, length_map _, ?_⟩
    intro i rc hi
    refine ⟨_, by rw [drainQuarantine, getElem?_map, hi]; rfl, ?_⟩
    dsimp only [R]
    by_cases hquar : rc.quarantined = true
    · rw [if_pos hquar]
      exact ⟨rfl, rfl, rfl⟩
    · rw [if_neg hquar]
      exact ⟨rfl, rfl, rfl⟩
  refine hc.update hf (fun _ _ h => ⟨h.1, h.2.1⟩) rfl rfl hc.recast ?_
  intro rc hrc rc' hrel
  rw [hrel.2.2]
  exact hc.counts rc hrc

theorem mem_newRecs (h : rc ∈ newRecs first items) :
    ∃ k < items.length, rc.seq = first + k ∧ rc.committing = true ∧ rc.retracting = 0 := by
  obtain ⟨k, hk, rfl⟩ := mem_mapIdx.mp h
  exact ⟨k, hk, rfl, rfl, rfl⟩

theorem newRecs_mem {k : ℕ} (first : ℕ) (hk : k < items.length) :
    ∃ rc ∈ newRecs first items, rc.seq = first + k ∧ rc.committing = true :=
  ⟨_, mem_mapIdx.mpr ⟨k, hk, rfl⟩, rfl, rfl⟩

/-- A call begins. -/
theorem CallsInv.add (hc : CallsInv q next) (hid : c.id = next) (hcalls : q'.calls = c :: q.calls)
    (hnext : q.nextSeq ≤ q'.nextSeq) (hfirst : c.first < q'.nextSeq) (hpc : c.pc = .write)
    (hcommits : ∀ x ∈ c :: q.calls, Committing q' x.first (Call.items x))
    (hnew : ∀ x ∈ q.calls, ∀ k < Call.items x, ∀ k' < Call.items c, x.first + k ≠ c.first + k')
    (howned : ∀ rc ∈ q'.recs, rc.committing = true →
      ∃ x ∈ c :: q.calls, ∃ k < Call.items x, rc.seq = x.first + k)
    (hcounts : ∀ rc ∈ q'.recs, rc.retracting = (c :: q.calls).countP (retracts rc.seq)) :
    CallsInv q' (next + 1) := by
  rw [← hcalls] at hcommits howned hcounts
  refine ⟨?_, ?_, ?_, ?_, hcommits, ?_, howned, hcounts⟩ <;> rw [hcalls]
  · refine nodup_cons.mpr ⟨fun hmem => ?_, hc.ids⟩
    obtain ⟨x, hmem, hx⟩ := mem_map.mp hmem
    exact absurd (hx.trans hid) (ne_of_lt (hc.below x hmem))
  · exact forall_mem_cons.mpr ⟨hid ▸ Nat.lt_succ_self _,
      fun x hx => Nat.lt_succ_of_lt (hc.below x hx)⟩
  · exact forall_mem_cons.mpr ⟨hfirst, fun x hx => lt_of_lt_of_le (hc.first x hx) hnext⟩
  · exact forall_mem_cons.mpr ⟨fun hno => (by cases hpc.symm.trans hno), hc.engine⟩
  · intro x hx y hy k hk k' hk' heq
    rcases mem_cons.mp hx with rfl | hx'
    · rcases mem_cons.mp hy with rfl | hy'
      · rfl
      · exact absurd heq.symm (hnew y hy' k' hk' k hk)
    · rcases mem_cons.mp hy with rfl | hy'
      · exact absurd heq (hnew x hx' k hk k' hk')
      · exact hc.apart x hx' y hy' k hk k' hk' heq

/-- A submit reserves its records. -/
theorem CallsInv.reserve (hq : TableInv q) (hc : CallsInv q next) (hr : Reserves q next items batch q') :
    CallsInv q' (next + 1) := by
  obtain ⟨x, alloc, -, rfl⟩ := hr.made
  have hlen : 0 < items.length := length_pos_iff.mpr hr.some
  have hnone : ∀ s, retracts s ⟨next, .submit items batch, q.nextSeq, .write⟩ = false :=
    fun s => decide_eq_false fun h => Nat.ne_of_gt hlen h.1
  refine hc.add rfl rfl (Nat.le_add_right ..) (Nat.lt_add_of_pos_right hlen) rfl ?_ ?_ ?_ ?_
  · refine forall_mem_cons.mpr ⟨fun k hk => ?_, fun c hmem k hk => ?_⟩
    · obtain ⟨rc, hrc, hseq, hcommit⟩ := newRecs_mem q.nextSeq hk
      exact ⟨rc, mem_append_right _ hrc, hseq, hcommit⟩
    · obtain ⟨rc, hrc, hseq, hcommit⟩ := hc.commits c hmem k hk
      exact ⟨rc, mem_append_left _ hrc, hseq, hcommit⟩
  · intro c hmem k hk k' _ heq
    obtain ⟨rc, hrc, hseq, -⟩ := hc.commits c hmem k hk
    have hlt := (hq.below rc.seq (mem_map_of_mem hrc)).2
    rw [hseq, heq] at hlt
    exact absurd hlt (Nat.not_lt.mpr (Nat.le_add_right ..))
  · intro rc hrc hcommit
    rcases mem_append.mp hrc with hrc | hrc
    · obtain ⟨c, hmem, hk⟩ := hc.owned rc hrc hcommit
      exact ⟨c, mem_cons_of_mem _ hmem, hk⟩
    · obtain ⟨k, hk, hseq, -⟩ := mem_newRecs hrc
      exact ⟨_, mem_cons_self, k, hk, hseq⟩
  · intro rc hrc
    rw [countP_cons_of_neg (by rw [hnone]; exact Bool.false_ne_true)]
    rcases mem_append.mp hrc with hrc | hrc
    · exact hc.counts rc hrc
    · obtain ⟨k, -, hseq, -, hzero⟩ := mem_newRecs hrc
      rw [hzero]
      refine (countP_eq_zero.mpr fun c hmem hret => ?_).symm
      have hlt := hc.first c hmem
      rw [(of_decide_eq_true hret).2.1, hseq] at hlt
      omega

/-- A retraction begins and is counted at its record. -/
theorem CallsInv.retract {i h : ℕ} (hq : TableInv q) (hc : CallsInv q next) (hi : q.recs[i]? = some rc)
    (hq' : q' = { setRec q i fun rc => { rc with retracting := rc.retracting + 1 } with
      calls := ⟨next, .cancel h, rc.seq, .write⟩ :: q.calls }) :
    CallsInv q' (next + 1) := by
  subst hq'
  let R : DqRec → DqRec → Prop := fun x x' => x'.seq = x.seq ∧ x'.committing = x.committing ∧
    x'.retracting = x.retracting + if x.seq = rc.seq then 1 else 0
  have hf : Frame R q (setRec q i fun rc => { rc with retracting := rc.retracting + 1 }) := by
    refine .modify hi ⟨rfl, rfl, by rw [if_pos rfl]⟩ ?_ rfl rfl rfl rfl rfl fun _ hx => hx
    intro j x hj hne
    have hother : x.seq ≠ rc.seq := fun heq => hne (SortedSearch.index_unique hq.rising hj hi heq)
    exact ⟨rfl, rfl, by rw [if_neg hother]; rfl⟩
  refine hc.add rfl rfl le_rfl
    (hq.below rc.seq (mem_map_of_mem (mem_of_getElem? hi))).2 rfl ?_
    (fun _ _ _ _ _ hk => (by cases hk)) ?_ ?_
  · refine forall_mem_cons.mpr ⟨fun k hk => (by cases hk), fun c hmem k hk => ?_⟩
    obtain ⟨x, hx, hseq, hcommit⟩ := hc.commits c hmem k hk
    obtain ⟨x', hx', hrel⟩ := hf.mem_left hx
    exact ⟨x', hx', hrel.1.trans hseq, hrel.2.1.trans hcommit⟩
  · intro x' hx' hcommit
    obtain ⟨x, hx, hrel⟩ := hf.mem_right hx'
    obtain ⟨c, hmem, k, hk, hseq⟩ := hc.owned x hx (hrel.2.1.symm.trans hcommit)
    exact ⟨c, mem_cons_of_mem _ hmem, k, hk, hrel.1.trans hseq⟩
  · intro x' hx'
    obtain ⟨x, hx, hrel⟩ := hf.mem_right hx'
    rw [hrel.2.2, hrel.1, hc.counts x hx, countP_cons]
    congr 1
    unfold retracts
    by_cases heq : x.seq = rc.seq
    · rw [if_pos heq, decide_eq_true ⟨rfl, heq.symm, fun h => (by cases h)⟩]
      rfl
    · rw [if_neg heq, decide_eq_false fun h => heq h.2.1.symm]
      rfl

theorem callsInv_readIn {sc : JournalReplay.Scan} (hsc : ScanOk sc) :
    CallsInv (readIn sc.table) next := by
  have hidle : ∀ rc ∈ (readIn sc.table).recs, rc.committing = false ∧ rc.retracting = 0 := by
    intro rc hrc
    obtain ⟨rc₀, hrc₀, rfl⟩ := mem_map.mp hrc
    exact ⟨(openRec_idle (hsc.each rc₀ hrc₀)).2.2.2.1, (openRec_idle (hsc.each rc₀ hrc₀)).2.2.2.2⟩
  refine ⟨nodup_nil, fun c hc => (by cases hc), fun c hc => (by cases hc),
    fun c hc => (by cases hc), fun c hc => (by cases hc), fun c hc => (by cases hc), fun rc hrc hcommit => ?_,
    fun rc hrc => (hidle rc hrc).2⟩
  rw [(hidle rc hrc).1] at hcommit
  cases hcommit

end Calls

section Steps

variable {next : ℕ} {s : Sys} {i : ℕ} {durable : Bool} {p : Dq × Disk} {s' : Sys} {ls : List Label}
  {file : Option Bytes}

/-- A running queue agrees with its calls and keeps its table. -/
structure QueueInv (q : Dq) (next : ℕ) : Prop where
  /-- The table. -/
  table : TableInv q
  /-- The calls. -/
  calls : CallsInv q next

variable {q q' : Dq} {d d' : Disk} {h h' : History} {l : Label}

/-- The records of a submit are well formed. -/
theorem recOk_newRecs (hname : ∀ x ∈ items, 0 ∉ x.name) (hfits : ∀ x ∈ items, itemFits x = true)
    (hrc : rc ∈ newRecs first items) : RecOk rc := by
  obtain ⟨k, hk, rfl⟩ := mem_mapIdx.mp hrc
  have hmem : items[k] ∈ items := getElem_mem hk
  have hfit := hfits _ hmem
  unfold itemFits at hfit
  rw [Bool.and_eq_true, decide_eq_true_eq, decide_eq_true_eq] at hfit
  exact ⟨⟨hfit.2, hname _ hmem⟩, hfit.1, Nat.two_pow_pos 32,
    fun _ => ⟨rfl, rfl, rfl, rfl, rfl, rfl⟩, fun hr => (by cases hr), fun v hv => (by cases hv)⟩

theorem tableInv_reserve (hq : TableInv q) (hname : ∀ x ∈ items, 0 ∉ x.name)
    (hr : Reserves q id items batch q') : TableInv q' := by
  obtain ⟨x, alloc, hres, rfl⟩ := hr.made
  have hlen : (newRecs q.nextSeq items).length = items.length := length_mapIdx
  have hpush := hq.push (x := x) (newRecs q.nextSeq items) ?_ ?_ ?_ ?_
  · rw [hlen] at hpush
    exact hpush.congr rfl rfl rfl rfl rfl
  · intro i rc hi
    rw [newRecs, getElem?_mapIdx] at hi
    obtain ⟨it, -, rfl⟩ := Option.map_eq_some_iff.mp hi
    rfl
  · rw [hlen]
    exact hr.range
  · intro rc hrc
    obtain ⟨k, -, -, hcommit, -⟩ := mem_newRecs hrc
    exact ⟨hcommit, recOk_newRecs hname hr.fits hrc⟩
  · intro hidx
    rw [hlen]
    exact mapReserve_indexed hidx hres

/-- A retraction begins at an open record with an execution. -/
theorem tableInv_retract (hq : TableInv q) (hi : q.recs[i]? = some rc) (hopen : isOpen rc = true)
    (hne : rc.handle ≠ 0) :
    TableInv (setRec q i fun rc => { rc with retracting := rc.retracting + 1 }) := by
  have hok := hq.each rc (mem_of_getElem? hi)
  refine hq.touch hi ⟨rfl, rfl, rfl, rfl, hok.name, hok.payload, hok.crashes, ?_, ?_, ?_⟩
  · exact fun hc => absurd (hok.commit hc).handle hne
  · exact fun _ => ⟨hne, (isOpen_iff.mp hopen).2⟩
  · exact fun v hv => ⟨(hok.defer v hv).1, Nat.succ_pos _, (hok.defer v hv).2.2⟩

theorem nextCall_submitted (c : Call) (offers : List Offer) (durable : Bool) :
    (h.submitted c offers durable).nextCall = h.nextCall := by
  cases durable <;> rfl

/-- A call whose write has been settled has not told the engine. -/
theorem settled_pc {c : Call} (hs : settled q c = some durable) : c.pc ≠ .engine := by
  intro hpc
  unfold settled at hs
  rw [hpc] at hs
  cases hs

theorem QueueInv.rewrites {o : RewriteOut} {st : Status} {rep : Bool} (hq : QueueInv q next)
    (hw : Rewrites q d o q' d' st rep) : QueueInv q' next := by
  cases hw with
  | stays _ => exact hq
  | lost | dead _ => exact ⟨hq.table.congr rfl rfl rfl rfl rfl, hq.calls.congr rfl rfl rfl⟩
  | replaced _ =>
    exact ⟨hq.table.purge.congr rfl rfl rfl rfl rfl, hq.calls.purge hq.table rfl rfl rfl⟩

theorem QueueInv.changes (hq : QueueInv q next) (hch : Changes (q, d) p) : QueueInv p.1 next :=
  ⟨hch.table hq.table, hq.calls.same hch.frame rfl rfl hch.frame.calls⟩

theorem CallsInv.mono {next' : ℕ} (hc : CallsInv q next) (hle : next ≤ next') : CallsInv q next' :=
  { hc with below := fun c hmem => lt_of_lt_of_le (hc.below c hmem) hle }

/-- A call moves on without acting, and nothing else changes that the invariant reads. -/
theorem QueueInv.move {c : Call} {pc : Pc} (hq : QueueInv q next) (hmem : c ∈ q.calls)
    (hold : c.pc ≠ .engine) (hnew : pc ≠ .engine) (j : Journal) :
    QueueInv { q with jnl := j, calls := movePc q.calls c.id pc } next :=
  ⟨hq.table.congr rfl rfl rfl rfl rfl, hq.calls.move hmem hold hnew rfl rfl rfl⟩

theorem QueueInv.journal (hq : QueueInv q next) (j : Journal) : QueueInv { q with jnl := j } next :=
  ⟨hq.table.congr rfl rfl rfl rfl rfl, hq.calls.congr rfl rfl rfl⟩

/-- A record that is not in the table has no retraction to count. -/
theorem frame_absent {s : ℕ} (hno : ∀ rc ∈ q.recs, rc.seq ≠ s) : Frame (ReleasedAt s) q q := by
  refine ⟨rfl, rfl, rfl, rfl, fun _ hx => hx, rfl, fun i rc hi => ⟨rc, hi, .refl rc, rfl, ?_⟩⟩
  rw [if_neg (hno rc (mem_of_getElem? hi))]

/-- What the end of a submit starts from and what it does. -/
theorem QueueInv.settles {c : Call} {offers : List Offer} (hq : QueueInv q next)
    (hc : callOf q c.id = some c) (hlen : offers.length = Call.items c)
    (hp : settleItems durable { q with
      jnl := unregisterWaiter q.jnl c.id, calls := dropCall q.calls c.id } d c.first offers = some p) :
    Committing q c.first offers.length ∧ TableInv p.1 ∧ Frame (SettledAt c.first offers.length)
      { q with jnl := unregisterWaiter q.jnl c.id, calls := dropCall q.calls c.id } p.1 := by
  have hcommit := hq.calls.commits c (callOf_mem hc)
  rw [← hlen] at hcommit
  exact ⟨hcommit, settleItems_table (hq.table.congr rfl rfl rfl rfl rfl) hcommit hp⟩

/-- What the end of a retraction starts from and what it does. -/
theorem QueueInv.retracts {c : Call} {rc : DqRec} {stands : Bool} {m : MarkOut} {rs : List Resub}
    (hq : QueueInv q next) (hc : callOf q c.id = some c) (hzero : Call.items c = 0)
    (hset : settled q c = some durable) (hi : q.recs[i]? = some rc) (hseq : rc.seq = c.first)
    (hr : retract { q with jnl := unregisterWaiter q.jnl c.id } d i rc durable m rs = some (q', d', stands)) :
    TableInv { q with jnl := unregisterWaiter q.jnl c.id } ∧ 0 < rc.retracting ∧
      Retracted { q with jnl := unregisterWaiter q.jnl c.id } d i rc rs durable q' d' stands := by
  have hrc := mem_of_getElem? hi
  have hq₀ := (hq.journal (unregisterWaiter q.jnl c.id)).table
  exact ⟨hq₀, hq.calls.retracting_pos (callOf_mem hc) hzero (settled_pc hset) hrc hseq,
    retract_some (hq₀.each rc hrc) hi hr⟩

/-- Every move keeps the table and the agreement with the calls. -/
theorem Moves.inv (hq : QueueInv q h.nextCall) (hm : Moves q d h l q' d' h') :
    QueueInv q' h'.nextCall := by
  cases hm with
  | refused hcall hb =>
    obtain ⟨x, hx, rfl⟩ := submitBegin_refused hb
    exact ⟨hq.table.reindex hx, (hq.calls.mono (Nat.le_succ _)).congr rfl rfl rfl⟩
  | reserved hcall hfree hb =>
    have hr := submitBegin_begun hb
    exact ⟨tableInv_reserve hq.table hcall.1 hr, hq.calls.reserve hq.table hr⟩
  | noRecord hst hb => exact ⟨hq.table, hq.calls.mono (Nat.le_succ _)⟩
  | retracting hfree hb =>
    obtain ⟨i, rc, hi, hopen, -, hne, -, hq'⟩ := cancelBegin_some hq.table hb
    refine ⟨?_, hq.calls.retract hq.table hi hq'⟩
    rw [hq']
    exact (tableInv_retract hq.table hi hopen hne).congr rfl rfl rfl rfl rfl
  | write hc hold hnew | cut hc hold hnew => exact hq.move (callOf_mem hc) hold hnew _
  | syncBegin _ | fsyncRet _ | dirRet _ | syncSettle _ | syncFail _ _ => exact hq.journal _
  | submitEnd hc hpos hlen hset hp =>
    obtain ⟨-, htable, hframe⟩ := hq.settles hc hlen hp
    rw [hlen] at hframe
    rw [nextCall_submitted]
    exact ⟨htable, hq.calls.settled (callOf_mem hc) hpos hframe rfl rfl rfl⟩
  | cancelGone hc hzero hset hfind =>
    refine ⟨hq.table.congr rfl rfl rfl rfl rfl, ?_⟩
    refine hq.calls.acted (callOf_mem hc) hzero (settled_pc hset) (frame_absent fun rc hrc hseq => ?_)
      (.inl rfl) rfl rfl
    obtain ⟨i, hi, -⟩ := hq.table.findBySeq_mem hrc
    rw [hseq, hfind] at hi
    cases hi
  | cancelEnd hc hzero hset hi hseq hr =>
    rename_i c m rs durable stands i rc q₁
    obtain ⟨hq₀, hret, hdone⟩ := hq.retracts hc hzero hset hi hseq hr
    have hcalls := (hq.journal (unregisterWaiter q.jnl c.id)).calls
    have hch := hdone.changes hq₀ hi hret
    have htable := hch.table (TableInv.release hq₀ hi hret durable)
    have hframe : Frame (ReleasedAt c.first) { q with jnl := unregisterWaiter q.jnl c.id } q₁ := by
      rw [← hseq]
      refine (release_frame hq₀ hi).trans hch.frame fun x y z hxy hyz => ?_
      exact ⟨hxy.toAlike.trans hyz.toAlike, hyz.committing.trans hxy.committing,
        hyz.retracting.trans hxy.retracting⟩
    cases stands with
    | true =>
      refine ⟨htable.congr rfl rfl rfl rfl rfl, ?_⟩
      exact hcalls.acted (callOf_mem hc) hzero (settled_pc hset) hframe
        (.inl (congrArg (movePc · c.id .engine) hframe.calls)) rfl rfl
    | false =>
      refine ⟨htable.congr rfl rfl rfl rfl rfl, ?_⟩
      exact hcalls.acted (callOf_mem hc) hzero (settled_pc hset) hframe
        (.inr (congrArg (dropCall · c.id) hframe.calls)) rfl rfl
  | cancelTell hc hpc =>
    exact ⟨hq.table.congr rfl rfl rfl rfl rfl, hq.calls.tell (callOf_mem hc) hpc rfl rfl rfl⟩
  | event htear hp => exact hq.changes ((dqOnEvent_some hq.table hp).changes hq.table)
  | tearDown => exact ⟨hq.table.congr rfl rfl rfl rfl rfl, hq.calls.congr rfl rfl rfl⟩
  | recover hr => exact hq.changes ((gptpsDqRecover_handings hq.table hr).changes d)
  | compact _ hw => exact hq.rewrites hw
  | noDrain _ => exact hq
  | drain _ hw => exact QueueInv.rewrites ⟨hq.table.drain, hq.calls.drain⟩ hw

/-- What holds in every state: a running queue has its invariant. -/
def Inv (s : Sys) : Prop := ∀ q, s.q = some q → QueueInv q s.hist.nextCall

theorem inv_init (file : Option Bytes) : Inv (init file) := fun q hq => (by cases hq)

/-- What an open leaves, whatever the journal holds. -/
theorem gptpsDqOpen_inv {o : OpenOut} (ho : gptpsDqOpen d o = some (q, d')) : QueueInv q next := by
  obtain ⟨sc, st, hre, hw⟩ := gptpsDqOpen_some ho
  have hsc := scanOk_replay hre
  exact QueueInv.rewrites ⟨tableInv_readIn hsc, callsInv_readIn hsc⟩ hw

/-- Every step keeps the invariant. -/
theorem inv_step (hs : Inv s) (h : step s l = some s') : Inv s' := by
  rcases step_cases (fun q hq => (hs q hq).table) h with
    ⟨q, q', d', h', hq, hm, rfl⟩ | ⟨q, d', o, ho, rfl⟩ | ⟨hnone, -⟩
  · rintro _ ⟨⟩
    exact show QueueInv q' h'.nextCall from Moves.inv (hs q hq) hm
  · rintro _ ⟨⟩
    exact gptpsDqOpen_inv ho
  · intro q hq
    rw [hnone] at hq
    cases hq

/-- Every run keeps the invariant. -/
theorem inv_run (hs : Inv s) (h : run s ls = some s') : Inv s' := by
  induction ls generalizing s with
  | nil =>
    cases h
    exact hs
  | cons l ls ih =>
    obtain ⟨s₁, hstep, hrest⟩ := Option.bind_eq_some_iff.mp h
    exact ih (inv_step hs hstep) hrest

/-- The invariant of a running queue reached from any journal. -/
theorem queueInv_run (h : run (init file) ls = some s) (hq : s.q = some q) :
    QueueInv q s.hist.nextCall :=
  inv_run (inv_init file) h q hq

/-- The invariant of the durable queue's table: in every state of every run, whatever bytes the
journal held at the open, the records rise in their numbers and no number is out of range, so the
search for a number is exact and finds every record of a submit under way; the pending records are
counted; the handle index answers exactly the handles of the open records with an execution; and
its load of at most a half leaves an empty slot for every probe to end at. -/
theorem table_invariant {file : Option Bytes} {ls : List Label} {s : Sys}
    (hrun : run (init file) ls = some s) (hq : s.q = some q) :
    (q.recs.map DqRec.seq).Pairwise (· < ·) ∧ (∀ rc ∈ q.recs, rc.seq < q.nextSeq) ∧
    q.nextSeq ≤ 2 ^ 63 ∧
    (∀ seq i, findBySeq q.recs seq = some i ↔ ∃ rc, q.recs[i]? = some rc ∧ rc.seq = seq) ∧
    (∀ c ∈ q.calls, ∀ k < Call.items c, ∃ i rc, findBySeq q.recs (c.first + k) = some i ∧
      q.recs[i]? = some rc ∧ rc.seq = c.first + k ∧ rc.committing = true) ∧
    q.pending = q.recs.countP (fun rc => !rc.done && !rc.quarantined && !rc.committing) ∧
    (∀ h seq, mapFind q.index h = some seq ↔ h ≠ 0 ∧ ∃ rc ∈ q.recs, rc.done = false ∧
      rc.quarantined = false ∧ rc.handle = h ∧ rc.seq = seq) ∧
    (0 < q.index.table.size →
      (q.index.table.live + q.index.table.dead + q.index.reserved) * 2 ≤ q.index.table.size ∧
        ∃ i < q.index.table.size, q.index.table.slot i = none) := by
  have hinv := queueInv_run hrun hq
  have htable := hinv.table
  refine ⟨htable.sorted, ?_, htable.bound.2, ?_, ?_, htable.pending, ?_, ?_⟩
  · intro rc hrc
    exact (htable.below rc.seq (mem_map_of_mem hrc)).2
  · intro seq i
    exact htable.findBySeq_iff
  · intro c hc k hk
    obtain ⟨rc, hrc, hseq, hcommit⟩ := hinv.calls.commits c hc k hk
    obtain ⟨i, hfind, hi⟩ := htable.findBySeq_mem hrc
    exact ⟨i, rc, hseq ▸ hfind, hi, hseq, hcommit⟩
  · intro h seq
    rw [htable.mapFind_iff]
    constructor
    · rintro ⟨rc, hrc, hopen, hhandle, hne, hseq⟩
      obtain ⟨hdone, hquar⟩ := isOpen_iff.mp hopen
      exact ⟨hne, rc, hrc, hdone, hquar, hhandle, hseq⟩
    · rintro ⟨hne, rc, hrc, hdone, hquar, hhandle, hseq⟩
      exact ⟨rc, hrc, isOpen_iff.mpr ⟨hdone, hquar⟩, hhandle, hne, hseq⟩
  · intro hsize
    exact ⟨htable.index.load, htable.index.holds.exists_empty hsize⟩

/-- An open without a journal and a batch of two that has written its records. -/
def batchRun : List Label :=
  [.openQueue ⟨true, true, true, true, .replaced true true⟩,
    .submit [⟨[97], [1]⟩, ⟨[98], []⟩] true ⟨true, true, true⟩, .write 1 0 true]

theorem table_invariant_batch : ∃ s q, run (init none) batchRun = some s ∧ s.q = some q ∧
    q.calls.length = 1 ∧ q.pending = 0 ∧ 0 < q.index.table.size ∧
    ∀ c ∈ q.calls, ∀ k < Call.items c, ∃ i rc, findBySeq q.recs (c.first + k) = some i ∧
      q.recs[i]? = some rc ∧ rc.seq = c.first + k ∧ rc.committing = true := by
  refine ⟨_, _, rfl, rfl, rfl, rfl, by decide, ?_⟩
  have hrun : run (init none) batchRun = some _ := rfl
  exact (table_invariant hrun rfl).2.2.2.2.1

/-- No flag outlives its call: a record is committing exactly while a submit that made it is under
way, and it counts its retractions. -/
theorem flags_match_calls {file : Option Bytes} {ls : List Label}
    (hrun : run (init file) ls = some s) (hq : s.q = some q) (hrc : rc ∈ q.recs) :
    rc.retracting = q.calls.countP (retracts rc.seq) ∧ (rc.committing = true ↔
      ∃ c ∈ q.calls, ∃ k < Call.items c, rc.seq = c.first + k) := by
  obtain ⟨htable, hcalls⟩ := queueInv_run hrun hq
  refine ⟨hcalls.counts rc hrc, hcalls.owned rc hrc, ?_⟩
  rintro ⟨c, hc, k, hk, hseq⟩
  obtain ⟨rc', hrc', hseq', hcommit⟩ := hcalls.commits c hc k hk
  rwa [htable.seq_inj hrc hrc' (hseq.trans hseq'.symm)]

/-- A submit whose record has an execution. -/
def submitted : List Label :=
  [.openQueue ⟨true, true, true, true, .replaced true true⟩,
    .submit [⟨[97], [1]⟩] false ⟨true, true, true⟩, .write 1 0 true, .syncBegin, .fsyncRet true,
    .syncSettle, .submitEnd 1 [⟨some 7, ⟨true, 0, true⟩⟩]]

/-- A retraction of it has written, and another submit begins. -/
def retractingRun : List Label :=
  submitted ++ [.cancel 7, .write 2 0 true, .submit [⟨[98], []⟩] false ⟨true, true, true⟩]

/-- The first record is retracted by one call, and the second is committing. -/
theorem flags_match_calls_retracting : ∃ s q, run (init none) retractingRun = some s ∧ s.q = some q ∧
    q.recs.map (fun rc => (rc.retracting, rc.committing)) = [(1, false), (0, true)] ∧
    ∀ rc ∈ q.recs, rc.retracting = q.calls.countP (retracts rc.seq) ∧ (rc.committing = true ↔
      ∃ c ∈ q.calls, ∃ k < Call.items c, rc.seq = c.first + k) := by
  have hrun : run (init none) retractingRun = some _ := rfl
  exact ⟨_, _, rfl, rfl, rfl, fun rc hrc => flags_match_calls hrun rfl hrc⟩

end Steps

end Gptps.DurableCalls
