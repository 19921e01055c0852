import Gptps.DurableTable

/-!
# The table an open reads in

Whatever bytes follow the header of a journal, replay leaves a table that rises in its numbers,
with no number past the range and no field past its bound, and none of its records belongs to a
call. Counting the deaths of the last process keeps all that, so a queue begins with the invariant
of its table.
-/

namespace Gptps.DurableOpen

open JournalFormat DurableRecords JournalReplay DurableIndex DurableState DurableApi DurableTable
  List

/-- A record no call and no event of this run has reached. -/
structure Idle (rc : DqRec) : Prop where
  /-- It is well formed. -/
  ok : RecOk rc
  /-- It has no execution. -/
  handle : rc.handle = 0
  /-- No submit is making it durable. -/
  committing : rc.committing = false
  /-- No retraction of it is under way. -/
  retracting : rc.retracting = 0
  /-- It is no suspect yet. -/
  suspect : rc.suspect = false

/-- What replay keeps of its table. -/
structure ScanOk (sc : Scan) : Prop where
  /-- The numbers rise. -/
  sorted : (sc.table.recs.map DqRec.seq).Pairwise (· < ·)
  /-- No number is past the last 'P'. -/
  below : ∀ s ∈ sc.table.recs.map DqRec.seq, 0 < s ∧ s ≤ sc.lastP
  /-- The next number is past the last 'P'. -/
  last : sc.lastP < sc.table.nextSeq
  /-- The next number is in range. -/
  bound : sc.table.nextSeq ≤ 2 ^ 63
  /-- Every record is well formed and belongs to no call. -/
  each : ∀ rc ∈ sc.table.recs, Idle rc

section Replay

variable {f : Bytes} {fend : Option ℕ} {sc sc' : Scan} {r : Raw} {rc : DqRec}

theorem scanOk_start : ScanOk .start :=
  ⟨.nil, fun s hs => (by cases hs), by decide, by decide, fun rc hrc => (by cases hrc)⟩

/-- The parts of a record that calls and events change are as an idle record has them. -/
theorem idle_of {rc : DqRec} (hname : rc.name.length ≤ maxName ∧ 0 ∉ rc.name)
    (hpayload : rc.payload.length ≤ maxPayload) (hcrashes : rc.crashes < 2 ^ 32)
    (hhandle : rc.handle = 0) (hcommit : rc.committing = false) (hret : rc.retracting = 0)
    (hsuspect : rc.suspect = false) (hdefer : rc.deferred = none) : Idle rc := by
  refine ⟨⟨hname, hpayload, hcrashes, fun h => ?_, fun h => ?_, fun v h => ?_⟩, hhandle, hcommit,
    hret, hsuspect⟩
  · rw [hcommit] at h
    cases h
  · exact absurd hret (Nat.ne_of_gt h)
  · rw [hdefer] at h
    cases h

theorem Idle.deferred (h : Idle rc) : rc.deferred = none := by
  cases hd : rc.deferred with
  | none => rfl
  | some v => exact absurd h.retracting (Nat.ne_of_gt (h.ok.defer v hd).2.1)

/-- A string of C holds no NUL. -/
theorem zero_notMem_cString (b : Bytes) : 0 ∉ cString b := by
  intro h
  have hne := all_eq_true.mp all_takeWhile 0 h
  exact of_decide_eq_true hne rfl

theorem length_cString (b : Bytes) : (cString b).length ≤ b.length :=
  (List.takeWhile_prefix _).length_le

/-- The record of a verified 'P' is within its bounds. -/
theorem idle_recOf (hn : r.nlen ≤ maxName) (hp : r.plen ≤ maxPayload) : Idle (recOf r) := by
  refine idle_of ⟨?_, zero_notMem_cString _⟩ ?_ (Nat.two_pow_pos 32) rfl rfl rfl rfl rfl
  · refine (length_cString _).trans ?_
    rw [length_take]
    exact (min_le_left ..).trans hn
  · show ((r.body.drop r.nlen).take r.plen).length ≤ maxPayload
    rw [length_take]
    exact (min_le_left ..).trans hp

/-- A verified marker leaves its record within its bounds. -/
theorem Idle.mark (h : Idle rc) (r : Raw) : Idle (markRec r rc) := by
  have hok := h.ok
  unfold markRec
  split_ifs
  · exact idle_of ⟨Nat.zero_le _, not_mem_nil⟩ (Nat.zero_le _) hok.crashes h.handle
      h.committing h.retracting h.suspect h.deferred
  · exact idle_of hok.name hok.payload hok.crashes h.handle h.committing h.retracting h.suspect
      h.deferred
  · exact idle_of hok.name hok.payload hok.crashes h.handle h.committing h.retracting h.suspect
      h.deferred
  · exact idle_of hok.name hok.payload (Nat.two_pow_pos 32) h.handle h.committing h.retracting
      h.suspect h.deferred
  · exact idle_of hok.name hok.payload (LittleEndian.loadLe_take_lt ..) h.handle h.committing
      h.retracting h.suspect h.deferred
  · exact h
  · exact h

/-- The next number after a record in range. -/
theorem nextSeq_applyRec (hseq : r.seq ≤ maxSeq) (hb : sc.table.nextSeq ≤ 2 ^ 63) :
    sc.table.nextSeq ≤ (applyRec sc.table r).nextSeq ∧ r.seq < (applyRec sc.table r).nextSeq ∧
      (applyRec sc.table r).nextSeq ≤ 2 ^ 63 := by
  have hnext : (applyRec sc.table r).nextSeq =
      if r.seq ≥ sc.table.nextSeq then (r.seq + 1) % 2 ^ 64 else sc.table.nextSeq := by
    unfold applyRec
    by_cases htype : r.type = typeP
    · rw [if_pos htype]
    · rw [if_neg htype]
      cases findBySeq sc.table.recs r.seq <;> rfl
  unfold maxSeq at hseq
  rw [hnext]
  split_ifs with hge
  · omega
  · omega

/-- The records after a verified one is applied. -/
theorem recs_applyRec (hq : ScanOk sc) (r : Raw) :
    (r.type = typeP ∧ (applyRec sc.table r).recs = sc.table.recs ++ [recOf r]) ∨
      (r.type ≠ typeP ∧ (applyRec sc.table r).recs.map DqRec.seq = sc.table.recs.map DqRec.seq ∧
        ∀ rc ∈ (applyRec sc.table r).recs, Idle rc) := by
  unfold applyRec
  by_cases htype : r.type = typeP
  · rw [if_pos htype]
    exact .inl ⟨htype, rfl⟩
  · rw [if_neg htype]
    refine .inr ⟨htype, ?_⟩
    cases hfind : findBySeq sc.table.recs r.seq with
    | none => exact ⟨rfl, hq.each⟩
    | some i =>
      dsimp only
      constructor
      · cases hi : sc.table.recs[i]? with
        | none => rw [modify_eq_self (List.getElem?_eq_none_iff.mp hi)]
        | some rc =>
          obtain ⟨l₁, l₂, hl, hm⟩ := modify_split hi (markRec r)
          rw [hm, hl, map_append, map_append, map_cons, map_cons, markRec_seq]
      · intro rc hrc
        obtain ⟨j, hj⟩ := mem_iff_getElem?.mp hrc
        rw [getElem?_modify] at hj
        obtain ⟨rc₀, hrc₀, rfl⟩ := Option.map_eq_some_iff.mp hj
        have hidle := hq.each rc₀ (mem_of_getElem? hrc₀)
        split_ifs
        · exact hidle.mark r
        · exact hidle

/-- Applying a record that may stand keeps the table. -/
theorem ScanOk.take (hq : ScanOk sc) (hseq : r.seq ≤ maxSeq)
    (hrise : ¬(r.type = typeP ∧ r.seq ≤ sc.lastP)) (hr : r.nlen ≤ maxName ∧ r.plen ≤ maxPayload) :
    ScanOk (sc.take r) := by
  obtain ⟨hmono, hpast, hbound⟩ := nextSeq_applyRec hseq hq.bound
  rcases recs_applyRec hq r with ⟨htype, hrecs⟩ | ⟨htype, hmap, heach⟩
  · have hlt : sc.lastP < r.seq := lt_of_not_ge fun hle => hrise ⟨htype, hle⟩
    have hlast : (sc.take r).lastP = r.seq := if_pos ⟨htype, hlt⟩
    have hnew : (sc.take r).table.recs = sc.table.recs ++ [recOf r] := hrecs
    refine ⟨?_, ?_, ?_, hbound, ?_⟩
    · rw [hnew, map_append]
      refine pairwise_append.mpr ⟨hq.sorted, pairwise_singleton .., ?_⟩
      intro s hs t ht
      obtain rfl := mem_singleton.mp ht
      exact lt_of_le_of_lt (hq.below s hs).2 hlt
    · intro s hs
      rw [hlast]
      rw [hnew, map_append] at hs
      rcases mem_append.mp hs with hs | hs
      · have := hq.below s hs
        omega
      · obtain rfl := mem_singleton.mp hs
        exact ⟨lt_of_le_of_lt (Nat.zero_le _) hlt, le_rfl⟩
    · rw [hlast]
      exact hpast
    · intro rc hrc
      rw [hnew] at hrc
      rcases mem_append.mp hrc with hrc | hrc
      · exact hq.each rc hrc
      · obtain rfl := mem_singleton.mp hrc
        exact idle_recOf hr.1 hr.2
  · have hlast : (sc.take r).lastP = sc.lastP := if_neg fun hc => htype hc.1
    refine ⟨hmap.symm ▸ hq.sorted, ?_, ?_, hbound, heach⟩
    · rw [hlast]
      exact hmap.symm ▸ hq.below
    · rw [hlast]
      exact lt_of_lt_of_le hq.last hmono

theorem ScanOk.congr (hq : ScanOk sc) (ht : sc'.table = sc.table) (hl : sc'.lastP = sc.lastP) :
    ScanOk sc' := by
  refine ⟨?_, ?_, ?_, ?_, ?_⟩
  · rw [ht]
    exact hq.sorted
  · rw [ht, hl]
    exact hq.below
  · rw [ht, hl]
    exact hq.last
  · rw [ht]
    exact hq.bound
  · rw [ht]
    exact hq.each

/-- Every round of replay keeps the table. -/
theorem ScanOk.round {go : Bool} (hr : Round f fend sc sc' go) (hq : ScanOk sc) : ScanOk sc' := by
  cases hr with
  | take hread hr =>
    unfold Refused at hr
    rw [not_or, not_lt] at hr
    exact hq.take hr.1 hr.2 (readRec_ok hread).2.2.2
  | refused | scan | stop => exact hq.congr rfl rfl

/-- Whatever the file holds, what replay reads in is a table. -/
theorem scanOk_replay {file : Option Bytes} {knowsEnd : Bool}
    (h : replay file knowsEnd = .done sc) : ScanOk sc := by
  unfold replay at h
  cases file with
  | none =>
    cases h
    exact scanOk_start
  | some f =>
    dsimp only at h
    split_ifs at h
    · cases h
      exact scanOk_start
    · have hend := endOf_known f knowsEnd
      obtain ⟨sc', hends⟩ := exists_ends hend .start
      rw [hends.loop hend _ (Nat.lt_succ_of_le (Nat.sub_le ..))] at h
      cases h
      exact hends.keeps ScanOk.round scanOk_start

end Replay

section Open

variable {sc : Scan} {rc : DqRec}

/-- What an open makes of a record: only its deaths, its attempt and its suspicion change, and it
may be quarantined. -/
theorem openRec_idle (h : Idle rc) : RecOk (openRec rc) ∧ (openRec rc).seq = rc.seq ∧
    (openRec rc).handle = 0 ∧ (openRec rc).committing = false ∧ (openRec rc).retracting = 0 := by
  have hcount : (countDeath rc).crashes < 2 ^ 32 := by
    have hold := h.ok.crashes
    unfold countDeath crashMax
    by_cases hin : rc.inflight = true
    · rw [if_pos hin]
      dsimp only
      split_ifs
      · omega
      · exact hold
    · rw [if_neg hin]
      exact hold
  have hrest : (countDeath rc).name = rc.name ∧ (countDeath rc).payload = rc.payload ∧
      (countDeath rc).seq = rc.seq ∧ (countDeath rc).handle = rc.handle ∧
      (countDeath rc).committing = rc.committing ∧ (countDeath rc).retracting = rc.retracting ∧
      (countDeath rc).deferred = rc.deferred := by
    unfold countDeath
    by_cases hin : rc.inflight = true
    · rw [if_pos hin]
      exact ⟨rfl, rfl, rfl, rfl, rfl, rfl, rfl⟩
    · rw [if_neg hin]
      exact ⟨rfl, rfl, rfl, rfl, rfl, rfl, rfl⟩
  obtain ⟨hname, hpayload, hseq, hhandle, hcommit, hret, hdefer⟩ := hrest
  have hok {quar suspect : Bool} :
      RecOk { countDeath rc with quarantined := quar, suspect := suspect } := by
    refine ⟨hname.symm ▸ h.ok.name, hpayload.symm ▸ h.ok.payload, hcount, fun hc => ?_, fun hr => ?_,
      fun v hv => ?_⟩
    · rw [show (countDeath rc).committing = true from hc, h.committing] at hcommit
      cases hcommit
    · rw [show ({ countDeath rc with quarantined := quar, suspect := suspect } : DqRec).retracting =
        (countDeath rc).retracting from rfl, hret, h.retracting] at hr
      cases hr
    · rw [show (countDeath rc).deferred = some v from hv, h.deferred] at hdefer
      cases hdefer
  unfold openRec
  dsimp only
  split_ifs
  · exact ⟨h.ok, rfl, h.handle, h.committing, h.retracting⟩
  · exact ⟨hok, hseq, hhandle.trans h.handle, hcommit.trans h.committing, hret.trans h.retracting⟩
  · exact ⟨hok, hseq, hhandle.trans h.handle, hcommit.trans h.committing, hret.trans h.retracting⟩

/-- The queue begins with the invariant of its table. -/
theorem tableInv_readIn (hq : ScanOk sc) : TableInv (readIn sc.table) := by
  have hidle : ∀ rc ∈ sc.table.recs.map openRec, ∃ rc₀ ∈ sc.table.recs, Idle rc₀ ∧
      openRec rc₀ = rc := by
    intro rc hrc
    obtain ⟨rc₀, hrc₀, rfl⟩ := mem_map.mp hrc
    exact ⟨rc₀, hrc₀, hq.each rc₀ hrc₀, rfl⟩
  have hmap : (sc.table.recs.map openRec).map DqRec.seq = sc.table.recs.map DqRec.seq := by
    rw [map_map]
    exact map_congr_left fun rc hrc => (openRec_idle (hq.each rc hrc)).2.1
  have hfree : ∀ rc ∈ sc.table.recs.map openRec, rc.handle = 0 ∧ rc.committing = false := by
    intro rc hrc
    obtain ⟨rc₀, -, hi, rfl⟩ := hidle rc hrc
    exact ⟨(openRec_idle hi).2.2.1, (openRec_idle hi).2.2.2.1⟩
  have hcommit : (sc.table.recs.map openRec).countP DqRec.committing = 0 := by
    refine countP_eq_zero.mpr fun rc hrc hc => ?_
    rw [(hfree rc hrc).2] at hc
    cases hc
  have hentries : entries (sc.table.recs.map openRec) = [] :=
    filterMap_eq_nil_iff.mpr fun rc hrc => if_neg fun hc => hc.2 (hfree rc hrc).1
  have hpos : 0 < sc.table.nextSeq := lt_of_le_of_lt (Nat.zero_le _) hq.last
  refine ⟨?_, ?_, ⟨hpos, hq.bound⟩, ?_, ?_, ?_, ?_, nodup_nil⟩
  · exact hmap.symm ▸ hq.sorted
  · intro s hs
    have := hq.below s (hmap ▸ hs)
    exact ⟨this.1, lt_of_le_of_lt this.2 hq.last⟩
  · refine countP_congr fun rc hrc => ?_
    unfold counted
    rw [(hfree rc hrc).2, Bool.not_false, Bool.and_true]
  · show Indexed .empty (entries (sc.table.recs.map openRec))
      ((sc.table.recs.map openRec).countP DqRec.committing)
    rw [hentries, hcommit]
    exact indexed_empty
  · intro rc hrc hne
    exact absurd (hfree rc hrc).1 hne
  · intro rc hrc
    obtain ⟨rc₀, -, hi, rfl⟩ := hidle rc hrc
    exact (openRec_idle hi).1

end Open

end Gptps.DurableOpen
