import Gptps.DurableCalls
import Mathlib.Data.List.TakeWhile

/-!
# Compaction and replay

A compaction writes for every record it keeps a 'P', and a 'K', an 'S' and a 'Q' where the record
has lived through deaths, runs or is quarantined. Replaying that file gives the records back as
they were, without damage, and writing the replayed table again gives the same bytes.
-/

namespace Gptps.DurableRewrite

open JournalFormat DurableRecords JournalReplay JournalDamage DurableState DurableApi DurableTable
  List

section Whole

variable {rs : List Record}

/-- The replay of a journal that is whole. -/
theorem replay_journal (h : WriterMade rs) (knowsEnd : Bool) :
    replay (some (journal rs)) knowsEnd = .done (takeAll .start rs) := by
  have hend := endOf_known (fileHeader ++ encode rs) knowsEnd
  have hall := @takeAll_eq rs .start h.rises
  have hlast : (fileHeader ++ encode rs).drop (takeAll .start rs).pos = [] := by
    have hpos : (takeAll .start rs).pos = (fileHeader ++ encode rs).length := by
      rw [hall, length_append]
      rfl
    rw [hpos, drop_length]
  have hstop := replayStep_end hend hlast
  have hdrop : (fileHeader ++ encode rs).drop Scan.start.pos = encode rs ++ [] := by
    rw [append_nil]
    exact drop_left' rfl
  exact replay_eq knowsEnd (ends_records hend hdrop h.fits h.rises (.stop hstop))

theorem takeAll_table (h : WriterMade rs) :
    (takeAll .start rs).table = tableOf rs ∧ (takeAll .start rs).dmg = {} := by
  rw [@takeAll_eq rs .start h.rises]
  exact ⟨rfl, rfl⟩

end Whole

section Written

/-- A record as replay brings it back. -/
def back (rc : DqRec) : DqRec where
  seq := rc.seq
  name := rc.name
  payload := rc.payload
  quarantined := rc.quarantined
  inflight := rc.inflight
  crashes := rc.crashes

variable {t : DqTable} {l : List DqRec} {rc x : DqRec} {r : Raw}

/-- The records after more are applied. -/
def applyAll (t : DqTable) (rs : List Record) : DqTable := (rs.map Record.raw).foldl applyRec t

theorem applyAll_append (t : DqTable) (rs rs' : List Record) :
    applyAll t (rs ++ rs') = applyAll (applyAll t rs) rs' := by
  unfold applyAll
  rw [map_append, foldl_append]

/-- A 'P' brings a record. -/
theorem applyRec_new (htype : r.type = typeP) : (applyRec t r).recs = t.recs ++ [recOf r] := by
  unfold applyRec
  rw [if_pos htype]

/-- A marker about the newest record changes it alone. -/
theorem applyRec_last (ht : t.recs = l ++ [x]) (hbelow : ∀ y ∈ l, y.seq < x.seq)
    (hsorted : l.Pairwise fun a b => a.seq < b.seq) (htype : r.type ≠ typeP) (hseq : r.seq = x.seq) :
    (applyRec t r).recs = l ++ [markRec r x] := by
  have hrising : t.recs.Pairwise fun a b => a.seq < b.seq := by
    rw [ht]
    refine pairwise_append.mpr ⟨hsorted, pairwise_singleton .., ?_⟩
    intro a ha b hb
    obtain rfl := mem_singleton.mp hb
    exact hbelow a ha
  have hi : t.recs[l.length]? = some x := by
    rw [ht, getElem?_append_right le_rfl, Nat.sub_self]
    rfl
  have hfind : findBySeq t.recs r.seq = some l.length :=
    (SortedSearch.search_iff hrising).mpr ⟨x, hi, hseq.symm⟩
  unfold applyRec
  rw [if_neg htype, hfind]
  dsimp only
  obtain ⟨l₁, l₂, hl, hm⟩ := modify_split hi (markRec r)
  have hlen : l₁.length = l.length := by
    have hidx : (l₁ ++ x :: l₂)[l₁.length]? = some x := by
      rw [getElem?_append_right le_rfl, Nat.sub_self]
      rfl
    exact SortedSearch.index_unique hrising (hl ▸ hidx) hi rfl
  rw [hm]
  obtain ⟨rfl, htail⟩ := append_inj (ht.symm.trans hl).symm hlen
  cases htail
  rfl

/-- A marker that is written only where it is needed. -/
theorem applyAll_marker {m : Record} {b : Prop} [Decidable b] (ht : t.recs = l ++ [x])
    (hbelow : ∀ y ∈ l, y.seq < x.seq) (hsorted : l.Pairwise fun a b => a.seq < b.seq)
    (htype : m.type ≠ typeP) (hseq : m.seq = x.seq) :
    (applyAll t (if b then [m] else [])).recs = l ++ [if b then markRec m.raw x else x] := by
  split_ifs
  · exact applyRec_last ht hbelow hsorted htype hseq
  · exact ht

/-- A string without a NUL is read whole. -/
theorem cString_eq {b : Bytes} (h : 0 ∉ b) : cString b = b := by
  refine takeWhile_eq_self_iff.mpr fun x hx => decide_eq_true fun heq => ?_
  exact h (heq ▸ hx)

/-- The record a written 'P' brings back. -/
theorem recOf_written {seq : ℕ} {name payload : Bytes} (hname : 0 ∉ name) :
    recOf (Record.raw ⟨typeP, seq, name, payload⟩) = { seq := seq, name := name, payload := payload } := by
  unfold recOf Record.raw
  rw [append_assoc, take_left, drop_left, take_left, cString_eq hname]

/-- The count of a written 'K' is read back. -/
theorem get32_written {n : ℕ} (hn : n < 2 ^ 32) (rest : Bytes) : get32 (put32 n ++ rest) = n := by
  unfold get32 put32
  rw [take_left' (LittleEndian.length_storeLe 4 n)]
  exact LittleEndian.loadLe_storeLe_of_lt (Nat.lt_of_lt_of_eq hn (by decide))

theorem markRec_started (seq : ℕ) (x : DqRec) :
    markRec (marker typeS seq).raw x = { x with inflight := true } := rfl

theorem markRec_quarantined (seq : ℕ) (x : DqRec) :
    markRec (marker typeQ seq).raw x = { x with quarantined := true } := rfl

theorem markRec_deaths {n : ℕ} (hn : n < 2 ^ 32) (seq : ℕ) (x : DqRec) :
    markRec (Record.raw ⟨typeK, seq, [], put32 n⟩) x = { x with crashes := n } := by
  have hcount : get32 (Record.raw ⟨typeK, seq, [], put32 n⟩).body = n := get32_written hn _
  have hmark : markRec (Record.raw ⟨typeK, seq, [], put32 n⟩) x =
      if (put32 n).length = 4 ∧ ([] : Bytes).length = 0 then
        { x with crashes := get32 (Record.raw ⟨typeK, seq, [], put32 n⟩).body } else x := rfl
  rw [hmark, if_pos ⟨LittleEndian.length_storeLe 4 n, rfl⟩, hcount]

/-- What replay makes of the records a compaction writes for one record. -/
theorem applyAll_recordsOf (hok : RecOk rc) (hbelow : ∀ y ∈ t.recs, y.seq < rc.seq)
    (hsorted : t.recs.Pairwise fun a b => a.seq < b.seq) :
    (applyAll t (recordsOf rc)).recs = t.recs ++ [back rc] := by
  have hp : (applyAll t [⟨typeP, rc.seq, rc.name, rc.payload⟩]).recs =
      t.recs ++ [{ seq := rc.seq, name := rc.name, payload := rc.payload }] := by
    rw [← recOf_written hok.name.2]
    exact applyRec_new (r := Record.raw ⟨typeP, rc.seq, rc.name, rc.payload⟩) rfl
  have hk := @applyAll_marker _ t.recs _ ⟨typeK, rc.seq, [], put32 rc.crashes⟩ (rc.crashes ≠ 0) _ hp
    hbelow hsorted (show typeK ≠ typeP by decide) rfl
  have hs := @applyAll_marker _ t.recs _ (marker typeS rc.seq) (rc.inflight = true) _ hk
    (fun y hy => by split_ifs <;> exact hbelow y hy) hsorted (show typeS ≠ typeP by decide)
    (by split_ifs <;> rfl)
  have hq := @applyAll_marker _ t.recs _ (marker typeQ rc.seq) (rc.quarantined = true) _ hs
    (fun y hy => by split_ifs <;> exact hbelow y hy) hsorted (show typeQ ≠ typeP by decide)
    (by split_ifs <;> rfl)
  have hsplit : recordsOf rc = [⟨typeP, rc.seq, rc.name, rc.payload⟩] ++
      ((if rc.crashes ≠ 0 then [⟨typeK, rc.seq, [], put32 rc.crashes⟩] else []) ++
        (if rc.inflight then [marker typeS rc.seq] else []) ++
        (if rc.quarantined then [marker typeQ rc.seq] else [])) := rfl
  rw [hsplit, applyAll_append, applyAll_append, applyAll_append, hq]
  simp only [markRec_deaths hok.crashes, markRec_started, markRec_quarantined]
  unfold back
  by_cases hzero : rc.crashes = 0
  · rw [hzero]
    cases rc.inflight <;> cases rc.quarantined <;> rfl
  · rw [if_pos hzero]
    cases rc.inflight <;> cases rc.quarantined <;> rfl

/-- Records in the order of their numbers, all in range. -/
structure Tidy (recs : List DqRec) : Prop where
  /-- The numbers rise. -/
  rising : recs.Pairwise fun a b => a.seq < b.seq
  /-- The numbers are in range. -/
  range : ∀ rc ∈ recs, 0 < rc.seq ∧ rc.seq ≤ maxSeq
  /-- Every record is well formed. -/
  each : ∀ rc ∈ recs, RecOk rc

variable {recs : List DqRec} {rs : List Record} {last : ℕ}

theorem Tidy.tail (h : Tidy (rc :: recs)) : Tidy recs :=
  ⟨(pairwise_cons.mp h.rising).2, fun x hx => h.range x (mem_cons_of_mem rc hx),
    fun x hx => h.each x (mem_cons_of_mem rc hx)⟩

/-- Replaying what is written for some records gives them back. -/
theorem applyAll_recordsOf_list (h : Tidy recs) (hbelow : ∀ y ∈ t.recs, ∀ rc ∈ recs, y.seq < rc.seq)
    (hsorted : t.recs.Pairwise fun a b => a.seq < b.seq) :
    (applyAll t (recs.flatMap recordsOf)).recs = t.recs ++ recs.map back := by
  induction recs generalizing t with
  | nil => exact (append_nil _).symm
  | cons rc recs ih =>
    have hhead := pairwise_cons.mp h.rising
    have hone := applyAll_recordsOf (h.each rc mem_cons_self)
      (fun y hy => hbelow y hy rc mem_cons_self) hsorted
    have hbelow' : ∀ y ∈ (applyAll t (recordsOf rc)).recs, ∀ x ∈ recs, y.seq < x.seq := by
      intro y hy x hx
      rw [hone] at hy
      rcases mem_append.mp hy with hy | hy
      · exact hbelow y hy x (mem_cons_of_mem rc hx)
      · obtain rfl := mem_singleton.mp hy
        exact hhead.1 x hx
    have hsorted' : (applyAll t (recordsOf rc)).recs.Pairwise fun a b => a.seq < b.seq := by
      rw [hone]
      refine pairwise_append.mpr ⟨hsorted, pairwise_singleton .., ?_⟩
      intro y hy x hx
      obtain rfl := mem_singleton.mp hx
      exact hbelow y hy rc mem_cons_self
    rw [flatMap_cons, applyAll_append, ih h.tail hbelow' hsorted', hone, map_cons,
      append_assoc]
    rfl

/-- Of what is written for a record only the 'P' has to rise. -/
theorem rises_recordsOf (h : last < rc.seq) (hrest : Rises rc.seq rs) :
    Rises last (recordsOf rc ++ rs) := by
  have hskip : ∀ ms : List Record, (∀ m ∈ ms, m.type ≠ typeP) → Rises rc.seq (ms ++ rs) := by
    intro ms hms
    induction ms with
    | nil => exact hrest
    | cons m ms ih =>
      rw [cons_append, Rises, if_neg (hms m mem_cons_self)]
      exact ih fun x hx => hms x (mem_cons_of_mem m hx)
  unfold recordsOf
  refine ⟨h, hskip _ fun m hm => ?_⟩
  rcases mem_append.mp hm with hm | hm
  · rcases mem_append.mp hm with hm | hm
    · split_ifs at hm
      · obtain rfl := mem_singleton.mp hm
        exact show typeK ≠ typeP by decide
      · cases hm
    · split_ifs at hm
      · obtain rfl := mem_singleton.mp hm
        exact show typeS ≠ typeP by decide
      · cases hm
  · split_ifs at hm
    · obtain rfl := mem_singleton.mp hm
      exact show typeQ ≠ typeP by decide
    · cases hm

/-- What is written for a record is within the bounds, and its name is a string of C. -/
theorem recordsOf_fits (hok : RecOk rc) (hseq : rc.seq ≤ maxSeq) :
    ∀ r ∈ recordsOf rc, r.Fits ∧ 0 ∉ r.name := by
  have hmark : ∀ type, (marker type rc.seq).Fits ∧ 0 ∉ (marker type rc.seq).name :=
    fun type => ⟨⟨Nat.zero_le _, Nat.zero_le _, hseq⟩, not_mem_nil⟩
  intro r hr
  rcases mem_cons.mp hr with rfl | hr
  · exact ⟨⟨hok.name.1, hok.payload, hseq⟩, hok.name.2⟩
  rcases mem_append.mp hr with hr | hr
  · rcases mem_append.mp hr with hr | hr
    · split_ifs at hr
      · obtain rfl := mem_singleton.mp hr
        refine ⟨⟨Nat.zero_le _, ?_, hseq⟩, not_mem_nil⟩
        exact (le_of_eq (LittleEndian.length_storeLe 4 rc.crashes)).trans (by decide)
      · cases hr
    · split_ifs at hr
      · obtain rfl := mem_singleton.mp hr
        exact hmark _
      · cases hr
  · split_ifs at hr
    · obtain rfl := mem_singleton.mp hr
      exact hmark _
    · cases hr

/-- What is written for some records is a journal of the queue's. -/
theorem writerMade_recordsOf (h : Tidy recs) : WriterMade (recs.flatMap recordsOf) := by
  have hall : ∀ r ∈ recs.flatMap recordsOf, r.Fits ∧ 0 ∉ r.name := by
    intro r hr
    obtain ⟨rc, hrc, hr⟩ := mem_flatMap.mp hr
    exact recordsOf_fits (h.each rc hrc) (h.range rc hrc).2 r hr
  have hrise : ∀ last, (∀ rc ∈ recs, last < rc.seq) → Rises last (recs.flatMap recordsOf) := by
    clear hall
    induction recs with
    | nil => exact fun _ _ => trivial
    | cons rc recs ih =>
      intro last hlast
      exact rises_recordsOf (hlast rc mem_cons_self)
        (ih h.tail rc.seq (pairwise_cons.mp h.rising).1)
  exact ⟨fun r hr => (hall r hr).1, fun r hr => (hall r hr).2,
    hrise 0 fun rc hrc => (h.range rc hrc).1⟩

/-- The replayed records are written again as they were. -/
theorem rewriteOf_back (recs : List DqRec) : rewriteOf (recs.map back) [] = recs.flatMap recordsOf := by
  have hall : (recs.map back).filter (rewrites []) = recs.map back := by
    refine filter_eq_self.mpr fun x hx => ?_
    obtain ⟨rc, -, rfl⟩ := mem_map.mp hx
    rfl
  unfold rewriteOf
  rw [hall, flatMap_map]
  rfl

end Written

section Waiters

/-- Some `type` write for record `seq` became durable. -/
def DurableWrite (ws : List Waiter) (seq : ℕ) (type : WType) : Prop :=
  ∃ w ∈ ws, w.seq ≤ seq ∧ seq ≤ w.seqEnd ∧ w.type = type ∧ w.state = .durable

variable {ws : List Waiter} {seq : ℕ} {type : WType}

/-- The state of the writes for a record is durable where one of them is. -/
theorem waiterState_iff : waiterState ws seq type = some .durable ↔ DurableWrite ws seq type := by
  have hmine : ∀ w, w ∈ ws.filter (fun w => w.seq ≤ seq ∧ seq ≤ w.seqEnd ∧ w.type = type) ↔
      w ∈ ws ∧ w.seq ≤ seq ∧ seq ≤ w.seqEnd ∧ w.type = type := by
    intro w
    rw [mem_filter, decide_eq_true_eq]
  unfold waiterState
  dsimp only
  constructor
  · intro h
    split_ifs at h with hany
    · obtain ⟨w, hw, hstate⟩ := any_eq_true.mp hany
      obtain ⟨hmem, hlo, hhi, htype⟩ := (hmine w).mp hw
      exact ⟨w, hmem, hlo, hhi, htype, of_decide_eq_true hstate⟩
    · obtain ⟨w, hlast, hstate⟩ := Option.map_eq_some_iff.mp h
      obtain ⟨hmem, hlo, hhi, htype⟩ := (hmine w).mp (mem_of_getLast? hlast)
      exact ⟨w, hmem, hlo, hhi, htype, hstate⟩
  · rintro ⟨w, hmem, hlo, hhi, htype, hstate⟩
    have hany : (ws.filter fun w => w.seq ≤ seq ∧ seq ≤ w.seqEnd ∧ w.type = type).any
        (·.state = .durable) = true :=
      any_eq_true.mpr ⟨w, (hmine w).mpr ⟨hmem, hlo, hhi, htype⟩, decide_eq_true hstate⟩
    rw [if_pos hany]

/-- Which records a compaction writes. -/
theorem rewrites_iff {rc : DqRec} : rewrites ws rc = true ↔ rc.done = false ∧
    (rc.committing = true → DurableWrite ws rc.seq .p) ∧
      (0 < rc.retracting → ¬DurableWrite ws rc.seq .d) := by
  rw [← waiterState_iff, ← waiterState_iff]
  unfold rewrites
  rw [Bool.and_eq_true, Bool.and_eq_true, Bool.not_eq_true', Bool.not_eq_true', Bool.not_eq_true',
    Bool.and_eq_false_iff, Bool.and_eq_false_iff, decide_eq_false_iff_not, decide_eq_false_iff_not,
    decide_eq_false_iff_not, and_assoc]
  refine and_congr_right fun _ => and_congr ?_ ?_
  · rw [not_not]
    constructor
    · rintro (hno | hp) hc
      · rw [hno] at hc
        cases hc
      · exact hp
    · intro hp
      cases hc : rc.committing with
      | false => exact .inl rfl
      | true => exact .inr (hp hc)
  · exact Iff.symm imp_iff_not_or

end Waiters

section RoundTrip

open DurableSystem

variable {q : Dq}

/-- What a compaction keeps of a record. -/
def view (rc : DqRec) : ℕ × Bytes × Bytes × Bool × ℕ × Bool :=
  (rc.seq, rc.name, rc.payload, rc.quarantined, rc.crashes, rc.inflight)

theorem tidy_filter (hq : TableInv q) (p : DqRec → Bool) : Tidy (q.recs.filter p) := by
  refine ⟨hq.rising.sublist filter_sublist, ?_, ?_⟩
  · intro rc hrc
    have hb := hq.below rc.seq (mem_map_of_mem (mem_filter.mp hrc).1)
    have htop := hq.bound.2
    unfold maxSeq
    omega
  · exact fun rc hrc => hq.each rc (mem_filter.mp hrc).1

/-- A compaction of a table is never refused for a record's size. -/
theorem rewriteOf_written (hq : TableInv q) (ws : List Waiter) :
    (rewriteOf q.recs ws).all (fun r => (writeRecord r).isSome) = true := by
  have hmade := writerMade_recordsOf (tidy_filter hq (rewrites ws))
  refine all_eq_true.mpr fun r hr => ?_
  have hfit := hmade.fits r hr
  unfold writeRecord
  rw [if_neg (not_or.mpr ⟨Nat.not_lt.mpr hfit.name, Nat.not_lt.mpr hfit.payload⟩)]
  rfl

/-- Compaction and replay are inverse to each other: from every reachable table with no write in
flight, the compacted journal replays without damage to exactly the records that are not closed, in
their order and with their number, name, payload, quarantine, deaths and attempt. A record that a
submit is still making durable is among them if and only if its 'P' became durable, one that is
being retracted is missing if and only if a 'D' for it did, and compacting what was replayed gives
the same bytes. -/
theorem compaction_round_trip {file : Option Bytes} {ls : List Label} {s : Sys}
    (hrun : run (init file) ls = some s) (hq : s.q = some q) (hquiet : quiet q = true) (d : Disk)
    (dirOk reopened knowsEnd : Bool) :
    ∃ q' d' st new sc,
      doRewrite q d (.replaced dirOk reopened) = some (q', d', st, true) ∧
      d'.cur.map (fun f => f.content) = some new ∧
      replay (some new) knowsEnd = .done sc ∧ sc.dmg = {} ∧
      sc.table.recs.map view = (q.recs.filter (rewrites q.jnl.waiters)).map view ∧
      (∀ rc ∈ q.recs, rewrites q.jnl.waiters rc = true ↔ rc.done = false ∧
        (rc.committing = true → DurableWrite q.jnl.waiters rc.seq .p) ∧
          (0 < rc.retracting → ¬DurableWrite q.jnl.waiters rc.seq .d)) ∧
      journal (rewriteOf sc.table.recs []) = new := by
  have hinv := (DurableCalls.queueInv_run hrun hq).table
  have htidy := tidy_filter hinv (rewrites q.jnl.waiters)
  have hmade : WriterMade (rewriteOf q.recs q.jnl.waiters) := writerMade_recordsOf htidy
  have hrecs : (takeAll .start (rewriteOf q.recs q.jnl.waiters)).table.recs =
      (q.recs.filter (rewrites q.jnl.waiters)).map back := by
    rw [(takeAll_table hmade).1]
    exact applyAll_recordsOf_list htidy (fun y hy => (by cases hy)) .nil
  have hwrite : ∃ q' d' st, doRewrite q d (.replaced dirOk reopened) = some (q', d', st, true) ∧
      d'.cur = some ⟨journal (rewriteOf q.recs q.jnl.waiters), []⟩ := by
    unfold doRewrite
    rw [if_pos hquiet]
    dsimp only
    rw [if_pos (rewriteOf_written hinv _)]
    cases reopened with
    | true | false => exact ⟨_, _, _, rfl, rfl⟩
  obtain ⟨q', d', st, hdo, hcur⟩ := hwrite
  refine ⟨q', d', st, journal (rewriteOf q.recs q.jnl.waiters), _, hdo, ?_,
    replay_journal hmade knowsEnd, (takeAll_table hmade).2, ?_, fun rc _ => rewrites_iff, ?_⟩
  · rw [hcur]
    rfl
  · rw [hrecs, map_map]
    exact map_congr_left fun rc _ => rfl
  · rw [hrecs, rewriteOf_back]
    exact rfl

/-- A batch of two whose records are durable and that has not acted on it. -/
def durableBatch : List Label := DurableCalls.batchRun ++ [.syncBegin, .fsyncRet true, .syncSettle]

theorem compaction_keeps_durable_batch : ∃ s q, run (init none) durableBatch = some s ∧
    s.q = some q ∧ quiet q = true ∧ q.recs.map DqRec.committing = [true, true] ∧
    ∃ q' d' st new sc, doRewrite q s.disk (.replaced true true) = some (q', d', st, true) ∧
      d'.cur.map (fun f => f.content) = some new ∧ replay (some new) true = .done sc ∧
      sc.table.recs.map DqRec.seq = [1, 2] := by
  obtain ⟨s, q, hrun, hq, hquiet, hcommit, hkept⟩ : ∃ s q, run (init none) durableBatch = some s ∧
      s.q = some q ∧ quiet q = true ∧ q.recs.map DqRec.committing = [true, true] ∧
      (q.recs.filter (rewrites q.jnl.waiters)).map DqRec.seq = [1, 2] := ⟨_, _, rfl, rfl, rfl, rfl, rfl⟩
  obtain ⟨q', d', st, new, sc, hdo, hnew, hre, -, hview, -⟩ :=
    compaction_round_trip hrun hq hquiet s.disk true true true
  have hseq := congrArg (map Prod.fst) hview
  rw [map_map, map_map] at hseq
  exact ⟨s, q, hrun, hq, hquiet, hcommit, q', d', st, new, sc, hdo, hnew, hre, Eq.trans hseq hkept⟩

end RoundTrip

end Gptps.DurableRewrite
