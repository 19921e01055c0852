import Gptps.DurableApi

/-!
# The invariant of the record table

The table rises in the numbers of its records, the count of pending records is right, and the
handle index holds exactly the handles of open records, with one reservation for every record that
a submit is still making durable. Each critical section changes one record at a time, appends
records or drops closed ones, and each of these keeps the invariant.
-/

namespace Gptps.DurableTable

open JournalFormat DurableRecords DurableIndex DurableState DurableApi List Option

/-- Whether a record counts as pending. -/
def counted (rc : DqRec) : Bool := isOpen rc && !rc.committing

/-- The entry of a record in the handle index. -/
def entry (rc : DqRec) : Option (ℕ × ℕ) :=
  if isOpen rc = true ∧ rc.handle ≠ 0 then some (rc.handle, rc.seq) else none

/-- The entries of a table in the handle index. -/
def entries (recs : List DqRec) : List (ℕ × ℕ) := recs.filterMap entry

/-- A record that is being made durable: no event, verdict or retraction has reached it. -/
structure Fresh (rc : DqRec) : Prop where
  /-- It has no handle. -/
  handle : rc.handle = 0
  /-- It is open. -/
  opened : isOpen rc = true
  /-- No retraction of it is under way. -/
  retracting : rc.retracting = 0
  /-- It is no suspect. -/
  suspect : rc.suspect = false
  /-- No attempt of it has started. -/
  inflight : rc.inflight = false
  /-- It has lived through no death. -/
  crashes : rc.crashes = 0

/-- The verdicts: a 'D' or a 'Q'. -/
def IsVerdict (type : UInt8) : Prop := type = typeD ∨ type = typeQ

/-- What every record of the table keeps. -/
structure RecOk (rc : DqRec) : Prop where
  /-- The name is a string of C within its bound. -/
  name : rc.name.length ≤ maxName ∧ 0 ∉ rc.name
  /-- The payload is within its bound. -/
  payload : rc.payload.length ≤ maxPayload
  /-- The deaths fit the field of a 'K'. -/
  crashes : rc.crashes < 2 ^ 32
  /-- What is being made durable is untouched. -/
  commit : rc.committing = true → Fresh rc
  /-- Only a record with an execution that no verdict has reached is being retracted. -/
  retract : 0 < rc.retracting → rc.handle ≠ 0 ∧ rc.quarantined = false
  /-- A verdict waits only for a retraction, and while the record is open. -/
  defer : ∀ v, rc.deferred = some v → IsVerdict v ∧ 0 < rc.retracting ∧ rc.done = false

section Record

variable {rc : DqRec} {h : ℕ}

/-- A record gets its handle. -/
theorem RecOk.give (hrc : RecOk rc) (hne : h ≠ 0) (hcommit : rc.committing = false) :
    RecOk { rc with handle := h } :=
  { hrc with
    commit := fun hc => (by cases hcommit.symm.trans hc)
    retract := fun hr => ⟨hne, (hrc.retract hr).2⟩ }

/-- No retraction and no verdict is about a record that is being made durable. -/
theorem RecOk.untouched (hrc : RecOk rc) (hcommit : rc.committing = true) :
    ¬0 < rc.retracting ∧ ∀ v, rc.deferred ≠ some v := by
  have hzero : ¬0 < rc.retracting := Nat.not_lt.mpr (le_of_eq (hrc.commit hcommit).retracting)
  exact ⟨hzero, fun v hd => hzero (hrc.defer v hd).2.1⟩

/-- A record whose submit did not stand is closed. -/
theorem RecOk.refuse (hrc : RecOk rc) (hcommit : rc.committing = true) :
    RecOk { rc with committing := false, done := true } :=
  { hrc with
    commit := fun hc => (by cases hc)
    retract := fun hr => absurd hr (hrc.untouched hcommit).1
    defer := fun v hd => absurd hd ((hrc.untouched hcommit).2 v) }

/-- A record whose submit stands has its handle. -/
theorem RecOk.accept (hrc : RecOk rc) (hcommit : rc.committing = true) (hne : h ≠ 0) :
    RecOk { rc with committing := false, handle := h } :=
  { hrc with
    commit := fun hc => (by cases hc)
    retract := fun hr => ⟨hne, absurd hr (hrc.untouched hcommit).1⟩ }

/-- A record that is being made durable is not counted yet. -/
theorem counted_committing (hc : rc.committing = true) : counted rc = false := by
  rw [counted, hc]
  exact Bool.and_false _

theorem isOpen_iff : isOpen rc = true ↔ rc.done = false ∧ rc.quarantined = false := by
  unfold isOpen
  simp only [Bool.and_eq_true, Bool.not_eq_true']

/-- Starting or ending an attempt leaves a record well formed. -/
theorem RecOk.attempt (hrc : RecOk rc) (hne : rc.handle ≠ 0) {inflight suspect : Bool}
    {crashes : ℕ} (hc : crashes < 2 ^ 32) :
    RecOk { rc with inflight := inflight, crashes := crashes, suspect := suspect } :=
  { hrc with crashes := hc, commit := fun h => absurd (hrc.commit h).handle hne }

/-- A verdict that waits leaves a record well formed. -/
theorem RecOk.defer_ok {type : UInt8} (hrc : RecOk rc) (hopen : isOpen rc = true)
    (hret : 0 < rc.retracting) (htype : IsVerdict type) :
    RecOk { rc with deferred := some type } :=
  { hrc with
    commit := fun h => absurd hret (Nat.not_lt.mpr (le_of_eq (hrc.commit h).retracting))
    defer := fun _ hv => ⟨some.inj hv ▸ htype, hret, (isOpen_iff.mp hopen).1⟩ }

/-- What a verdict makes of a record. -/
def verdict (type : UInt8) (rc : DqRec) : DqRec :=
  if type = typeQ then { rc with quarantined := true, inflight := false }
  else { rc with done := true, inflight := false }

/-- A record that is not being retracted is well formed after its verdict. -/
theorem RecOk.verdict (hrc : RecOk rc) (hne : rc.handle ≠ 0) (hret : rc.retracting = 0)
    (type : UInt8) : RecOk (verdict type rc) := by
  have hzero : ¬0 < rc.retracting := Nat.not_lt.mpr (le_of_eq hret)
  have hnot : ¬rc.committing = true := fun h => hne (hrc.commit h).handle
  have hdef : ∀ v, rc.deferred ≠ some v := fun v h => hzero (hrc.defer v h).2.1
  unfold DurableTable.verdict
  split_ifs <;> exact { hrc with
    commit := fun h => absurd h hnot
    retract := fun h => absurd h hzero
    defer := fun v h => absurd h (hdef v) }

theorem isOpen_verdict (hopen : isOpen rc = true) (type : UInt8) :
    isOpen (verdict type rc) = false := by
  obtain ⟨hdone, -⟩ := isOpen_iff.mp hopen
  unfold verdict isOpen
  split_ifs with htype
  · simp only [hdone, Bool.not_false, Bool.not_true, Bool.and_false]
  · rfl

end Record

/-- The invariant of the table. -/
structure TableInv (q : Dq) : Prop where
  /-- The numbers rise. -/
  sorted : (q.recs.map DqRec.seq).Pairwise (· < ·)
  /-- Every number has been given. -/
  below : ∀ s ∈ q.recs.map DqRec.seq, 0 < s ∧ s < q.nextSeq
  /-- The next number is in range. -/
  bound : 0 < q.nextSeq ∧ q.nextSeq ≤ 2 ^ 63
  /-- The open records are counted. -/
  pending : q.pending = q.recs.countP counted
  /-- The index holds the handles of the open records. -/
  index : Indexed q.index (entries q.recs) (q.recs.countP DqRec.committing)
  /-- Every handle was issued for its record. -/
  issued : ∀ rc ∈ q.recs, rc.handle ≠ 0 → (rc.handle, rc.seq) ∈ q.issued
  /-- Every record is well formed. -/
  each : ∀ rc ∈ q.recs, RecOk rc
  /-- No handle was issued twice. -/
  keys : (q.issued.map Prod.fst).Nodup

section Find

variable {q : Dq} {i seq h : ℕ} {rc : DqRec}

variable (hq : TableInv q)

include hq

theorem TableInv.commit (hrc : rc ∈ q.recs) (hc : rc.committing = true) : Fresh rc :=
  (hq.each rc hrc).commit hc

theorem TableInv.rising : q.recs.Pairwise fun a b => a.seq < b.seq :=
  pairwise_map.mp hq.sorted

/-- The search for a number is exact. -/
theorem TableInv.findBySeq_iff :
    findBySeq q.recs seq = some i ↔ ∃ rc, q.recs[i]? = some rc ∧ rc.seq = seq :=
  SortedSearch.search_iff hq.rising

/-- Two records with one number are one record. -/
theorem TableInv.seq_inj {rc' : DqRec} (hrc : rc ∈ q.recs) (hrc' : rc' ∈ q.recs)
    (hseq : rc.seq = rc'.seq) : rc = rc' := by
  obtain ⟨i, hi⟩ := mem_iff_getElem?.mp hrc
  obtain ⟨j, hj⟩ := mem_iff_getElem?.mp hrc'
  obtain rfl := SortedSearch.index_unique hq.rising hi hj hseq
  exact some.inj (hi.symm.trans hj)

/-- Every record is found by its number. -/
theorem TableInv.findBySeq_mem (hrc : rc ∈ q.recs) :
    ∃ i, findBySeq q.recs rc.seq = some i ∧ q.recs[i]? = some rc := by
  obtain ⟨i, hi⟩ := mem_iff_getElem?.mp hrc
  exact ⟨i, hq.findBySeq_iff.mpr ⟨rc, hi, rfl⟩, hi⟩

omit hq

theorem mem_entries {recs : List DqRec} {e : ℕ × ℕ} :
    e ∈ entries recs ↔ ∃ rc ∈ recs, isOpen rc = true ∧ rc.handle ≠ 0 ∧ e = (rc.handle, rc.seq) := by
  unfold entries entry
  rw [mem_filterMap]
  constructor
  · rintro ⟨rc, hmem, he⟩
    split_ifs at he with hopen
    exact ⟨rc, hmem, hopen.1, hopen.2, (some.inj he).symm⟩
  · rintro ⟨rc, hmem, hopen, hne, rfl⟩
    exact ⟨rc, hmem, if_pos ⟨hopen, hne⟩⟩

/-- The index answers a handle with the number of its open record. -/
theorem TableInv.mapFind_iff (hq : TableInv q) :
    mapFind q.index h = some seq ↔
      ∃ rc ∈ q.recs, isOpen rc = true ∧ rc.handle = h ∧ h ≠ 0 ∧ rc.seq = seq := by
  rw [DurableIndex.mapFind_iff hq.index, mem_entries]
  · constructor
    · rintro ⟨rc, hmem, hopen, hne, he⟩
      cases he
      exact ⟨rc, hmem, hopen, rfl, hne, rfl⟩
    · rintro ⟨rc, hmem, hopen, rfl, hne, rfl⟩
      exact ⟨rc, hmem, hopen, hne, rfl⟩
  · intro e he
    obtain ⟨rc, -, -, hne, rfl⟩ := mem_entries.mp he
    exact hne

/-- What `find_open` answers. -/
theorem TableInv.findOpen_some (hq : TableInv q) (h : findOpen q seq = some i) :
    ∃ rc, q.recs[i]? = some rc ∧ isOpen rc = true ∧ rc.handle = seq ∧ rc.handle ≠ 0 ∧
      rc.committing = false := by
  obtain ⟨s, hs, h⟩ := bind_eq_some_iff.mp h
  obtain ⟨j, hj, h⟩ := bind_eq_some_iff.mp h
  obtain ⟨rc, hmem, hopen, hhandle, hne, hseq⟩ := hq.mapFind_iff.mp hs
  obtain ⟨k, hk, hkrc⟩ := hq.findBySeq_mem hmem
  rw [hseq, hj] at hk
  obtain rfl := some.inj hk
  rw [hkrc] at h
  dsimp only at h
  rw [if_pos hopen] at h
  obtain rfl := some.inj h
  refine ⟨rc, hkrc, hopen, hhandle, hhandle ▸ hne, ?_⟩
  by_contra hcommit
  exact (hhandle ▸ hne) (hq.commit hmem (Bool.not_eq_false _ ▸ hcommit)).handle

end Find

section Replace

variable {α : Type*}

/-- Changing one element of a list. -/
theorem modify_split {l : List α} {i : ℕ} {a : α} (h : l[i]? = some a) (f : α → α) :
    ∃ l₁ l₂, l = l₁ ++ a :: l₂ ∧ l.modify i f = l₁ ++ f a :: l₂ := by
  induction l generalizing i with
  | nil => cases h
  | cons b l ih =>
    cases i with
    | zero =>
      cases h
      exact ⟨[], l, rfl, rfl⟩
    | succ i =>
      obtain ⟨l₁, l₂, hl, hm⟩ := ih h
      exact ⟨b :: l₁, l₂, by rw [hl]; rfl, by rw [modify_succ_cons, hm]; rfl⟩

/-- Two changes that agree on the element are one. -/
theorem modify_congr {l : List α} {i : ℕ} {a : α} {f g : α → α} (hi : l[i]? = some a)
    (h : f a = g a) : l.modify i f = l.modify i g := by
  rw [modify_eq_set_getElem?, modify_eq_set_getElem?, hi]
  simp only [Option.map_eq_map, map_some, getD_some, h]

/-- What a count takes from one element. -/
theorem countP_split (p : α → Bool) (l₁ l₂ : List α) (x : α) :
    (l₁ ++ x :: l₂).countP p = l₁.countP p + l₂.countP p + (p x).toNat := by
  rw [countP_append, countP_cons]
  cases p x with
  | true => exact (add_assoc ..).symm
  | false => rfl

theorem entries_append (l₁ l₂ : List DqRec) : entries (l₁ ++ l₂) = entries l₁ ++ entries l₂ :=
  filterMap_append

theorem entries_cons (x : DqRec) (l : List DqRec) :
    entries (x :: l) = (entry x).toList ++ entries l := by
  unfold entries
  cases hx : entry x with
  | none => rw [filterMap_cons_none hx]; rfl
  | some e => rw [filterMap_cons_some hx]; rfl

/-- What one record adds to the entries. -/
theorem entries_split (l₁ l₂ : List DqRec) (x : DqRec) :
    (entries (l₁ ++ x :: l₂)).Perm ((entry x).toList ++ entries (l₁ ++ l₂)) := by
  rw [entries_append, entries_append, entries_cons, ← append_assoc, ← append_assoc]
  exact Perm.append_right _ perm_append_comm

variable {q q' : Dq} {i : ℕ} {rc : DqRec} {f : DqRec → DqRec}

/-- One record of the table is replaced: the invariant is kept if the count, the index and the
reservations follow. -/
theorem TableInv.replace (hq : TableInv q) (hi : q.recs[i]? = some rc)
    (hrecs : q'.recs = q.recs.modify i f) (hnext : q'.nextSeq = q.nextSeq)
    (hseq : (f rc).seq = rc.seq)
    (hpend : q'.pending + (counted rc).toNat = q.pending + (counted (f rc)).toNat)
    (hidx : ∀ rest n, (∀ e ∈ rest, e ∈ q.issued) →
      Indexed q.index ((entry rc).toList ++ rest) (n + rc.committing.toNat) →
        Indexed q'.index ((entry (f rc)).toList ++ rest) (n + (f rc).committing.toNat))
    (hissued : ∀ x ∈ q.issued, x ∈ q'.issued)
    (hhandle : (f rc).handle ≠ 0 → ((f rc).handle, rc.seq) ∈ q'.issued)
    (hok : RecOk (f rc)) (hkeys : (q'.issued.map Prod.fst).Nodup) : TableInv q' := by
  obtain ⟨l₁, l₂, hl, hm⟩ := modify_split hi f
  rw [hm] at hrecs
  have hmap : q'.recs.map DqRec.seq = q.recs.map DqRec.seq := by
    rw [hrecs, hl, map_append, map_append, map_cons, map_cons, hseq]
  have hother : ∀ x ∈ l₁ ++ l₂, x ∈ q.recs := by
    intro x hx
    rw [hl]
    rcases mem_append.mp hx with hx | hx
    · exact mem_append_left _ hx
    · exact mem_append_right _ (mem_cons_of_mem rc hx)
  have hmem : ∀ x ∈ q'.recs, x = f rc ∨ x ∈ l₁ ++ l₂ := by
    intro x hx
    rw [hrecs] at hx
    rcases mem_append.mp hx with hx | hx
    · exact .inr (mem_append_left _ hx)
    · rcases mem_cons.mp hx with hx | hx
      · exact .inl hx
      · exact .inr (mem_append_right _ hx)
  refine ⟨hmap ▸ hq.sorted, ?_, hnext ▸ hq.bound, ?_, ?_, ?_, ?_, hkeys⟩
  · rw [hmap, hnext]
    exact hq.below
  · have hold := hq.pending
    rw [hl, countP_split] at hold
    rw [hrecs, countP_split]
    omega
  · have hold := hq.index
    rw [hl, countP_split] at hold
    have hrest : ∀ e ∈ entries (l₁ ++ l₂), e ∈ q.issued := by
      intro e he
      obtain ⟨x, hx, -, hne, rfl⟩ := mem_entries.mp he
      exact hq.issued x (hother x hx) hne
    rw [hrecs, countP_split]
    exact (hidx _ _ hrest (hold.perm (entries_split l₁ l₂ rc))).perm
      (entries_split l₁ l₂ (f rc)).symm
  · intro x hx hne
    rcases hmem x hx with rfl | hx
    · rw [hseq]
      exact hhandle hne
    · exact hissued _ (hq.issued x (hother x hx) hne)
  · intro x hx
    rcases hmem x hx with rfl | hx
    · exact hok
    · exact hq.each x (hother x hx)

end Replace

section Change

variable {q q' : Dq} {i h : ℕ} {rc : DqRec} {f : DqRec → DqRec} {x : Index}

/-- The invariant reads the table and its index alone. -/
theorem TableInv.congr (hq : TableInv q) (hrecs : q'.recs = q.recs) (hnext : q'.nextSeq = q.nextSeq)
    (hpend : q'.pending = q.pending) (hidx : q'.index = q.index) (hissued : q'.issued = q.issued) :
    TableInv q' := by
  refine ⟨?_, ?_, ?_, ?_, ?_, ?_, ?_, hissued ▸ hq.keys⟩
  · rw [hrecs]
    exact hq.sorted
  · rw [hrecs, hnext]
    exact hq.below
  · rw [hnext]
    exact hq.bound
  · rw [hrecs, hpend]
    exact hq.pending
  · rw [hrecs, hidx]
    exact hq.index
  · rw [hrecs, hissued]
    exact hq.issued
  · rw [hrecs]
    exact hq.each

/-- A change to the index that keeps its entries and reservations. -/
theorem TableInv.reindex (hq : TableInv q)
    (hx : ∀ l n, Indexed q.index l n → Indexed x l n) : TableInv { q with index := x } :=
  { hq with index := hx _ _ hq.index }

/-- A change of a record that the table's counts do not see. -/
structure Touches (f : DqRec → DqRec) (rc : DqRec) : Prop where
  /-- The number stays. -/
  seq : (f rc).seq = rc.seq
  /-- The handle stays. -/
  handle : (f rc).handle = rc.handle
  /-- It stays open or closed. -/
  opened : isOpen (f rc) = isOpen rc
  /-- It is made durable or not, as before. -/
  committing : (f rc).committing = rc.committing
  /-- It stays well formed. -/
  ok : RecOk (f rc)

theorem TableInv.touch (hq : TableInv q) (hi : q.recs[i]? = some rc) (hf : Touches f rc) :
    TableInv (setRec q i f) := by
  have hentry : entry (f rc) = entry rc := by
    unfold entry
    rw [hf.opened, hf.handle, hf.seq]
  have hcount : counted (f rc) = counted rc := by
    unfold counted
    rw [hf.opened, hf.committing]
  refine hq.replace hi rfl rfl hf.seq (by rw [hcount]; rfl) ?_ (fun _ hx => hx) ?_ ?_ hq.keys
  · intro rest n _ hidx
    rw [hentry, hf.committing]
    exact hidx
  · rw [hf.handle]
    exact hq.issued rc (mem_of_getElem? hi)
  · exact hf.ok

/-- What handing out a handle does. -/
theorem giveHandle_some (hg : giveHandle q i h = some q') :
    ∃ rc x, q.recs[i]? = some rc ∧ canIssue q h = true ∧ mapPut q.index h rc.seq = some x ∧
      q' = { q with index := x, recs := q.recs.modify i fun rc => { rc with handle := h },
                    issued := (h, rc.seq) :: q.issued } := by
  unfold giveHandle at hg
  cases hrc : q.recs[i]? with
  | none => simp only [hrc] at hg; cases hg
  | some rc =>
    cases hcan : canIssue q h with
    | false => simp only [hrc, hcan] at hg; cases hg
    | true =>
      simp only [hrc, hcan] at hg
      obtain ⟨x, hx, rfl⟩ := map_eq_some_iff.mp hg
      exact ⟨rc, x, rfl, rfl, hx, rfl⟩

theorem canIssue_iff :
    canIssue q h = true ↔ h ≠ 0 ∧ q.tearing = false ∧ h ∉ q.issued.map Prod.fst := by
  have hmem : (q.issued.map Prod.fst).contains h = false ↔ h ∉ q.issued.map Prod.fst := by
    rw [← Bool.not_eq_true, contains_iff_mem]
  unfold canIssue
  rw [Bool.and_eq_true, Bool.and_eq_true, decide_eq_true_eq, Bool.not_eq_true', Bool.not_eq_true',
    hmem, and_assoc]

/-- An open record without an execution gets a handle from a reservation that was made for it. -/
theorem TableInv.give (hq : TableInv q) (hi : q.recs[i]? = some rc) (hopen : isOpen rc = true)
    (hzero : rc.handle = 0) (hcommit : rc.committing = false)
    (hx : ∀ l n, Indexed q.index l n → Indexed x l (n + 1))
    (hg : giveHandle { q with index := x } i h = some q') : TableInv q' := by
  obtain ⟨rc', y, hi', hcan, hput, rfl⟩ := giveHandle_some hg
  rw [show ({ q with index := x } : Dq).recs = q.recs from rfl, hi] at hi'
  obtain rfl := some.inj hi'
  obtain ⟨hne, -, hnew⟩ := canIssue_iff.mp hcan
  have hnone : entry rc = none := if_neg fun hc => hc.2 hzero
  have hopen' : isOpen { rc with handle := h } = true := hopen
  have hsome : entry { rc with handle := h } = some (h, rc.seq) := if_pos ⟨hopen', hne⟩
  refine hq.replace hi rfl rfl rfl rfl ?_ (fun _ hmem => mem_cons_of_mem _ hmem)
    (fun _ => mem_cons_self) ?_ (nodup_cons.mpr ⟨hnew, hq.keys⟩)
  · intro rest n hrest hidx
    rw [hnone] at hidx
    rw [hsome]
    obtain ⟨z, hz, hzidx⟩ := mapPut_indexed h rc.seq (hx _ _ hidx)
      (fun e he hk => hnew (hk ▸ List.mem_map_of_mem (hrest e he)))
    rw [show mapPut x h rc.seq = some y from hput] at hz
    obtain rfl := some.inj hz
    exact hzidx
  · exact (hq.each rc (mem_of_getElem? hi)).give hne hcommit

/-- A record with an execution is pending. -/
theorem counted_live (hq : TableInv q) (hrc : rc ∈ q.recs) (hopen : isOpen rc = true)
    (hne : rc.handle ≠ 0) : counted rc = true := by
  unfold counted
  rw [hopen, Bool.true_and, Bool.not_eq_true']
  by_contra hc
  rw [Bool.not_eq_false] at hc
  exact hne (hq.commit hrc hc).handle

/-- An open record with an execution leaves the index when it is closed or quarantined. -/
theorem TableInv.close (hq : TableInv q) (hi : q.recs[i]? = some rc) (hopen : isOpen rc = true)
    (hne : rc.handle ≠ 0) (hseq : (f rc).seq = rc.seq) (hhandle : (f rc).handle = rc.handle)
    (hclosed : isOpen (f rc) = false) (hcommit : (f rc).committing = rc.committing)
    (hok : RecOk (f rc))
    (hrecs : q'.recs = q.recs.modify i f) (hnext : q'.nextSeq = q.nextSeq)
    (hpend : q'.pending = q.pending - 1) (hidx : q'.index = mapDel q.index rc.handle)
    (hissued : q'.issued = q.issued) : TableInv q' := by
  have hmem := mem_of_getElem? hi
  have hcounted := counted_live hq hmem hopen hne
  have hgone : counted (f rc) = false := by
    unfold counted
    rw [hclosed]
    rfl
  have hpos : 0 < q.pending := by
    rw [hq.pending]
    exact countP_pos_iff.mpr ⟨rc, hmem, hcounted⟩
  have hentry : entry rc = some (rc.handle, rc.seq) := if_pos ⟨hopen, hne⟩
  have hnone : entry (f rc) = none := if_neg fun hc => by rw [hclosed] at hc; cases hc.1
  refine hq.replace hi hrecs hnext hseq ?_ ?_ ?_ ?_ ?_ (hissued ▸ hq.keys)
  · rw [hcounted, hgone, hpend]
    simp only [Bool.toNat_true, Bool.toNat_false]
    omega
  · intro rest n _ hold
    rw [hentry] at hold
    rw [hnone, hcommit, hidx]
    exact mapDel_indexed hold hne
  · rw [hissued]
    exact fun _ hx => hx
  · rw [hhandle, hissued]
    exact hq.issued rc hmem
  · exact hok

/-- A record that could not be made durable, or that the engine refused, is closed at once and
gives its reservation back. -/
theorem TableInv.refuse (hq : TableInv q) (hi : q.recs[i]? = some rc)
    (hcommit : rc.committing = true) (hrecs : q'.recs = q.recs.modify i fun rc =>
      { rc with committing := false, done := true }) (hnext : q'.nextSeq = q.nextSeq)
    (hpend : q'.pending = q.pending) (hidx : q'.index = mapUnreserve q.index 1)
    (hissued : q'.issued = q.issued) : TableInv q' := by
  have hfresh := hq.commit (mem_of_getElem? hi) hcommit
  have hnone : entry rc = none := if_neg fun hc => hc.2 hfresh.handle
  have hnone' : entry { rc with committing := false, done := true } = none :=
    if_neg fun hc => (by cases hc.1)
  refine hq.replace hi hrecs hnext rfl ?_ ?_ ?_ ?_ ?_ (hissued ▸ hq.keys)
  · rw [counted_committing hcommit, hpend]
    rfl
  · intro rest n _ hold
    rw [hnone, hcommit] at hold
    rw [hnone', hidx]
    exact mapUnreserve_indexed hold
  · rw [hissued]
    exact fun _ hx => hx
  · intro hne
    exact absurd hfresh.handle hne
  · exact (hq.each rc (mem_of_getElem? hi)).refuse hcommit

/-- A record made durable becomes pending and gets the handle its reservation was made for. -/
theorem TableInv.accept (hq : TableInv q) (hi : q.recs[i]? = some rc)
    (hcommit : rc.committing = true)
    (hg : giveHandle { setRec q i fun rc => { rc with committing := false } with
      pending := q.pending + 1 } i h = some q') : TableInv q' := by
  obtain ⟨rc', y, hi', hcan, hput, rfl⟩ := giveHandle_some hg
  have hfresh := hq.commit (mem_of_getElem? hi) hcommit
  obtain ⟨hne, -, hnew⟩ := canIssue_iff.mp hcan
  have hi'' : (q.recs.modify i fun rc => { rc with committing := false })[i]? = some rc' := hi'
  rw [getElem?_modify_eq, hi] at hi''
  obtain rfl := some.inj hi''
  have hnone : entry rc = none := if_neg fun hc => hc.2 hfresh.handle
  have hopen : isOpen { rc with committing := false, handle := h } = true := hfresh.opened
  have hsome : entry { rc with committing := false, handle := h } = some (h, rc.seq) :=
    if_pos ⟨hopen, hne⟩
  refine hq.replace (f := fun rc => { rc with committing := false, handle := h }) hi ?_ rfl rfl
    ?_ ?_ (fun _ hmem => mem_cons_of_mem _ hmem) (fun _ => mem_cons_self) ?_
    (nodup_cons.mpr ⟨hnew, hq.keys⟩)
  · exact modify_modify_eq ..
  · have hnow : counted { rc with committing := false, handle := h } = true := by
      unfold counted
      rw [hopen]
      rfl
    rw [counted_committing hcommit, hnow]
    rfl
  · intro rest n hrest hidx
    rw [hnone, hcommit] at hidx
    rw [hsome]
    obtain ⟨z, hz, hzidx⟩ := mapPut_indexed h rc.seq hidx
      (fun e he hk => hnew (hk ▸ List.mem_map_of_mem (hrest e he)))
    rw [show mapPut q.index h rc.seq = some y from hput] at hz
    obtain rfl := some.inj hz
    exact hzidx
  · exact (hq.each rc (mem_of_getElem? hi)).accept hcommit hne

end Change

section Whole

variable {q : Dq} {f : DqRec → DqRec} {x : Index} {l : List DqRec}

theorem countP_map_same {p : DqRec → Bool} (h : ∀ rc ∈ l, p (f rc) = p rc) :
    (l.map f).countP p = l.countP p := by
  rw [countP_map]
  exact countP_congr fun rc hrc => by rw [Function.comp_apply, h rc hrc]

theorem entries_map_same (h : ∀ rc ∈ l, entry (f rc) = entry rc) : entries (l.map f) = entries l := by
  unfold entries
  rw [filterMap_map]
  exact filterMap_congr h

/-- Every record is changed in a way the counts and the index do not see. -/
theorem TableInv.mapRecs (hq : TableInv q) (hseq : ∀ rc, (f rc).seq = rc.seq)
    (hhandle : ∀ rc, (f rc).handle = rc.handle) (hopen : ∀ rc, isOpen (f rc) = isOpen rc)
    (hcommit : ∀ rc, (f rc).committing = rc.committing) (hok : ∀ rc, RecOk rc → RecOk (f rc)) :
    TableInv { q with recs := q.recs.map f } := by
  have hmap : (q.recs.map f).map DqRec.seq = q.recs.map DqRec.seq := by
    rw [List.map_map]
    exact map_congr_left fun rc _ => hseq rc
  have hentry : ∀ rc, entry (f rc) = entry rc := by
    intro rc
    unfold entry
    rw [hopen, hhandle, hseq]
  have hcount : ∀ rc, counted (f rc) = counted rc := by
    intro rc
    unfold counted
    rw [hopen, hcommit]
  refine ⟨?_, ?_, hq.bound, ?_, ?_, ?_, ?_, hq.keys⟩
  · exact hmap.symm ▸ hq.sorted
  · exact hmap.symm ▸ hq.below
  · exact hq.pending.trans (countP_map_same fun rc _ => hcount rc).symm
  · show Indexed q.index (entries (q.recs.map f)) ((q.recs.map f).countP DqRec.committing)
    rw [entries_map_same fun rc _ => hentry rc, countP_map_same fun rc _ => hcommit rc]
    exact hq.index
  · intro rc hrc hne
    obtain ⟨rc₀, hrc₀, rfl⟩ := List.mem_map.mp hrc
    rw [hhandle] at hne ⊢
    rw [hseq]
    exact hq.issued rc₀ hrc₀ hne
  · intro rc hrc
    obtain ⟨rc₀, hrc₀, rfl⟩ := List.mem_map.mp hrc
    exact hok rc₀ (hq.each rc₀ hrc₀)

/-- Draining the quarantine keeps the invariant. -/
theorem TableInv.drain (hq : TableInv q) : TableInv (drainQuarantine q).1 := by
  refine hq.mapRecs ?_ ?_ ?_ ?_ ?_
  · intro rc
    split_ifs <;> rfl
  · intro rc
    split_ifs <;> rfl
  · intro rc
    split_ifs with hquar
    · have hclosed : isOpen rc = false := by
        unfold isOpen
        rw [hquar]
        exact Bool.and_false _
      exact Eq.trans rfl hclosed.symm
    · rfl
  · intro rc
    split_ifs <;> rfl
  · intro rc hrc
    split_ifs with hquar
    · have hret : ¬0 < rc.retracting := by
        intro hr
        rw [(hrc.retract hr).2] at hquar
        cases hquar
      refine ⟨hrc.name, hrc.payload, hrc.crashes, fun hc => ?_, fun hr => absurd hr hret,
        fun v hv => absurd (hrc.defer v hv).2.1 hret⟩
      have hopen := (isOpen_iff.mp (hrc.commit hc).opened).2
      rw [hopen] at hquar
      cases hquar
    · exact hrc

/-- A compaction drops the closed records from the table. -/
theorem TableInv.purge (hq : TableInv q) :
    TableInv { q with recs := q.recs.filter fun rc => !rc.done } := by
  have hkept : ∀ {rc : DqRec}, isOpen rc = true → (!rc.done) = true := by
    intro rc hopen
    rw [(isOpen_iff.mp hopen).1]
    rfl
  have hmem : ∀ rc ∈ q.recs.filter (fun rc => !rc.done), rc ∈ q.recs :=
    fun rc hrc => (mem_filter.mp hrc).1
  have hsub : ((q.recs.filter fun rc => !rc.done).map DqRec.seq).Sublist (q.recs.map DqRec.seq) :=
    filter_sublist.map _
  refine ⟨hq.sorted.sublist hsub, fun s hs => hq.below s (hsub.subset hs), hq.bound, ?_, ?_,
    fun rc hrc => hq.issued rc (hmem rc hrc), fun rc hrc => hq.each rc (hmem rc hrc), hq.keys⟩
  · show q.pending = (q.recs.filter fun rc => !rc.done).countP counted
    rw [countP_filter, hq.pending]
    refine countP_congr fun rc _ => ?_
    rw [Bool.and_eq_true]
    exact ⟨fun hc => ⟨hc, hkept (Bool.and_eq_true_iff.mp hc).1⟩, fun hc => hc.1⟩
  · show Indexed q.index (entries (q.recs.filter fun rc => !rc.done))
      ((q.recs.filter fun rc => !rc.done).countP DqRec.committing)
    have hentries : entries (q.recs.filter fun rc => !rc.done) = entries q.recs := by
      unfold entries
      rw [filterMap_filter]
      refine filterMap_congr fun rc _ => ?_
      by_cases hopen : isOpen rc = true
      · rw [if_pos (hkept hopen)]
      · have hnone : entry rc = none := if_neg fun hc => hopen hc.1
        rw [hnone, ite_self]
    have hcommit : (q.recs.filter fun rc => !rc.done).countP DqRec.committing =
        q.recs.countP DqRec.committing := by
      rw [countP_filter]
      refine countP_congr fun rc hrc => ?_
      rw [Bool.and_eq_true]
      exact ⟨fun hc => hc.1, fun hc => ⟨hc, hkept (hq.commit hrc hc).opened⟩⟩
    rw [hentries, hcommit]
    exact hq.index

/-- A submit reserves its records. -/
theorem TableInv.push (hq : TableInv q) (news : List DqRec)
    (hseq : ∀ i rc, news[i]? = some rc → rc.seq = q.nextSeq + i)
    (hbound : q.nextSeq + news.length ≤ 2 ^ 63)
    (hnews : ∀ rc ∈ news, rc.committing = true ∧ RecOk rc)
    (hx : Indexed q.index (entries q.recs) (q.recs.countP DqRec.committing) →
      Indexed x (entries q.recs) (q.recs.countP DqRec.committing + news.length)) :
    TableInv { q with index := x, nextSeq := q.nextSeq + news.length, recs := q.recs ++ news } := by
  have hrange : ∀ rc ∈ news, q.nextSeq ≤ rc.seq ∧ rc.seq < q.nextSeq + news.length := by
    intro rc hrc
    obtain ⟨i, hi⟩ := mem_iff_getElem?.mp hrc
    have hlt := (List.getElem?_eq_some_iff.mp hi).1
    rw [hseq i rc hi]
    omega
  have hfresh : ∀ rc ∈ news, Fresh rc := fun rc hrc => (hnews rc hrc).2.commit (hnews rc hrc).1
  have hpos : 0 < q.nextSeq := hq.bound.1
  refine ⟨?_, ?_, ⟨Nat.add_pos_left hpos _, hbound⟩, ?_, ?_, ?_, ?_, hq.keys⟩
  · show ((q.recs ++ news).map DqRec.seq).Pairwise (· < ·)
    rw [map_append]
    refine pairwise_append.mpr ⟨hq.sorted, ?_, ?_⟩
    · rw [pairwise_iff_getElem]
      intro i j hi hj hij
      rw [length_map] at hi hj
      rw [getElem_map, getElem_map, hseq i _ (getElem?_eq_getElem hi),
        hseq j _ (getElem?_eq_getElem hj)]
      omega
    · intro s hs t ht
      obtain ⟨rc, hrc, rfl⟩ := List.mem_map.mp ht
      exact lt_of_lt_of_le (hq.below s hs).2 (hrange rc hrc).1
  · intro s hs
    rw [show ({ q with index := x, nextSeq := q.nextSeq + news.length, recs := q.recs ++ news } :
      Dq).recs = q.recs ++ news from rfl, map_append] at hs
    rcases mem_append.mp hs with hs | hs
    · have := hq.below s hs
      exact ⟨this.1, lt_of_lt_of_le this.2 (Nat.le_add_right ..)⟩
    · obtain ⟨rc, hrc, rfl⟩ := List.mem_map.mp hs
      have := hrange rc hrc
      exact ⟨by omega, this.2⟩
  · show q.pending = (q.recs ++ news).countP counted
    have hnone : news.countP counted = 0 := countP_eq_zero.mpr fun rc hrc =>
      Bool.eq_false_iff.mp (counted_committing (hnews rc hrc).1)
    rw [countP_append, hnone, add_zero, hq.pending]
  · show Indexed x (entries (q.recs ++ news)) ((q.recs ++ news).countP DqRec.committing)
    have hnone : entries news = [] := by
      refine filterMap_eq_nil_iff.mpr fun rc hrc => ?_
      exact if_neg fun hc => hc.2 (hfresh rc hrc).handle
    have hall : news.countP DqRec.committing = news.length :=
      countP_eq_length.mpr fun rc hrc => (hnews rc hrc).1
    rw [entries_append, hnone, append_nil, countP_append, hall]
    exact hx hq.index
  · intro rc hrc hne
    rcases mem_append.mp hrc with hrc | hrc
    · exact hq.issued rc hrc hne
    · exact absurd (hfresh rc hrc).handle hne
  · intro rc hrc
    rcases mem_append.mp hrc with hrc | hrc
    · exact hq.each rc hrc
    · exact (hnews rc hrc).2

end Whole

end Gptps.DurableTable
