import Gptps.JournalFormat
import Gptps.SortedSearch

/-!
# The record table of the durable queue

The queue keeps its records in a table that rises in their numbers, so a record is found by a
binary search. Replay fills the table by applying one verified record of the journal after the
other.
-/

namespace Gptps.DurableRecords

open JournalFormat

/-- One record of the queue. -/
structure DqRec where
  /-- The number of the record. -/
  seq : ℕ
  /-- The handle of its execution in this run, 0 without one. -/
  handle : ℕ := 0
  /-- The name of its task; freed memory is empty here. -/
  name : Bytes := []
  /-- Its payload. -/
  payload : Bytes := []
  /-- Closed: finished, dropped, refused, retracted or drained. -/
  done : Bool := false
  /-- Dead-lettered: kept for inspection. -/
  quarantined : Bool := false
  /-- An attempt started and has not ended. -/
  inflight : Bool := false
  /-- Resubmitted one at a time in this run. -/
  suspect : Bool := false
  /-- The process deaths it was running at since an attempt last ended. -/
  crashes : ℕ := 0
  /-- A submit is making it durable: not a record yet. -/
  committing : Bool := false
  /-- The retractions that are making a closing marker for it durable. -/
  retracting : ℕ := 0
  /-- The verdict that arrived meanwhile. -/
  deferred : Option UInt8 := none
deriving DecidableEq, Repr

/-- The part of the queue that replay fills. -/
structure DqTable where
  /-- The number of the next record. -/
  nextSeq : ℕ
  /-- The records. -/
  recs : List DqRec
deriving DecidableEq, Repr

/-- The table of a queue before its journal is read. -/
def DqTable.fresh : DqTable := ⟨1, []⟩

/-- The place of the record numbered `seq`. -/
def findBySeq (recs : List DqRec) (seq : ℕ) : Option ℕ := SortedSearch.search recs DqRec.seq seq

/-- A string as C reads it: up to its first NUL. -/
def cString (b : Bytes) : Bytes := b.takeWhile (· ≠ 0)

/-- The record a verified 'P' brings. -/
def recOf (r : Raw) : DqRec where
  seq := r.seq
  name := cString (r.body.take r.nlen)
  payload := (r.body.drop r.nlen).take r.plen

/-- What a verified marker does to the record it is about. -/
def markRec (r : Raw) (rc : DqRec) : DqRec :=
  if r.type = typeD then { rc with done := true, name := [], payload := [] }
  else if r.type = typeQ then { rc with quarantined := true }
  else if r.type = typeS then { rc with inflight := true }
  else if r.type = typeF then { rc with inflight := false, crashes := 0 }
  else if r.type = typeK then
    if r.plen = 4 ∧ r.nlen = 0 then { rc with crashes := get32 r.body } else rc
  -- a later version's type is skipped
  else rc

/-- Applies one verified record to the table. -/
def applyRec (t : DqTable) (r : Raw) : DqTable :=
  let nextSeq := if r.seq ≥ t.nextSeq then (r.seq + 1) % 2 ^ 64 else t.nextSeq
  if r.type = typeP then ⟨nextSeq, t.recs ++ [recOf r]⟩
  else
    match findBySeq t.recs r.seq with
    | none => ⟨nextSeq, t.recs⟩
    | some i => ⟨nextSeq, t.recs.modify i (markRec r)⟩

@[simp] theorem markRec_seq (r : Raw) (rc : DqRec) : (markRec r rc).seq = rc.seq := by
  unfold markRec
  split_ifs <;> rfl

end Gptps.DurableRecords
