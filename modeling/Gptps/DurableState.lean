import Gptps.CrashFile
import Gptps.DurableIndex
import Gptps.EngineState
import Gptps.JournalDamage

/-!
# The state of the durable queue

The queue has a record table with its handle index, a journal file with its group commit, and
the calls that are under way. Durable writes wait for an fsync that began after them: whoever
finds none running leads one, and it settles every write made before it began. The file may lose
what is not synced in a power cut, and its name may go back to an earlier file while the directory
is not synced.
-/

namespace Gptps.DurableState

open JournalFormat DurableRecords JournalDamage DurableIndex

/-- The journal file under power cuts. -/
abbrev File := CrashFile.File UInt8

/-- What a call of the queue answers. -/
inductive Status
  /-- GPTPS_OK -/
  | ok
  /-- GPTPS_E_NOMEM -/
  | nomem
  /-- GPTPS_E_INVAL -/
  | inval
  /-- GPTPS_E_NOTFOUND -/
  | notfound
  /-- GPTPS_E_FULL -/
  | full
  /-- GPTPS_E_IO -/
  | io
  /-- GPTPS_E_SHUTDOWN -/
  | shutdown
  /-- What `gptps_submit` answered when it refused the work. -/
  | refused
  deriving DecidableEq, Repr

/-- What a durable write is. -/
inductive WType
  /-- The 'P' records of a submit. -/
  | p
  /-- The 'D' of a retraction. -/
  | d
  /-- The cut that took a failed write back out of the file. -/
  | cut
  deriving DecidableEq, Repr

/-- How a durable write stands. -/
inductive WState
  /-- Not settled. -/
  | waiting
  /-- An fsync that began after it succeeded. -/
  | durable
  /-- An fsync failed, and the file was cut back. -/
  | failed
  deriving DecidableEq, Repr

/-- A write its caller must see made durable. -/
structure Waiter where
  /-- The call on whose stack it lives. -/
  call : ℕ
  /-- Its place in the order of durable writes. -/
  ticket : ℕ
  /-- The first record it is about. -/
  seq : ℕ
  /-- The last record it is about. -/
  seqEnd : ℕ
  /-- What was written. -/
  type : WType
  /-- How it stands. -/
  state : WState
  deriving DecidableEq, Repr

/-- Where the caller that leads an fsync is. -/
inductive Phase
  /-- In the fsync of the file. -/
  | fsync
  /-- In the fsync of the directory. -/
  | dirSync
  /-- Both succeeded. -/
  | good
  /-- One failed. -/
  | bad
  deriving DecidableEq, Repr

/-- An fsync under way, with what its leader read before it. -/
structure Lead where
  /-- The last ticket it settles. -/
  upto : ℕ
  /-- The offset past the newest durable write. -/
  fin : ℕ
  /-- The offset below which every byte was on disk. -/
  good : ℕ
  /-- The operations on the file from before it that no earlier one synced. -/
  ops : ℕ
  /-- Whether it includes the directory. -/
  dir : Bool
  /-- How far it is. -/
  phase : Phase
  deriving DecidableEq, Repr

/-- The journal's part of the queue. -/
structure Journal where
  /-- There is an append handle. -/
  fp : Bool
  /-- Nothing more is written. -/
  broken : Bool
  /-- The durable writes not yet acted on, newest first. -/
  waiters : List Waiter
  /-- The durable writes issued. -/
  tickets : ℕ
  /-- The offset past the newest durable write, 0 without a file. -/
  lastEnd : ℕ
  /-- Every byte below it is on disk. -/
  synced : ℕ
  /-- The fsync under way. -/
  lead : Option Lead
  /-- A compaction's rename is not known durable yet. -/
  dirDirty : Bool
  deriving DecidableEq, Repr

/-- The journal's name on disk. -/
structure Disk where
  /-- The file under the name. -/
  cur : Option File
  /-- The files the name may go back to while the directory is not synced. -/
  olds : List (Option File)

/-- One piece of work submitted: the name of its task, without the NUL, and its payload. -/
structure Item where
  /-- The name of the task. -/
  name : Bytes
  /-- The payload. -/
  payload : Bytes
  deriving DecidableEq, Repr

/-- What a call is. -/
inductive Kind
  /-- `gptps_dq_submit`, or `gptps_dq_submit_batch` -/
  | submit (items : List Item) (batch : Bool)
  /-- `gptps_dq_cancel` -/
  | cancel (handle : ℕ)
  deriving DecidableEq, Repr

/-- Where a call with a durable write is. -/
inductive Pc
  /-- It holds the journal and is about to write. -/
  | write
  /-- It holds the journal; its write failed after the offset `start`. -/
  | cut (start : ℕ)
  /-- Its waiter is registered, for the write (`true`) or for the cut. -/
  | wait (wrote : Bool)
  /-- There is nothing to wait for. -/
  | lost
  /-- The retraction stands; the engine is still to be told. -/
  | engine
  deriving DecidableEq, Repr

/-- A call under way. -/
structure Call where
  /-- Its identity. -/
  id : ℕ
  /-- What it is. -/
  kind : Kind
  /-- The number of its first record. -/
  first : ℕ
  /-- Where it is. -/
  pc : Pc
  deriving DecidableEq, Repr

/-- The queue in memory. -/
structure Dq extends DqTable where
  /-- The open records. -/
  pending : ℕ
  /-- The handle index. -/
  index : Index
  /-- The number of the suspect resubmitted alone right now, or 0. -/
  trial : ℕ
  /-- The journal and the group commit. -/
  jnl : Journal
  /-- The calls under way. -/
  calls : List Call
  /-- The handles the engine has issued in this run, each with the record it was issued for. -/
  issued : List (ℕ × ℕ)
  /-- The engine is tearing down and refuses work. -/
  tearing : Bool

section Waiters

/-- Whether a write is left waiting. -/
def anyWaiting (j : Journal) : Bool := j.waiters.any (·.state = .waiting)

/-- Settles the waiting writes up to a ticket. -/
def settle (ws : List Waiter) (upto : ℕ) (state : WState) : List Waiter :=
  ws.map fun w => if w.state = .waiting ∧ w.ticket ≤ upto then { w with state := state } else w

/-- Settles every waiting write. -/
def settleAll (ws : List Waiter) (state : WState) : List Waiter :=
  ws.map fun w => if w.state = .waiting then { w with state := state } else w

/-- How the `type` write for record `seq` ended: durable if any did, else the state of the last
one registered. -/
def waiterState (ws : List Waiter) (seq : ℕ) (type : WType) : Option WState :=
  let mine := ws.filter fun w => w.seq ≤ seq ∧ seq ≤ w.seqEnd ∧ w.type = type
  if mine.any (·.state = .durable) then some .durable else mine.getLast?.map (·.state)

/-- The waiter of a call. -/
def waiterOf (ws : List Waiter) (c : ℕ) : Option Waiter := ws.find? (·.call = c)

/-- Links a waiter into the list. -/
def registerWaiter (j : Journal) (call : ℕ) (type : WType) (seq seqEnd : ℕ) (fin : Option ℕ) :
    Journal :=
  { j with
    waiters := ⟨call, j.tickets + 1, seq, seqEnd, type, .waiting⟩ :: j.waiters
    tickets := j.tickets + 1
    lastEnd := fin.getD j.lastEnd }

/-- Takes the waiter of a call out of the list. -/
def unregisterWaiter (j : Journal) (c : ℕ) : Journal :=
  { j with waiters := j.waiters.filter (·.call ≠ c) }

end Waiters

section Writes

/-- How an unsynced write went: whole, or cut after `kept` bytes, and then whether the file could
be rolled back. -/
structure MarkOut where
  /-- The whole of it reached the file. -/
  ok : Bool
  /-- The bytes that did otherwise. -/
  kept : ℕ
  /-- The rollback that followed succeeded. -/
  cutOk : Bool
  deriving DecidableEq, Repr

/-- The length of the file under the journal's name. -/
def Disk.length (d : Disk) : ℕ := (d.cur.map fun f => f.content.length).getD 0

/-- Bytes appended to the journal. -/
def Disk.append (d : Disk) (b : Bytes) : Disk := { d with cur := d.cur.map (·.append b) }

/-- The journal cut to `n` bytes. -/
def Disk.cut (d : Disk) (n : ℕ) : Disk := { d with cur := d.cur.map (·.cut n) }

/-- A successful fsync of the journal that nothing was written during. -/
def Disk.sync (d : Disk) : Disk := { d with cur := d.cur.map (·.sync) }

/-- The operations on the journal that are not synced. -/
def Disk.unsynced (d : Disk) : ℕ := (d.cur.map (·.ops.length)).getD 0

/-- A successful fsync of the journal that began after `n` of them. -/
def Disk.syncFirst (d : Disk) (n : ℕ) : Disk := { d with cur := d.cur.map (·.syncFirst n) }

/-- The records a call writes. -/
def recordsBy (c : Call) : List Record :=
  match c.kind with
  | .submit items _ => items.mapIdx fun i x => ⟨typeP, c.first + i, x.name, x.payload⟩
  | .cancel _ => [marker typeD c.first]

/-- The number of the last record a call is about. -/
def Call.last (c : Call) : ℕ :=
  match c.kind with
  | .submit items _ => c.first + (items.length - 1)
  | .cancel _ => c.first

/-- What a call's waiter is for once its write went through. -/
def Call.wtype (c : Call) : WType :=
  match c.kind with
  | .submit .. => .p
  | .cancel _ => .d

/-- The calls with the one of identity `id` moved to another place. -/
def movePc (calls : List Call) (id : ℕ) (pc : Pc) : List Call :=
  calls.map fun c => if c.id = id then { c with pc := pc } else c

/-- The calls without the one of identity `id`. -/
def dropCall (calls : List Call) (id : ℕ) : List Call := calls.filter (·.id ≠ id)

/-- Whether a call holds the journal. -/
def Call.holds (c : Call) : Bool :=
  match c.pc with
  | .write => true
  | .cut _ => true
  | _ => false

/-- Nobody holds the journal. -/
def journalFree (q : Dq) : Bool := q.calls.all fun c => !c.holds

/-- Appends a marker and flushes it; a failed one is rolled back, if that can be done. It waits
while a call holds the journal (`none`). -/
def appendMarker (q : Dq) (d : Disk) (type : UInt8) (seq : ℕ) (m : MarkOut) : Option Disk :=
  if journalFree q then
    if q.jnl.fp ∧ ¬q.jnl.broken then
      if m.ok then some (d.append (marker type seq).bytes)
      else
        let d' := d.append ((marker type seq).bytes.take m.kept)
        some (if m.cutOk then d'.cut d.length else d')
    else some d
  else none

/-- `write_durable` and `write_durable_batch`: the whole write reaches the file (`ok`), or `kept`
bytes of it do. -/
def writeDurable (q : Dq) (d : Disk) (c : Call) (kept : ℕ) (ok : Bool) : Dq × Disk :=
  if ¬q.jnl.fp ∨ q.jnl.broken then ({ q with calls := movePc q.calls c.id .lost }, d)
  else if ok then
    let d' := d.append (encode (recordsBy c))
    ({ q with
        jnl := registerWaiter q.jnl c.id c.wtype c.first c.last (some d'.length)
        calls := movePc q.calls c.id (.wait true) }, d')
  else
    ({ q with calls := movePc q.calls c.id (.cut d.length) },
      d.append ((encode (recordsBy c)).take kept))

/-- `cut_back`: the failed write is cut out of the file again, or the queue breaks. -/
def cutBack (q : Dq) (d : Disk) (c : Call) (start : ℕ) (ok : Bool) : Dq × Disk :=
  if ok then
    ({ q with
        jnl := registerWaiter q.jnl c.id .cut c.first c.last none
        calls := movePc q.calls c.id (.wait false) }, d.cut start)
  else
    ({ q with jnl := { q.jnl with broken := true }, calls := movePc q.calls c.id .lost }, d)

end Writes

section Sync

/-- A caller finds no fsync running and leads one. -/
def syncBegin (j : Journal) (d : Disk) : Option Journal :=
  match j.lead with
  | some _ => none
  | none =>
    if anyWaiting j then
      some { j with
        lead := some ⟨j.tickets, j.lastEnd, j.synced, d.unsynced, j.dirDirty, .fsync⟩ }
    else none

/-- The fsync of the file returns: what was written before it began is on disk. -/
def fsyncRet (j : Journal) (d : Disk) (ok : Bool) : Option (Journal × Disk) :=
  match j.lead with
  | some l =>
    if l.phase = .fsync then
      if ok ∧ j.fp then
        some ({ j with lead := some { l with phase := if l.dir then .dirSync else .good } },
          d.syncFirst l.ops)
      else some ({ j with lead := some { l with phase := .bad } }, d)
    else none
  | none => none

/-- The fsync of the directory returns. -/
def dirRet (j : Journal) (d : Disk) (ok : Bool) : Option (Journal × Disk) :=
  match j.lead with
  | some l =>
    if l.phase = .dirSync then
      if ok then some ({ j with lead := some { l with phase := .good } }, { d with olds := [] })
      else some ({ j with lead := some { l with phase := .bad } }, d)
    else none
  | none => none

/-- The leader settles the writes its fsync covers. -/
def syncSettle (j : Journal) : Option Journal :=
  match j.lead with
  | some l =>
    if l.phase = .good then
      some { j with
        waiters := settle j.waiters l.upto .durable
        synced := if l.fin > j.synced then l.fin else j.synced
        dirDirty := if l.dir then false else j.dirDirty
        lead := none }
    else none
  | none => none

/-- The leader of a failed fsync cuts the file back to the last good one, makes the cut durable
and fails every write still waiting; if it cannot, the queue breaks. -/
def syncFail (j : Journal) (d : Disk) (cutOk syncOk : Bool) : Option (Journal × Disk) :=
  match j.lead with
  | some l =>
    if l.phase = .bad then
      let rolled := j.fp ∧ fhdrLen ≤ l.good ∧ cutOk
      let d' := if rolled then (if syncOk then (d.cut l.good).sync else d.cut l.good) else d
      some ({ j with
        broken := if rolled ∧ syncOk then j.broken else true
        waiters := settleAll j.waiters .failed
        lastEnd := l.good
        lead := none }, d')
    else none
  | none => none

end Sync

section Rewrite

/-- How a compaction goes. -/
inductive RewriteOut
  /-- It fails before the rename; `nomem` says for which reason. -/
  | early (nomem : Bool)
  /-- The rename fails; whether the old journal could be reopened. -/
  | renameFails (reopened : Bool)
  /-- The new journal is in place; whether the directory was synced and the journal reopened. -/
  | replaced (dirOk reopened : Bool)
  deriving DecidableEq, Repr

/-- Whether a compaction writes a record. -/
def rewrites (ws : List Waiter) (rc : DqRec) : Bool :=
  !rc.done && !(rc.committing && waiterState ws rc.seq .p ≠ some .durable) &&
    !(0 < rc.retracting && waiterState ws rc.seq .d = some .durable)

/-- The records a compaction writes for one record of the table. -/
def recordsOf (rc : DqRec) : List Record :=
  ⟨typeP, rc.seq, rc.name, rc.payload⟩ ::
    ((if rc.crashes ≠ 0 then [⟨typeK, rc.seq, [], put32 rc.crashes⟩] else []) ++
      (if rc.inflight then [marker typeS rc.seq] else []) ++
      (if rc.quarantined then [marker typeQ rc.seq] else []))

/-- The records of the compacted journal. -/
def rewriteOf (recs : List DqRec) (ws : List Waiter) : List Record :=
  (recs.filter (rewrites ws)).flatMap recordsOf

/-- No write is in flight, which is where `quiesce` returns. -/
def quiet (q : Dq) : Bool := q.jnl.lead.isNone && !anyWaiting q.jnl && journalFree q

/-- `do_rewrite`: the queue and the disk after it, its status, and whether the journal was
replaced. -/
def doRewrite (q : Dq) (d : Disk) (o : RewriteOut) : Option (Dq × Disk × Status × Bool) :=
  if quiet q then
    match o with
    | .early nomem => some (q, d, if nomem then .nomem else .io, false)
    | .renameFails reopened =>
      if q.jnl.fp ∧ ¬reopened then
        some ({ q with jnl := { q.jnl with fp := false, broken := true } }, d, .io, false)
      else some (q, d, .io, false)
    | .replaced dirOk reopened =>
      let rs := rewriteOf q.recs q.jnl.waiters
      -- a record `write_record` refuses fails the compaction
      if rs.all fun r => (writeRecord r).isSome then
        let d' : Disk := ⟨some ⟨journal rs, []⟩, if dirOk then [] else d.cur :: d.olds⟩
        let fin := if reopened then (journal rs).length else 0
        let q' := { q with jnl := { q.jnl with
          fp := reopened
          broken := if reopened then (if dirOk then false else q.jnl.broken) else true
          lastEnd := fin
          synced := fin
          dirDirty := !dirOk } }
        if reopened then
          some ({ q' with recs := q'.recs.filter fun rc => !rc.done }, d',
            if dirOk then .ok else .io, true)
        else some (q', d', .io, true)
      else none
  else none

end Rewrite

end Gptps.DurableState
