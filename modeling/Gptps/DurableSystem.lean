import Gptps.DurableApi

/-!
# The durable queue over its runs

A step is what one thread does between two releases of a lock, one answer of the disk, or the end
of a run by a close, a death of the process or a power cut. A compaction is one step: it holds
both locks from where no write is in flight. Beside the queue and the disk stands the history of
what callers were told: which record each number was given to, which records were acknowledged,
refused with GPTPS_E_IO or retracted, and which were closed or quarantined.
-/

namespace Gptps.DurableSystem

open JournalFormat DurableRecords JournalDamage DurableState DurableApi
open CrashFile (Keep)

/-- What callers were told. A record is named by the call that submitted it and its number. -/
structure History where
  /-- The identity of the next call. -/
  nextCall : ℕ
  /-- The call that submitted the record of a number. -/
  origin : ℕ → ℕ
  /-- The work submitted under a number. -/
  asked : ℕ → Item
  /-- The records whose submit was acknowledged. -/
  acked : List (ℕ × ℕ)
  /-- The records closed or quarantined, or whose retraction was under way when the run ended. -/
  ended : List (ℕ × ℕ)
  /-- The records whose submit answered GPTPS_E_IO. -/
  failed : List (ℕ × ℕ)
  /-- The records whose retraction succeeded. -/
  retracted : List (ℕ × ℕ)
  /-- What each call answered. -/
  answers : List (ℕ × Status)

/-- The queue, its disk and its history. -/
structure Sys where
  /-- The queue, between an open and the end of the run. -/
  q : Option Dq
  /-- The journal on disk. -/
  disk : Disk
  /-- What callers were told. -/
  hist : History

/-- A history in which nothing was told. -/
def History.fresh : History := ⟨1, fun _ => 0, fun _ => ⟨[], []⟩, [], [], [], [], []⟩

/-- Before the first open, with a journal or without. -/
def init (file : Option Bytes) : Sys :=
  ⟨none, ⟨file.map fun b => ⟨b, []⟩, []⟩, .fresh⟩

/-- What can happen next. -/
inductive Label
  /-- `gptps_dq_open` -/
  | openQueue (o : OpenOut)
  /-- `gptps_dq_close` -/
  | closeQueue
  /-- A submit or a batch reserves its records. -/
  | submit (items : List Item) (batch : Bool) (a : AllocOut)
  /-- A retraction begins. -/
  | cancel (h : ℕ)
  /-- A call writes to the journal. -/
  | write (c kept : ℕ) (ok : Bool)
  /-- A call cuts its failed write back. -/
  | cut (c : ℕ) (ok : Bool)
  /-- A caller leads an fsync. -/
  | syncBegin
  /-- The fsync of the file returns. -/
  | fsyncRet (ok : Bool)
  /-- The fsync of the directory returns. -/
  | dirRet (ok : Bool)
  /-- The leader settles the writes it covered. -/
  | syncSettle
  /-- The leader of a failed fsync cuts the file back. -/
  | syncFail (cutOk syncOk : Bool)
  /-- A submit acts on how its write ended. -/
  | submitEnd (c : ℕ) (offers : List Offer)
  /-- A retraction acts on how its write ended. -/
  | cancelEnd (c : ℕ) (m : MarkOut) (rs : List Resub)
  /-- A retraction has told the engine, which may be tearing down. -/
  | cancelTell (c : ℕ) (shutdown : Bool)
  /-- The observer gets an event. -/
  | event (ev : Event) (m m' : MarkOut) (rs : List Resub)
  /-- The engine begins to tear down. -/
  | tearDown
  /-- `gptps_dq_recover` -/
  | recover (rs : List Resub)
  /-- `gptps_dq_compact` -/
  | compact (o : RewriteOut)
  /-- `gptps_dq_drain_quarantine_ex` -/
  | drain (o : RewriteOut)
  /-- The power fails: which of the files comes back, and what is kept of it. -/
  | powerCut (pick : ℕ) (ks : List Keep)
  /-- The process dies. -/
  | die

/-- The records of a table that are closed or quarantined. -/
def endedIn (h : History) (recs : List DqRec) : List (ℕ × ℕ) :=
  (recs.filter fun rc => rc.done || rc.quarantined).map fun rc => (h.origin rc.seq, rc.seq)

/-- The records of a table with a retraction under way. -/
def retractingIn (h : History) (recs : List DqRec) : List (ℕ × ℕ) :=
  (recs.filter fun rc => 0 < rc.retracting).map fun rc => (h.origin rc.seq, rc.seq)

/-- The running state after a step, with the records it closed noted. -/
def up (q : Dq) (d : Disk) (h : History) : Sys :=
  ⟨some q, d, { h with ended := h.ended ++ endedIn h q.recs }⟩

/-- The state after the end of a run. -/
def down (q : Dq) (d : Disk) (h : History) : Sys :=
  ⟨none, d, { h with ended := h.ended ++ retractingIn h q.recs }⟩

/-- A call is answered. -/
def History.answer (h : History) (c : ℕ) (st : Status) : History :=
  { h with answers := h.answers ++ [(c, st)] }

/-- A call begins. -/
def History.begin (h : History) : History := { h with nextCall := h.nextCall + 1 }

/-- The numbers from `first` on are given to a call. -/
def History.give (h : History) (c first : ℕ) (items : List Item) : History :=
  { h with
    origin := fun s => if first ≤ s ∧ s < first + items.length then c else h.origin s
    asked := fun s =>
      if first ≤ s ∧ s < first + items.length then items.getD (s - first) ⟨[], []⟩ else h.asked s }

/-- The numbers of the items of a submit the engine took. -/
def takenBy (first : ℕ) (offers : List Offer) : List ℕ :=
  (offers.zipIdx.filter fun p => p.1.handle.isSome).map fun p => first + p.2

/-- A submit answers. -/
def History.submitted (h : History) (c : Call) (offers : List Offer) (durable : Bool) : History :=
  if durable then
    { h.answer c.id (if offers.all (·.handle.isSome) then .ok else .refused) with
      acked := h.acked ++ (takenBy c.first offers).map fun s => (c.id, s) }
  else
    { h.answer c.id .io with
      failed := h.failed ++ (List.range offers.length).map fun i => (c.id, c.first + i) }

/-- The number of items of a submit, 0 for a retraction. -/
def Call.items (c : Call) : ℕ :=
  match c.kind with
  | .submit items _ => items.length
  | .cancel _ => 0

/-- The call with an identity. -/
def callOf (q : Dq) (c : ℕ) : Option Call := q.calls.find? (·.id = c)

/-- The file a power cut leaves under the journal's name. -/
def Disk.pick (d : Disk) (pick : ℕ) : Option (Option File) := (d.cur :: d.olds)[pick]?

/-- What a step of a running queue does. -/
def stepUp (q : Dq) (d : Disk) (h : History) : Label → Option Sys
  | .openQueue _ => none
  | .closeQueue => if q.calls.isEmpty then some (down q d h) else none
  | .submit items batch a =>
    if items.all (fun x => !x.name.contains 0) && (batch || items.length = 1) then
      match submitBegin q h.nextCall items batch a with
      | .refused q' st => some (up q' d (h.begin.answer h.nextCall st))
      | .begun q' =>
        if journalFree q then some (up q' d (h.begin.give h.nextCall q.nextSeq items)) else none
    else none
  | .cancel handle =>
    match cancelBegin q h.nextCall handle with
    | none => some (up q d (h.begin.answer h.nextCall (if handle = 0 then .inval else .notfound)))
    | some q' => if journalFree q then some (up q' d h.begin) else none
  | .write c kept ok =>
    (callOf q c).bind fun call =>
      if call.pc = .write then
        let p := writeDurable q d call kept ok
        some (up p.1 p.2 h)
      else none
  | .cut c ok =>
    (callOf q c).bind fun call =>
      match call.pc with
      | .cut start =>
        let p := cutBack q d call start ok
        some (up p.1 p.2 h)
      | _ => none
  | .syncBegin => (syncBegin q.jnl d).map fun j => up { q with jnl := j } d h
  | .fsyncRet ok => (fsyncRet q.jnl d ok).map fun p => up { q with jnl := p.1 } p.2 h
  | .dirRet ok => (dirRet q.jnl d ok).map fun p => up { q with jnl := p.1 } p.2 h
  | .syncSettle => (syncSettle q.jnl).map fun j => up { q with jnl := j } d h
  | .syncFail cutOk syncOk =>
    if journalFree q then
      (syncFail q.jnl d cutOk syncOk).map fun p => up { q with jnl := p.1 } p.2 h
    else none
  | .submitEnd c offers =>
    (callOf q c).bind fun call =>
      if 0 < Call.items call ∧ offers.length = Call.items call then
        (submitEnd q d call offers).map fun p => up p.1 p.2.1 (h.submitted call offers p.2.2)
      else none
  | .cancelEnd c m rs =>
    (callOf q c).bind fun call =>
      if Call.items call = 0 then
        (cancelEnd q d call m rs).map fun p =>
          if p.2.2 then up { p.1 with calls := movePc p.1.calls c .engine } p.2.1 h
          else up { p.1 with calls := dropCall p.1.calls c } p.2.1 (h.answer c .io)
      else none
  | .cancelTell c shutdown =>
    (callOf q c).bind fun call =>
      if call.pc = .engine then
        some (up { q with calls := dropCall q.calls c } d
          { h.answer c (if shutdown then .shutdown else .ok) with
            retracted := h.retracted ++ [(h.origin call.first, call.first)] })
      else none
  | .event ev m m' rs =>
    if ev.shutdown ∧ ¬q.tearing then none
    else (dqOnEvent q d ev m m' rs).map fun p => up p.1 p.2 h
  | .tearDown => some (up { q with tearing := true } d h)
  | .recover rs => (gptpsDqRecover q rs).map fun q' => up q' d h
  | .compact o => (doRewrite q d o).map fun p => up p.1 p.2.1 h
  | .drain o =>
    let p := drainQuarantine q
    if p.2 = 0 then some (up q d h) else (doRewrite p.1 d o).map fun p => up p.1 p.2.1 h
  | .powerCut pick ks =>
    (Disk.pick d pick).map fun f => down q ⟨f.map (·.after ks), []⟩ h
  | .die => some (down q d h)

/-- One step, `none` where it cannot happen. -/
def step (s : Sys) (l : Label) : Option Sys :=
  match s.q with
  | some q => stepUp q s.disk s.hist l
  | none =>
    match l with
    | .openQueue o =>
      match gptpsDqOpen s.disk o with
      | some (q, d) => some (up q d s.hist)
      | none => some s
    | .powerCut pick ks =>
      (Disk.pick s.disk pick).map fun f => ⟨none, ⟨f.map (·.after ks), []⟩, s.hist⟩
    | _ => none

/-- The state some steps lead to. -/
def run : Sys → List Label → Option Sys
  | s, [] => some s
  | s, l :: ls => (step s l).bind fun s' => run s' ls

end Gptps.DurableSystem
