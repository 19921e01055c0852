import Mathlib.Algebra.Ring.Nat
import Mathlib.Data.Int.Notation
import Mathlib.Data.List.Perm.Basic
import Mathlib.Tactic.SplitIfs

/-!
# The transport to worker processes

A request is registered on the list of its link before it is written, and one reader for each link
matches the replies that arrive to the records on the list. When a link breaks its reader fails what is
outstanding; a writer that could not write takes its record back, if the reader has not done so first.
A record of a blocking call is on its caller's stack, one of an asynchronous call is on the heap, so
reading a record that was released is possible and must not happen: the functions here answer `none`
then.
-/

namespace Gptps.Transport

open Function

section State

/-- The statuses of a transport call. -/
inductive Status
  /-- GPTPS_OK -/
  | ok
  /-- GPTPS_E_INVAL -/
  | inval
  /-- GPTPS_E_NOMEM -/
  | nomem
  /-- GPTPS_E_IO -/
  | io
  /-- GPTPS_E_FULL -/
  | full
  /-- GPTPS_E_BUSY -/
  | busy
  deriving DecidableEq, Repr

/-- The four ways to submit. -/
inductive Form
  /-- `gptps_xport_submit` -/
  | submit
  /-- `gptps_xport_submit_ex` -/
  | submitEx
  /-- `gptps_xport_submit_async` -/
  | async
  /-- `gptps_xport_submit_async_ex` -/
  | asyncEx
  deriving DecidableEq, Repr

/-- The outcome comes through a callback. -/
def Form.isAsync : Form → Bool
  | .submit | .submitEx => false
  | .async | .asyncEx => true

/-- What a reply frame says. -/
structure Reply where
  /-- The status of the task. -/
  st : ℤ
  /-- The result. -/
  res : List UInt8
  /-- The measurements. -/
  meas : List UInt8
  /-- Some measurements were left out. -/
  cut : Bool
  deriving DecidableEq, Repr

/-- What a form reports of a reply: only the `_ex` forms report measurements. -/
def Form.report : Form → Reply → Reply
  | .submit, r | .async, r => { r with meas := [], cut := false }
  | .submitEx, r | .asyncEx, r => r

/-- The address of a record, which is the number of its call. -/
abbrev Addr := ℕ

/-- `pending` -/
structure Record where
  /-- The id of the request. -/
  id : ℕ := 0
  /-- Whose it is: it says whether it is on the heap and which callback it has. -/
  form : Form
  /-- It was completed. -/
  done : Bool := false
  /-- Whether it was answered. -/
  io : Status := .ok
  /-- The answer. -/
  reply : Option Reply := none
  deriving DecidableEq, Repr

/-- Where the reader of a link is. -/
inductive Reader
  /-- It reads the next reply. -/
  | reading
  /-- It will call back with a reply. -/
  | calling (a : Addr) (r : Reply)
  /-- The callback runs; then the record is freed. -/
  | called (a : Addr)
  /-- It left the loop and will fail what is outstanding. -/
  | broken
  /-- It calls back with GPTPS_E_IO for these. -/
  | failing (l : List Addr)
  /-- The callback runs; then the record is freed. -/
  | failCalled (a : Addr) (l : List Addr)
  /-- It ended. -/
  | gone
  deriving DecidableEq, Repr

/-- `xport_worker` -/
structure Link where
  /-- The records outstanding. -/
  pend : List Addr := []
  /-- How many they are. -/
  npend : ℕ := 0
  /-- The link is retired. -/
  dead : Bool := false
  /-- The end of the stream: the worker is gone or the socket was shut. -/
  eof : Bool := false
  /-- Where the reader is. -/
  reader : Reader := .reading
  deriving DecidableEq, Repr

/-- `gptps_xport` -/
structure Xport where
  /-- The links. -/
  w : List Link
  /-- How many requests may be outstanding on one. -/
  maxInFlight : ℕ
  /-- Where the rotation is. -/
  cursor : ℕ
  /-- The last id given, a natural number: that its 64 bits come round is left out. -/
  nextId : ℕ
  /-- Which links are not retired. -/
  alive : List Bool
  /-- How many they are. -/
  nalive : ℕ
  deriving DecidableEq, Repr

/-- Where a call is. -/
inductive Phase
  /-- It picks a link. -/
  | routing
  /-- It gets an id. -/
  | numbering (i : ℕ)
  /-- It registers its record. -/
  | registering (i : ℕ)
  /-- It writes the frame. -/
  | writing (i : ℕ)
  /-- The write failed; it takes its record back. -/
  | takingBack (i : ℕ)
  /-- It waits for the reply. -/
  | waiting (i : ℕ)
  /-- It returned. -/
  | returned (st : Status)
  deriving DecidableEq, Repr

/-- A call. -/
structure Call where
  /-- How it was made. -/
  form : Form
  /-- The id of its request, 0 before it has one. -/
  id : ℕ := 0
  /-- Where it is. -/
  phase : Phase := .routing
  deriving DecidableEq, Repr

/-- What can be told of the transport from outside. -/
inductive Act
  /-- A call returns. -/
  | returned (c : Addr) (f : Form) (id : ℕ) (st : Status) (r : Option Reply)
  /-- The callback of a call runs. -/
  | callback (c : Addr) (f : Form) (id : ℕ) (st : Status) (r : Option Reply)
  /-- A reply arrives on a link. -/
  | frame (i id : ℕ) (r : Reply)
  deriving DecidableEq, Repr

/-- The transport, the records, the calls and what happened, in order. -/
structure Sys where
  /-- The transport. -/
  x : Xport
  /-- The records that were not released. -/
  recs : Addr → Option Record
  /-- The calls that were made. -/
  calls : Addr → Option Call
  /-- How many they are. -/
  made : ℕ
  /-- What happened. -/
  trace : List Act

end State

section Functions

/-- The scan of `next_rr` over at most so many links. -/
def scanRr (alive : List Bool) (n : ℕ) : ℕ → ℕ → Option ℕ × ℕ
  | 0, cursor => (none, cursor)
  | k + 1, cursor =>
    if alive[cursor % n]? = some true then (some (cursor % n), (cursor + 1) % 2 ^ 64)
    else scanRr alive n k ((cursor + 1) % 2 ^ 64)

/-- The next link that is not retired. -/
def nextRr (x : Xport) : Option ℕ × Xport :=
  if x.nalive = 0 then (none, x)
  else
    let p := scanRr x.alive x.w.length x.w.length x.cursor
    (p.1, { x with cursor := p.2 })

/-- Retire a link in the rotation. -/
def markDead (x : Xport) (i : ℕ) : Xport :=
  if x.alive[i]? = some true then { x with alive := x.alive.set i false, nalive := x.nalive - 1 } else x

/-- Unlink a record by its id. -/
def pendTake (recs : Addr → Option Record) (id : ℕ) : List Addr → Option (Option Addr × List Addr)
  | [] => some (none, [])
  | a :: l => (recs a).bind fun r =>
    if r.id = id then some (some a, l) else (pendTake recs id l).map fun p => (p.1, a :: p.2)

/-- The link without the record. -/
def Link.take (L : Link) (recs : Addr → Option Record) (id : ℕ) : Option (Option Addr × Link) :=
  (pendTake recs id L.pend).map fun p =>
    (p.1, if p.1.isSome then { L with pend := p.2, npend := L.npend - 1 } else L)

/-- The loop of `fail_all` under the lock: a blocking record is completed, an asynchronous one is kept
for its callback. -/
def failSplit : List Addr → (Addr → Option Record) → List Addr →
    Option ((Addr → Option Record) × List Addr)
  | [], recs, asyncList => some (recs, asyncList)
  | a :: l, recs, asyncList => (recs a).bind fun r =>
    if r.form.isAsync then failSplit l recs (a :: asyncList)
    else failSplit l (update recs a (some { r with io := .io, done := true })) asyncList

/-- A link changes. -/
def Sys.setLink (s : Sys) (i : ℕ) (L : Link) : Sys := { s with x := { s.x with w := s.x.w.set i L } }

/-- A call goes to another phase. -/
def Sys.setPhase (s : Sys) (c : Addr) (k : Call) (p : Phase) : Sys :=
  { s with calls := update s.calls c (some { k with phase := p }) }

/-- A call returns: the record of a blocking call is gone with its stack, and a refused asynchronous
call frees its own. -/
def Sys.finish (s : Sys) (c : Addr) (k : Call) (st : Status) (r : Option Reply) : Option Sys :=
  let s' := { s.setPhase c k (.returned st) with trace := s.trace ++ [.returned c k.form k.id st r] }
  if k.form.isAsync ∧ st = .ok then some s'
  else (s.recs c).map fun _ => { s' with recs := update s.recs c none }

/-- The arguments of a call. -/
structure Args where
  /-- The length of the task's name, if there is one. -/
  task : Option ℕ := some 0
  /-- There is a payload. -/
  payload : Bool := true
  /-- The length of the payload. -/
  len : ℕ := 0
  /-- There is a callback, or a place for the reply. -/
  target : Bool := true
  deriving DecidableEq, Repr

/-- GPTPS_XPORT_MAX_MSG -/
def maxMsg : ℕ := 256 * 1024 * 1024

/-- The checks of `send_request`. -/
def Args.valid (g : Args) : Bool :=
  match g.task with
  | none => false
  | some tl => (g.len = 0 || g.payload) && tl ≤ maxMsg && g.len ≤ maxMsg

/-- The reader of a live link runs the caller. -/
def onReaderThread (x : Xport) (self : Option ℕ) : Bool :=
  match self with
  | none => false
  | some i => (x.w[i]?).any fun L => !L.dead

/-- What a call answers before it has a record on a list. -/
def refusal (x : Xport) (f : Form) (self : Option ℕ) (g : Args) (memory : Bool) : Option Status :=
  match f with
  | .submit => if onReaderThread x self then some .busy else if g.valid then none else some .inval
  | .submitEx =>
    if !g.target then some .inval
    else if onReaderThread x self then some .busy
    else if g.valid then none else some .inval
  | .async | .asyncEx =>
    if !g.target then some .inval
    else if !memory then some .nomem
    else if g.valid then none else some .inval

/-- A call is made. -/
def submit (s : Sys) (f : Form) (self : Option ℕ) (g : Args) (memory : Bool) : Sys :=
  match refusal s.x f self g memory with
  | some st =>
    { s with
      calls := update s.calls s.made (some { form := f, phase := .returned st })
      made := s.made + 1
      trace := s.trace ++ [.returned s.made f 0 st none] }
  | none =>
    { s with
      calls := update s.calls s.made (some { form := f })
      recs := update s.recs s.made (some { form := f })
      made := s.made + 1 }

/-- A call registers its record, if the link takes it. -/
def register (s : Sys) (c : Addr) (k : Call) (i : ℕ) : Option Sys :=
  (s.x.w[i]?).bind fun L =>
    if L.dead then s.finish c k .io none
    else if L.npend ≥ s.x.maxInFlight then s.finish c k .full none
    else (s.recs c).map fun _ =>
      (s.setLink i { L with pend := c :: L.pend, npend := L.npend + 1 }).setPhase c k (.writing i)

/-- A call writes its frame. -/
def write (s : Sys) (c : Addr) (k : Call) (i : ℕ) (written : Bool) : Option Sys :=
  (s.x.w[i]?).bind fun L =>
    if written then
      if k.form.isAsync then s.finish c k .ok none else some (s.setPhase c k (.waiting i))
    else some ((s.setLink i { L with eof := true }).setPhase c k (.takingBack i))

/-- A call whose write failed takes its record back. If the reader has the record of an asynchronous
call, its callback tells. -/
def takeBack (s : Sys) (c : Addr) (k : Call) (i : ℕ) : Option Sys :=
  (s.x.w[i]?).bind fun L => (L.take s.recs k.id).bind fun p =>
    if p.1.isSome ∨ k.form.isAsync = false then (s.setLink i p.2).finish c k .io none
    else (s.setLink i p.2).finish c k .ok none

/-- A blocking call looks whether it was completed. -/
def await (s : Sys) (c : Addr) (k : Call) : Option Sys :=
  (s.recs c).bind fun r =>
    if r.done then
      if r.io = .ok then s.finish c k .ok (r.reply.map k.form.report) else s.finish c k .io none
    else some s

/-- A call goes on. -/
def proceed (s : Sys) (c : Addr) (k : Call) (written : Bool) : Option Sys :=
  match k.phase with
  | .routing =>
    match nextRr s.x with
    | (none, x) => { s with x := x }.finish c k .io none
    | (some i, x) => some ({ s with x := x }.setPhase c k (.numbering i))
  | .numbering i =>
    (s.recs c).map fun r =>
      { s with
        x := { s.x with nextId := s.x.nextId + 1 }
        recs := update s.recs c (some { r with id := s.x.nextId + 1 })
        calls := update s.calls c
          (some { k with id := s.x.nextId + 1, phase := .registering i }) }
  | .registering i => register s c k i
  | .writing i => write s c k i written
  | .takingBack i => takeBack s c k i
  | .waiting _ => await s c k
  | .returned _ => none

/-- The reader of a link has a whole reply: a blocking record is completed under the lock, an
asynchronous one is its reader's. -/
def arrive (s : Sys) (i : ℕ) (L : Link) (id : ℕ) (r : Reply) : Option Sys :=
  (L.take s.recs id).bind fun p =>
    let s' := { s with trace := s.trace ++ [Act.frame i id r] }
    match p.1 with
    | none => some (s'.setLink i p.2)
    | some a => (s.recs a).map fun p₀ =>
      if p₀.form.isAsync then s'.setLink i { p.2 with reader := .calling a r }
      else
        { s'.setLink i p.2 with
          recs := update s.recs a (some { p₀ with reply := some r, io := .ok, done := true }) }

/-- The lock section of `fail_all`. -/
def failAll (s : Sys) (i : ℕ) (L : Link) : Option Sys :=
  (failSplit L.pend s.recs []).map fun p =>
    { s with
      x := { markDead s.x i with
        w := s.x.w.set i { L with pend := [], npend := 0, dead := true, reader := .failing p.2 } }
      recs := p.1 }

/-- The callback of a record runs. -/
def completeAsync (s : Sys) (i : ℕ) (L : Link) (a : Addr) (st : Status) (r : Option Reply)
    (next : Reader) : Option Sys :=
  (s.recs a).map fun p =>
    { s.setLink i { L with reader := next } with
      trace := s.trace ++ [.callback a p.form p.id st (r.map p.form.report)] }

/-- A record is freed. -/
def release (s : Sys) (i : ℕ) (L : Link) (a : Addr) (next : Reader) : Option Sys :=
  (s.recs a).map fun _ =>
    { s.setLink i { L with reader := next } with recs := update s.recs a none }

/-- The reader of a link goes on. -/
def readerMain (s : Sys) (i : ℕ) (L : Link) : Option Sys :=
  match L.reader with
  | .reading => none
  | .calling a r => completeAsync s i L a .ok (some r) (.called a)
  | .called a => release s i L a .reading
  | .broken => failAll s i L
  | .failing [] => some (s.setLink i { L with reader := .gone })
  | .failing (a :: l) => completeAsync s i L a .io none (.failCalled a l)
  | .failCalled a l => release s i L a (.failing l)
  | .gone => none

end Functions

section System

/-- What can happen next. -/
inductive Label
  /-- A call is made, on a reader's thread or on another. -/
  | submit (f : Form) (self : Option ℕ) (g : Args) (memory : Bool)
  /-- A call goes on; whether its frame can be written. -/
  | proceed (c : Addr) (written : Bool)
  /-- A reader has a whole reply. -/
  | reply (i id : ℕ) (r : Reply)
  /-- A reader finds the end of the stream or a broken frame. -/
  | broken (i : ℕ)
  /-- A reader goes on. -/
  | reader (i : ℕ)
  /-- A worker dies. -/
  | die (i : ℕ)
  deriving DecidableEq, Repr

/-- The callback of the host runs on the reader's thread. -/
def Reader.inCallback : Reader → Bool
  | .called _ | .failCalled .. => true
  | _ => false

/-- The call has not returned. -/
def Call.running (k : Call) : Bool :=
  match k.phase with
  | .returned _ => false
  | _ => true

/-- What may happen. -/
def Sys.allowed (s : Sys) : Label → Bool
  | .submit _ self _ _ =>
    match self with
    | none => true
    | some i => (s.x.w[i]?).any fun L => L.reader.inCallback
  | .proceed c _ => (s.calls c).any Call.running
  | .reply i _ _ => (s.x.w[i]?).any fun L => L.reader = .reading
  | .broken i => (s.x.w[i]?).any fun L => L.reader = .reading
  | .reader i => (s.x.w[i]?).any fun L => L.reader ≠ .reading && L.reader ≠ .gone
  | .die i => i < s.x.w.length

/-- One step that is allowed, `none` where a record is touched that was released. -/
def Sys.act (s : Sys) : Label → Option Sys
  | .submit f self g memory => some (Transport.submit s f self g memory)
  | .proceed c written => (s.calls c).bind fun k => Transport.proceed s c k written
  | .reply i id r => (s.x.w[i]?).bind fun L => arrive s i L id r
  | .broken i => (s.x.w[i]?).map fun L => s.setLink i { L with eof := true, reader := .broken }
  | .reader i => (s.x.w[i]?).bind fun L => readerMain s i L
  | .die i => (s.x.w[i]?).map fun L => s.setLink i { L with eof := true }

/-- One step, `none` where it is not allowed or touches a record that was released. -/
def Sys.step (s : Sys) (l : Label) : Option Sys := if s.allowed l then s.act l else none

/-- The state some steps lead to. -/
def Sys.run : Sys → List Label → Option Sys
  | s, [] => some s
  | s, l :: ls => (s.step l).bind fun s' => s'.run ls

/-- A transport that was just opened, with `n` workers; no limit means the default. -/
def gptpsXportOpen (n maxInFlight : ℕ) : Sys :=
  ⟨⟨List.replicate n {}, if maxInFlight = 0 then 64 else maxInFlight, 0, 0, List.replicate n true, n⟩,
    fun _ => none, fun _ => none, 0, []⟩

end System

end Gptps.Transport
