import Gptps.EngineState
import Gptps.LinkedMergeSort
import Mathlib.Data.List.InsertIdx

/-!
# Queues, handle index and ordered intake

The primitives every engine call is made of: the fifo helpers, the handle
index with its growth and trimming, the ordered intake with its cache of run
tails and its re-sort, and the ways an item is freed. A local list a call keeps
to itself is modelled by its content alone.
-/

namespace Gptps.EngineStore

open Function LinkedQueue ProbeTable LinkedMergeSort EngineState

/-- `fifo_push`: append an item to a queue. -/
def fifoPush (e : Engine) (q : QId) (it : Item) : Engine :=
  let r := push e.links (e.anchor q) it.ptr
  { e with
    q := update e.q q (e.q q ++ [it])
    links := r.1
    anchor := update e.anchor q r.2
    whereIs := update e.whereIs it.ptr (.queue q) }

/-- `fifo_pop`: take the first item of a queue. -/
def fifoPop (e : Engine) (q : QId) : Option (Item × Engine) :=
  match e.q q with
  | [] => none
  | it :: rest =>
    let r := pop e.links (e.anchor q)
    some (it, { e with
      q := update e.q q rest
      links := r.1
      anchor := update e.anchor q r.2
      whereIs := update e.whereIs it.ptr .none })

/-- `fifo_remove`: unlink an item from the queue it is in. -/
def fifoRemove (e : Engine) (q : QId) (it : Item) : Engine :=
  let r := remove e.links (e.anchor q) it.ptr
  { e with
    q := update e.q q ((e.q q).eraseP fun x => x.ptr = it.ptr)
    links := r.1
    anchor := update e.anchor q r.2
    whereIs := update e.whereIs it.ptr .none }

/-- Rewrite fields of queued items in place. -/
def mapQueue (e : Engine) (q : QId) (f : Item → Item) : Engine :=
  { e with q := update e.q q ((e.q q).map f) }

/-- `hidx_slot`: the home slot of a handle in a table of `n` slots. -/
def hidxSlot (n : ℕ) (h : Handle) : ℕ :=
  let h₁ := h ^^^ (h >>> 33)
  let h₂ := h₁ * 0xff51afd7ed558ccd % 2 ^ 64
  let h₃ := h₂ ^^^ (h₂ >>> 33)
  h₃ &&& (n - 1)

/-- Double a size until it is at least the target. -/
def doubleUntil (target : ℕ) : ℕ → ℕ → ℕ
  | 0, nn => nn
  | fuel + 1, nn => if nn < target then doubleUntil target fuel (nn * 2) else nn

/-- `hidx_size_for`: a power of two, at least 64, a quarter full. -/
def hidxSizeFor (live : ℕ) : ℕ := doubleUntil (live * 4) (live * 4) 64

/-- `hidx_rebuild`: store every entry in a table of `nn` slots; `ok` tells whether
the table could be allocated, and the second answer whether it was. -/
def hidxRebuild (e : Engine) (nn : ℕ) (ok : Bool) : Engine × Bool :=
  if ok then
    match rebuild hidxSlot e.hidx nn with
    | some t => ({ e with hidx := t }, true)
    | none => ({ e with hung := true }, true)
  else (e, false)

/-- `hidx_reserve`: room for one more entry at a load of at most a half. A size out of range is refused
by the allocation. -/
def hidxReserve (e : Engine) (ok : Bool) : Engine × Bool :=
  if (e.hidxLive + 1) * 2 ≤ e.hidx.size then (e, true)
  else hidxRebuild e (hidxSizeFor (e.hidxLive + 1)) ok

/-- `hidx_put`: enter an item into the index. -/
def hidxPut (e : Engine) (it : Item) : Engine :=
  match put hidxSlot e.hidx (it.handle, it.ptr) with
  | some t =>
    { e with hidx := t, hidxLive := e.hidxLive + 1, indexed := update e.indexed it.ptr true }
  | none => { e with hung := true }

/-- `hidx_find`: the item a handle names, if gptps_cancel may act on it. -/
def hidxFind (e : Engine) (h : Handle) : Option Ptr :=
  if h = 0 then none else lookup hidxSlot e.hidx h

/-- `hidx_del`: drop an item from the index; nothing if it is not in it. -/
def hidxDel (e : Engine) (it : Item) : Engine :=
  if e.indexed it.ptr then
    let e₁ := { e with indexed := update e.indexed it.ptr false }
    match findSlot hidxSlot e.hidx it.handle with
    | none => e₁
    | some _ =>
      match del hidxSlot e.hidx it.handle with
      | some t => { e₁ with hidx := t, hidxLive := e.hidxLive - 1 }
      | none => { e₁ with hung := true }
  else e

/-- `index_drop_list`: drop every item of a local list from the index. -/
def indexDropList (e : Engine) (l : List Item) : Engine := l.foldl hidxDel e

/-- `hidx_trim`: shrink the index once an eighth of it or less is in use. -/
def hidxTrim (e : Engine) (ok : Bool) : Engine :=
  if e.maxItems ≠ 0 then e
  else if 64 < e.hidx.size ∧ e.hidxLive * 8 < e.hidx.size then
    (hidxRebuild e (hidxSizeFor e.hidxLive) ok).1
  else e

/-- `item_free`: release an item's memory, or return it to the pool. -/
def itemFree (e : Engine) (p : Ptr) : Engine :=
  if e.maxItems ≠ 0 then
    if e.whereIs p ≠ .pool then
      { e with
        whereIs := update e.whereIs p .pool
        freeItems := p :: e.freeItems
        allocated := update e.allocated p false }
    else e
  else { e with allocated := update e.allocated p false }

/-- `item_drop`: free an item gptps_cancel could still reach. -/
def itemDrop (e : Engine) (it : Item) : Engine := itemFree (hidxDel e it) it.ptr

/-- `intake_forget`: drop every cached run tail. -/
def intakeForget (e : Engine) : Engine := { e with runs := [] }

/-- The binary search of `intake_run_slot` between `lo` and `hi`. -/
def runSearch (runs : List (ℤ × Ptr)) (score : ℤ) : ℕ → ℕ → ℕ → ℕ × Bool
  | 0, lo, _ => (lo, false)
  | fuel + 1, lo, hi =>
    if lo < hi then
      let mid := lo + (hi - lo) / 2
      let s := (runs.getD mid (0, 0)).1
      if s = score then (mid, true)
      else if s > score then runSearch runs score fuel (mid + 1) hi
      else runSearch runs score fuel lo mid
    else (lo, false)

/-- `intake_run_slot`: the cached run of a score, or where a new one belongs. -/
def intakeRunSlot (runs : List (ℤ × Ptr)) (score : ℤ) : ℕ × Bool :=
  runSearch runs score runs.length 0 runs.length

/-- `intake_run_cache`: cache a run tail, evicting the lowest-scoring run if full. -/
def intakeRunCache (runs : List (ℤ × Ptr)) (at_ : ℕ) (score : ℤ) (tail : Ptr) :
    List (ℤ × Ptr) :=
  if runs.length = intakeRuns then
    if at_ = runs.length then runs else runs.dropLast.insertIdx at_ (score, tail)
  else runs.insertIdx at_ (score, tail)

/-- `intake_run_drop`: forget one cached run. -/
def intakeRunDrop (runs : List (ℤ × Ptr)) (at_ : ℕ) : List (ℤ × Ptr) := runs.eraseIdx at_

/-- Put an item behind the one at address `p`, or first when there is none. -/
def insertBehind (l : List Item) (p : Option Ptr) (it : Item) : List Item :=
  match p, l with
  | none, l => it :: l
  | some _, [] => [it]
  | some p, x :: xs => if x.ptr = p then x :: it :: xs else x :: insertBehind xs (some p) it

/-- The item a walk from the head stops at: the last of those scoring at least as much. -/
def walkPoint (l : List Item) (score : ℤ) : Option Ptr :=
  (l.takeWhile fun x => score ≤ x.schedScore).getLast?.map (·.ptr)

/-- `intake_insert`: splice an item in behind the last one scoring at least as much. -/
def intakeInsert (e : Engine) (it₀ : Item) : Engine :=
  let it := { it₀ with intakeSeq := e.intakeSeq + 1 }
  let slot := intakeRunSlot e.runs it.schedScore
  let prev := if slot.2 then some (e.runs.getD slot.1 (0, 0)).2
    else walkPoint (e.q .intake) it.schedScore
  let r := insertAfter e.links (e.anchor .intake) prev it.ptr
  { e with
    intakeSeq := e.intakeSeq + 1
    q := update e.q .intake (insertBehind (e.q .intake) prev it)
    links := r.1
    anchor := update e.anchor .intake r.2
    whereIs := update e.whereIs it.ptr (.queue .intake)
    runs := if slot.2 then e.runs.set slot.1 (it.schedScore, it.ptr)
      else intakeRunCache e.runs slot.1 it.schedScore it.ptr }

/-- The item in front of the one at address `p`. -/
def itemBefore (p : Ptr) : List Item → Option Item
  | x :: y :: rest => if y.ptr = p then some x else itemBefore p (y :: rest)
  | _ => none

/-- `intake_unlink`: unlink an item from intake, repairing the cache if it was a run tail. -/
def intakeUnlink (e : Engine) (it : Item) : Engine :=
  let prev := itemBefore it.ptr (e.q .intake)
  let slot := intakeRunSlot e.runs it.schedScore
  let runs :=
    if slot.2 ∧ (e.runs.getD slot.1 (0, 0)).2 = it.ptr then
      match prev with
      | some x =>
        if x.schedScore = it.schedScore then e.runs.set slot.1 (it.schedScore, x.ptr)
        else intakeRunDrop e.runs slot.1
      | none => intakeRunDrop e.runs slot.1
    else e.runs
  { fifoRemove e .intake it with runs := runs }

/-- The score and entry order of the intake item at an address. -/
def intakeKey (l : List Item) (p : Ptr) : ℤ × ℕ :=
  ((l.find? fun x => x.ptr = p).map fun x => (x.schedScore, x.intakeSeq)).getD (0, 0)

/-- Whether the item at `y` has to stand before the one at `x`: a higher score, or
the same and an earlier entry. -/
def intakeBefore (l : List Item) (y x : Ptr) : Bool :=
  (intakeKey l y).1 > (intakeKey l x).1 ||
    ((intakeKey l y).1 == (intakeKey l x).1 && (intakeKey l y).2 < (intakeKey l x).2)

/-- `intake_resort`: rebuild the admission order after every score changed. -/
def intakeResort (e : Engine) : Engine :=
  match sortQueue (intakeBefore (e.q .intake)) e.links (e.anchor .intake) with
  | none => { e with hung := true }
  | some (m, a, l) =>
    { e with
      links := m
      anchor := update e.anchor .intake a
      q := update e.q .intake (l.filterMap fun p => (e.q .intake).find? fun x => x.ptr = p)
      runs := [] }

/-- `dead_letter_push`'s eviction loop. -/
def evictDead : ℕ → Engine → Engine
  | 0, e => e
  | fuel + 1, e =>
    if e.maxDeadLetters ≠ 0 ∧ e.maxDeadLetters ≤ e.deadLetterCount then
      match fifoPop e .dead with
      | none => e
      | some (old, e₁) =>
        evictDead fuel (itemFree { e₁ with
          deadLetterCount := e₁.deadLetterCount - 1
          deadEvicted := e₁.deadEvicted + 1 } old.ptr)
    else e

/-- `dead_letter_push`: retain a terminal failure, evicting the oldest beyond the cap. -/
def deadLetterPush (e : Engine) (it : Item) : Engine :=
  let e₁ := hidxDel e it
  let e₂ := evictDead (e₁.q .dead).length e₁
  let e₃ := fifoPush e₂ .dead it
  { e₃ with deadLetterCount := e₃.deadLetterCount + 1 }

end Gptps.EngineStore
