import Gptps.DurableChange
import Gptps.DurableSystem

/-!
# What a step of the durable queue can do

Every step of a running queue is one of the moves below, with the guards under which it happens;
a run ends by a close, a death or a power cut. The invariants of the queue are read off the moves
and never unfold the step again.
-/

namespace Gptps.DurableStep

open JournalFormat DurableRecords DurableIndex DurableState DurableApi DurableSystem DurableTable
  List Option
open DurableChange

section Begin

/-- The records a submit puts in the table. -/
def newRecs (first : ℕ) (items : List Item) : List DqRec :=
  items.mapIdx fun i it =>
    { seq := first + i, name := it.name, payload := it.payload, committing := true }

/-- The first part of a submit that goes on. -/
structure Reserves (q : Dq) (id : ℕ) (items : List Item) (batch : Bool) (q' : Dq) : Prop where
  /-- There is something to submit. -/
  some : items ≠ []
  /-- Every item is within its bounds. -/
  fits : ∀ x ∈ items, itemFits x = true
  /-- The numbers are in range. -/
  range : q.nextSeq + items.length ≤ 2 ^ 63
  /-- The index has room for the handles. -/
  made : ∃ x alloc, mapReserve q.index items.length alloc = .some x ∧
    q' = { q with index := x, nextSeq := q.nextSeq + items.length,
                  recs := q.recs ++ newRecs q.nextSeq items,
                  calls := ⟨id, .submit items batch, q.nextSeq, .write⟩ :: q.calls }

/-- A submit that is refused leaves the table, and at most grows the index. -/
def Declines (q q' : Dq) : Prop :=
  ∃ x, (∀ l n, Indexed q.index l n → Indexed x l n) ∧ q' = { q with index := x }

variable {q q' : Dq} {id : ℕ} {items : List Item} {batch : Bool} {a : AllocOut} {st : Status}

/-- A submit that goes on reserved its records. -/
theorem submitBegin_begun (h : submitBegin q id items batch a = .begun q') :
    Reserves q id items batch q' := by
  unfold submitBegin at h
  dsimp only at h
  split at h
  · cases h
  rename_i hlen
  split at h
  · cases h
  rename_i hfits
  split at h
  · cases h
  split at h
  · cases h
  rename_i hroom
  cases hres : mapReserve q.index items.length a.reserve with
  | none => rw [hres] at h; cases h
  | some x =>
    rw [hres] at h
    dsimp only at h
    split at h
    · cases h
    · cases h
      rw [not_not, List.all_eq_true] at hfits
      refine ⟨fun hnil => hlen (by rw [hnil]; rfl), hfits, ?_, x, a.reserve, hres, rfl⟩
      unfold maxSeq at hroom
      omega

/-- One that is refused leaves the queue. -/
theorem submitBegin_refused (h : submitBegin q id items batch a = .refused q' st) :
    Declines q q' := by
  have hsame : Declines q q := ⟨q.index, fun _ _ hx => hx, rfl⟩
  unfold submitBegin at h
  dsimp only at h
  split at h
  · cases h; exact hsame
  split at h
  · cases h; exact hsame
  split at h
  · cases h; exact hsame
  split at h
  · cases h; exact hsame
  cases hres : mapReserve q.index items.length a.reserve with
  | none => rw [hres] at h; cases h; exact hsame
  | some x =>
    rw [hres] at h
    dsimp only at h
    split at h
    · cases h
      exact ⟨mapUnreserve x items.length,
        fun l n hl => mapUnreserve_indexed (mapReserve_indexed hl hres), rfl⟩
    · cases h

/-- The first part of a retraction that goes on. -/
theorem cancelBegin_some {h : ℕ} (hq : TableInv q) (hc : cancelBegin q id h = some q') :
    ∃ i rc, q.recs[i]? = some rc ∧ isOpen rc = true ∧ rc.handle = h ∧ rc.handle ≠ 0 ∧
      rc.committing = false ∧
      q' = { setRec q i fun rc => { rc with retracting := rc.retracting + 1 } with
        calls := ⟨id, .cancel h, rc.seq, .write⟩ :: q.calls } := by
  obtain ⟨i, hfind, hc⟩ := bind_eq_some_iff.mp hc
  obtain ⟨rc, hi, rfl⟩ := map_eq_some_iff.mp hc
  obtain ⟨rc', hi', hopen, hhandle, hne, hcommit⟩ := hq.findOpen_some hfind
  rw [hi] at hi'
  obtain rfl := some.inj hi'
  exact ⟨i, rc, hi, hopen, hhandle, hne, hcommit, rfl⟩

end Begin

section Rewrite

/-- How a compaction ends. -/
inductive Rewrites (q : Dq) (d : Disk) : RewriteOut → Dq → Disk → Status → Bool → Prop
  /-- The journal is not replaced and goes on. -/
  | stays {o : RewriteOut} {st : Status} (hst : st ≠ .ok) : Rewrites q d o q d st false
  /-- The journal is not replaced and cannot be reopened. -/
  | lost : Rewrites q d (.renameFails false)
      { q with jnl := { q.jnl with fp := false, broken := true } } d .io false
  /-- The journal is replaced. -/
  | replaced {dirOk : Bool}
      (hfits : ∀ r ∈ rewriteOf q.recs q.jnl.waiters, (writeRecord r).isSome = true) :
      Rewrites q d (.replaced dirOk true)
        { q with
          recs := q.recs.filter fun rc => !rc.done
          jnl := { q.jnl with
            fp := true, broken := if dirOk then false else q.jnl.broken
            lastEnd := (JournalDamage.journal (rewriteOf q.recs q.jnl.waiters)).length
            synced := (JournalDamage.journal (rewriteOf q.recs q.jnl.waiters)).length
            dirDirty := !dirOk } }
        ⟨some ⟨JournalDamage.journal (rewriteOf q.recs q.jnl.waiters), []⟩,
          if dirOk then [] else d.cur :: d.olds⟩ (if dirOk then .ok else .io) true
  /-- The journal is replaced and cannot be reopened. -/
  | dead {dirOk : Bool}
      (hfits : ∀ r ∈ rewriteOf q.recs q.jnl.waiters, (writeRecord r).isSome = true) :
      Rewrites q d (.replaced dirOk false)
        { q with
          jnl := { q.jnl with fp := false, broken := true, lastEnd := 0, synced := 0,
                              dirDirty := !dirOk } }
        ⟨some ⟨JournalDamage.journal (rewriteOf q.recs q.jnl.waiters), []⟩,
          if dirOk then [] else d.cur :: d.olds⟩ .io true

variable {q q' : Dq} {d d' : Disk} {o : RewriteOut} {st : Status} {rep : Bool}

/-- A rewrite ends in one of the ways of `Rewrites`, in a quiet queue. -/
theorem doRewrite_some (h : doRewrite q d o = some (q', d', st, rep)) :
    quiet q = true ∧ Rewrites q d o q' d' st rep := by
  unfold doRewrite at h
  split_ifs at h with hquiet
  refine ⟨hquiet, ?_⟩
  cases o with
  | early nomem =>
    cases h
    exact .stays (by cases nomem <;> decide)
  | renameFails reopened =>
    dsimp only at h
    split_ifs at h with hlost
    · cases h
      cases reopened with
      | true => exact absurd rfl hlost.2
      | false => exact .lost
    · cases h
      exact .stays (by decide)
  | replaced dirOk reopened =>
    dsimp only at h
    by_cases hfits : (rewriteOf q.recs q.jnl.waiters).all fun r => (writeRecord r).isSome
    · rw [if_pos hfits] at h
      cases reopened with
      | true =>
        cases h
        exact .replaced (List.all_eq_true.mp hfits)
      | false =>
        cases h
        exact .dead (List.all_eq_true.mp hfits)
    · rw [if_neg hfits] at h
      cases h

end Rewrite

section Moves

variable {c : ℕ} {call : Call}

/-- A submit as the caller makes it: the names are strings of C, and only a batch has more than
one item. -/
def Called (items : List Item) (batch : Bool) : Prop :=
  (∀ x ∈ items, 0 ∉ x.name) ∧ (batch = true ∨ items.length = 1)

/-- What a step of a running queue does: the queue and the disk after it, and the history before
the records it closed are noted. -/
inductive Moves (q : Dq) (d : Disk) (h : History) : Label → Dq → Disk → History → Prop
  /-- A submit is refused. -/
  | refused {items : List Item} {batch : Bool} {a : AllocOut} {q' : Dq} {st : Status}
      (hcall : Called items batch) (hb : submitBegin q h.nextCall items batch a = .refused q' st) :
      Moves q d h (.submit items batch a) q' d (h.begin.answer h.nextCall st)
  /-- A submit has its records and holds the journal. -/
  | reserved {items : List Item} {batch : Bool} {a : AllocOut} {q' : Dq}
      (hcall : Called items batch) (hfree : journalFree q = true)
      (hb : submitBegin q h.nextCall items batch a = .begun q') :
      Moves q d h (.submit items batch a) q' d (h.begin.give h.nextCall q.nextSeq items)
  /-- There is no open record to retract. -/
  | noRecord {handle : ℕ} {st : Status} (hst : st = if handle = 0 then .inval else .notfound)
      (hb : cancelBegin q h.nextCall handle = none) :
      Moves q d h (.cancel handle) q d (h.begin.answer h.nextCall st)
  /-- A retraction holds the journal. -/
  | retracting {handle : ℕ} {q' : Dq} (hfree : journalFree q = true)
      (hb : cancelBegin q h.nextCall handle = some q') :
      Moves q d h (.cancel handle) q' d h.begin
  /-- A call writes, and moves on. -/
  | write {c : Call} {kept : ℕ} {ok : Bool} {j : Journal} {pc : Pc} {d' : Disk}
      (hc : callOf q c.id = some c) (hold : c.pc ≠ .engine) (hnew : pc ≠ .engine) :
      Moves q d h (.write c.id kept ok) { q with jnl := j, calls := movePc q.calls c.id pc } d' h
  /-- A call cuts its failed write back, and moves on. -/
  | cut {c : Call} {ok : Bool} {j : Journal} {pc : Pc} {d' : Disk}
      (hc : callOf q c.id = some c) (hold : c.pc ≠ .engine) (hnew : pc ≠ .engine) :
      Moves q d h (.cut c.id ok) { q with jnl := j, calls := movePc q.calls c.id pc } d' h
  /-- A caller leads an fsync. -/
  | syncBegin {j : Journal} (hj : syncBegin q.jnl d = some j) :
      Moves q d h .syncBegin { q with jnl := j } d h
  /-- The fsync of the file returns. -/
  | fsyncRet {ok : Bool} {p : Journal × Disk} (hj : fsyncRet q.jnl d ok = some p) :
      Moves q d h (.fsyncRet ok) { q with jnl := p.1 } p.2 h
  /-- The fsync of the directory returns. -/
  | dirRet {ok : Bool} {p : Journal × Disk} (hj : dirRet q.jnl d ok = some p) :
      Moves q d h (.dirRet ok) { q with jnl := p.1 } p.2 h
  /-- The leader settles the writes. -/
  | syncSettle {j : Journal} (hj : syncSettle q.jnl = some j) :
      Moves q d h .syncSettle { q with jnl := j } d h
  /-- The leader of a failed fsync cuts the file back. -/
  | syncFail {cutOk syncOk : Bool} {p : Journal × Disk} (hfree : journalFree q = true)
      (hj : syncFail q.jnl d cutOk syncOk = some p) :
      Moves q d h (.syncFail cutOk syncOk) { q with jnl := p.1 } p.2 h
  /-- A submit acts on how its write ended. -/
  | submitEnd {c : Call} {offers : List Offer} {p : Dq × Disk} {durable : Bool}
      (hc : callOf q c.id = some c) (hpos : 0 < Call.items c)
      (hlen : offers.length = Call.items c) (hset : settled q c = some durable)
      (hp : settleItems durable { q with
        jnl := unregisterWaiter q.jnl c.id, calls := dropCall q.calls c.id } d c.first offers =
          some p) :
      Moves q d h (.submitEnd c.id offers) p.1 p.2 (h.submitted c offers durable)
  /-- A retraction whose record was compacted away. -/
  | cancelGone {c : Call} {m : MarkOut} {rs : List Resub} {durable : Bool}
      (hc : callOf q c.id = some c) (hzero : Call.items c = 0) (hset : settled q c = some durable)
      (hfind : findBySeq q.recs c.first = none) :
      Moves q d h (.cancelEnd c.id m rs)
        { q with jnl := unregisterWaiter q.jnl c.id, calls := movePc q.calls c.id .engine } d h
  /-- A retraction acts on how its write ended. -/
  | cancelEnd {c : Call} {m : MarkOut} {rs : List Resub} {durable stands : Bool} {i : ℕ}
      {rc : DqRec} {q' : Dq} {d' : Disk} (hc : callOf q c.id = some c) (hzero : Call.items c = 0)
      (hset : settled q c = some durable) (hi : q.recs[i]? = some rc) (hseq : rc.seq = c.first)
      (hr : retract { q with jnl := unregisterWaiter q.jnl c.id } d i rc durable m rs =
        some (q', d', stands)) :
      Moves q d h (.cancelEnd c.id m rs)
        (if stands then { q' with calls := movePc q'.calls c.id .engine }
          else { q' with calls := dropCall q'.calls c.id }) d'
        (if stands then h else h.answer c.id .io)
  /-- A retraction has told the engine. -/
  | cancelTell {c : Call} {shutdown : Bool} (hc : callOf q c.id = some c) (hpc : c.pc = .engine) :
      Moves q d h (.cancelTell c.id shutdown) { q with calls := dropCall q.calls c.id } d
        { h.answer c.id (if shutdown then .shutdown else .ok) with
          retracted := h.retracted ++ [(h.origin c.first, c.first)] }
  /-- The observer gets an event. -/
  | event {ev : Event} {m m' : MarkOut} {rs : List Resub} {p : Dq × Disk}
      (htear : ev.shutdown = true → q.tearing = true)
      (hp : dqOnEvent q d ev m m' rs = some p) :
      Moves q d h (.event ev m m' rs) p.1 p.2 h
  /-- The engine begins to tear down. -/
  | tearDown : Moves q d h .tearDown { q with tearing := true } d h
  /-- Records are handed back. -/
  | recover {rs : List Resub} {q' : Dq} (hq : gptpsDqRecover q rs = some q') :
      Moves q d h (.recover rs) q' d h
  /-- A compaction. -/
  | compact {o : RewriteOut} {q' : Dq} {d' : Disk} {st : Status} {rep : Bool}
      (hquiet : quiet q = true) (hw : Rewrites q d o q' d' st rep) :
      Moves q d h (.compact o) q' d' h
  /-- There is nothing to drain. -/
  | noDrain {o : RewriteOut} (hzero : (drainQuarantine q).2 = 0) : Moves q d h (.drain o) q d h
  /-- The quarantine is drained. -/
  | drain {o : RewriteOut} {q' : Dq} {d' : Disk} {st : Status} {rep : Bool}
      (hquiet : quiet (drainQuarantine q).1 = true)
      (hw : Rewrites (drainQuarantine q).1 d o q' d' st rep) :
      Moves q d h (.drain o) q' d' h

/-- How a run ends. -/
inductive Stops (q : Dq) (d : Disk) : Label → Disk → Prop
  /-- The queue is closed. -/
  | close (hcalls : q.calls = []) : Stops q d .closeQueue d
  /-- The power fails. -/
  | powerCut {pick : ℕ} {ks : List CrashFile.Keep} {f : Option File}
      (hf : Disk.pick d pick = some f) :
      Stops q d (.powerCut pick ks) ⟨f.map (·.after ks), []⟩
  /-- The process dies. -/
  | die : Stops q d .die d

variable {q : Dq} {d : Disk} {h : History} {l : Label} {s' : Sys}

theorem callOf_id (hc : callOf q c = some call) : call.id = c :=
  of_decide_eq_true (find?_some (p := fun x : Call => decide (x.id = c)) hc)

/-- The call of an identity is under way. -/
theorem callOf_mem (hc : callOf q c = some call) : call ∈ q.calls :=
  mem_of_find?_eq_some hc

/-- A write moves its call on, and nothing else but the journal. -/
theorem writeDurable_moves (q : Dq) (d : Disk) (c : Call) (kept : ℕ) (ok : Bool) : ∃ j pc,
    pc ≠ .engine ∧ (writeDurable q d c kept ok).1 = { q with jnl := j, calls := movePc q.calls c.id pc } := by
  unfold writeDurable
  split_ifs
  · exact ⟨q.jnl, .lost, fun h => (by cases h), rfl⟩
  · exact ⟨_, .wait true, fun h => (by cases h), rfl⟩
  · exact ⟨q.jnl, .cut d.length, fun h => (by cases h), rfl⟩

/-- So does a cut. -/
theorem cutBack_moves (q : Dq) (d : Disk) (c : Call) (start : ℕ) (ok : Bool) : ∃ j pc,
    pc ≠ .engine ∧ (cutBack q d c start ok).1 = { q with jnl := j, calls := movePc q.calls c.id pc } := by
  unfold cutBack
  split_ifs
  · exact ⟨_, .wait false, fun h => (by cases h), rfl⟩
  · exact ⟨_, .lost, fun h => (by cases h), rfl⟩

/-- What a step of a running queue makes of it. -/
def Moved (q : Dq) (d : Disk) (h : History) (l : Label) (s' : Sys) : Prop :=
  ∃ q' d' h', Moves q d h l q' d' h' ∧ s' = up q' d' h'

/-- The beginning of a submit. -/
theorem submit_moved {items : List Item} {batch : Bool} {a : AllocOut}
    (hs : stepUp q d h (.submit items batch a) = some s') :
    Moved q d h (.submit items batch a) s' := by
  simp only [stepUp] at hs
  split at hs
  swap
  · cases hs
  rename_i hcall
  have hcalled : Called items batch := by
    rw [Bool.and_eq_true, List.all_eq_true, Bool.or_eq_true, decide_eq_true_eq] at hcall
    refine ⟨fun x hx hmem => ?_, hcall.2⟩
    have := hcall.1 x hx
    rw [contains_iff_mem.mpr hmem] at this
    cases this
  cases hb : submitBegin q h.nextCall items batch a with
  | refused q' st =>
    rw [hb] at hs
    cases hs
    exact ⟨_, _, _, .refused hcalled hb, rfl⟩
  | begun q' =>
    rw [hb] at hs
    split_ifs at hs with hfree
    cases hs
    exact ⟨_, _, _, .reserved hcalled hfree hb, rfl⟩

/-- The beginning of a retraction. -/
theorem cancel_moved {handle : ℕ} (hs : stepUp q d h (.cancel handle) = some s') :
    Moved q d h (.cancel handle) s' := by
  simp only [stepUp] at hs
  cases hb : cancelBegin q h.nextCall handle with
  | none =>
    rw [hb] at hs
    cases hs
    exact ⟨_, _, _, .noRecord rfl hb, rfl⟩
  | some q' =>
    rw [hb] at hs
    dsimp only at hs
    split_ifs at hs with hfree
    cases hs
    exact ⟨_, _, _, .retracting hfree hb, rfl⟩

/-- A write to the journal. -/
theorem write_moved {kept : ℕ} {ok : Bool} (hs : stepUp q d h (.write c kept ok) = some s') :
    Moved q d h (.write c kept ok) s' := by
  obtain ⟨call, hc, hs⟩ := bind_eq_some_iff.mp hs
  split_ifs at hs with hpc
  cases hs
  obtain rfl := callOf_id hc
  obtain ⟨j, pc, hnew, heq⟩ := writeDurable_moves q d call kept ok
  rw [heq]
  exact ⟨_, _, _, .write hc (fun hno => by rw [hpc] at hno; cases hno) hnew, rfl⟩

/-- The cut after a failed write. -/
theorem cut_moved {ok : Bool} (hs : stepUp q d h (.cut c ok) = some s') :
    Moved q d h (.cut c ok) s' := by
  obtain ⟨call, hc, hcut⟩ := bind_eq_some_iff.mp hs
  obtain rfl := callOf_id hc
  cases hpc : call.pc with
  | cut start =>
    rw [hpc] at hcut
    cases hcut
    obtain ⟨j, pc, hnew, heq⟩ := cutBack_moves q d call start ok
    rw [heq]
    exact ⟨_, _, _, .cut hc (fun hno => by rw [hpc] at hno; cases hno) hnew, rfl⟩
  | write | wait _ | lost | engine => rw [hpc] at hcut; cases hcut

/-- The end of a submit. -/
theorem submitEnd_moved {offers : List Offer}
    (hs : stepUp q d h (.submitEnd c offers) = some s') :
    Moved q d h (.submitEnd c offers) s' := by
  obtain ⟨call, hc, hend⟩ := bind_eq_some_iff.mp hs
  obtain rfl := callOf_id hc
  split_ifs at hend with hguard
  obtain ⟨⟨q', d', durable⟩, he, rfl⟩ := map_eq_some_iff.mp hend
  unfold submitEnd at he
  cases hset : settled q call with
  | none => rw [hset] at he; cases he
  | some durable' =>
    rw [hset] at he
    obtain ⟨p, hp, heq⟩ := map_eq_some_iff.mp he
    cases heq
    exact ⟨_, _, _, .submitEnd hc hguard.1 hguard.2 hset hp, rfl⟩

/-- The end of a retraction. -/
theorem cancelEnd_moved {m : MarkOut} {rs : List Resub} (hq : TableInv q)
    (hs : stepUp q d h (.cancelEnd c m rs) = some s') : Moved q d h (.cancelEnd c m rs) s' := by
  obtain ⟨call, hc, hend⟩ := bind_eq_some_iff.mp hs
  obtain rfl := callOf_id hc
  split_ifs at hend with hzero
  obtain ⟨⟨q', d', stands⟩, he, hs'⟩ := map_eq_some_iff.mp hend
  unfold cancelEnd at he
  cases hset : settled q call with
  | none => rw [hset] at he; cases he
  | some durable =>
    rw [hset] at he
    dsimp only at he
    cases hfind : findBySeq q.recs call.first with
    | none =>
      rw [hfind] at he
      cases he
      exact ⟨_, _, _, .cancelGone hc hzero hset hfind, hs'.symm⟩
    | some i =>
      obtain ⟨rc, hi, hseq⟩ := hq.findBySeq_iff.mp hfind
      rw [hfind] at he
      dsimp only at he
      rw [hi] at he
      refine ⟨_, _, _, .cancelEnd hc hzero hset hi hseq he, ?_⟩
      cases stands with
      | true | false => exact hs'.symm

/-- Every step of a running queue is a move or ends the run. -/
theorem stepUp_cases (hq : TableInv q) (hs : stepUp q d h l = some s') :
    Moved q d h l s' ∨ ∃ d', Stops q d l d' ∧ s' = down q d' h := by
  cases l with
  | openQueue o => cases hs
  | closeQueue =>
    simp only [stepUp] at hs
    split_ifs at hs with hcalls
    cases hs
    exact .inr ⟨d, .close (List.isEmpty_iff.mp hcalls), rfl⟩
  | submit items batch a => exact .inl (submit_moved hs)
  | cancel handle => exact .inl (cancel_moved hs)
  | write c kept ok => exact .inl (write_moved hs)
  | cut c ok => exact .inl (cut_moved hs)
  | syncBegin =>
    obtain ⟨j, hj, rfl⟩ := map_eq_some_iff.mp hs
    exact .inl ⟨_, _, _, .syncBegin hj, rfl⟩
  | fsyncRet ok =>
    obtain ⟨p, hj, rfl⟩ := map_eq_some_iff.mp hs
    exact .inl ⟨_, _, _, .fsyncRet hj, rfl⟩
  | dirRet ok =>
    obtain ⟨p, hj, rfl⟩ := map_eq_some_iff.mp hs
    exact .inl ⟨_, _, _, .dirRet hj, rfl⟩
  | syncSettle =>
    obtain ⟨j, hj, rfl⟩ := map_eq_some_iff.mp hs
    exact .inl ⟨_, _, _, .syncSettle hj, rfl⟩
  | syncFail cutOk syncOk =>
    simp only [stepUp] at hs
    split_ifs at hs with hfree
    obtain ⟨p, hj, rfl⟩ := map_eq_some_iff.mp hs
    exact .inl ⟨_, _, _, .syncFail hfree hj, rfl⟩
  | submitEnd c offers => exact .inl (submitEnd_moved hs)
  | cancelEnd c m rs => exact .inl (cancelEnd_moved hq hs)
  | cancelTell c shutdown =>
    obtain ⟨call, hc, htell⟩ := bind_eq_some_iff.mp hs
    obtain rfl := callOf_id hc
    by_cases hpc : call.pc = .engine
    · rw [if_pos hpc] at htell
      cases htell
      exact .inl ⟨_, _, _, .cancelTell hc hpc, rfl⟩
    · rw [if_neg hpc] at htell
      cases htell
  | event ev m m' rs =>
    simp only [stepUp] at hs
    split_ifs at hs with htear
    obtain ⟨p, hp, rfl⟩ := map_eq_some_iff.mp hs
    refine .inl ⟨_, _, _, .event (fun hsh => ?_) hp, rfl⟩
    by_contra hno
    exact htear ⟨hsh, hno⟩
  | tearDown =>
    cases hs
    exact .inl ⟨_, _, _, .tearDown, rfl⟩
  | recover rs =>
    obtain ⟨q', hq', rfl⟩ := map_eq_some_iff.mp hs
    exact .inl ⟨_, _, _, .recover hq', rfl⟩
  | compact o =>
    obtain ⟨⟨q', d', st, rep⟩, hw, rfl⟩ := map_eq_some_iff.mp hs
    obtain ⟨hquiet, hw⟩ := doRewrite_some hw
    exact .inl ⟨_, _, _, .compact hquiet hw, rfl⟩
  | drain o =>
    simp only [stepUp] at hs
    split_ifs at hs with hzero
    · cases hs
      exact .inl ⟨_, _, _, .noDrain hzero, rfl⟩
    · obtain ⟨⟨q', d', st, rep⟩, hw, rfl⟩ := map_eq_some_iff.mp hs
      obtain ⟨hquiet, hw⟩ := doRewrite_some hw
      exact .inl ⟨_, _, _, .drain hquiet hw, rfl⟩
  | powerCut pick ks =>
    obtain ⟨f, hf, rfl⟩ := map_eq_some_iff.mp hs
    exact .inr ⟨_, .powerCut hf, rfl⟩
  | die =>
    cases hs
    exact .inr ⟨_, .die, rfl⟩

/-- What an open reads and what it leaves. -/
theorem gptpsDqOpen_some {q : Dq} {d d' : Disk} {o : OpenOut}
    (ho : gptpsDqOpen d o = some (q, d')) :
    ∃ sc st, JournalReplay.replay (d.cur.map fun f => f.content) o.knowsEnd = .done sc ∧
      Rewrites (readIn sc.table) d o.rewrite q d' st true := by
  unfold gptpsDqOpen at ho
  cases hre : JournalReplay.replay (d.cur.map fun f => f.content) o.knowsEnd with
  | corrupt | stuck => rw [hre] at ho; cases ho
  | done sc =>
    rw [hre] at ho
    dsimp only at ho
    split_ifs at ho
    match hw : doRewrite (readIn sc.table) d o.rewrite, ho with
    | some (q₁, d₁, st, true), ho =>
      cases ho
      exact ⟨sc, st, rfl, (doRewrite_some hw).2⟩

/-- Every step is a move of a running queue or an open, or no queue runs after it. -/
theorem step_cases {s : Sys} (hs : ∀ q, s.q = some q → TableInv q) (h : step s l = some s') :
    (∃ q q' d' h', s.q = some q ∧ Moves q s.disk s.hist l q' d' h' ∧ s' = up q' d' h') ∨
      (∃ q d' o, gptpsDqOpen s.disk o = some (q, d') ∧ s' = up q d' s.hist) ∨
      s'.q = none ∧ s'.hist.nextCall = s.hist.nextCall ∧ s'.hist.answers = s.hist.answers := by
  unfold step at h
  cases hq : s.q with
  | some q =>
    rw [hq] at h
    rcases stepUp_cases (hs q hq) h with ⟨q', d', h', hm, rfl⟩ | ⟨d', -, rfl⟩
    · exact .inl ⟨q, q', d', h', rfl, hm, rfl⟩
    · exact .inr (.inr ⟨rfl, rfl, rfl⟩)
  | none =>
    rw [hq] at h
    cases l with
    | openQueue o =>
      dsimp only at h
      match ho : gptpsDqOpen s.disk o, h with
      | some (q, d), h =>
        cases h
        exact .inr (.inl ⟨q, d, o, ho, rfl⟩)
      | none, h =>
        cases h
        exact .inr (.inr ⟨hq, rfl, rfl⟩)
    | powerCut pick ks =>
      obtain ⟨f, -, rfl⟩ := map_eq_some_iff.mp h
      exact .inr (.inr ⟨rfl, rfl, rfl⟩)
    | _ => cases h

end Moves

end Gptps.DurableStep
