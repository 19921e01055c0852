import Gptps.DurableCalls

/-!
# What the calls are answered

A step begins a call, moves one on, ends one with an answer, refuses one at once, or leaves the
calls alone. So no call is answered while it is under way, and none is answered twice.
-/

namespace Gptps.DurableAnswers

open JournalFormat DurableRecords DurableState DurableApi DurableSystem DurableTable DurableChange
  List Option
open DurableStep DurableCalls

/-- What a call was answered. -/
def answersTo (h : History) (c : ℕ) : List Status :=
  (h.answers.filter fun a => a.1 = c).map Prod.snd

section Talks

/-- What a step does to the calls under way and their answers. -/
inductive Talks (q : Dq) (h : History) : Label → Dq → History → Prop
  /-- No call is concerned. -/
  | same {l : Label} {q' : Dq} {h' : History} (hcalls : q'.calls = q.calls)
      (hanswers : h'.answers = h.answers) (hnext : h'.nextCall = h.nextCall) : Talks q h l q' h'
  /-- A call is answered at once. -/
  | refused {l : Label} {q' : Dq} {h' : History} {st : Status} (hcalls : q'.calls = q.calls)
      (hanswers : h'.answers = h.answers ++ [(h.nextCall, st)])
      (hnext : h'.nextCall = h.nextCall + 1) : Talks q h l q' h'
  /-- A submit begins. -/
  | submits {items : List Item} {batch : Bool} {a : AllocOut} {q' : Dq} {h' : History} {c : Call}
      (hcalls : q'.calls = c :: q.calls) (hid : c.id = h.nextCall) (hpos : 0 < Call.items c)
      (hanswers : h'.answers = h.answers) (hnext : h'.nextCall = h.nextCall + 1) :
      Talks q h (.submit items batch a) q' h'
  /-- A retraction begins. -/
  | retracts {handle : ℕ} {q' : Dq} {h' : History} {rc : DqRec} (hrc : rc ∈ q.recs)
      (hopen : isOpen rc = true) (hhandle : rc.handle = handle) (hne : rc.handle ≠ 0)
      (hcalls : q'.calls = ⟨h.nextCall, .cancel handle, rc.seq, .write⟩ :: q.calls)
      (hanswers : h'.answers = h.answers) (hnext : h'.nextCall = h.nextCall + 1) :
      Talks q h (.cancel handle) q' h'
  /-- A call writes, or cuts its write back. -/
  | moves {l : Label} {q' : Dq} {h' : History} {c : Call} {pc : Pc} (hc : callOf q c.id = some c)
      (hold : c.pc ≠ .engine) (hnew : pc ≠ .engine) (hcalls : q'.calls = movePc q.calls c.id pc)
      (hanswers : h'.answers = h.answers) (hnext : h'.nextCall = h.nextCall) : Talks q h l q' h'
  /-- A submit ends. -/
  | submitted {q' : Dq} {h' : History} {c : Call} {offers : List Offer} {st : Status}
      (hc : callOf q c.id = some c) (hpos : 0 < Call.items c)
      (hcalls : q'.calls = dropCall q.calls c.id)
      (hanswers : h'.answers = h.answers ++ [(c.id, st)]) (hnext : h'.nextCall = h.nextCall) :
      Talks q h (.submitEnd c.id offers) q' h'
  /-- A retraction stands, and the engine is to be told. -/
  | stands {q' : Dq} {h' : History} {c : Call} {m : MarkOut} {rs : List Resub} {durable : Bool}
      (hc : callOf q c.id = some c) (hzero : Call.items c = 0) (hset : settled q c = some durable)
      (hcalls : q'.calls = movePc q.calls c.id .engine)
      (hanswers : h'.answers = h.answers) (hnext : h'.nextCall = h.nextCall) :
      Talks q h (.cancelEnd c.id m rs) q' h'
  /-- A retraction fails. -/
  | fails {q' : Dq} {h' : History} {c : Call} {m : MarkOut} {rs : List Resub} {durable : Bool}
      (hc : callOf q c.id = some c) (hzero : Call.items c = 0) (hset : settled q c = some durable)
      (hcalls : q'.calls = dropCall q.calls c.id)
      (hanswers : h'.answers = h.answers ++ [(c.id, .io)]) (hnext : h'.nextCall = h.nextCall) :
      Talks q h (.cancelEnd c.id m rs) q' h'
  /-- The engine has been told of a retraction. -/
  | tells {q' : Dq} {h' : History} {c : Call} {shutdown : Bool} (hc : callOf q c.id = some c)
      (hpc : c.pc = .engine) (hcalls : q'.calls = dropCall q.calls c.id)
      (hanswers : h'.answers = h.answers ++ [(c.id, if shutdown then .shutdown else .ok)])
      (hnext : h'.nextCall = h.nextCall) : Talks q h (.cancelTell c.id shutdown) q' h'

variable {q q' : Dq} {d d' : Disk} {h h' : History} {l : Label} {c : Call}

/-- A submit answers once. -/
theorem answers_submitted (c : Call) (offers : List Offer) (durable : Bool) :
    ∃ st, (h.submitted c offers durable).answers = h.answers ++ [(c.id, st)] := by
  cases durable with
  | true | false => exact ⟨_, rfl⟩

/-- The calls of a rewritten journal go on. -/
theorem rewrites_calls {o : RewriteOut} {st : Status} {rep : Bool}
    (hw : Rewrites q d o q' d' st rep) : q'.calls = q.calls := by
  cases hw <;> rfl

/-- What every move does to the calls. -/
theorem moves_talks (hq : QueueInv q h.nextCall) (hm : Moves q d h l q' d' h') :
    Talks q h l q' h' := by
  cases hm with
  | refused hcall hb =>
    obtain ⟨x, hx, rfl⟩ := submitBegin_refused hb
    exact .refused rfl rfl rfl
  | reserved hcall hfree hb =>
    have hr := submitBegin_begun hb
    obtain ⟨x, alloc, -, rfl⟩ := hr.made
    exact .submits rfl rfl (length_pos_iff.mpr hr.some) rfl rfl
  | noRecord hst hb => exact .refused rfl rfl rfl
  | retracting hfree hb =>
    obtain ⟨i, rc, hi, hopen, hhandle, hne, -, rfl⟩ := cancelBegin_some hq.table hb
    exact .retracts (mem_of_getElem? hi) hopen hhandle hne rfl rfl rfl
  | write hc hold hnew | cut hc hold hnew => exact .moves hc hold hnew rfl rfl rfl
  | syncBegin _ | fsyncRet _ | dirRet _ | syncSettle _ | syncFail _ _ => exact .same rfl rfl rfl
  | submitEnd hc hpos hlen hset hp =>
    rename_i c offers p durable
    obtain ⟨st, hst⟩ := answers_submitted (h := h) c offers durable
    exact .submitted hc hpos (hq.settles hc hlen hp).2.2.calls hst
      (nextCall_submitted c offers durable)
  | cancelGone hc hzero hset hfind => exact .stands hc hzero hset rfl rfl rfl
  | cancelEnd hc hzero hset hi hseq hr =>
    rename_i c m rs durable stands i rc q₁
    obtain ⟨hq₀, hret, hdone⟩ := hq.retracts hc hzero hset hi hseq hr
    have hcalls := (hdone.changes hq₀ hi hret).frame.calls.trans (release_exactly hq₀ hi).calls
    cases stands with
    | true => exact .stands hc hzero hset (congrArg (movePc · c.id .engine) hcalls) rfl rfl
    | false => exact .fails hc hzero hset (congrArg (dropCall · c.id) hcalls) rfl rfl
  | cancelTell hc hpc => exact .tells hc hpc rfl rfl rfl
  | event htear hp =>
    exact .same ((dqOnEvent_some hq.table hp).changes hq.table).frame.calls rfl rfl
  | tearDown | noDrain _ => exact .same rfl rfl rfl
  | recover hr => exact .same (gptpsDqRecover_handings hq.table hr).frame.calls rfl rfl
  | compact _ hw => exact .same (rewrites_calls hw) rfl rfl
  | drain _ hw =>
    have hcalls : q'.calls = (drainQuarantine q).1.calls := rewrites_calls hw
    exact .same hcalls rfl rfl

end Talks

section Answers

variable {st : Status} {c₀ : ℕ} {s s' : Sys}

/-- Nobody is answered before the end of the call. -/
structure Unanswered (q : Dq) (h : History) : Prop where
  /-- The calls under way. -/
  calls : ∀ c ∈ q.calls, answersTo h c.id = []
  /-- The calls to come. -/
  later : ∀ c, h.nextCall ≤ c → answersTo h c = []

variable {q q' : Dq} {d' : Disk} {h h' : History} {l : Label} {c : Call}

theorem answersTo_congr (ha : h'.answers = h.answers) (c : ℕ) : answersTo h' c = answersTo h c := by
  unfold answersTo
  rw [ha]

/-- One answer more. -/
theorem answersTo_push (ha : h'.answers = h.answers ++ [(c₀, st)]) (c : ℕ) :
    answersTo h' c = answersTo h c ++ if c₀ = c then [st] else [] := by
  unfold answersTo
  rw [ha, filter_append, map_append, filter_cons]
  by_cases hc : c₀ = c
  · rw [if_pos (decide_eq_true hc), if_pos hc]
    rfl
  · rw [if_neg (fun hno => hc (of_decide_eq_true hno)), if_neg hc]
    rfl

/-- An answer to another call. -/
theorem answersTo_push_ne {c : ℕ} (ha : h'.answers = h.answers ++ [(c₀, st)]) (hne : c₀ ≠ c) :
    answersTo h' c = answersTo h c := by
  rw [answersTo_push ha, if_neg hne, append_nil]

/-- The first answer to a call. -/
theorem answersTo_push_self {c : ℕ} (ha : h'.answers = h.answers ++ [(c, st)]) (hno : answersTo h c = []) :
    answersTo h' c = [st] := by
  rw [answersTo_push ha, if_pos rfl, hno, nil_append]

/-- A call that was answered is not answered again. -/
theorem Talks.answered (ht : Talks q h l q' h') (hu : Unanswered q h) {c : ℕ}
    (hc : answersTo h c ≠ []) : answersTo h' c = answersTo h c := by
  have hother : ∀ x ∈ q.calls, x.id ≠ c := fun x hx heq => hc (heq ▸ hu.calls x hx)
  cases ht with
  | same _ ha _ | submits _ _ _ ha _ | retracts _ _ _ _ _ ha _ | moves _ _ _ _ ha _
  | stands _ _ _ _ ha _ => exact answersTo_congr ha c
  | refused _ ha _ =>
    refine answersTo_push_ne ha fun heq => hc ?_
    rw [← heq]
    exact hu.later _ le_rfl
  | submitted hx _ _ ha _ | fails hx _ _ _ ha _ | tells hx _ _ ha _ =>
    exact answersTo_push_ne ha (hother _ (callOf_mem hx))

/-- No call is answered before its end. -/
theorem Talks.unanswered (ht : Talks q h l q' h') (hinv : CallsInv q h.nextCall)
    (hu : Unanswered q h) : Unanswered q' h' := by
  cases ht with
  | same hcalls ha hnext =>
    refine ⟨fun x hx => ?_, fun x hx => ?_⟩
    · rw [answersTo_congr ha]
      exact hu.calls x (hcalls ▸ hx)
    · rw [answersTo_congr ha]
      exact hu.later x (hnext ▸ hx)
  | refused hcalls ha hnext =>
    refine ⟨fun x hx => ?_, fun x hx => ?_⟩
    · rw [hcalls] at hx
      rw [answersTo_push_ne ha (Nat.ne_of_gt (hinv.below x hx))]
      exact hu.calls x hx
    · rw [hnext] at hx
      rw [answersTo_push_ne ha (ne_of_lt hx)]
      exact hu.later x (Nat.le_of_succ_le hx)
  | submits hcalls hid _ ha hnext =>
    refine ⟨fun x hx => ?_, fun x hx => ?_⟩
    · rw [answersTo_congr ha]
      rw [hcalls] at hx
      rcases mem_cons.mp hx with rfl | hx
      · exact hu.later _ (le_of_eq hid.symm)
      · exact hu.calls x hx
    · rw [answersTo_congr ha]
      rw [hnext] at hx
      exact hu.later x (Nat.le_of_succ_le hx)
  | retracts _ _ _ _ hcalls ha hnext =>
    refine ⟨fun x hx => ?_, fun x hx => ?_⟩
    · rw [answersTo_congr ha]
      rw [hcalls] at hx
      rcases mem_cons.mp hx with rfl | hx
      · exact hu.later _ le_rfl
      · exact hu.calls x hx
    · rw [answersTo_congr ha]
      rw [hnext] at hx
      exact hu.later x (Nat.le_of_succ_le hx)
  | moves _ _ _ hcalls ha hnext | stands _ _ _ hcalls ha hnext =>
    refine ⟨fun x hx => ?_, fun x hx => ?_⟩
    · rw [answersTo_congr ha]
      rw [hcalls] at hx
      obtain ⟨y, hy, hsame⟩ := movePc_back _ x hx
      rw [hsame.id]
      exact hu.calls y hy
    · rw [answersTo_congr ha]
      exact hu.later x (hnext ▸ hx)
  | submitted hx _ hcalls ha hnext | fails hx _ _ hcalls ha hnext | tells hx _ hcalls ha hnext =>
    have hmem := callOf_mem hx
    refine ⟨fun y hy => ?_, fun y hy => ?_⟩
    · rw [hcalls] at hy
      obtain ⟨hy, hne⟩ := mem_dropCall.mp hy
      rw [answersTo_push_ne ha (Ne.symm hne)]
      exact hu.calls y hy
    · rw [hnext] at hy
      rw [answersTo_push_ne ha
        (ne_of_lt (lt_of_lt_of_le (hinv.below _ hmem) hy))]
      exact hu.later y hy

/-- What holds in every state: the calls under way and those to come have no answer. -/
def Silent (s : Sys) : Prop :=
  (∀ c, s.hist.nextCall ≤ c → answersTo s.hist c = []) ∧
    ∀ q, s.q = some q → Unanswered q s.hist

/-- No call is under way before the queue is opened. -/
theorem silent_init (file : Option Bytes) : Silent (init file) :=
  ⟨fun _ _ => rfl, fun _ hq => (by cases hq)⟩

/-- Every step keeps the calls under way unanswered. -/
theorem silent_step (hinv : Inv s) (hs : Silent s) (h : step s l = some s') : Silent s' := by
  rcases step_cases (fun q hq => (hinv q hq).table) h with
    ⟨q, q', d', h', hq, hm, rfl⟩ | ⟨q, d', o, ho, rfl⟩ | ⟨hnone, hnext, hanswers⟩
  · have hqi := hinv q hq
    have hu := (moves_talks hqi hm).unanswered hqi.calls (hs.2 q hq)
    refine ⟨hu.later, ?_⟩
    rintro _ ⟨⟩
    exact ⟨hu.calls, hu.later⟩
  · -- a queue that has just been opened has no calls
    obtain ⟨sc, st, -, hw⟩ := gptpsDqOpen_some ho
    refine ⟨hs.1, ?_⟩
    rintro _ ⟨⟩
    refine ⟨fun c hc => ?_, hs.1⟩
    rw [rewrites_calls hw] at hc
    cases hc
  · refine ⟨fun c hc => ?_, fun q hq => by rw [hnone] at hq; cases hq⟩
    rw [hnext] at hc
    unfold answersTo
    rw [hanswers]
    exact hs.1 c hc

/-- Every run keeps the calls under way unanswered. -/
theorem silent_run {ls : List Label} (hinv : Inv s) (hs : Silent s) (h : run s ls = some s') :
    Silent s' := by
  induction ls generalizing s with
  | nil =>
    cases h
    exact hs
  | cons l ls ih =>
    obtain ⟨s₁, hstep, hrest⟩ := bind_eq_some_iff.mp h
    exact ih (inv_step hinv hstep) (silent_step hinv hs hstep) hrest

end Answers

end Gptps.DurableAnswers
