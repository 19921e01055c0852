import Gptps.DurableTable
import Mathlib.Logic.Relation

/-!
# What a critical section does to the queue

The events, the resubmissions and the ends of retractions are made of a few changes: the index
grows or gives a reservation back, a record gets a handle, an attempt of it starts or ends, it is
closed or its verdict waits. Each change keeps the invariant of the table, and none of them touches
what a record is made of or which calls are about it.
-/

namespace Gptps.DurableChange

open JournalFormat DurableRecords DurableIndex DurableState DurableApi DurableTable List Option

variable {q' : Dq}

section Change

variable {q : Dq}

/-- One step of handing records back to the engine. -/
inductive Handing : Dq → Dq → Prop
  /-- No suspect has its turn any more. -/
  | turnOver {q : Dq} : Handing q { q with trial := 0 }
  /-- The index keeps its entries and reservations. -/
  | reindex {q : Dq} {x : Index} (hx : ∀ l n, Indexed q.index l n → Indexed x l n) :
      Handing q { q with index := x }
  /-- A record that is no suspect gets the handle of its execution. -/
  | give {q q' : Dq} {x : Index} {i h : ℕ} {rc : DqRec} (hi : q.recs[i]? = some rc)
      (hopen : isOpen rc = true) (hzero : rc.handle = 0) (hcommit : rc.committing = false)
      (hsuspect : rc.suspect = false) (hx : ∀ l n, Indexed q.index l n → Indexed x l (n + 1))
      (hg : giveHandle { q with index := x } i h = some q') : Handing q q'
  /-- A suspect gets the handle of its execution and has its turn. -/
  | suspect {q q' : Dq} {x : Index} {i h : ℕ} {rc : DqRec} (hi : q.recs[i]? = some rc)
      (hopen : isOpen rc = true) (hzero : rc.handle = 0) (hcommit : rc.committing = false)
      (hsuspect : rc.suspect = true) (htrial : q.trial = 0)
      (hx : ∀ l n, Indexed q.index l n → Indexed x l (n + 1))
      (hg : giveHandle { q with index := x } i h = some q') :
      Handing q { q' with trial := rc.seq }

/-- Any number of steps of handing records back. -/
abbrev Handings : Dq → Dq → Prop := Relation.ReflTransGen Handing

/-- One change of the queue and its disk. -/
inductive Change : Dq × Disk → Dq × Disk → Prop
  /-- A step of handing records back. -/
  | hand {q q' : Dq} {d : Disk} (h : Handing q q') : Change (q, d) (q', d)
  /-- An attempt starts. -/
  | started {q : Dq} {d d' : Disk} {i : ℕ} {rc : DqRec} {m : MarkOut} (hi : q.recs[i]? = some rc)
      (hopen : isOpen rc = true) (hne : rc.handle ≠ 0)
      (hm : appendMarker q d typeS rc.seq m = some d') :
      Change (q, d) (setRec q i fun rc => { rc with inflight := true }, d')
  /-- An attempt ends without a verdict. -/
  | attempt {q : Dq} {d d' : Disk} {i : ℕ} {rc : DqRec} {m : MarkOut} (hi : q.recs[i]? = some rc)
      (hopen : isOpen rc = true) (hne : rc.handle ≠ 0) (hin : rc.inflight = true)
      (hm : appendMarker q d typeF rc.seq m = some d') :
      Change (q, d)
        (setRec q i fun rc => { rc with inflight := false, crashes := 0, suspect := false }, d')
  /-- A verdict is applied. -/
  | close {q : Dq} {d : Disk} {p : Dq × Disk} {i : ℕ} {rc : DqRec} {type : UInt8} {m : MarkOut}
      (hi : q.recs[i]? = some rc) (hopen : isOpen rc = true) (hne : rc.handle ≠ 0)
      (hret : rc.retracting = 0) (htype : IsVerdict type)
      (hc : closeRec q d i rc type m = some p) : Change (q, d) p
  /-- A verdict waits for a retraction. -/
  | defer {q : Dq} {d : Disk} {i : ℕ} {rc : DqRec} {type : UInt8} (hi : q.recs[i]? = some rc)
      (hopen : isOpen rc = true) (hret : 0 < rc.retracting) (htype : IsVerdict type) :
      Change (q, d) (setRec q i fun rc => { rc with deferred := some type }, d)

/-- Any number of changes. -/
abbrev Changes : Dq × Disk → Dq × Disk → Prop := Relation.ReflTransGen Change

/-- Records are handed back by changes of the queue. -/
theorem Handings.changes (h : Handings q q') (d : Disk) : Changes (q, d) (q', d) :=
  h.lift (fun q => (q, d)) fun _ _ => .hand

/-- Handing a record back keeps the invariant of the table. -/
theorem Handing.table (h : Handing q q') (hq : TableInv q) : TableInv q' := by
  cases h with
  | turnOver => exact hq.congr rfl rfl rfl rfl rfl
  | reindex hx => exact hq.reindex hx
  | give hi hopen hzero hcommit _ hx hg => exact hq.give hi hopen hzero hcommit hx hg
  | suspect hi hopen hzero hcommit _ _ hx hg =>
    exact (hq.give hi hopen hzero hcommit hx hg).congr rfl rfl rfl rfl rfl

/-- So does handing back any number of them. -/
theorem Handings.table (h : Handings q q') (hq : TableInv q) : TableInv q' := by
  induction h with
  | refl => exact hq
  | tail _ hstep ih => exact hstep.table ih

/-- What `close_rec` does. -/
theorem closeRec_some {d : Disk} {rc : DqRec} {i : ℕ} {type : UInt8} {m : MarkOut} {p : Dq × Disk}
    (h : closeRec q d i rc type m = some p) :
    appendMarker q d type rc.seq m = some p.2 ∧
      p.1 = { q with recs := q.recs.modify i (verdict type), index := mapDel q.index rc.handle,
                     pending := q.pending - 1 } := by
  obtain ⟨d', hd', rfl⟩ := map_eq_some_iff.mp h
  exact ⟨hd', rfl⟩

/-- Every change keeps the invariant of the table. -/
theorem Change.table {p p' : Dq × Disk} (h : Change p p') (hq : TableInv p.1) : TableInv p'.1 := by
  cases h with
  | hand h => exact h.table hq
  | started hi hopen hne hm =>
    have hok := hq.each _ (mem_of_getElem? hi)
    exact hq.touch hi ⟨rfl, rfl, rfl, rfl, hok.attempt hne hok.crashes⟩
  | attempt hi hopen hne hin hm =>
    have hok := hq.each _ (mem_of_getElem? hi)
    exact hq.touch hi ⟨rfl, rfl, rfl, rfl, hok.attempt hne (Nat.two_pow_pos 32)⟩
  | close hi hopen hne hret htype hc =>
    rename_i q d i rc type m
    obtain ⟨-, hp⟩ := closeRec_some hc
    have hok := (hq.each _ (mem_of_getElem? hi)).verdict hne hret type
    rw [hp]
    refine hq.close hi hopen hne ?_ ?_ (isOpen_verdict hopen type) ?_ hok rfl rfl rfl rfl rfl
    · unfold verdict
      split_ifs <;> rfl
    · unfold verdict
      split_ifs <;> rfl
    · unfold verdict
      split_ifs <;> rfl
  | defer hi hopen hret htype =>
    have hok := hq.each _ (mem_of_getElem? hi)
    exact hq.touch hi ⟨rfl, rfl, rfl, rfl, hok.defer_ok hopen hret htype⟩

/-- So does any number of changes. -/
theorem Changes.table {p p' : Dq × Disk} (h : Changes p p') (hq : TableInv p.1) :
    TableInv p'.1 := by
  induction h with
  | refl => exact hq
  | tail _ hstep ih => exact hstep.table ih

end Change

section Frame

/-- What a record is made of stays, and it is not opened again. -/
structure Alike (rc rc' : DqRec) : Prop where
  /-- Its number. -/
  seq : rc'.seq = rc.seq
  /-- The name of its task. -/
  name : rc'.name = rc.name
  /-- Its payload. -/
  payload : rc'.payload = rc.payload
  /-- That it is closed. -/
  done : rc.done = true → rc'.done = true
  /-- That it is quarantined. -/
  quarantined : rc.quarantined = true → rc'.quarantined = true

/-- What no change touches of a record. -/
structure Same (rc rc' : DqRec) : Prop extends Alike rc rc' where
  /-- Whether a submit is making it durable. -/
  committing : rc'.committing = rc.committing
  /-- The retractions under way. -/
  retracting : rc'.retracting = rc.retracting

theorem Alike.refl (rc : DqRec) : Alike rc rc := ⟨rfl, rfl, rfl, id, id⟩

/-- One change of a record after another. -/
theorem Alike.trans {a b c : DqRec} (h : Alike a b) (h' : Alike b c) : Alike a c :=
  ⟨h'.seq.trans h.seq, h'.name.trans h.name, h'.payload.trans h.payload, h'.done ∘ h.done,
    h'.quarantined ∘ h.quarantined⟩

theorem Same.refl (rc : DqRec) : Same rc rc := ⟨.refl rc, rfl, rfl⟩

theorem Same.trans {a b c : DqRec} (h : Same a b) (h' : Same b c) : Same a c :=
  ⟨h.toAlike.trans h'.toAlike, h'.committing.trans h.committing, h'.retracting.trans h.retracting⟩

/-- The calls, the journal and the number of records stay, and each record changes as `R` says. -/
structure Frame (R : DqRec → DqRec → Prop) (q q' : Dq) : Prop where
  /-- The calls under way. -/
  calls : q'.calls = q.calls
  /-- The journal. -/
  jnl : q'.jnl = q.jnl
  /-- The next number. -/
  nextSeq : q'.nextSeq = q.nextSeq
  /-- Whether the engine tears down. -/
  tearing : q'.tearing = q.tearing
  /-- The handles issued. -/
  issued : ∀ x ∈ q.issued, x ∈ q'.issued
  /-- The number of records. -/
  length : q'.recs.length = q.recs.length
  /-- The records, place by place. -/
  recs : ∀ (i : ℕ) (rc : DqRec), q.recs[i]? = some rc → ∃ rc', q'.recs[i]? = some rc' ∧ R rc rc'

variable {q q' : Dq} {i : ℕ} {rc : DqRec} {f : DqRec → DqRec} {R S T : DqRec → DqRec → Prop}

/-- Nothing is touched where nothing changes. -/
theorem Frame.refl (hR : ∀ rc, R rc rc) (q : Dq) : Frame R q q :=
  ⟨rfl, rfl, rfl, rfl, fun _ hx => hx, rfl, fun _ rc h => ⟨rc, h, hR rc⟩⟩

/-- One change of the queue after another. -/
theorem Frame.trans {a b c : Dq} (h : Frame R a b) (h' : Frame S b c)
    (hT : ∀ x y z, R x y → S y z → T x z) : Frame T a c := by
  refine ⟨h'.calls.trans h.calls, h'.jnl.trans h.jnl, h'.nextSeq.trans h.nextSeq,
    h'.tearing.trans h.tearing, fun x hx => h'.issued x (h.issued x hx),
    h'.length.trans h.length, ?_⟩
  intro i rc hi
  obtain ⟨rc', hi', hsame⟩ := h.recs i rc hi
  obtain ⟨rc'', hi'', hsame'⟩ := h'.recs i rc' hi'
  exact ⟨rc'', hi'', hT _ _ _ hsame hsame'⟩

/-- Every record is still there. -/
theorem Frame.mem_left (h : Frame R q q') (hrc : rc ∈ q.recs) : ∃ rc' ∈ q'.recs, R rc rc' := by
  obtain ⟨i, hi⟩ := mem_iff_getElem?.mp hrc
  obtain ⟨rc', hi', hsame⟩ := h.recs i rc hi
  exact ⟨rc', mem_of_getElem? hi', hsame⟩

/-- No record is new. -/
theorem Frame.mem_right {rc' : DqRec} (h : Frame R q q') (hrc : rc' ∈ q'.recs) :
    ∃ rc ∈ q.recs, R rc rc' := by
  obtain ⟨i, hi⟩ := mem_iff_getElem?.mp hrc
  have hlt : i < q.recs.length := h.length ▸ (List.getElem?_eq_some_iff.mp hi).1
  obtain ⟨rc'', hi'', hsame⟩ := h.recs i _ (getElem?_eq_getElem hlt)
  rw [hi] at hi''
  obtain rfl := some.inj hi''
  exact ⟨_, getElem_mem hlt, hsame⟩

/-- One record is changed, and the others may stay. -/
theorem Frame.modify (hi : q.recs[i]? = some rc) (hf : R rc (f rc))
    (hother : ∀ j rc', q.recs[j]? = some rc' → j ≠ i → R rc' rc')
    (hrecs : q'.recs = q.recs.modify i f) (hcalls : q'.calls = q.calls) (hjnl : q'.jnl = q.jnl)
    (hnext : q'.nextSeq = q.nextSeq) (htear : q'.tearing = q.tearing)
    (hissued : ∀ x ∈ q.issued, x ∈ q'.issued) : Frame R q q' := by
  refine ⟨hcalls, hjnl, hnext, htear, hissued, by rw [hrecs, length_modify], ?_⟩
  intro j rc' hj
  rw [hrecs]
  by_cases hij : i = j
  · subst hij
    rw [hi] at hj
    obtain rfl := some.inj hj
    exact ⟨f rc, by rw [getElem?_modify_eq, hi]; rfl, hf⟩
  · exact ⟨rc', by rw [getElem?_modify_ne _ _ hij, hj], hother j rc' hj (Ne.symm hij)⟩

/-- A verdict touches no more than that. -/
theorem Same.verdict (rc : DqRec) (type : UInt8) : Same rc (verdict type rc) := by
  unfold DurableTable.verdict
  split_ifs with htype
  · exact ⟨⟨rfl, rfl, rfl, id, fun _ => rfl⟩, rfl, rfl⟩
  · exact ⟨⟨rfl, rfl, rfl, fun _ => rfl, id⟩, rfl, rfl⟩

/-- A record handed back, or left as it is. -/
structure Handed (rc rc' : DqRec) : Prop where
  /-- Nothing but the handle is new. -/
  eq : rc' = { rc with handle := rc'.handle }
  /-- A record with an execution stays as it is. -/
  live : rc.handle ≠ 0 → rc' = rc

theorem Handed.refl (rc : DqRec) : Handed rc rc := ⟨rfl, fun _ => rfl⟩

/-- A record that has its handle gets no other. -/
theorem Handed.trans {a b c : DqRec} (h : Handed a b) (h' : Handed b c) : Handed a c := by
  constructor
  · rw [h'.eq, h.eq]
  · intro hne
    have hb := h.live hne
    rw [h'.live (hb.symm ▸ hne), hb]

/-- Handing a record back leaves all that. -/
theorem Handed.same {rc rc' : DqRec} (h : Handed rc rc') : Same rc rc' := by
  rw [h.eq]
  exact ⟨⟨rfl, rfl, rfl, id, id⟩, rfl, rfl⟩

/-- A record that has no execution gets its handle, and nothing else changes. -/
theorem giveHandle_frame {x : Index} {h : ℕ} (hi : q.recs[i]? = some rc) (hzero : rc.handle = 0)
    (hg : giveHandle { q with index := x } i h = some q') : Frame Handed q q' := by
  obtain ⟨rc, y, -, -, -, rfl⟩ := giveHandle_some hg
  exact .modify hi ⟨rfl, fun hne => absurd hzero hne⟩ (fun _ _ _ _ => .refl _) rfl rfl rfl rfl rfl
    fun _ => mem_cons_of_mem _

/-- Handing records back touches nothing but handles. -/
theorem Handing.frame {q : Dq} (h : Handing q q') : Frame Handed q q' := by
  cases h with
  | turnOver | reindex hx => exact { Frame.refl .refl q with }
  | give hi _ hzero _ _ _ hg => exact giveHandle_frame hi hzero hg
  | suspect hi _ hzero _ _ _ _ hg => exact { giveHandle_frame hi hzero hg with }

/-- So does any number of steps. -/
theorem Handings.frame {q : Dq} (h : Handings q q') : Frame Handed q q' := by
  induction h with
  | refl => exact .refl .refl _
  | tail _ hstep ih => exact ih.trans hstep.frame fun _ _ _ => Handed.trans

/-- What a record becomes may be said less exactly. -/
theorem Frame.mono (h : Frame R q q') (hRS : ∀ rc rc', R rc rc' → S rc rc') : Frame S q q' := by
  refine { h with recs := fun i rc hi => ?_ }
  obtain ⟨rc', hi', hrel⟩ := h.recs i rc hi
  exact ⟨rc', hi', hRS rc rc' hrel⟩

/-- The record numbered `s` is changed by `f`, and no other. -/
def Exactly (s : ℕ) (f : DqRec → DqRec) (x x' : DqRec) : Prop := x' = if x.seq = s then f x else x

/-- One record is edited, and the numbers tell the others from it. -/
theorem frame_exactly (hq : TableInv q) (hi : q.recs[i]? = some rc)
    (hrecs : q'.recs = q.recs.modify i f) (hcalls : q'.calls = q.calls) (hjnl : q'.jnl = q.jnl)
    (hnext : q'.nextSeq = q.nextSeq) (htear : q'.tearing = q.tearing)
    (hissued : ∀ x ∈ q.issued, x ∈ q'.issued) : Frame (Exactly rc.seq f) q q' := by
  refine .modify hi (if_pos rfl).symm ?_ hrecs hcalls hjnl hnext htear hissued
  intro j x hj hne
  exact (if_neg fun heq => hne (SortedSearch.index_unique hq.rising hj hi heq)).symm

/-- No change touches the frame. -/
theorem Change.frame {p p' : Dq × Disk} (h : Change p p') : Frame Same p.1 p'.1 := by
  have hflags {rc rc' : DqRec} (hrc : rc' = { rc with
      inflight := rc'.inflight, crashes := rc'.crashes, suspect := rc'.suspect,
      deferred := rc'.deferred }) : Same rc rc' := by
    rw [hrc]
    exact ⟨⟨rfl, rfl, rfl, id, id⟩, rfl, rfl⟩
  cases h with
  | hand h => exact h.frame.mono fun _ _ => Handed.same
  | started hi hopen hne hm | attempt hi hopen hne hin hm | defer hi hopen hret htype =>
    exact .modify hi (hflags rfl) (fun _ _ _ _ => .refl _) rfl rfl rfl rfl rfl fun _ hx => hx
  | close hi hopen hne hret htype hc =>
    obtain ⟨-, hp⟩ := closeRec_some hc
    rw [hp]
    exact .modify hi (.verdict _ _) (fun _ _ _ _ => .refl _) rfl rfl rfl rfl rfl fun _ hx => hx

/-- Nor does any number of changes. -/
theorem Changes.frame {p p' : Dq × Disk} (h : Changes p p') : Frame Same p.1 p'.1 := by
  induction h with
  | refl => exact .refl .refl _
  | tail _ hstep ih => exact ih.trans hstep.frame fun _ _ _ => Same.trans

end Frame

section Resubmit

variable {q q' : Dq} {i : ℕ} {rc : DqRec} {r : Resub} {took : Bool} {rs : List Resub}

/-- What offering a record does: nothing but to the index, or the record gets a handle from a
reservation that was made for it. -/
theorem resubmit_some (h : resubmit q i r = some (q', took)) :
    (took = false ∧ q' = q) ∨ ∃ x, (∀ l n, Indexed q.index l n → Indexed x l (n + 1)) ∧
      ((took = false ∧ q' = { q with index := mapUnreserve x 1 }) ∨
        (took = true ∧ ∃ h, giveHandle { q with index := x } i h = some q')) := by
  unfold resubmit at h
  cases hres : mapReserve q.index 1 r.alloc with
  | none =>
    rw [hres] at h
    cases h
    exact .inl ⟨rfl, rfl⟩
  | some x =>
    refine .inr ⟨x, fun l n hl => mapReserve_indexed hl hres, ?_⟩
    rw [hres] at h
    cases hh : r.handle with
    | none =>
      rw [hh] at h
      cases h
      exact .inl ⟨rfl, rfl⟩
    | some k =>
      rw [hh] at h
      obtain ⟨q'', hg, heq⟩ := map_eq_some_iff.mp h
      cases heq
      exact .inr ⟨rfl, k, hg⟩

/-- A record the engine did not take. -/
theorem resubmit_refused (h : resubmit q i r = some (q', false)) :
    Handings q q' ∧ q'.trial = q.trial := by
  rcases resubmit_some h with ⟨-, rfl⟩ | ⟨x, hx, ⟨-, rfl⟩ | ⟨hno, -⟩⟩
  · exact ⟨.refl, rfl⟩
  · exact ⟨.single (.reindex fun l n hl => mapUnreserve_indexed (hx l n hl)), rfl⟩
  · cases hno

/-- A record the engine took. -/
theorem resubmit_taken (h : resubmit q i r = some (q', true)) :
    ∃ x k, (∀ l n, Indexed q.index l n → Indexed x l (n + 1)) ∧
      giveHandle { q with index := x } i k = some q' := by
  rcases resubmit_some h with ⟨hno, -⟩ | ⟨x, hx, ⟨hno, -⟩ | ⟨-, k, hg⟩⟩
  · cases hno
  · cases hno
  · exact ⟨x, k, hx, hg⟩

/-- A suspect that waits for its turn is open and not being made durable. -/
theorem waitsTurn_iff : waitsTurn rc = true ↔
    isOpen rc = true ∧ rc.suspect = true ∧ rc.handle = 0 := by
  unfold waitsTurn isOpen
  simp only [Bool.and_eq_true, Bool.not_eq_true', decide_eq_true_eq, and_assoc]

/-- The hand-over to the next suspect. -/
theorem trialFrom_handings {n : ℕ} (hq : TableInv q) (htrial : q.trial = 0)
    (h : trialFrom q rs n i = some q') : Handings q q' := by
  induction n generalizing q rs i with
  | zero =>
    cases h
    exact .refl
  | succ n ih =>
    rw [trialFrom] at h
    cases hi : q.recs[i]? with
    | none =>
      rw [hi] at h
      cases h
      exact .refl
    | some rc =>
      rw [hi] at h
      dsimp only at h
      by_cases hturn : waitsTurn rc = true
      · rw [if_pos hturn] at h
        obtain ⟨hopen, hsuspect, hzero⟩ := waitsTurn_iff.mp hturn
        have hcommit : rc.committing = false := by
          by_contra hc
          have hfresh := hq.commit (mem_of_getElem? hi) (Bool.not_eq_false _ ▸ hc)
          rw [hfresh.suspect] at hsuspect
          cases hsuspect
        cases rs with
        | nil => cases h
        | cons r rs =>
          dsimp only at h
          match hr : resubmit q i r, h with
          | some (q₁, false), h =>
            obtain ⟨hch, hsame⟩ := resubmit_refused hr
            exact hch.trans (ih (hch.table hq) (hsame.trans htrial) h)
          | some (q₁, true), h =>
            cases h
            obtain ⟨x, k, hx, hg⟩ := resubmit_taken hr
            exact .single (.suspect hi hopen hzero hcommit hsuspect htrial hx hg)
      · rw [if_neg hturn] at h
        exact ih hq htrial h

/-- The turn of a suspect is over and the next one has its turn. -/
theorem turn_handings (hq : TableInv q) (h : trialNext { q with trial := 0 } rs = some q') :
    Handings q q' :=
  (Relation.ReflTransGen.single .turnOver).trans
    (trialFrom_handings (Handing.turnOver.table hq) rfl h)

/-- The records `gptps_dq_recover` hands back. -/
theorem recovers_iff : recovers rc = true ↔
    isOpen rc = true ∧ rc.handle = 0 ∧ rc.suspect = false ∧ rc.committing = false := by
  unfold recovers isOpen
  cases rc.done <;> cases rc.quarantined <;> cases rc.suspect <;> cases rc.committing <;> simp

/-- The loop of `gptps_dq_recover` hands back every record that is no suspect. -/
theorem recoverFrom_handings {n : ℕ} {p : Dq × List Resub} (hq : TableInv q)
    (h : recoverFrom q rs n i = some p) : Handings q p.1 := by
  induction n generalizing q rs i with
  | zero =>
    cases h
    exact .refl
  | succ n ih =>
    unfold recoverFrom at h
    cases hi : q.recs[i]? with
    | none =>
      rw [hi] at h
      cases h
      exact .refl
    | some rc =>
      rw [hi] at h
      dsimp only at h
      by_cases hrec : recovers rc = true
      · rw [if_pos hrec] at h
        obtain ⟨hopen, hzero, hsuspect, hcommit⟩ := recovers_iff.mp hrec
        cases rs with
        | nil => cases h
        | cons r rs =>
          obtain ⟨⟨q₁, took⟩, hr, h⟩ := bind_eq_some_iff.mp h
          have hch : Handings q q₁ := by
            cases took with
            | false => exact (resubmit_refused hr).1
            | true =>
              obtain ⟨x, k, hx, hg⟩ := resubmit_taken hr
              exact .single (.give hi hopen hzero hcommit hsuspect hx hg)
          exact hch.trans (ih (hch.table hq) h)
      · rw [if_neg hrec] at h
        exact ih hq h

/-- `gptps_dq_recover` hands records back, then to a suspect its turn. -/
theorem gptpsDqRecover_handings (hq : TableInv q) (h : gptpsDqRecover q rs = some q') :
    Handings q q' := by
  obtain ⟨p, hp, h⟩ := bind_eq_some_iff.mp h
  have hch := recoverFrom_handings hq hp
  split_ifs at h with htrial
  · exact hch.trans (trialFrom_handings (hch.table hq) htrial h)
  · cases h
    exact hch

end Resubmit

section Events

variable {q : Dq} {d : Disk} {p : Dq × Disk} {i : ℕ} {rc rc' : DqRec} {type : UInt8}
  {m m' : MarkOut} {ev : Event}

/-- What a verdict makes of a record: it waits for the retractions of it. -/
def judged (v : UInt8) (rc : DqRec) : DqRec :=
  if 0 < rc.retracting then { rc with deferred := some v } else verdict v rc

/-- What the end of an attempt makes of a record. -/
def attempted (rc : DqRec) : DqRec :=
  if rc.inflight then { rc with inflight := false, crashes := 0, suspect := false } else rc

/-- What an event makes of its record. -/
def eventRec (ev : Event) (rc : DqRec) : DqRec :=
  match ev.kind with
  | .started => { rc with inflight := true }
  | .failed =>
    if ev.cancelled ∧ ev.selfCancelled then judged typeD (attempted rc) else attempted rc
  | .finished => judged typeD rc
  | .deadLettered => if ev.shutdown then rc else judged typeQ rc
  | .dropped => if ev.shutdown then rc else judged typeD rc
  | _ => rc

/-- Changes of the queue that leave `r` in place `i` and every other record as it is. -/
structure Remade (q : Dq) (d : Disk) (i : ℕ) (r : DqRec) (p : Dq × Disk) : Prop where
  /-- They are changes. -/
  changes : Changes (q, d) p
  /-- The records they leave. -/
  recs : p.1.recs = q.recs.modify i fun _ => r

/-- A record left as it is. -/
theorem Remade.refl (hi : q.recs[i]? = some rc) : Remade q d i rc (q, d) := by
  have hid : q.recs.modify i id = q.recs := modify_id ..
  exact ⟨.refl, hid.symm.trans (modify_congr hi rfl)⟩

/-- A record is remade twice. -/
theorem Remade.trans {p' : Dq × Disk} (h : Remade q d i rc p) (h' : Remade p.1 p.2 i rc' p') :
    Remade q d i rc' p' :=
  ⟨h.changes.trans h'.changes, by rw [h'.recs, h.recs, modify_modify_eq]; rfl⟩

/-- A verdict is applied or waits. -/
theorem closeOrDefer_remade (hi : q.recs[i]? = some rc) (hopen : isOpen rc = true)
    (hne : rc.handle ≠ 0) (htype : IsVerdict type)
    (h : closeOrDefer q d i rc type m = some p) : Remade q d i (judged type rc) p := by
  unfold judged
  unfold closeOrDefer at h
  split_ifs at h ⊢ with hret
  · cases h
    exact ⟨.single (.defer hi hopen hret htype), modify_congr hi rfl⟩
  · refine ⟨.single (.close hi hopen hne (Nat.eq_zero_of_not_pos hret) htype h), ?_⟩
    rw [(closeRec_some h).2]
    exact modify_congr hi rfl

/-- An attempt ends, if one is under way. -/
theorem attemptEnds_remade (hi : q.recs[i]? = some rc) (hopen : isOpen rc = true)
    (hne : rc.handle ≠ 0) (h : attemptEnds q d i rc m = some p) :
    Remade q d i (attempted rc) p := by
  unfold attempted
  unfold attemptEnds at h
  split_ifs at h ⊢ with hin
  · obtain ⟨d', hd', rfl⟩ := map_eq_some_iff.mp h
    exact ⟨.single (.attempt hi hopen hne hin hd'), modify_congr hi rfl⟩
  · cases h
    exact .refl hi

/-- The end of an attempt leaves what a verdict reads. -/
theorem closeOrDefer_attempted :
    closeOrDefer q d i (attempted rc) type m = closeOrDefer q d i rc type m := by
  unfold attempted
  split_ifs <;> rfl

/-- What an event does to its record. -/
theorem applyEvent_remade (hi : q.recs[i]? = some rc) (hopen : isOpen rc = true)
    (hne : rc.handle ≠ 0) (h : applyEvent q d i rc ev m m' = some p) :
    Remade q d i (eventRec ev rc) p := by
  revert h
  unfold applyEvent eventRec
  cases ev.kind with
  | started =>
    intro h
    obtain ⟨d', hd', rfl⟩ := map_eq_some_iff.mp h
    exact ⟨.single (.started hi hopen hne hd'), modify_congr hi rfl⟩
  | failed =>
    intro h
    obtain ⟨p₁, hp₁, h⟩ := bind_eq_some_iff.mp h
    have hend := attemptEnds_remade hi hopen hne hp₁
    dsimp only at h ⊢
    split_ifs at h ⊢ with hself
    · have hi₁ : p₁.1.recs[i]? = some (attempted rc) := by
        rw [hend.recs, getElem?_modify_eq, hi]
        rfl
      have hsame : isOpen (attempted rc) = isOpen rc ∧ (attempted rc).handle = rc.handle := by
        unfold attempted
        split_ifs <;> exact ⟨rfl, rfl⟩
      rw [← closeOrDefer_attempted] at h
      exact hend.trans
        (closeOrDefer_remade hi₁ (hsame.1.trans hopen) (hsame.2.symm ▸ hne) (.inl rfl) h)
    · cases h
      exact hend
  | finished => exact closeOrDefer_remade hi hopen hne (.inl rfl)
  | deadLettered =>
    intro h
    dsimp only at h ⊢
    split_ifs at h ⊢ with hshut
    · cases h
      exact .refl hi
    · exact closeOrDefer_remade hi hopen hne (.inr rfl) h
  | dropped =>
    intro h
    dsimp only at h ⊢
    split_ifs at h ⊢ with hshut
    · cases h
      exact .refl hi
    · exact closeOrDefer_remade hi hopen hne (.inl rfl) h
  | _ =>
    intro h
    cases h
    exact .refl hi

/-- What the observer does: nothing, or what the event does to its open record, and the turn of a
suspect may end with it. -/
inductive Observed (q : Dq) (d : Disk) (ev : Event) : Dq × Disk → Prop
  /-- The event is about no open record of the queue. -/
  | nothing (hno : ev.kind = .queued ∨ ev.kind = .retried ∨ findOpen q ev.handle = none) :
      Observed q d ev (q, d)
  /-- The event is about an open record. -/
  | applied {i : ℕ} {rc : DqRec} {m m' : MarkOut} {p : Dq × Disk}
      (hkind : ¬(ev.kind = .queued ∨ ev.kind = .retried)) (hi : q.recs[i]? = some rc)
      (hopen : isOpen rc = true) (hhandle : rc.handle = ev.handle) (hne : rc.handle ≠ 0)
      (hp : applyEvent q d i rc ev m m' = some p)
      (hturn : ¬(rc.seq = q.trial ∧ endsTurn ev.kind = true)) : Observed q d ev p
  /-- The event is about the suspect on trial and ends its turn. -/
  | turn {i : ℕ} {rc : DqRec} {m m' : MarkOut} {p : Dq × Disk} {q' : Dq} {rs : List Resub}
      (hkind : ¬(ev.kind = .queued ∨ ev.kind = .retried)) (hi : q.recs[i]? = some rc)
      (hopen : isOpen rc = true) (hhandle : rc.handle = ev.handle) (hne : rc.handle ≠ 0)
      (hp : applyEvent q d i rc ev m m' = some p)
      (htrial : rc.seq = q.trial) (hends : endsTurn ev.kind = true)
      (hnext : trialNext { p.1 with trial := 0 } rs = some q') : Observed q d ev (q', p.2)

/-- The observer does no more. -/
theorem dqOnEvent_some {rs : List Resub} (hq : TableInv q) (h : dqOnEvent q d ev m m' rs = some p) :
    Observed q d ev p := by
  unfold dqOnEvent at h
  split_ifs at h with hskip
  · cases h
    exact .nothing (hskip.imp_right .inl)
  · cases hfind : findOpen q ev.handle with
    | none =>
      rw [hfind] at h
      cases h
      exact .nothing (.inr (.inr hfind))
    | some i =>
      obtain ⟨rc, hi, hopen, hhandle, hne, -⟩ := hq.findOpen_some hfind
      rw [hfind] at h
      dsimp only at h
      rw [hi] at h
      obtain ⟨p₁, hp₁, h⟩ := bind_eq_some_iff.mp h
      split_ifs at h with hturn
      · obtain ⟨q', hq', rfl⟩ := map_eq_some_iff.mp h
        exact .turn hskip hi hopen hhandle hne hp₁ hturn.1 hturn.2 hq'
      · cases h
        exact .applied hskip hi hopen hhandle hne hp₁ hturn

/-- What the observer does is made of changes. -/
theorem Observed.changes (hq : TableInv q) (h : Observed q d ev p) : Changes (q, d) p := by
  cases h with
  | nothing _ => exact .refl
  | applied _ hi hopen _ hne hp _ => exact (applyEvent_remade hi hopen hne hp).changes
  | turn _ hi hopen _ hne hp _ _ hnext =>
    have hch := (applyEvent_remade hi hopen hne hp).changes
    exact hch.trans ((turn_handings (hch.table hq) hnext).changes _)

end Events

section Retract

/-- What the end of a retraction makes of the record: closed if the retraction is durable, and no
verdict waits for it any more if it was the last. -/
def released (durable : Bool) (rc : DqRec) : DqRec :=
  if durable then
    { rc with retracting := rc.retracting - 1, deferred := none, done := rc.done || isOpen rc,
              inflight := rc.inflight && !isOpen rc }
  else
    { rc with retracting := rc.retracting - 1,
              deferred := if rc.retracting = 1 then none else rc.deferred }

/-- The queue once a retraction of the record at `i` has been counted. -/
def release (durable : Bool) (q : Dq) (i : ℕ) (rc : DqRec) : Dq :=
  { setRec q i (released durable) with
    index := if durable && isOpen rc then mapDel q.index rc.handle else q.index
    pending := if durable && isOpen rc then q.pending - 1 else q.pending }

variable {q q' : Dq} {d d' : Disk} {i : ℕ} {rc : DqRec} {m : MarkOut} {rs : List Resub}
  {durable stands : Bool}

/-- A durable retraction closes its record. -/
theorem isOpen_released : isOpen (released durable rc) = (isOpen rc && !durable) := by
  cases durable with
  | false => exact (Bool.and_true _).symm
  | true =>
    unfold released isOpen
    cases rc.done <;> cases rc.quarantined <;> rfl

/-- The record stays well formed when a retraction of it ends. -/
theorem RecOk.released (hrc : RecOk rc) (hret : 0 < rc.retracting) (durable : Bool) :
    RecOk (released durable rc) := by
  have hnot : ¬rc.committing = true :=
    fun h => Nat.ne_of_gt hret (hrc.commit h).retracting
  have hlive := hrc.retract hret
  cases durable with
  | true =>
    exact { hrc with
      commit := fun h => absurd h hnot
      retract := fun _ => hlive
      defer := fun v h => (by cases h) }
  | false =>
    refine { hrc with commit := fun h => absurd h hnot, retract := fun _ => hlive, defer := ?_ }
    intro v h
    by_cases hone : rc.retracting = 1
    · rw [show (DurableChange.released false rc).deferred = none from if_pos hone] at h
      cases h
    · rw [show (DurableChange.released false rc).deferred = rc.deferred from if_neg hone] at h
      obtain ⟨htype, -, hdone⟩ := hrc.defer v h
      refine ⟨htype, ?_, hdone⟩
      show 0 < rc.retracting - 1
      omega

/-- Counting the end of a retraction keeps the invariant of the table. -/
theorem TableInv.release (hq : TableInv q) (hi : q.recs[i]? = some rc) (hret : 0 < rc.retracting)
    (durable : Bool) : TableInv (release durable q i rc) := by
  have hrc := hq.each rc (mem_of_getElem? hi)
  have hok := RecOk.released hrc hret durable
  have hseq : (released durable rc).seq = rc.seq := by cases durable <;> rfl
  have hhandle : (released durable rc).handle = rc.handle := by cases durable <;> rfl
  have hcommit : (released durable rc).committing = rc.committing := by cases durable <;> rfl
  unfold DurableChange.release
  cases hgone : durable && isOpen rc with
  | true =>
    obtain ⟨rfl, hopen⟩ := Bool.and_eq_true_iff.mp hgone
    have hclosed : isOpen (released true rc) = false := by
      rw [isOpen_released, Bool.not_true, Bool.and_false]
    exact hq.close hi hopen (hrc.retract hret).1 hseq hhandle hclosed hcommit hok rfl rfl rfl rfl rfl
  | false =>
    have hopened : isOpen (released durable rc) = isOpen rc := by
      rw [isOpen_released]
      revert hgone
      cases durable <;> cases isOpen rc <;> decide
    exact (hq.touch hi ⟨hseq, hhandle, hopened, hcommit, hok⟩).congr rfl rfl rfl rfl rfl

/-- What the end of a retraction does under the lock. -/
inductive Retracted (q : Dq) (d : Disk) (i : ℕ) (rc : DqRec) (rs : List Resub) :
    Bool → Dq → Disk → Bool → Prop
  /-- Its 'D' is durable. -/
  | durable : Retracted q d i rc rs true (release true q i rc) d true
  /-- Its 'D' is durable and the record had its turn as a suspect. -/
  | turn {q' : Dq} (hopen : isOpen rc = true) (htrial : rc.seq = q.trial)
      (hnext : trialNext { release true q i rc with trial := 0 } rs = some q') :
      Retracted q d i rc rs true q' d true
  /-- Its 'D' is not, and there is nothing more to do. -/
  | failed (hrest : rc.done = true ∨ rc.deferred = none ∨ rc.retracting ≠ 1) :
      Retracted q d i rc rs false (release false q i rc) d rc.done
  /-- No retraction is left, and the verdict that waited applies. -/
  | verdict {p : Dq × Disk} {v : UInt8} {m : MarkOut} (hopen : rc.done = false)
      (hlast : rc.retracting = 1) (hv : rc.deferred = some v)
      (hc : closeRec (release false q i rc) d i (released false rc) v m = some p) :
      Retracted q d i rc rs false p.1 p.2 false

/-- Two changes of a record are one. -/
theorem setRec_setRec {f g k : DqRec → DqRec} (hi : q.recs[i]? = some rc)
    (h : g (f rc) = k rc) : setRec (setRec q i f) i g = setRec q i k := by
  have hrecs : (q.recs.modify i f).modify i g = q.recs.modify i k :=
    (modify_modify_eq ..).trans (modify_congr hi h)
  show ({ q with recs := (q.recs.modify i f).modify i g } : Dq) = _
  rw [hrecs]
  rfl

/-- A change of a record is what it makes of it. -/
theorem setRec_congr {f g : DqRec → DqRec} (hi : q.recs[i]? = some rc) (h : f rc = g rc) :
    setRec q i f = setRec q i g := by
  unfold setRec
  rw [modify_congr hi h]

/-- What a durable retraction does to an open record. -/
theorem release_open (hi : q.recs[i]? = some rc) (hopen : isOpen rc = true) :
    ({ setRec (setRec q i fun rc => { rc with retracting := rc.retracting - 1 }) i
      fun rc => { rc with deferred := none, done := true, inflight := false } with
        index := mapDel q.index rc.handle, pending := q.pending - 1 } : Dq) = release true q i rc := by
  have hf : released true rc = { rc with
      retracting := rc.retracting - 1, deferred := none, done := true, inflight := false } := by
    unfold released
    rw [if_pos rfl, hopen, Bool.or_true, Bool.not_true, Bool.and_false]
  rw [setRec_setRec hi hf.symm]
  unfold release
  rw [hopen]
  rfl

/-- What it does to a closed one. -/
theorem release_closed (hi : q.recs[i]? = some rc) (hclosed : isOpen rc = false) :
    setRec (setRec q i fun rc => { rc with retracting := rc.retracting - 1 }) i
      (fun rc => { rc with deferred := none }) = release true q i rc := by
  have hf : released true rc = { rc with retracting := rc.retracting - 1, deferred := none } := by
    unfold released
    rw [if_pos rfl, hclosed, Bool.or_false, Bool.not_false, Bool.and_true]
  rw [setRec_setRec hi hf.symm]
  unfold release
  rw [hclosed]
  rfl

/-- What a failed retraction does where no verdict waits for it alone. -/
theorem release_failed (hi : q.recs[i]? = some rc) (hrest : rc.deferred = none ∨ rc.retracting ≠ 1) :
    setRec q i (fun rc => { rc with retracting := rc.retracting - 1 }) = release false q i rc := by
  refine setRec_congr hi ?_
  unfold released
  rw [if_neg Bool.false_ne_true]
  rcases hrest with hnone | hmore
  · rw [hnone, ite_self]
  · rw [if_neg hmore]

/-- What the last one does otherwise, before the verdict. -/
theorem release_last (hi : q.recs[i]? = some rc) (hlast : rc.retracting = 1) :
    setRec (setRec q i fun rc => { rc with retracting := rc.retracting - 1 }) i
      (fun rc => { rc with deferred := none }) = release false q i rc := by
  refine setRec_setRec hi ?_
  unfold released
  rw [if_neg Bool.false_ne_true, if_pos hlast]

/-- The end of a retraction whose 'D' is durable. -/
theorem retract_durable (hi : q.recs[i]? = some rc)
    (h : retract q d i rc true m rs = some (q', d', stands)) :
    Retracted q d i rc rs true q' d' stands := by
  unfold retract at h
  rw [if_pos rfl] at h
  by_cases hopen : isOpen rc = true
  · rw [if_pos hopen, release_open hi hopen] at h
    split_ifs at h with htrial
    · obtain ⟨q₁, hnext, heq⟩ := map_eq_some_iff.mp h
      cases heq
      exact .turn hopen htrial hnext
    · cases h
      exact .durable
  · rw [if_neg hopen, release_closed hi (Bool.not_eq_true _ ▸ hopen)] at h
    cases h
    exact .durable

/-- The end of a retraction, whose last write decides. -/
theorem retract_some (hok : RecOk rc) (hi : q.recs[i]? = some rc)
    (h : retract q d i rc durable m rs = some (q', d', stands)) :
    Retracted q d i rc rs durable q' d' stands := by
  cases durable with
  | true => exact retract_durable hi h
  | false =>
    unfold retract at h
    rw [if_neg Bool.false_ne_true] at h
    by_cases hdone : rc.done = true
    · have hnone : rc.deferred = none := by
        cases hd : rc.deferred with
        | none => rfl
        | some v => rw [(hok.defer v hd).2.2] at hdone; cases hdone
      rw [if_pos hdone, release_failed hi (.inl hnone)] at h
      cases h
      exact hdone ▸ .failed (.inl hdone)
    rw [if_neg hdone] at h
    rw [Bool.not_eq_true] at hdone
    have hfail (hrest : rc.deferred = none ∨ rc.retracting ≠ 1) :
        Retracted q d i rc rs false (release false q i rc) d false := by
      have hdone' : Retracted q d i rc rs false (release false q i rc) d rc.done := .failed (.inr hrest)
      rwa [hdone] at hdone'
    cases hd : rc.deferred with
    | none =>
      rw [hd, release_failed hi (.inl hd)] at h
      cases h
      exact hfail (.inl hd)
    | some v =>
      rw [hd] at h
      dsimp only at h
      by_cases hlast : rc.retracting = 1
      · rw [if_pos hlast, release_last hi hlast,
          show ∀ q, closeRec q d i rc v m = closeRec q d i (released false rc) v m from
            fun _ => rfl] at h
        obtain ⟨p, hp, heq⟩ := map_eq_some_iff.mp h
        cases heq
        exact .verdict hdone hlast hd hp
      · rw [if_neg hlast, release_failed hi (.inr hlast)] at h
        cases h
        exact hfail (.inr hlast)

/-- The record after it. -/
theorem getElem?_release (hi : q.recs[i]? = some rc) :
    (release durable q i rc).recs[i]? = some (released durable rc) := by
  show (q.recs.modify i (released durable))[i]? = _
  rw [getElem?_modify_eq, hi]
  rfl

/-- Once a retraction is counted, its end is made of changes. -/
theorem Retracted.changes (hq : TableInv q) (hi : q.recs[i]? = some rc) (hret : 0 < rc.retracting)
    (h : Retracted q d i rc rs durable q' d' stands) :
    Changes (release durable q i rc, d) (q', d') := by
  have hok := hq.each rc (mem_of_getElem? hi)
  have hrel := TableInv.release hq hi hret durable
  cases h with
  | durable | failed hrest => exact .refl
  | turn hopen htrial hnext => exact (turn_handings hrel hnext).changes _
  | verdict hopen hlast hv hc =>
    obtain ⟨hne, hquar⟩ := hok.retract hret
    refine .single (.close (getElem?_release hi) ?_ hne ?_ (hok.defer _ hv).1 hc)
    · rw [isOpen_released, isOpen_iff.mpr ⟨hopen, hquar⟩]
      rfl
    · show rc.retracting - 1 = 0
      rw [hlast]

/-- A retraction of record `s` has ended. -/
structure ReleasedAt (s : ℕ) (rc rc' : DqRec) : Prop extends Alike rc rc' where
  /-- Whether a submit is making it durable. -/
  committing : rc'.committing = rc.committing
  /-- The retractions left. -/
  retracting : rc'.retracting = if rc.seq = s then rc.retracting - 1 else rc.retracting

/-- Counting the end of a retraction touches its record alone. -/
theorem release_exactly (hq : TableInv q) (hi : q.recs[i]? = some rc) :
    Frame (Exactly rc.seq (released durable)) q (release durable q i rc) :=
  frame_exactly hq hi rfl rfl rfl rfl rfl fun _ hx => hx

/-- The others keep what calls are about. -/
theorem release_frame (hq : TableInv q) (hi : q.recs[i]? = some rc) :
    Frame (ReleasedAt rc.seq) q (release durable q i rc) := by
  refine (release_exactly hq hi).mono fun x x' hx => ?_
  rw [hx]
  split_ifs with hseq
  · cases durable with
    | true =>
      exact ⟨⟨rfl, rfl, rfl, fun h => Bool.or_eq_true_iff.mpr (.inl h), id⟩, rfl,
        (if_pos hseq).symm⟩
    | false => exact ⟨⟨rfl, rfl, rfl, id, id⟩, rfl, (if_pos hseq).symm⟩
  · exact ⟨.refl x, rfl, (if_neg hseq).symm⟩

end Retract

section Settle

/-- How one record of a submit is settled. -/
inductive Settled (q : Dq) (d : Disk) (i : ℕ) (rc : DqRec) : Bool → Offer → Dq → Disk → Prop
  /-- Its write is not durable. -/
  | failed {o : Offer} : Settled q d i rc false o
      { setRec q i fun rc => { rc with committing := false, done := true } with
        index := mapUnreserve q.index 1 } d
  /-- The engine took it. -/
  | taken {o : Offer} {q' : Dq} {h : ℕ} (ho : o.handle = some h)
      (hg : giveHandle { setRec q i fun rc => { rc with committing := false } with
        pending := q.pending + 1 } i h = some q') : Settled q d i rc true o q' d
  /-- The engine refused it. -/
  | refused {o : Offer} {d' : Disk} (ho : o.handle = none)
      (hm : appendMarker q d typeD rc.seq o.mark = some d') : Settled q d i rc true o
      { setRec q i fun rc => { rc with committing := false, done := true } with
        index := mapUnreserve q.index 1 } d'

variable {q q' : Dq} {d d' : Disk} {i first n : ℕ} {rc : DqRec} {o : Offer} {durable : Bool}

/-- Settling one record of a submit. -/
theorem settleItem_some (hq : TableInv q) (hrc : rc ∈ q.recs)
    (h : settleItem durable q d rc.seq o = some (q', d')) :
    ∃ i, q.recs[i]? = some rc ∧ Settled q d i rc durable o q' d' := by
  obtain ⟨i, hfind, hi⟩ := hq.findBySeq_mem hrc
  refine ⟨i, hi, ?_⟩
  unfold settleItem at h
  rw [hfind] at h
  cases durable with
  | false =>
    cases h
    exact .failed
  | true =>
    dsimp only at h
    cases ho : o.handle with
    | some k =>
      rw [ho] at h
      obtain ⟨q₁, hg, heq⟩ := map_eq_some_iff.mp h
      cases heq
      exact .taken ho hg
    | none =>
      rw [ho] at h
      obtain ⟨d₁, hm, heq⟩ := map_eq_some_iff.mp h
      cases heq
      exact .refused ho hm

/-- Settling a record keeps the invariant of the table. -/
theorem Settled.table (hq : TableInv q) (hi : q.recs[i]? = some rc) (hcommit : rc.committing = true)
    (h : Settled q d i rc durable o q' d') : TableInv q' := by
  cases h with
  | failed | refused ho hm => exact hq.refuse hi hcommit rfl rfl rfl rfl rfl
  | taken ho hg => exact hq.accept hi hcommit hg

/-- The records from `first` on, `n` of them, are settled. -/
structure SettledAt (first n : ℕ) (rc rc' : DqRec) : Prop extends Alike rc rc' where
  /-- The others may still be on their way to the disk. -/
  committing : rc'.committing = (rc.committing && !decide (first ≤ rc.seq ∧ rc.seq < first + n))
  /-- The retractions under way. -/
  retracting : rc'.retracting = rc.retracting
  /-- The others stay as they are. -/
  other : ¬(first ≤ rc.seq ∧ rc.seq < first + n) → rc' = rc

/-- Settling a record touches it alone. -/
theorem Settled.frame (hq : TableInv q) (hi : q.recs[i]? = some rc)
    (h : Settled q d i rc durable o q' d') : Frame (SettledAt rc.seq 1) q q' := by
  have hin : decide (rc.seq ≤ rc.seq ∧ rc.seq < rc.seq + 1) = true :=
    decide_eq_true ⟨le_rfl, Nat.lt_succ_self _⟩
  have hother : ∀ j rc', q.recs[j]? = some rc' → j ≠ i → SettledAt rc.seq 1 rc' rc' := by
    intro j rc' hj hne
    have hout : decide (rc.seq ≤ rc'.seq ∧ rc'.seq < rc.seq + 1) = false := by
      refine decide_eq_false fun hin => hne ?_
      exact SortedSearch.index_unique hq.rising hj hi (by omega)
    exact ⟨.refl rc', by rw [hout, Bool.not_false, Bool.and_true], rfl, fun _ => rfl⟩
  have hthis {rc' : DqRec} (halike : Alike rc rc') (hc : rc'.committing = false)
      (hr : rc'.retracting = rc.retracting) : SettledAt rc.seq 1 rc rc' :=
    ⟨halike, by rw [hin, hc]; exact (Bool.and_false _).symm, hr,
      fun hout => absurd (of_decide_eq_true hin) hout⟩
  cases h with
  | failed | refused ho hm =>
    exact .modify hi (hthis ⟨rfl, rfl, rfl, fun _ => rfl, id⟩ rfl rfl) hother rfl rfl rfl rfl rfl
      fun _ hx => hx
  | taken ho hg =>
    obtain ⟨rc₁, y, -, -, -, rfl⟩ := giveHandle_some hg
    exact .modify (f := fun rc => { rc with committing := false, handle := _ }) hi
      (hthis ⟨rfl, rfl, rfl, id, id⟩ rfl rfl) hother (modify_modify_eq ..) rfl rfl rfl rfl
      fun _ => mem_cons_of_mem _

/-- The records a submit is making durable. -/
def Committing (q : Dq) (first n : ℕ) : Prop :=
  ∀ k < n, ∃ rc ∈ q.recs, rc.seq = first + k ∧ rc.committing = true

/-- Settling all the records of a submit keeps the invariant and touches nothing else. -/
theorem settleItems_table {offers : List Offer} {p : Dq × Disk} (hq : TableInv q)
    (hcommit : Committing q first offers.length)
    (h : settleItems durable q d first offers = some p) :
    TableInv p.1 ∧ Frame (SettledAt first offers.length) q p.1 := by
  induction offers generalizing q d first with
  | nil =>
    cases h
    refine ⟨hq, .refl (fun rc => ⟨.refl rc, ?_, rfl, fun _ => rfl⟩) q⟩
    rw [decide_eq_false (by rw [length_nil]; omega), Bool.not_false, Bool.and_true]
  | cons o os ih =>
    obtain ⟨⟨q₁, d₁⟩, hitem, h⟩ := bind_eq_some_iff.mp h
    obtain ⟨rc, hrc, hseq, hc⟩ := hcommit 0 (Nat.zero_lt_succ _)
    obtain rfl : rc.seq = first := hseq
    obtain ⟨i, hi, hset⟩ := settleItem_some hq hrc hitem
    have hframe := hset.frame hq hi
    have hrest : Committing q₁ (rc.seq + 1) os.length := by
      intro k hk
      obtain ⟨rc', hrc', hseq', hc'⟩ := hcommit (k + 1) (Nat.succ_lt_succ hk)
      obtain ⟨rc'', hrc'', hs⟩ := hframe.mem_left hrc'
      refine ⟨rc'', hrc'', by rw [hs.seq, hseq']; omega, ?_⟩
      rw [hs.committing, hc', decide_eq_false (by omega)]
      rfl
    obtain ⟨hq', hframe'⟩ := ih (hset.table hq hi hc) hrest h
    refine ⟨hq', hframe.trans hframe' ?_⟩
    intro x y z hxy hyz
    refine ⟨hxy.toAlike.trans hyz.toAlike, ?_, hyz.retracting.trans hxy.retracting, ?_⟩
    swap
    · intro hout
      rw [length_cons] at hout
      rw [hyz.other (by rw [hxy.seq]; omega), hxy.other (by omega)]
    rw [hyz.committing, hxy.committing, hxy.seq, Bool.and_assoc, ← Bool.not_or, ← Bool.decide_or]
    have hrange : (rc.seq ≤ x.seq ∧ x.seq < rc.seq + 1 ∨
        rc.seq + 1 ≤ x.seq ∧ x.seq < rc.seq + 1 + os.length) ↔
          rc.seq ≤ x.seq ∧ x.seq < rc.seq + (os.length + 1) := by omega
    rw [decide_eq_decide.mpr hrange]
    rfl

end Settle

end Gptps.DurableChange
