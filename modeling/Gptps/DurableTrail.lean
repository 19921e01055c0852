import Gptps.DurableAnswers

/-!
# The trail of a record

The trail of a record over a run notes which retractions of it began, how each one's durable write
had ended when it acted, which verdicts arrived and which were applied, and how the count of
pending records moved where the record was closed. A step that notes no act and no verdict leaves
an open record open and a closed one closed.
-/

namespace Gptps.DurableTrail

open JournalFormat DurableRecords DurableIndex DurableState DurableApi DurableSystem DurableTable
  List
open DurableChange DurableStep DurableCalls DurableAnswers

section Trail

/-- The verdict an event brings. -/
def verdictOf (ev : Event) : Option UInt8 :=
  match ev.kind with
  | .failed => if ev.cancelled ∧ ev.selfCancelled then some typeD else none
  | .finished => some typeD
  | .deadLettered => if ev.shutdown then none else some typeQ
  | .dropped => if ev.shutdown then none else some typeD
  | _ => none

/-- The open record of a handle. -/
def recAt (q : Dq) (h : ℕ) : Option DqRec := (findOpen q h).bind fun i => q.recs[i]?

/-- Whether record `n` is open. -/
def openIn (n : ℕ) (q : Dq) : Bool := q.recs.any fun rc => rc.seq = n && isOpen rc

/-- Whether record `n` is quarantined. -/
def quarantinedIn (n : ℕ) (q : Dq) : Bool := q.recs.any fun rc => rc.seq = n && rc.quarantined

/-- A record is closed: the pending records before and after, the retractions of it that have not
acted yet, and how the record stands then. -/
structure Closing where
  /-- The pending records before. -/
  before : ℕ
  /-- The pending records after. -/
  after : ℕ
  /-- The retractions that have not acted. -/
  left : ℕ
  /-- Whether the record is quarantined, and not done. -/
  quarantined : Bool
  deriving DecidableEq, Repr

/-- What happened to a record. -/
structure Trail where
  /-- The retractions that began. -/
  begun : List ℕ
  /-- The retractions that acted, and whether the 'D' of each was durable. -/
  acts : List (ℕ × Bool)
  /-- The verdicts that arrived. -/
  verdicts : List UInt8
  /-- The verdicts that were applied. -/
  applied : List UInt8
  /-- Where it was closed. -/
  closings : List Closing
  deriving DecidableEq, Repr

/-- The retraction of record `n` a step begins. -/
def begunBy (n : ℕ) (q : Dq) (h : History) : Label → List ℕ
  | .cancel handle =>
    match recAt q handle with
    | some rc => if rc.seq = n then [h.nextCall] else []
    | none => []
  | _ => []

/-- The retraction of record `n` that acts in a step. -/
def actsBy (n : ℕ) (q : Dq) : Label → List (ℕ × Bool)
  | .cancelEnd c _ _ =>
    match callOf q c with
    | some call =>
      if Call.items call = 0 ∧ call.first = n then
        ((settled q call).map fun durable => (c, durable)).toList
      else []
    | none => []
  | _ => []

/-- The verdict on record `n` that arrives in a step. -/
def verdictsBy (n : ℕ) (q : Dq) : Label → List UInt8
  | .event ev _ _ _ =>
    match recAt q ev.handle with
    | some rc => if rc.seq = n then (verdictOf ev).toList else []
    | none => []
  | _ => []

/-- The verdict on record `n` that is applied in a step: one that arrives while no retraction is
under way, or one that waited for a retraction that was the last and failed. -/
def appliedBy (n : ℕ) (q : Dq) : Label → List UInt8
  | .event ev _ _ _ =>
    match recAt q ev.handle with
    | some rc => if rc.seq = n ∧ rc.retracting = 0 then (verdictOf ev).toList else []
    | none => []
  | .cancelEnd c _ _ =>
    match callOf q c, q.recs.find? (·.seq = n) with
    | some call, some rc =>
      if Call.items call = 0 ∧ call.first = n ∧ settled q call = some false ∧ rc.done = false ∧
          rc.retracting = 1 then
        rc.deferred.toList
      else []
    | _, _ => []
  | _ => []

/-- Where record `n` is closed in a step. -/
def closingsBy (n : ℕ) (q q' : Dq) : List Closing :=
  if openIn n q && !openIn n q' then
    [⟨q.pending, q'.pending, q'.calls.countP (retracts n), quarantinedIn n q'⟩]
  else []

/-- What a step from `q` to `q'` adds to the trail of record `n`. -/
def note (n : ℕ) (q : Dq) (h : History) (l : Label) (q' : Dq) (t : Trail) : Trail where
  begun := t.begun ++ begunBy n q h l
  acts := t.acts ++ actsBy n q l
  verdicts := t.verdicts ++ verdictsBy n q l
  applied := t.applied ++ appliedBy n q l
  closings := t.closings ++ closingsBy n q q'

/-- The trail of record `n` along a run, after what it is already. -/
def trailFrom (n : ℕ) : Sys → Trail → List Label → Trail
  | _, t, [] => t
  | s, t, l :: ls =>
    match step s l with
    | some s' =>
      match s.q, s'.q with
      | some q, some q' => trailFrom n s' (note n q s.hist l q' t) ls
      | _, _ => trailFrom n s' t ls
    | none => t

/-- The trail of record `n` along a run. -/
def trail (n : ℕ) (s : Sys) (ls : List Label) : Trail := trailFrom n s ⟨[], [], [], [], []⟩ ls

end Trail

section Lookup

variable {q : Dq} {h i n : ℕ} {rc : DqRec}

/-- The open record of a handle is found. -/
theorem recAt_iff (hq : TableInv q) :
    recAt q h = some rc ↔ rc ∈ q.recs ∧ isOpen rc = true ∧ rc.handle = h ∧ h ≠ 0 := by
  constructor
  · intro hat
    obtain ⟨i, hfind, hi⟩ := Option.bind_eq_some_iff.mp hat
    obtain ⟨rc', hi', hopen, hhandle, hne, -⟩ := hq.findOpen_some hfind
    rw [hi] at hi'
    obtain rfl := Option.some.inj hi'
    exact ⟨mem_of_getElem? hi, hopen, hhandle, hhandle ▸ hne⟩
  · rintro ⟨hrc, hopen, hhandle, hne⟩
    have hmap : mapFind q.index h = some rc.seq :=
      hq.mapFind_iff.mpr ⟨rc, hrc, hopen, hhandle, hhandle ▸ hne, rfl⟩
    obtain ⟨i, hfind, hi⟩ := hq.findBySeq_mem hrc
    unfold recAt findOpen
    rw [hmap, Option.bind_some, hfind, Option.bind_some, hi]
    dsimp only
    rw [if_pos hopen, Option.bind_some, hi]

/-- A record is open in the table. -/
theorem openIn_iff : openIn n q = true ↔ ∃ rc ∈ q.recs, rc.seq = n ∧ isOpen rc = true := by
  unfold openIn
  rw [any_eq_true]
  constructor
  · rintro ⟨rc, hrc, hboth⟩
    rw [Bool.and_eq_true, decide_eq_true_eq] at hboth
    exact ⟨rc, hrc, hboth⟩
  · rintro ⟨rc, hrc, hboth⟩
    refine ⟨rc, hrc, ?_⟩
    rw [Bool.and_eq_true, decide_eq_true_eq]
    exact hboth

/-- No record of the number is open in the table. -/
theorem openIn_false : openIn n q = false ↔ ∀ rc ∈ q.recs, rc.seq = n → isOpen rc = false := by
  rw [← Bool.not_eq_true, openIn_iff]
  constructor
  · intro hno rc hrc hseq
    rw [← Bool.not_eq_true]
    exact fun hopen => hno ⟨rc, hrc, hseq, hopen⟩
  · rintro hall ⟨rc, hrc, hseq, hopen⟩
    rw [hall rc hrc hseq] at hopen
    cases hopen

/-- The search for a number from the front finds its record. -/
theorem find_seq (hq : TableInv q) (hrc : rc ∈ q.recs) :
    q.recs.find? (·.seq = rc.seq) = some rc := by
  cases hf : q.recs.find? (·.seq = rc.seq) with
  | none =>
    have hno := find?_eq_none.mp hf rc hrc
    rw [decide_eq_true_eq] at hno
    exact absurd rfl hno
  | some rc' =>
    have hseq := find?_some hf
    rw [decide_eq_true_eq] at hseq
    rw [hq.seq_inj (mem_of_find?_eq_some hf) hrc hseq]

end Lookup

section Events

/-- What an event does to its record beside its verdict. -/
def brought (ev : Event) (rc : DqRec) : DqRec :=
  match ev.kind with
  | .started => { rc with inflight := true }
  | .failed => attempted rc
  | _ => rc

/-- An event is what it brings beside its verdict, and then its verdict. -/
theorem eventRec_eq (ev : Event) (rc : DqRec) : eventRec ev rc =
    match verdictOf ev with
    | some v => judged v (brought ev rc)
    | none => brought ev rc := by
  unfold eventRec verdictOf brought
  cases hk : ev.kind with
  | failed | deadLettered | dropped => dsimp only; split_ifs <;> rfl
  | _ => rfl

/-- The parts of a record that neither an attempt nor the engine changes. -/
structure Steady (rc rc' : DqRec) : Prop where
  /-- Its number. -/
  seq : rc'.seq = rc.seq
  /-- The handle of its execution. -/
  handle : rc'.handle = rc.handle
  /-- That it is closed. -/
  done : rc'.done = rc.done
  /-- That it is quarantined. -/
  quarantined : rc'.quarantined = rc.quarantined
  /-- The verdict that waits. -/
  deferred : rc'.deferred = rc.deferred
  /-- The retractions under way. -/
  retracting : rc'.retracting = rc.retracting

theorem Steady.refl (rc : DqRec) : Steady rc rc := ⟨rfl, rfl, rfl, rfl, rfl, rfl⟩

/-- It stays open or closed. -/
theorem Steady.isOpen {rc rc' : DqRec} (h : Steady rc rc') : isOpen rc' = isOpen rc := by
  unfold DurableApi.isOpen
  rw [h.done, h.quarantined]

/-- What an event brings besides its verdict. -/
theorem brought_steady (ev : Event) (rc : DqRec) : Steady rc (brought ev rc) := by
  unfold brought
  split
  · exact ⟨rfl, rfl, rfl, rfl, rfl, rfl⟩
  · unfold attempted
    split_ifs
    · exact ⟨rfl, rfl, rfl, rfl, rfl, rfl⟩
    · exact .refl rc
  · exact .refl rc

end Events

section Fares

variable {q q' : Dq} {d d' : Disk} {h h' : History} {n : ℕ} {rc rc' : DqRec}

/-- How a record fares that no verdict and no end of a retraction is about: with an execution it
stays open, and closed it stays closed. -/
structure Fares (rc rc' : DqRec) : Prop where
  /-- Its number. -/
  seq : rc'.seq = rc.seq
  /-- An execution goes on, and so does the wait of a verdict. -/
  live : isOpen rc = true → rc.handle ≠ 0 →
    isOpen rc' = true ∧ rc'.handle = rc.handle ∧ rc'.deferred = rc.deferred
  /-- It is not opened again. -/
  closed : isOpen rc = false → isOpen rc' = false
  /-- What is gone stays so. -/
  gone : rc.done = true ∧ rc.quarantined = false → rc'.done = true ∧ rc'.quarantined = false

/-- One change after another. -/
theorem Fares.trans {a b c : DqRec} (h : Fares a b) (h' : Fares b c) : Fares a c := by
  refine ⟨h'.seq.trans h.seq, fun hopen hne => ?_, h'.closed ∘ h.closed, h'.gone ∘ h.gone⟩
  obtain ⟨hopen₁, hhandle₁, hdefer₁⟩ := h.live hopen hne
  obtain ⟨hopen₂, hhandle₂, hdefer₂⟩ := h'.live hopen₁ (hhandle₁ ▸ hne)
  exact ⟨hopen₂, hhandle₂.trans hhandle₁, hdefer₂.trans hdefer₁⟩

/-- A record that is left alone. -/
theorem Steady.fares (h : Steady rc rc') : Fares rc rc' := by
  refine ⟨h.seq, fun hopen _ => ⟨h.isOpen.trans hopen, h.handle, h.deferred⟩, h.isOpen.trans, ?_⟩
  rw [h.done, h.quarantined]
  exact id

/-- A record that is handed back. -/
theorem handed_fares (h : Handed rc rc') : Fares rc rc' := by
  have hopen : isOpen rc' = isOpen rc := by rw [h.eq]; rfl
  refine ⟨by rw [h.eq], fun ho hne => ?_, hopen.trans, ?_⟩
  · rw [h.live hne]
    exact ⟨ho, rfl, rfl⟩
  · rw [h.eq]
    exact id

/-- Record `n` fares so from one state of the queue to the next. -/
structure Kept (n : ℕ) (q q' : Dq) : Prop where
  /-- An open record with an execution goes on. -/
  live : ∀ rc ∈ q.recs, rc.seq = n → isOpen rc = true → rc.handle ≠ 0 →
    ∃ rc' ∈ q'.recs, Fares rc rc'
  /-- A closed record stays closed or is dropped. -/
  closed : openIn n q = false → ∀ rc' ∈ q'.recs, rc'.seq = n → ∃ rc ∈ q.recs, Fares rc rc'

/-- From what a change says of each record. -/
theorem Kept.of_frame {R : DqRec → DqRec → Prop} (hf : Frame R q q')
    (hseq : ∀ x x', R x x' → x'.seq = x.seq) (hR : ∀ x x', R x x' → x.seq = n → Fares x x') :
    Kept n q q' := by
  constructor
  · intro rc hrc hn _ _
    obtain ⟨rc', hrc', hrel⟩ := hf.mem_left hrc
    exact ⟨rc', hrc', hR rc rc' hrel hn⟩
  · intro _ rc' hrc' hn
    obtain ⟨rc, hrc, hrel⟩ := hf.mem_right hrc'
    exact ⟨rc, hrc, hR rc rc' hrel ((hseq rc rc' hrel).symm.trans hn)⟩

theorem Kept.same (hrecs : q'.recs = q.recs) : Kept n q q' := by
  refine ⟨fun rc hrc _ _ _ => ⟨rc, hrecs ▸ hrc, (Steady.refl rc).fares⟩, fun _ rc hrc _ => ?_⟩
  exact ⟨rc, hrecs ▸ hrc, (Steady.refl rc).fares⟩

/-- One step after another. -/
theorem Kept.trans {q₁ : Dq} (h : Kept n q q₁) (h' : Kept n q₁ q') : Kept n q q' := by
  constructor
  · intro rc hrc hn hopen hne
    obtain ⟨rc₁, hrc₁, hf⟩ := h.live rc hrc hn hopen hne
    obtain ⟨hopen₁, hhandle₁, -⟩ := hf.live hopen hne
    obtain ⟨rc₂, hrc₂, hf'⟩ := h'.live rc₁ hrc₁ (hf.seq.trans hn) hopen₁ (hhandle₁ ▸ hne)
    exact ⟨rc₂, hrc₂, hf.trans hf'⟩
  · intro hclosed rc₂ hrc₂ hn
    have hclosed₁ : openIn n q₁ = false := by
      refine openIn_false.mpr fun rc₁ hrc₁ hn₁ => ?_
      obtain ⟨rc, hrc, hf⟩ := h.closed hclosed rc₁ hrc₁ hn₁
      exact hf.closed (openIn_false.mp hclosed rc hrc (hf.seq.symm.trans hn₁))
    obtain ⟨rc₁, hrc₁, hf'⟩ := h'.closed hclosed₁ rc₂ hrc₂ hn
    obtain ⟨rc, hrc, hf⟩ := h.closed hclosed rc₁ hrc₁ (hf'.seq.symm.trans hn)
    exact ⟨rc, hrc, hf.trans hf'⟩

/-- What the records were before is all that matters. -/
theorem Kept.after {q₁ : Dq} (h : Kept n q₁ q') (hrecs : q₁.recs = q.recs) : Kept n q q' :=
  (show Kept n q q₁ from .same hrecs).trans h

/-- A compaction drops closed records only. -/
theorem Kept.rewrites {o : RewriteOut} {st : Status} {rep : Bool}
    (hw : Rewrites q d o q' d' st rep) : Kept n q q' := by
  cases hw with
  | stays _ | lost | dead _ => exact .same rfl
  | replaced _ =>
    constructor
    · intro rc hrc _ hopen _
      refine ⟨rc, mem_filter.mpr ⟨hrc, ?_⟩, (Steady.refl rc).fares⟩
      rw [(isOpen_iff.mp hopen).1]
      rfl
    · intro _ rc hrc _
      exact ⟨rc, (mem_filter.mp hrc).1, (Steady.refl rc).fares⟩

/-- Draining touches quarantined records only. -/
theorem Kept.drain : Kept n q (drainQuarantine q).1 := by
  have hfares : ∀ rc : DqRec,
      Fares rc (if rc.quarantined then { rc with quarantined := false, done := true } else rc) := by
    intro rc
    by_cases hquar : rc.quarantined = true
    · rw [if_pos hquar]
      refine ⟨rfl, fun hopen => ?_, fun _ => rfl, fun hgone => ?_⟩
      · rw [(isOpen_iff.mp hopen).2] at hquar
        cases hquar
      · rw [hgone.2] at hquar
        cases hquar
    · rw [if_neg hquar]
      exact (Steady.refl rc).fares
  constructor
  · intro rc hrc _ _ _
    exact ⟨_, mem_map_of_mem hrc, hfares rc⟩
  · intro _ rc' hrc' _
    obtain ⟨rc, hrc, rfl⟩ := mem_map.mp hrc'
    exact ⟨rc, hrc, hfares rc⟩

/-- A submit that settles its records touches no record with an execution and no closed one. -/
theorem Kept.settles {first k : ℕ} (hq : TableInv q) (hcommit : Committing q first k)
    (hf : Frame (SettledAt first k) q q') : Kept n q q' := by
  have hout : ∀ rc ∈ q.recs, rc.handle ≠ 0 ∨ isOpen rc = false →
      ¬(first ≤ rc.seq ∧ rc.seq < first + k) := by
    rintro rc hrc hwhy ⟨hlo, hhi⟩
    obtain ⟨rc', hrc', hseq, hc⟩ := hcommit (rc.seq - first) (by omega)
    obtain rfl : rc' = rc := hq.seq_inj hrc' hrc (by omega)
    have hfresh := hq.commit hrc hc
    rcases hwhy with hne | hclosed
    · exact hne hfresh.handle
    · rw [hfresh.opened] at hclosed
      cases hclosed
  constructor
  · intro rc hrc _ _ hne
    obtain ⟨rc', hrc', hset⟩ := hf.mem_left hrc
    obtain rfl := hset.other (hout rc hrc (.inl hne))
    exact ⟨rc', hrc', (Steady.refl rc').fares⟩
  · intro hclosed rc' hrc' hn
    obtain ⟨rc, hrc, hset⟩ := hf.mem_right hrc'
    have hcl := openIn_false.mp hclosed rc hrc (hset.seq.symm.trans hn)
    obtain rfl := hset.other (hout rc hrc (.inr hcl))
    exact ⟨rc', hrc, (Steady.refl rc').fares⟩

/-- The records of a submit are new. -/
theorem Kept.reserves {id : ℕ} {items : List Item} {batch : Bool} (hn : n < q.nextSeq)
    (hr : Reserves q id items batch q') : Kept n q q' := by
  obtain ⟨x, alloc, -, rfl⟩ := hr.made
  constructor
  · intro rc hrc _ _ _
    exact ⟨rc, mem_append_left _ hrc, (Steady.refl rc).fares⟩
  · intro _ rc hrc hseq
    rcases mem_append.mp hrc with hrc | hrc
    · exact ⟨rc, hrc, (Steady.refl rc).fares⟩
    · obtain ⟨k, -, hk, -⟩ := mem_newRecs hrc
      omega

/-- A retraction that begins is only counted. -/
theorem Kept.begins {call handle : ℕ} (hq : TableInv q)
    (hb : cancelBegin q call handle = some q') : Kept n q q' := by
  obtain ⟨i, rc, hi, -, -, -, -, rfl⟩ := cancelBegin_some hq hb
  have hf : Frame (Exactly rc.seq fun rc => { rc with retracting := rc.retracting + 1 }) q
      (setRec q i fun rc => { rc with retracting := rc.retracting + 1 }) :=
    frame_exactly hq hi rfl rfl rfl rfl rfl fun _ hx => hx
  refine Kept.trans (.of_frame hf (fun x x' hx => ?_) fun x x' hx _ => ?_) (.same rfl)
  · rw [hx]
    split_ifs <;> rfl
  · rw [hx]
    split_ifs
    · exact ⟨rfl, fun hopen _ => ⟨hopen, rfl, rfl⟩, id, id⟩
    · exact (Steady.refl x).fares

/-- A verdict touches its record alone. -/
theorem closeRec_exactly {i : ℕ} {type : UInt8} {m : MarkOut} {p : Dq × Disk} (hq : TableInv q)
    (hi : q.recs[i]? = some rc) (hc : closeRec q d i rc type m = some p) :
    Frame (Exactly rc.seq (verdict type)) q p.1 := by
  obtain ⟨-, hp⟩ := closeRec_some hc
  rw [hp]
  exact frame_exactly hq hi rfl rfl rfl rfl rfl fun _ hx => hx

/-- What the end of a retraction does to the other records. -/
theorem retracted_other {i : ℕ} {rs : List Resub} {durable stands : Bool} (hq : TableInv q)
    (hi : q.recs[i]? = some rc) (hret : 0 < rc.retracting)
    (h : Retracted q d i rc rs durable q' d' stands) :
    Frame (fun x x' => x'.seq = x.seq ∧ (x.seq ≠ rc.seq → Handed x x')) q q' := by
  have hone : ∀ f : DqRec → DqRec, (∀ x, (f x).seq = x.seq) → ∀ x x', Exactly rc.seq f x x' →
      x'.seq = x.seq ∧ (x.seq ≠ rc.seq → Handed x x') := by
    intro f hf x x' hx
    rw [hx]
    by_cases hseq : x.seq = rc.seq
    · rw [if_pos hseq]
      exact ⟨hf x, fun hne => absurd hseq hne⟩
    · rw [if_neg hseq]
      exact ⟨rfl, fun _ => .refl x⟩
  have hreleased : ∀ durable x, (released durable x).seq = x.seq := by
    intro durable x
    cases durable <;> rfl
  have hrel := TableInv.release hq hi hret durable
  cases h with
  | durable => exact (release_exactly hq hi).mono (hone _ (hreleased true))
  | turn hopen htrial hnext =>
    refine (release_exactly hq hi).trans (turn_handings hrel hnext).frame fun x y z hxy hyz => ?_
    obtain ⟨hseq, hother⟩ := hone _ (hreleased true) x y hxy
    exact ⟨(handed_fares hyz).seq.trans hseq, fun hne => (hother hne).trans hyz⟩
  | failed hrest => exact (release_exactly hq hi).mono (hone _ (hreleased false))
  | verdict hopen hlast hv hc =>
    refine (release_exactly hq hi).trans (closeRec_exactly hrel (getElem?_release hi) hc)
      fun x y z hxy hyz => ?_
    obtain ⟨hseq, hother⟩ := hone _ (hreleased false) x y hxy
    rw [hyz]
    split_ifs with hn
    · rw [(Same.verdict y _).seq]
      exact ⟨hseq, fun hne => absurd (hseq.symm.trans hn) hne⟩
    · exact ⟨hseq, hother⟩

end Fares

section Silent

variable {q q' : Dq} {d d' : Disk} {h h' : History} {l : Label} {n : ℕ} {rc : DqRec} {p : Dq × Disk}
  {ev : Event} {c : Call} {m : MarkOut} {rs : List Resub} {durable : Bool}

/-- The retraction that a step ends. -/
theorem actsBy_cancelEnd (hc : callOf q c.id = some c) (hzero : Call.items c = 0)
    (hset : settled q c = some durable) :
    actsBy n q (.cancelEnd c.id m rs) = if c.first = n then [(c.id, durable)] else [] := by
  unfold actsBy
  dsimp only
  rw [hc]
  dsimp only
  rw [hset]
  by_cases hn : c.first = n
  · rw [if_pos ⟨hzero, hn⟩, if_pos hn]
    rfl
  · rw [if_neg (fun hno => hn hno.2), if_neg hn]

/-- The verdict that an event brings. -/
theorem verdictsBy_event {m m' : MarkOut} (hat : recAt q ev.handle = some rc) :
    verdictsBy n q (.event ev m m' rs) = if rc.seq = n then (verdictOf ev).toList else [] := by
  unfold verdictsBy
  dsimp only
  rw [hat]

/-- An event that is applied touches its record alone. -/
theorem applyEvent_exactly {i : ℕ} {m m' : MarkOut} (hq : TableInv q) (hi : q.recs[i]? = some rc)
    (hopen : isOpen rc = true) (hne : rc.handle ≠ 0)
    (hp : applyEvent q d i rc ev m m' = some p) :
    Frame (Exactly rc.seq (eventRec ev)) q p.1 := by
  have hre := applyEvent_remade hi hopen hne hp
  have hf := hre.changes.frame
  exact frame_exactly hq hi (hre.recs.trans (modify_congr hi rfl)) hf.calls hf.jnl hf.nextSeq
    hf.tearing hf.issued

/-- An event does nothing, or changes its open record, and suspects may be handed over then. -/
theorem observed_frame (hq : TableInv q) (ho : Observed q d ev p) :
    p.1 = q ∧ (recAt q ev.handle = none ∨ verdictOf ev = none) ∨
      ∃ rc, recAt q ev.handle = some rc ∧
        Frame (fun x x' => ∃ y, Exactly rc.seq (eventRec ev) x y ∧ Handed y x') q p.1 := by
  cases ho with
  | nothing hno =>
    refine .inl ⟨rfl, ?_⟩
    rcases hno with hk | hk | hfind
    · refine .inr ?_
      unfold verdictOf
      rw [hk]
    · refine .inr ?_
      unfold verdictOf
      rw [hk]
    · refine .inl ?_
      unfold recAt
      rw [hfind]
      rfl
  | applied _ hi hopen hhandle hne hp _ =>
    have hat := (recAt_iff hq).mpr ⟨mem_of_getElem? hi, hopen, hhandle, hhandle ▸ hne⟩
    refine .inr ⟨_, hat, (applyEvent_exactly hq hi hopen hne hp).mono fun x y hxy => ?_⟩
    exact ⟨y, hxy, .refl y⟩
  | turn _ hi hopen hhandle hne hp _ _ hnext =>
    have hat := (recAt_iff hq).mpr ⟨mem_of_getElem? hi, hopen, hhandle, hhandle ▸ hne⟩
    have hch := (applyEvent_remade hi hopen hne hp).changes
    refine .inr ⟨_, hat, ?_⟩
    exact (applyEvent_exactly hq hi hopen hne hp).trans
      (turn_handings (hch.table hq) hnext).frame fun x y z hxy hyz => ⟨y, hxy, hyz⟩

/-- An event leaves the number. -/
theorem eventRec_seq (ev : Event) (rc : DqRec) : (eventRec ev rc).seq = rc.seq := by
  rw [eventRec_eq]
  cases verdictOf ev with
  | none => exact (brought_steady ev rc).seq
  | some v =>
    unfold judged
    split_ifs
    · exact (brought_steady ev rc).seq
    · rw [(Same.verdict _ v).seq]
      exact (brought_steady ev rc).seq

/-- The records the observer's changes are about. -/
theorem exactly_seq {s : ℕ} {f : DqRec → DqRec} (hf : ∀ x, (f x).seq = x.seq) {x y z : DqRec}
    (hxy : Exactly s f x y) (hyz : Handed y z) : z.seq = x.seq := by
  rw [(handed_fares hyz).seq, hxy]
  split_ifs
  · exact hf x
  · rfl

/-- A step in which no retraction of a record acts and no verdict on it arrives lets it be. -/
theorem moves_kept (hinv : QueueInv q h.nextCall) (hn : n < q.nextSeq)
    (hm : Moves q d h l q' d' h') (hacts : actsBy n q l = []) (hverdicts : verdictsBy n q l = []) :
    Kept n q q' := by
  cases hm with
  | refused hcall hb =>
    obtain ⟨x, -, rfl⟩ := submitBegin_refused hb
    exact .same rfl
  | reserved hcall hfree hb => exact .reserves hn (submitBegin_begun hb)
  | noRecord hst hb => exact .same rfl
  | retracting hfree hb => exact .begins hinv.table hb
  | write | cut => exact .same rfl
  | syncBegin _ | fsyncRet _ | dirRet _ | syncSettle _ | syncFail _ _ => exact .same rfl
  | submitEnd hc hpos hlen hset hp =>
    rename_i c offers p durable
    obtain ⟨hcommit, -, hframe⟩ := hinv.settles hc hlen hp
    refine (Kept.settles ?_ ?_ hframe).after rfl
    · exact hinv.table.congr rfl rfl rfl rfl rfl
    · exact hcommit
  | cancelGone hc hzero hset hfind | cancelTell hc hpc | tearDown | noDrain _ => exact .same rfl
  | cancelEnd hc hzero hset hi hseq hr =>
    rename_i c m rs durable stands i rc q₁
    obtain ⟨hq₀, hret, hdone⟩ := hinv.retracts hc hzero hset hi hseq hr
    have hother : rc.seq ≠ n := by
      rw [actsBy_cancelEnd hc hzero hset, hseq.symm] at hacts
      intro heq
      rw [if_pos heq] at hacts
      cases hacts
    have hframe := retracted_other hq₀ hi hret hdone
    have hkept : Kept n { q with jnl := unregisterWaiter q.jnl c.id } q₁ :=
      .of_frame hframe (fun x x' hx => hx.1)
        fun x x' hx hxn => handed_fares (hx.2 fun heq => hother (heq.symm.trans hxn))
    have hfrom : Kept n q q₁ := hkept.after rfl
    refine hfrom.trans ?_
    cases stands with
    | true | false => exact .same rfl
  | event htear hp =>
    rcases observed_frame hinv.table (dqOnEvent_some hinv.table hp) with ⟨heq, -⟩ | ⟨rc, hat, hf⟩
    · rw [heq]
      exact .same rfl
    · refine .of_frame hf ?_ ?_
      · rintro x z ⟨y, hxy, hyz⟩
        exact exactly_seq (eventRec_seq _) hxy hyz
      · rintro x z ⟨y, hxy, hyz⟩ hxn
        refine Fares.trans ?_ (handed_fares hyz)
        rw [hxy]
        split_ifs with hseq
        · rw [verdictsBy_event hat, if_pos (hseq.symm.trans hxn), Option.toList_eq_nil_iff] at hverdicts
          rw [eventRec_eq, hverdicts]
          exact (brought_steady _ x).fares
        · exact (Steady.refl x).fares
  | recover hr =>
    exact .of_frame (gptpsDqRecover_handings hinv.table hr).frame
      (fun x x' hx => (handed_fares hx).seq) fun x x' hx _ => handed_fares hx
  | compact _ hw => exact .rewrites hw
  | drain _ hw => exact Kept.trans .drain (.rewrites hw)

/-- The numbers and the handles that were given stay given. -/
theorem moves_grow (hinv : QueueInv q h.nextCall) (hm : Moves q d h l q' d' h') :
    q.nextSeq ≤ q'.nextSeq ∧ ∀ x ∈ q.issued, x ∈ q'.issued := by
  have hsame {q₁ : Dq} (hnext : q₁.nextSeq = q.nextSeq) (hissued : q₁.issued = q.issued) :
      q.nextSeq ≤ q₁.nextSeq ∧ ∀ x ∈ q.issued, x ∈ q₁.issued :=
    ⟨le_of_eq hnext.symm, fun x hx => hissued ▸ hx⟩
  have hrewrites {q₀ q₁ : Dq} {o : RewriteOut} {st : Status} {rep : Bool} {d₀ : Disk}
      (hw : Rewrites q₀ d₀ o q₁ d' st rep) (hnext : q₀.nextSeq = q.nextSeq)
      (hissued : q₀.issued = q.issued) : q.nextSeq ≤ q₁.nextSeq ∧ ∀ x ∈ q.issued, x ∈ q₁.issued := by
    cases hw <;> exact hsame hnext hissued
  cases hm with
  | refused hcall hb =>
    obtain ⟨x, -, rfl⟩ := submitBegin_refused hb
    exact hsame rfl rfl
  | reserved hcall hfree hb =>
    obtain ⟨x, alloc, -, rfl⟩ := (submitBegin_begun hb).made
    exact ⟨Nat.le_add_right .., fun x hx => hx⟩
  | noRecord hst hb => exact hsame rfl rfl
  | retracting hfree hb =>
    obtain ⟨i, rc, -, -, -, -, -, rfl⟩ := cancelBegin_some hinv.table hb
    exact hsame rfl rfl
  | write | cut => exact hsame rfl rfl
  | syncBegin _ | fsyncRet _ | dirRet _ | syncSettle _ | syncFail _ _ => exact hsame rfl rfl
  | submitEnd hc hpos hlen hset hp =>
    obtain ⟨-, -, hf⟩ := hinv.settles hc hlen hp
    exact ⟨le_of_eq hf.nextSeq.symm, hf.issued⟩
  | cancelGone hc hzero hset hfind | cancelTell hc hpc | tearDown => exact hsame rfl rfl
  | cancelEnd hc hzero hset hi hseq hr =>
    rename_i c m rs durable stands i rc q₁
    obtain ⟨hq₀, hret, hdone⟩ := hinv.retracts hc hzero hset hi hseq hr
    have hf := retracted_other hq₀ hi hret hdone
    cases stands with
    | true | false => exact ⟨le_of_eq hf.nextSeq.symm, hf.issued⟩
  | event htear hp =>
    have hf := ((dqOnEvent_some hinv.table hp).changes hinv.table).frame
    exact ⟨le_of_eq hf.nextSeq.symm, hf.issued⟩
  | recover hr =>
    have hf := (gptpsDqRecover_handings hinv.table hr).frame
    exact ⟨le_of_eq hf.nextSeq.symm, hf.issued⟩
  | compact _ hw | drain _ hw => exact hrewrites hw rfl rfl
  | noDrain _ => exact hsame rfl rfl

end Silent

end Gptps.DurableTrail
