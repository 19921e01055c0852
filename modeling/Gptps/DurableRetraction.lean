import Gptps.DurableTrail

/-!
# Retraction against verdict

Any number of calls may be withdrawing one record while the engine's verdict on it arrives. The
first retraction that acts with a durable 'D' withdraws the record, and all that act later succeed
with it; if there is none, the last verdict that arrived closes the record once the last retraction
has failed.
-/

namespace Gptps.DurableRetraction

open JournalFormat DurableRecords DurableIndex DurableState DurableApi DurableSystem DurableTable
  List
open DurableChange DurableStep DurableCalls DurableAnswers DurableTrail

variable {c : ℕ} {s : Sys} {ls : List Label}

section Fate

variable {calls : List Call} {x : Call}

/-- A call answered success, or that the engine is tearing down. -/
def Succeeded (h : History) (c : ℕ) : Prop := answersTo h c = [.ok] ∨ answersTo h c = [.shutdown]

/-- A retraction whose 'D' was not durable answered GPTPS_E_IO. -/
def Failed (h : History) (a : ℕ × Bool) : Prop := a.2 = false ∧ answersTo h a.1 = [.io]

/-- A retraction of record `n` succeeded, or only the engine is still to be told. -/
def Stands (n : ℕ) (q : Dq) (h : History) (c : ℕ) : Prop :=
  Succeeded h c ∨ ∃ call ∈ q.calls, call.id = c ∧ call.pc = .engine ∧ call.first = n

/-- How it stands with record `n` and what its trail says. -/
inductive Fate (n handle : ℕ) (q : Dq) (h : History) (t : Trail) : Prop
  /-- It is open: every retraction that acted failed, and the last verdict waits. -/
  | opened {rc : DqRec} (hrc : rc ∈ q.recs) (hseq : rc.seq = n) (hopen : isOpen rc = true)
      (hhandle : rc.handle = handle) (hacts : ∀ a ∈ t.acts, Failed h a)
      (hwait : rc.deferred = t.verdicts.getLast?) (happlied : t.applied = [])
      (hclosings : t.closings = [])
  /-- It was withdrawn by the first retraction that acted with a durable 'D'. -/
  | withdrawn {before after : List (ℕ × Bool)} {c p k : ℕ}
      (hgone : ∀ rc ∈ q.recs, rc.seq = n → rc.done = true ∧ rc.quarantined = false)
      (hacts : t.acts = before ++ (c, true) :: after) (hbefore : ∀ a ∈ before, Failed h a)
      (hafter : ∀ a ∈ (c, true) :: after, Stands n q h a.1) (happlied : t.applied = [])
      (hclosings : t.closings = [⟨p + 1, p, k, false⟩])
  /-- It was closed by its last verdict, after its last retraction. -/
  | judged {v : UInt8} {p : ℕ} (hclosed : openIn n q = false)
      (hidle : ∀ call ∈ q.calls, retracts n call = false) (hacts : ∀ a ∈ t.acts, Failed h a)
      (hlast : t.verdicts.getLast? = some v) (happlied : t.applied = [v])
      (hclosings : t.closings = [⟨p + 1, p, 0, v = typeQ⟩])

variable {q q' : Dq} {h h' : History} {l : Label} {n : ℕ}

theorem Failed.talks {a : ℕ × Bool} (hf : Failed h a) (ht : Talks q h l q' h')
    (hu : Unanswered q h) : Failed h' a := by
  refine ⟨hf.1, ?_⟩
  rw [ht.answered hu (by rw [hf.2]; exact cons_ne_nil _ _)]
  exact hf.2

theorem Succeeded.talks (hs : Succeeded h c) (ht : Talks q h l q' h') (hu : Unanswered q h) :
    Succeeded h' c := by
  have hne : answersTo h c ≠ [] := by
    rcases hs with hs | hs <;> rw [hs] <;> exact cons_ne_nil _ _
  unfold Succeeded
  rw [ht.answered hu hne]
  exact hs

/-- A call at another place than the one that is moved stays where it is. -/
theorem mem_movePc {id : ℕ} {pc : Pc} (hx : x ∈ calls) (hne : x.id ≠ id) : x ∈ movePc calls id pc := by
  refine mem_map.mpr ⟨x, hx, if_neg hne⟩

theorem moved_mem (pc : Pc) (hx : x ∈ calls) : { x with pc := pc } ∈ movePc calls x.id pc :=
  mem_map.mpr ⟨x, hx, if_pos rfl⟩

/-- A retraction that stands does so until it is answered. -/
theorem Stands.talks (hs : Stands n q h c) (ht : Talks q h l q' h') (hinv : CallsInv q h.nextCall)
    (hu : Unanswered q h) : Stands n q' h' c := by
  rcases hs with hs | ⟨call, hmem, hid, hpc, hfirst⟩
  · exact .inl (hs.talks ht hu)
  have hstay (hin : call ∈ q'.calls) : Stands n q' h' c := .inr ⟨call, hin, hid, hpc, hfirst⟩
  have hsame {x : Call} (hx : callOf q x.id = some x) (heq : call.id = x.id) : call = x :=
    inj_on_of_nodup_map hinv.ids hmem (callOf_mem hx) heq
  have hitems : Call.items call = 0 := hinv.engine call hmem hpc
  cases ht with
  | same hcalls _ _ | refused hcalls _ _ => exact hstay (hcalls ▸ hmem)
  | submits hcalls _ _ _ _ | retracts _ _ _ _ hcalls _ _ => exact hstay (hcalls ▸ mem_cons_of_mem _ hmem)
  | moves hx hold _ hcalls _ _ =>
    refine hstay (hcalls ▸ mem_movePc hmem fun heq => hold ?_)
    exact hsame hx heq ▸ hpc
  | submitted hx hpos hcalls _ _ =>
    refine hstay (hcalls ▸ mem_dropCall.mpr ⟨hmem, fun heq => ?_⟩)
    rw [← hsame hx heq, hitems] at hpos
    cases hpos
  | stands hx _ hset hcalls _ _ =>
    refine hstay (hcalls ▸ mem_movePc hmem fun heq => settled_pc hset ?_)
    exact hsame hx heq ▸ hpc
  | fails hx _ hset hcalls _ _ =>
    refine hstay (hcalls ▸ mem_dropCall.mpr ⟨hmem, fun heq => settled_pc hset ?_⟩)
    exact hsame hx heq ▸ hpc
  | tells hx hpc' hcalls ha hnext =>
    rename_i x shutdown
    by_cases heq : call.id = x.id
    · have hanswer := answersTo_push_self ha (heq ▸ hu.calls call hmem)
      rw [← heq, hid] at hanswer
      cases shutdown with
      | true => exact .inl (.inr hanswer)
      | false => exact .inl (.inl hanswer)
    · exact hstay (hcalls ▸ mem_dropCall.mpr ⟨hmem, heq⟩)

/-- A retraction under way goes on or acts. -/
theorem retracts_on {call : Call} (ht : Talks q h l q' h') (hinv : CallsInv q h.nextCall)
    (hmem : call ∈ q.calls) (hret : retracts n call = true) :
    (∃ call' ∈ q'.calls, call'.id = call.id ∧ retracts n call' = true) ∨
      call.id ∈ (actsBy n q l).map Prod.fst := by
  have hstay (hin : call ∈ q'.calls) : ∃ call' ∈ q'.calls, call'.id = call.id ∧
    retracts n call' = true := ⟨call, hin, rfl, hret⟩
  have hsame {x : Call} (hx : callOf q x.id = some x) (heq : call.id = x.id) : call = x :=
    inj_on_of_nodup_map hinv.ids hmem (callOf_mem hx) heq
  obtain ⟨hitems, hfirst, hpc⟩ := of_decide_eq_true hret
  cases ht with
  | same hcalls _ _ | refused hcalls _ _ => exact .inl (hstay (hcalls ▸ hmem))
  | submits hcalls _ _ _ _ | retracts _ _ _ _ hcalls _ _ =>
    exact .inl (hstay (hcalls ▸ mem_cons_of_mem _ hmem))
  | moves hx hold hnew hcalls ha hnext =>
    rename_i x pc
    by_cases heq : call.id = x.id
    · refine .inl ⟨{ call with pc := pc }, ?_, rfl, decide_eq_true ⟨hitems, hfirst, hnew⟩⟩
      rw [hcalls, ← heq]
      exact moved_mem pc hmem
    · exact .inl (hstay (hcalls ▸ mem_movePc hmem heq))
  | submitted hx hpos hcalls _ _ =>
    refine .inl (hstay (hcalls ▸ mem_dropCall.mpr ⟨hmem, fun heq => ?_⟩))
    rw [← hsame hx heq, hitems] at hpos
    cases hpos
  | stands hx hzero hset hcalls ha hnext =>
    rename_i x m rs durable
    by_cases heq : call.id = x.id
    · refine .inr ?_
      obtain rfl := hsame hx heq
      rw [actsBy_cancelEnd hx hzero hset, if_pos hfirst]
      exact mem_cons_self
    · exact .inl (hstay (hcalls ▸ mem_movePc hmem heq))
  | fails hx hzero hset hcalls ha hnext =>
    rename_i x m rs durable
    by_cases heq : call.id = x.id
    · refine .inr ?_
      obtain rfl := hsame hx heq
      rw [actsBy_cancelEnd hx hzero hset, if_pos hfirst]
      exact mem_cons_self
    · exact .inl (hstay (hcalls ▸ mem_dropCall.mpr ⟨hmem, heq⟩))
  | tells hx hengine hcalls _ _ =>
    refine .inl (hstay (hcalls ▸ mem_dropCall.mpr ⟨hmem, fun heq => hpc ?_⟩))
    exact (hsame hx heq).symm ▸ hengine

/-- No retraction of a closed record begins. -/
theorem retracts_none (ht : Talks q h l q' h') (hinv : CallsInv q h.nextCall)
    (hclosed : openIn n q = false)
    (hidle : ∀ call ∈ q.calls, retracts n call = false) :
    ∀ call ∈ q'.calls, retracts n call = false := by
  have hmoved {id : ℕ} {pc : Pc} {x : Call} (hx : x ∈ movePc q.calls id pc)
      (hpc : ∀ y ∈ q.calls, y.id = id → y.pc = .engine → pc = .engine) :
      retracts n x = false := by
    obtain ⟨y, hy, rfl⟩ := mem_map.mp hx
    split_ifs with hid
    · refine decide_eq_false fun hno => ?_
      refine of_decide_eq_false (hidle y hy) ⟨hno.1, hno.2.1, fun hengine => hno.2.2 ?_⟩
      exact hpc y hy hid hengine
    · exact hidle y hy
  intro x hx
  cases ht with
  | same hcalls _ _ | refused hcalls _ _ => exact hidle x (hcalls ▸ hx)
  | submits hcalls _ hpos _ _ =>
    rw [hcalls] at hx
    rcases mem_cons.mp hx with rfl | hx
    · exact decide_eq_false fun hno => Nat.ne_of_gt hpos hno.1
    · exact hidle x hx
  | retracts hrc hopen _ _ hcalls _ _ =>
    rw [hcalls] at hx
    rcases mem_cons.mp hx with rfl | hx
    · refine decide_eq_false fun hno => ?_
      have hno' := openIn_false.mp hclosed _ hrc hno.2.1
      rw [hopen] at hno'
      cases hno'
    · exact hidle x hx
  | moves hy hold _ hcalls _ _ =>
    refine hmoved (hcalls ▸ hx) fun z hz hid hengine => absurd ?_ hold
    rw [← inj_on_of_nodup_map hinv.ids hz (callOf_mem hy) hid]
    exact hengine
  | submitted _ _ hcalls _ _ | fails _ _ _ hcalls _ _ | tells _ _ hcalls _ _ =>
    exact hidle x (mem_dropCall.mp (hcalls ▸ hx)).1
  | stands _ _ _ hcalls _ _ => exact hmoved (hcalls ▸ hx) fun _ _ _ _ => rfl

end Fate

section Closes

variable {q q' : Dq} {l : Label} {n : ℕ} {rc rc' : DqRec}

/-- One record leaves the pending ones, and no other does. -/
theorem pending_closed {R : DqRec → DqRec → Prop} (hq : TableInv q) (hq' : TableInv q')
    (hf : Frame R q q') (hrc : rc ∈ q.recs) (hin : counted rc = true)
    (hR : ∀ x x', R x x' → x'.seq = x.seq ∧ (x.seq ≠ rc.seq → counted x' = counted x))
    (hclosed : openIn rc.seq q' = false) : q.pending = q'.pending + 1 := by
  obtain ⟨i, hi⟩ := mem_iff_getElem?.mp hrc
  obtain ⟨l₁, l₂, hsplit, hmod⟩ := modify_split hi (fun x => { x with committing := true })
  have hmap : q'.recs.map counted =
      (q.recs.modify i fun x => { x with committing := true }).map counted := by
    refine ext_getElem? fun j => ?_
    rw [getElem?_map, getElem?_map]
    cases hj : q.recs[j]? with
    | none =>
      have hlen := List.getElem?_eq_none_iff.mp hj
      rw [getElem?_eq_none (by rw [hf.length]; exact hlen),
        getElem?_eq_none (by rw [length_modify]; exact hlen)]
    | some x =>
      obtain ⟨x', hj', hrel⟩ := hf.recs j x hj
      rw [hj']
      by_cases hij : i = j
      · subst hij
        rw [hi] at hj
        obtain rfl := Option.some.inj hj
        rw [getElem?_modify_eq, hi]
        show some (counted x') = some (counted { rc with committing := true })
        have hx' := openIn_false.mp hclosed x' (mem_of_getElem? hj') (hR _ x' hrel).1
        unfold counted
        rw [hx', Bool.not_true, Bool.and_false, Bool.false_and]
      · rw [getElem?_modify_ne _ _ hij, hj]
        show some (counted x') = some (counted x)
        rw [(hR x x' hrel).2 fun heq => hij (SortedSearch.index_unique hq.rising hi hj heq.symm)]
  have hcount : ∀ l : List DqRec, l.countP counted = (l.map counted).countP id := by
    intro l
    rw [countP_map]
    rfl
  rw [hq.pending, hq'.pending, hcount q'.recs, hmap, ← hcount, hmod, hsplit, countP_split,
    countP_split, hin]
  rw [counted_committing rfl, Bool.toNat_true, Bool.toNat_false, add_zero]

theorem handed_counted (hh : Handed rc rc') : counted rc' = counted rc := by
  rw [hh.eq]
  rfl

/-- A record that is found closed is nowhere open. -/
theorem openIn_closed (hq : TableInv q) (hrc : rc ∈ q.recs) (hclosed : isOpen rc = false) :
    openIn rc.seq q = false := by
  refine openIn_false.mpr fun x hx hseq => ?_
  rw [hq.seq_inj hx hrc hseq]
  exact hclosed

/-- A record that was withdrawn is nowhere open. -/
theorem openIn_gone (hgone : ∀ rc ∈ q.recs, rc.seq = n → rc.done = true ∧ rc.quarantined = false) :
    openIn n q = false := by
  refine openIn_false.mpr fun rc hrc hseq => ?_
  unfold isOpen
  rw [(hgone rc hrc hseq).1]
  rfl

/-- How a record stands is read off it. -/
theorem quarantinedIn_eq (hq : TableInv q) (hrc : rc ∈ q.recs) :
    quarantinedIn rc.seq q = rc.quarantined := by
  refine Bool.eq_iff_iff.mpr (any_eq_true.trans ⟨?_, fun hquar => ⟨rc, hrc, by simp [hquar]⟩⟩)
  rintro ⟨x, hx, hboth⟩
  rw [Bool.and_eq_true, decide_eq_true_eq] at hboth
  exact hq.seq_inj hx hrc hboth.1 ▸ hboth.2

/-- The verdict on an open record tells how it stands then. -/
theorem quarantined_verdict (hopen : isOpen rc = true) (v : UInt8) :
    (DurableTable.verdict v rc).quarantined = decide (v = typeQ) := by
  unfold DurableTable.verdict
  split_ifs with hv
  · exact (decide_eq_true hv).symm
  · exact (isOpen_iff.mp hopen).2.trans (decide_eq_false hv).symm

theorem closingsBy_open (ho : openIn n q' = true) : closingsBy n q q' = [] := by
  unfold closingsBy
  rw [ho, Bool.not_true, Bool.and_false]
  rfl

theorem closingsBy_closed (hc : openIn n q = false) : closingsBy n q q' = [] := by
  unfold closingsBy
  rw [hc, Bool.false_and]
  rfl

theorem closingsBy_closes (ho : openIn n q = true) (hc : openIn n q' = false) :
    closingsBy n q q' =
      [⟨q.pending, q'.pending, q'.calls.countP (retracts n), quarantinedIn n q'⟩] := by
  unfold closingsBy
  rw [ho, hc]
  rfl

/-- Where nothing acts and nothing arrives, nothing is applied. -/
theorem appliedBy_silent (hacts : actsBy n q l = []) (hverdicts : verdictsBy n q l = []) :
    appliedBy n q l = [] := by
  cases l with
  | event ev m m' rs =>
    cases hat : recAt q ev.handle with
    | none =>
      unfold appliedBy
      dsimp only
      rw [hat]
    | some rc =>
      rw [verdictsBy_event hat] at hverdicts
      unfold appliedBy
      dsimp only
      rw [hat]
      dsimp only
      split_ifs with hboth
      · rw [if_pos hboth.1] at hverdicts
        exact hverdicts
      · rfl
  | cancelEnd c m rs =>
    cases hc : callOf q c with
    | none =>
      unfold appliedBy
      dsimp only
      rw [hc]
    | some call =>
      obtain rfl := callOf_id hc
      unfold appliedBy
      dsimp only
      rw [hc]
      cases hfind : q.recs.find? (·.seq = n) with
      | none => rfl
      | some rc =>
        dsimp only
        split_ifs with hall
        · rw [actsBy_cancelEnd hc hall.1 hall.2.2.1, if_pos hall.2.1] at hacts
          cases hacts
        · rfl
  | _ => rfl

end Closes

section Follow

variable {q q' : Dq} {d d' : Disk} {h h' : History} {l : Label} {n handle : ℕ} {t : Trail}
  {rc rc' : DqRec} {m : MarkOut} {rs : List Resub} {c : Call} {durable : Bool} {v : UInt8}

/-- A silent step notes nothing but a retraction that begins. -/
theorem note_silent (hacts : actsBy n q l = []) (hverdicts : verdictsBy n q l = [])
    (hclosings : closingsBy n q q' = []) :
    note n q h l q' t = { t with begun := t.begun ++ begunBy n q h l } := by
  unfold note
  rw [hacts, hverdicts, appliedBy_silent hacts hverdicts, hclosings, append_nil,
    append_nil, append_nil, append_nil]

/-- What a step that is silent about the record leaves of its fate. -/
theorem Fate.silent (hinv : QueueInv q h.nextCall) (hu : Unanswered q h)
    (ht : Talks q h l q' h') (hkept : Kept n q q') (hhandle : handle ≠ 0)
    (hacts : actsBy n q l = []) (hverdicts : verdictsBy n q l = [])
    (hfate : Fate n handle q h t) : Fate n handle q' h' (note n q h l q' t) := by
  cases hfate with
  | opened hrc hseq hopen hh hfailed hwait happlied hclosings =>
    obtain ⟨rc', hrc', hfares⟩ := hkept.live _ hrc hseq hopen (hh ▸ hhandle)
    obtain ⟨hopen', hhandle', hdefer'⟩ := hfares.live hopen (hh ▸ hhandle)
    have hin : openIn n q' = true := openIn_iff.mpr ⟨rc', hrc', hfares.seq.trans hseq, hopen'⟩
    rw [note_silent hacts hverdicts (closingsBy_open hin)]
    exact .opened hrc' (hfares.seq.trans hseq) hopen' (hhandle'.trans hh)
      (fun a ha => (hfailed a ha).talks ht hu) (hdefer'.trans hwait) happlied hclosings
  | withdrawn hgone hsplit hbefore hafter happlied hclosings =>
    have hclosed := openIn_gone hgone
    rw [note_silent hacts hverdicts (closingsBy_closed hclosed)]
    refine .withdrawn (fun rc' hrc' hseq' => ?_) hsplit (fun a ha => (hbefore a ha).talks ht hu)
      (fun a ha => (hafter a ha).talks ht hinv.calls hu) happlied hclosings
    obtain ⟨rc, hrc, hfares⟩ := hkept.closed hclosed rc' hrc' hseq'
    exact hfares.gone (hgone rc hrc (hfares.seq.symm.trans hseq'))
  | judged hclosed hidle hfailed hlast happlied hclosings =>
    rw [note_silent hacts hverdicts (closingsBy_closed hclosed)]
    refine .judged (openIn_false.mpr fun rc' hrc' hseq' => ?_)
      (retracts_none ht hinv.calls hclosed hidle) (fun a ha => (hfailed a ha).talks ht hu) hlast
      happlied hclosings
    obtain ⟨rc, hrc, hfares⟩ := hkept.closed hclosed rc' hrc' hseq'
    exact hfares.closed (openIn_false.mp hclosed rc hrc (hfares.seq.symm.trans hseq'))

/-- The fate of an open record is read off it. -/
theorem Fate.of_open (hq : TableInv q) (hrc : rc ∈ q.recs) (hseq : rc.seq = n)
    (hopen : isOpen rc = true) (hfate : Fate n handle q h t) :
    rc.handle = handle ∧ (∀ a ∈ t.acts, Failed h a) ∧ rc.deferred = t.verdicts.getLast? ∧
      t.applied = [] ∧ t.closings = [] := by
  have hin : openIn n q = true := openIn_iff.mpr ⟨rc, hrc, hseq, hopen⟩
  cases hfate with
  | opened hrc₀ hseq₀ _ hh hfailed hwait happlied hclosings =>
    obtain rfl := hq.seq_inj hrc hrc₀ (hseq.trans hseq₀.symm)
    exact ⟨hh, hfailed, hwait, happlied, hclosings⟩
  | withdrawn hgone _ _ _ _ _ =>
    rw [isOpen_iff, (hgone rc hrc hseq).1] at hopen
    cases hopen.1
  | judged hclosed _ _ _ _ _ =>
    rw [hclosed] at hin
    cases hin

/-- A verdict arrives: it waits for the retractions under way, or closes the record. -/
theorem Fate.verdict {ev : Event} {m' : MarkOut} {p : Dq × Disk} (hinv : QueueInv q h.nextCall)
    (hinv' : QueueInv p.1 h.nextCall) (hcalls : p.1.calls = q.calls) (hhandle : handle ≠ 0)
    (hat : recAt q ev.handle = some rc)
    (hf : Frame (fun x x' => ∃ y, Exactly rc.seq (eventRec ev) x y ∧ Handed y x') q p.1)
    (hv : verdictOf ev = some v) (hfate : Fate rc.seq handle q h t) :
    Fate rc.seq handle p.1 h (note rc.seq q h (.event ev m m' rs) p.1 t) := by
  obtain ⟨hrc, hopen, -, hne⟩ := (recAt_iff hinv.table).mp hat
  obtain ⟨hh, hfailed, hwait, happlied, hclosings⟩ := hfate.of_open hinv.table hrc rfl hopen
  have hin : openIn rc.seq q = true := openIn_iff.mpr ⟨rc, hrc, rfl, hopen⟩
  have hsteady := brought_steady ev rc
  obtain ⟨z, hz, y, hy, hyz⟩ := hf.mem_left hrc
  rw [Exactly, if_pos rfl, eventRec_eq, hv] at hy
  have hacts : actsBy rc.seq q (.event ev m m' rs) = [] := rfl
  have hverdicts : verdictsBy rc.seq q (.event ev m m' rs) = [v] := by
    rw [verdictsBy_event hat, if_pos rfl, hv]
    rfl
  have hlast : (t.verdicts ++ [v]).getLast? = some v := getLast?_concat
  by_cases hret : rc.retracting = 0
  · have hnow : y = DurableTable.verdict v (brought ev rc) := by
      rw [hy]
      exact if_neg (by rw [hsteady.retracting, hret]; exact lt_irrefl 0)
    have hzclosed : isOpen z = false := by
      refine (handed_fares hyz).closed ?_
      rw [hnow]
      exact isOpen_verdict (hsteady.isOpen.trans hopen) v
    have hzseq : z.seq = rc.seq := by
      rw [(handed_fares hyz).seq, hnow, (Same.verdict _ v).seq, hsteady.seq]
    have hclosed : openIn rc.seq p.1 = false := hzseq ▸ openIn_closed hinv'.table hz hzclosed
    have hflag : quarantinedIn rc.seq p.1 = decide (v = typeQ) := by
      rw [← hzseq, quarantinedIn_eq hinv'.table hz, hyz.eq, hnow]
      exact quarantined_verdict (hsteady.isOpen.trans hopen) v
    have hpending : q.pending = p.1.pending + 1 := by
      refine pending_closed hinv.table hinv'.table hf hrc
        (counted_live hinv.table hrc hopen (hh ▸ hhandle)) ?_ hclosed
      rintro x x' ⟨w, hxw, hwx'⟩
      refine ⟨exactly_seq (eventRec_seq ev) hxw hwx', fun hother => ?_⟩
      rw [handed_counted hwx', hxw, if_neg hother]
    have hcount : q.calls.countP (retracts rc.seq) = 0 :=
      (hinv.calls.counts rc hrc).symm.trans hret
    have happly : appliedBy rc.seq q (.event ev m m' rs) = [v] := by
      unfold appliedBy
      dsimp only
      rw [hat]
      dsimp only
      rw [if_pos ⟨rfl, hret⟩, hv]
      rfl
    unfold note
    rw [hacts, hverdicts, happly, closingsBy_closes hin hclosed, hcalls, hcount, hpending, hflag,
      happlied, hclosings, append_nil]
    refine .judged hclosed (fun call hcall => ?_) hfailed hlast rfl rfl
    rw [hcalls] at hcall
    exact Bool.not_eq_true _ ▸ countP_eq_zero.mp hcount call hcall
  · have hpos : 0 < rc.retracting := Nat.pos_of_ne_zero hret
    have hnow : y = { brought ev rc with deferred := some v } := by
      rw [hy]
      exact if_pos (by rw [hsteady.retracting]; exact hpos)
    have hyne : y.handle ≠ 0 := by
      rw [hnow]
      show (brought ev rc).handle ≠ 0
      rw [hsteady.handle, hh]
      exact hhandle
    obtain rfl := hyz.live hyne
    have hyopen : isOpen z = true := by
      rw [hnow]
      exact hsteady.isOpen.trans hopen
    have hyseq : z.seq = rc.seq := by
      rw [hnow]
      exact hsteady.seq
    have happly : appliedBy rc.seq q (.event ev m m' rs) = [] := by
      unfold appliedBy
      dsimp only
      rw [hat]
      exact if_neg fun hno => hret hno.2
    unfold note
    rw [hacts, hverdicts, happly, closingsBy_open (openIn_iff.mpr ⟨z, hz, hyseq, hyopen⟩),
      append_nil, append_nil, append_nil]
    refine .opened hz hyseq hyopen ?_ hfailed ?_ happlied hclosings
    · rw [hnow]
      exact hsteady.handle.trans hh
    · rw [hnow]
      exact hlast.symm

theorem appliedBy_cancelEnd (hq : TableInv q) (hrc : rc ∈ q.recs) (hc : callOf q c.id = some c)
    (hzero : Call.items c = 0) (hset : settled q c = some durable) (hseq : rc.seq = c.first) :
    appliedBy rc.seq q (.cancelEnd c.id m rs) =
      if durable = false ∧ rc.done = false ∧ rc.retracting = 1 then rc.deferred.toList else [] := by
  unfold appliedBy
  dsimp only
  rw [hc, find_seq hq hrc]
  dsimp only
  rw [hset]
  by_cases hall : durable = false ∧ rc.done = false ∧ rc.retracting = 1
  · rw [if_pos ⟨hzero, hseq.symm, congrArg some hall.1, hall.2⟩, if_pos hall]
  · rw [if_neg (fun hno => hall ⟨Option.some.inj hno.2.2.1, hno.2.2.2⟩), if_neg hall]

/-- A retraction whose record was compacted away stands. -/
theorem Fate.vanished (hinv : QueueInv q h.nextCall) (hu : Unanswered q h) (hc : callOf q c.id = some c)
    (hzero : Call.items c = 0) (hset : settled q c = some durable)
    (hfind : findBySeq q.recs c.first = none) (hfate : Fate c.first handle q h t)
    (hq' : q' = { q with jnl := unregisterWaiter q.jnl c.id, calls := movePc q.calls c.id .engine })
    (ht : Talks q h (.cancelEnd c.id m rs) q' h) :
    Fate c.first handle q' h (note c.first q h (.cancelEnd c.id m rs) q' t) := by
  have hno : ∀ rc ∈ q.recs, rc.seq ≠ c.first := by
    intro rc hrc hseq
    obtain ⟨i, hi, -⟩ := hinv.table.findBySeq_mem hrc
    rw [hseq, hfind] at hi
    cases hi
  have hrecs : q'.recs = q.recs := by rw [hq']
  have hclosed : openIn c.first q = false := openIn_false.mpr fun rc hrc hseq => absurd hseq (hno rc hrc)
  have happly : appliedBy c.first q (.cancelEnd c.id m rs) = [] := by
    unfold appliedBy
    dsimp only
    rw [hc, find?_eq_none.mpr fun rc hrc => by
      rw [decide_eq_true_eq]
      exact hno rc hrc]
  have hacts : actsBy c.first q (.cancelEnd c.id m rs) = [(c.id, durable)] := by
    rw [actsBy_cancelEnd hc hzero hset, if_pos rfl]
  have hmem := callOf_mem hc
  have hstands : Stands c.first q' h c.id := by
    refine .inr ⟨{ c with pc := .engine }, ?_, rfl, rfl, rfl⟩
    rw [hq']
    exact moved_mem .engine hmem
  cases hfate with
  | opened hrc hseq _ _ _ _ _ _ => exact absurd hseq (hno _ hrc)
  | withdrawn hgone hsplit hbefore hafter happlied hclosings =>
    unfold note
    rw [hacts, happly, closingsBy_closed hclosed, append_nil, append_nil, hsplit,
      append_assoc]
    refine .withdrawn (hrecs ▸ hgone) rfl (fun a ha => (hbefore a ha).talks ht hu) ?_ happlied
      hclosings
    intro a ha
    rcases mem_append.mp (show a ∈ ((_, true) :: _) ++ [(c.id, durable)] from ha) with ha | ha
    · exact (hafter a ha).talks ht hinv.calls hu
    · rw [mem_singleton.mp ha]
      exact hstands
  | judged _ hidle _ _ _ _ =>
    have hyes : retracts c.first c = true := decide_eq_true ⟨hzero, rfl, settled_pc hset⟩
    rw [hidle c hmem] at hyes
    cases hyes

/-- The record of a retraction that acted. -/
theorem retracted_rec {i : ℕ} {stands : Bool} (hq : TableInv q) (hi : q.recs[i]? = some rc)
    (hret : 0 < rc.retracting) (hr : Retracted q d i rc rs durable q' d' stands) :
    ∃ z ∈ q'.recs, z.seq = rc.seq ∧
      (durable = true ∧ Handed (released true rc) z ∧ stands = true ∨
        durable = false ∧ z = released false rc ∧ stands = rc.done ∧
          (rc.done = true ∨ rc.deferred = none ∨ rc.retracting ≠ 1) ∨
        durable = false ∧ stands = false ∧ rc.done = false ∧ rc.retracting = 1 ∧
          ∃ v, rc.deferred = some v ∧ z = DurableTable.verdict v (released false rc)) := by
  have hrel := TableInv.release hq hi hret durable
  cases hr with
  | durable =>
    exact ⟨released true rc, mem_of_getElem? (getElem?_release hi), rfl,
      .inl ⟨rfl, .refl _, rfl⟩⟩
  | turn hopen htrial hnext =>
    obtain ⟨z, hz, hhanded⟩ := (turn_handings hrel hnext).frame.mem_left
      (mem_of_getElem? (getElem?_release hi))
    exact ⟨z, hz, (handed_fares hhanded).seq, .inl ⟨rfl, hhanded, rfl⟩⟩
  | failed hrest =>
    exact ⟨released false rc, mem_of_getElem? (getElem?_release hi), rfl,
      .inr (.inl ⟨rfl, rfl, rfl, hrest⟩)⟩
  | verdict hopen hlast hv hc =>
    obtain ⟨z, hz, heq⟩ := (closeRec_exactly hrel (getElem?_release hi) hc).mem_left
      (mem_of_getElem? (getElem?_release hi))
    rw [Exactly, if_pos rfl] at heq
    refine ⟨z, hz, ?_, .inr (.inr ⟨rfl, rfl, hopen, hlast, _, hv, heq⟩)⟩
    rw [heq]
    exact (Same.verdict _ _).seq

/-- A retraction of record `rc` by the call `c` acts, and leaves the record `z`. -/
structure Acting (q : Dq) (h : History) (rc : DqRec) (c : ℕ) (durable stands : Bool) (l : Label)
    (q' : Dq) (h' : History) (z : DqRec) : Prop where
  /-- The queue before. -/
  inv : QueueInv q h.nextCall
  /-- The queue after. -/
  inv' : QueueInv q' h'.nextCall
  /-- The calls under way have no answer. -/
  unanswered : Unanswered q h
  /-- What the step does to the calls. -/
  talks : Talks q h l q' h'
  /-- The record before. -/
  mem : rc ∈ q.recs
  /-- The record after. -/
  mem' : z ∈ q'.recs
  /-- Its number. -/
  seq : z.seq = rc.seq
  /-- The call acts. -/
  acts : actsBy rc.seq q l = [(c, durable)]
  /-- No verdict arrives. -/
  verdicts : verdictsBy rc.seq q l = []
  /-- What waited may be applied. -/
  applied : appliedBy rc.seq q l =
    if durable = false ∧ rc.done = false ∧ rc.retracting = 1 then rc.deferred.toList else []
  /-- The call was a retraction of it. -/
  called : ∃ call ∈ q.calls, retracts rc.seq call = true
  /-- If it stands, the engine is to be told. -/
  stays : stands = true → Stands rc.seq q' h' c
  /-- Otherwise the call has failed. -/
  fails : stands = false → answersTo h' c = [.io]
  /-- A record that is closed is no longer pending. -/
  pending : isOpen rc = true → rc.handle ≠ 0 → isOpen z = false → q.pending = q'.pending + 1

section Acting

variable {c : ℕ} {z : DqRec} {durable stands : Bool}

theorem Acting.unique (ha : Acting q h rc c durable stands l q' h' z) {x : DqRec}
    (hx : x ∈ q'.recs) (hseq : x.seq = rc.seq) : x = z :=
  ha.inv'.table.seq_inj hx ha.mem' (hseq.trans ha.seq.symm)

theorem Acting.closes (ha : Acting q h rc c durable stands l q' h' z) (hz : isOpen z = false) :
    openIn rc.seq q' = false :=
  ha.seq ▸ openIn_closed ha.inv'.table ha.mem' hz

/-- What a closing notes. -/
theorem Acting.closing (ha : Acting q h rc c durable stands l q' h' z) (hopen : isOpen rc = true)
    (hne : rc.handle ≠ 0) (hz : isOpen z = false) : closingsBy rc.seq q q' =
      [⟨q'.pending + 1, q'.pending, q'.calls.countP (retracts rc.seq), z.quarantined⟩] := by
  rw [closingsBy_closes (openIn_iff.mpr ⟨rc, ha.mem, rfl, hopen⟩) (ha.closes hz),
    ha.pending hopen hne hz, ← ha.seq, quarantinedIn_eq ha.inv'.table ha.mem']

/-- The retractions that acted before and this one have failed. -/
theorem Acting.failed (ha : Acting q h rc c false false l q' h' z)
    (hfailed : ∀ a ∈ t.acts, Failed h a) : ∀ a ∈ t.acts ++ [(c, false)], Failed h' a := by
  intro a hmem
  rcases mem_append.mp hmem with hmem | hmem
  · exact (hfailed a hmem).talks ha.talks ha.unanswered
  · rw [mem_singleton.mp hmem]
    exact ⟨rfl, ha.fails rfl⟩

/-- The first durable retraction withdraws the record. -/
theorem Acting.withdraws (ha : Acting q h rc c true true l q' h' z) (hhandle : handle ≠ 0)
    (hopen : isOpen rc = true) (hz : Handed (released true rc) z)
    (hfate : Fate rc.seq handle q h t) : Fate rc.seq handle q' h' (note rc.seq q h l q' t) := by
  obtain ⟨hh, hfailed, -, happlied, hclosings⟩ := hfate.of_open ha.inv.table ha.mem rfl hopen
  have hzc : isOpen z = false := by
    refine (handed_fares hz).closed ?_
    rw [isOpen_released, Bool.not_true, Bool.and_false]
  have hflag : z.quarantined = false := by
    rw [hz.eq]
    exact (isOpen_iff.mp hopen).2
  unfold note
  rw [ha.acts, ha.applied, if_neg (fun hno => by cases hno.1), ha.closing hopen (hh ▸ hhandle) hzc,
    hflag, hclosings, happlied]
  refine .withdrawn ?_ (rfl : t.acts ++ [(c, true)] = t.acts ++ (c, true) :: [])
    (fun a hmem => (hfailed a hmem).talks ha.talks ha.unanswered) ?_ rfl rfl
  · intro x hx hxseq
    rw [ha.unique hx hxseq]
    refine (handed_fares hz).gone ⟨?_, (isOpen_iff.mp hopen).2⟩
    show (rc.done || isOpen rc) = true
    rw [hopen, Bool.or_true]
  · intro a hmem
    rw [mem_singleton.mp hmem]
    exact ha.stays rfl

/-- A retraction that fails leaves the record open where no verdict waits, or others are left. -/
theorem Acting.gives_up (ha : Acting q h rc c false false l q' h' z) (hopen : isOpen rc = true)
    (hz : z = released false rc) (hrest : rc.deferred = none ∨ rc.retracting ≠ 1)
    (hfate : Fate rc.seq handle q h t) : Fate rc.seq handle q' h' (note rc.seq q h l q' t) := by
  obtain ⟨hh, hfailed, hwait, happlied, hclosings⟩ := hfate.of_open ha.inv.table ha.mem rfl hopen
  have hzopen : isOpen z = true := by
    rw [hz, isOpen_released, hopen]
    rfl
  have hdefer : z.deferred = rc.deferred := by
    rw [hz]
    show (if rc.retracting = 1 then none else rc.deferred) = rc.deferred
    rcases hrest with hnone | hmore
    · rw [hnone, ite_self]
    · rw [if_neg hmore]
  have hnothing : appliedBy rc.seq q l = [] := by
    rw [ha.applied]
    rcases hrest with hnone | hmore
    · rw [hnone]
      exact ite_self _
    · exact if_neg fun hno => hmore hno.2.2
  unfold note
  rw [ha.acts, ha.verdicts, hnothing,
    closingsBy_open (openIn_iff.mpr ⟨z, ha.mem', ha.seq, hzopen⟩), append_nil,
    append_nil, append_nil]
  refine .opened ha.mem' ha.seq hzopen ?_ (ha.failed hfailed) (hdefer.trans hwait) happlied hclosings
  rw [hz]
  exact hh

/-- The last retraction fails, and the verdict that waited closes the record. -/
theorem Acting.judges (ha : Acting q h rc c false false l q' h' z) (hhandle : handle ≠ 0)
    (hopen : isOpen rc = true) (hone : rc.retracting = 1) (hv : rc.deferred = some v)
    (hz : z = DurableTable.verdict v (released false rc)) (hfate : Fate rc.seq handle q h t) :
    Fate rc.seq handle q' h' (note rc.seq q h l q' t) := by
  obtain ⟨hh, hfailed, hwait, happlied, hclosings⟩ := hfate.of_open ha.inv.table ha.mem rfl hopen
  have hrel : isOpen (released false rc) = true := by
    rw [isOpen_released, hopen]
    rfl
  have hzc : isOpen z = false := hz ▸ isOpen_verdict hrel v
  have hflag : z.quarantined = decide (v = typeQ) := hz ▸ quarantined_verdict hrel v
  have hleft : q'.calls.countP (retracts rc.seq) = 0 := by
    have hcount := ha.inv'.calls.counts z ha.mem'
    rw [ha.seq] at hcount
    rw [← hcount, hz, (Same.verdict _ v).retracting]
    show rc.retracting - 1 = 0
    rw [hone]
  unfold note
  rw [ha.acts, ha.verdicts, ha.applied, if_pos ⟨rfl, (isOpen_iff.mp hopen).1, hone⟩, hv,
    ha.closing hopen (hh ▸ hhandle) hzc, hleft, hflag, hclosings, happlied, append_nil]
  refine .judged (ha.closes hzc) (fun call hcall => ?_) (ha.failed hfailed) (hwait ▸ hv) rfl rfl
  exact Bool.not_eq_true _ ▸ countP_eq_zero.mp hleft call hcall

/-- Whatever acts on a record that was withdrawn stands. -/
theorem Acting.follows (ha : Acting q h rc c durable stands l q' h' z) (hclosed : isOpen rc = false)
    (hz : rc.done = true ∧ rc.quarantined = false →
      stands = true ∧ z.done = true ∧ z.quarantined = false)
    (hfate : Fate rc.seq handle q h t) : Fate rc.seq handle q' h' (note rc.seq q h l q' t) := by
  have hclosed' := openIn_closed ha.inv.table ha.mem hclosed
  cases hfate with
  | opened hrc₀ hseq₀ hopen₀ _ _ _ _ _ =>
    rw [← ha.inv.table.seq_inj ha.mem hrc₀ hseq₀.symm, hclosed] at hopen₀
    cases hopen₀
  | withdrawn hgone hsplit hbefore hafter happlied hclosings =>
    obtain ⟨hdone, hquar⟩ := hgone rc ha.mem rfl
    obtain ⟨hst, hzgone⟩ := hz ⟨hdone, hquar⟩
    unfold note
    rw [ha.acts, ha.applied, if_neg (fun hno => by rw [hdone] at hno; cases hno.2.1),
      closingsBy_closed hclosed', append_nil, append_nil, hsplit, append_assoc]
    refine .withdrawn (fun x hx hxseq => ha.unique hx hxseq ▸ hzgone) rfl
      (fun a hmem => (hbefore a hmem).talks ha.talks ha.unanswered) ?_ happlied hclosings
    intro a hmem
    rcases mem_append.mp (show a ∈ ((_, true) :: _) ++ [(c, durable)] from hmem) with hmem | hmem
    · exact (hafter a hmem).talks ha.talks ha.inv.calls ha.unanswered
    · rw [mem_singleton.mp hmem]
      exact ha.stays hst
  | judged _ hidle _ _ _ _ =>
    obtain ⟨call, hcall, hyes⟩ := ha.called
    rw [hidle call hcall] at hyes
    cases hyes

end Acting

section Acted

variable {i : ℕ} {stands : Bool} {q₁ : Dq} (hinv : QueueInv q h.nextCall) (hu : Unanswered q h)
  (hc : callOf q c.id = some c) (hzero : Call.items c = 0) (hset : settled q c = some durable)
  (hi : q.recs[i]? = some rc) (hseq : rc.seq = c.first)
  (hr : Retracted { q with jnl := unregisterWaiter q.jnl c.id } d i rc rs durable q₁ d' stands)
  (hq' : q' = if stands then { q₁ with calls := movePc q₁.calls c.id .engine }
    else { q₁ with calls := dropCall q₁.calls c.id })
  (hh' : h' = if stands then h else h.answer c.id .io) (hinv' : QueueInv q' h'.nextCall)
  (ht : Talks q h (.cancelEnd c.id m rs) q' h')

include hinv hu hc hzero hset hi hseq hr hq' hh' hinv' ht

/-- What is known of a retraction that acts. -/
theorem acting {z : DqRec} (hz : z ∈ q₁.recs) (hzseq : z.seq = rc.seq) :
    Acting q h rc c.id durable stands (.cancelEnd c.id m rs) q' h' z := by
  have hmem := callOf_mem hc
  have hrc := mem_of_getElem? hi
  have hq₀ := (hinv.journal (unregisterWaiter q.jnl c.id)).table
  have hret := hinv.calls.retracting_pos hmem hzero (settled_pc hset) hrc hseq
  have hf := retracted_other hq₀ hi hret hr
  have hrecs : q'.recs = q₁.recs := by rw [hq']; split_ifs <;> rfl
  have hpend : q'.pending = q₁.pending := by rw [hq']; split_ifs <;> rfl
  have hq₁ : TableInv q₁ := by
    refine hinv'.table.congr hrecs.symm ?_ hpend.symm ?_ ?_
    · rw [hq']; split_ifs <;> rfl
    · rw [hq']; split_ifs <;> rfl
    · rw [hq']; split_ifs <;> rfl
  refine ⟨hinv, hinv', hu, ht, hrc, hrecs ▸ hz, hzseq, ?_, rfl,
    appliedBy_cancelEnd hinv.table hrc hc hzero hset hseq,
    ⟨c, hmem, decide_eq_true ⟨hzero, hseq.symm, settled_pc hset⟩⟩, ?_, ?_, ?_⟩
  · rw [actsBy_cancelEnd hc hzero hset, if_pos hseq.symm]
  · intro hst
    refine .inr ⟨{ c with pc := .engine }, ?_, rfl, rfl, hseq.symm⟩
    rw [hq', if_pos hst]
    show _ ∈ movePc q₁.calls c.id .engine
    rw [hf.calls]
    exact moved_mem .engine hmem
  · intro hst
    rw [hst, if_neg Bool.false_ne_true] at hh'
    refine answersTo_push_self ?_ (hu.calls c hmem)
    rw [hh']
    rfl
  · intro hopen hne hzc
    have hdrop := pending_closed hq₀ hq₁ hf hrc (counted_live hinv.table hrc hopen hne)
      (fun x x' hx => ⟨hx.1, fun hno => handed_counted (hx.2 hno)⟩)
      (hzseq ▸ openIn_closed hq₁ hz hzc)
    rw [hpend]
    exact hdrop

/-- A retraction of the record acts. -/
theorem Fate.acted (hhandle : handle ≠ 0) (hfate : Fate rc.seq handle q h t) :
    Fate rc.seq handle q' h' (note rc.seq q h (.cancelEnd c.id m rs) q' t) := by
  have hq₀ := (hinv.journal (unregisterWaiter q.jnl c.id)).table
  have hret := hinv.calls.retracting_pos (callOf_mem hc) hzero (settled_pc hset)
    (mem_of_getElem? hi) hseq
  obtain ⟨z, hz, hzseq, hcases⟩ := retracted_rec hq₀ hi hret hr
  have ha := acting hinv hu hc hzero hset hi hseq hr hq' hh' hinv' ht hz hzseq
  by_cases hopen : isOpen rc = true
  · have hdone : rc.done = false := (isOpen_iff.mp hopen).1
    rcases hcases with ⟨rfl, hhanded, rfl⟩ | ⟨rfl, hzeq, rfl, hrest⟩ | ⟨rfl, rfl, -, hone, v, hv, hzeq⟩
    · exact ha.withdraws hhandle hopen hhanded hfate
    · rw [hdone] at ha hrest
      exact ha.gives_up hopen hzeq (hrest.resolve_left Bool.false_ne_true) hfate
    · exact ha.judges hhandle hopen hone hv hzeq hfate
  · rw [Bool.not_eq_true] at hopen
    refine ha.follows hopen (fun hgone => ?_) hfate
    rcases hcases with ⟨rfl, hhanded, rfl⟩ | ⟨rfl, hzeq, hst, -⟩ | ⟨-, -, hno, -⟩
    · refine ⟨rfl, (handed_fares hhanded).gone ⟨?_, hgone.2⟩⟩
      show (rc.done || isOpen rc) = true
      rw [hgone.1, Bool.true_or]
    · rw [hzeq]
      exact ⟨hst.trans hgone.1, hgone⟩
    · rw [hgone.1] at hno
      cases hno

end Acted

/-- What is known of record `n` along a run. -/
structure Follows (n handle : ℕ) (q : Dq) (h : History) (t : Trail) : Prop where
  /-- Its number was given. -/
  number : n < q.nextSeq
  /-- Its handle was issued for it. -/
  issued : (handle, n) ∈ q.issued
  /-- It has an execution. -/
  live : handle ≠ 0
  /-- Every retraction that began has acted or is under way. -/
  begun : ∀ c ∈ t.begun, c ∈ t.acts.map Prod.fst ∨
    ∃ call ∈ q.calls, call.id = c ∧ retracts n call = true
  /-- What became of it. -/
  fate : Fate n handle q h t

/-- A retraction that begins is under way. -/
theorem moves_begun (hinv : QueueInv q h.nextCall) (hm : Moves q d h l q' d' h') :
    ∀ c ∈ begunBy n q h l, ∃ call ∈ q'.calls, call.id = c ∧ retracts n call = true := by
  intro c hc
  cases hm with
  | noRecord hst hb =>
    rename_i handle st
    cases hat : recAt q handle with
    | none =>
      unfold begunBy at hc
      dsimp only at hc
      rw [hat] at hc
      cases hc
    | some rc =>
      obtain ⟨i, hfind, hi⟩ := Option.bind_eq_some_iff.mp hat
      unfold cancelBegin at hb
      rw [hfind, Option.bind_some, hi] at hb
      cases hb
  | retracting hfree hb =>
    rename_i handle
    obtain ⟨i, rc, hi, hopen, hhandle, hne, -, rfl⟩ := cancelBegin_some hinv.table hb
    have hat := (recAt_iff hinv.table).mpr ⟨mem_of_getElem? hi, hopen, hhandle, hhandle ▸ hne⟩
    unfold begunBy at hc
    dsimp only at hc
    rw [hat] at hc
    dsimp only at hc
    split_ifs at hc with hseq
    · rw [mem_singleton.mp hc]
      exact ⟨_, mem_cons_self, rfl, decide_eq_true ⟨rfl, hseq, fun hno => by cases hno⟩⟩
    · cases hc
  | _ => cases hc

theorem Follows.fate_step (hinv : QueueInv q h.nextCall) (hu : Unanswered q h)
    (hm : Moves q d h l q' d' h') (hf : Follows n handle q h t) :
    Fate n handle q' h' (note n q h l q' t) := by
  have ht := moves_talks hinv hm
  have hinv' := Moves.inv hinv hm
  have hsilent (hacts : actsBy n q l = []) (hverdicts : verdictsBy n q l = []) :
      Fate n handle q' h' (note n q h l q' t) :=
    hf.fate.silent hinv hu ht (moves_kept hinv hf.number hm hacts hverdicts) hf.live hacts hverdicts
  cases hm with
  | event htear hp =>
    rename_i ev m m' rs p
    have hobs := dqOnEvent_some hinv.table hp
    rcases observed_frame hinv.table hobs with ⟨-, hnone⟩ | ⟨rc, hat, hframe⟩
    · refine hsilent rfl ?_
      unfold verdictsBy
      dsimp only
      rcases hnone with hnone | hnone
      · rw [hnone]
      · cases recAt q ev.handle with
        | none => rfl
        | some rc =>
          rw [hnone]
          exact ite_self _
    · by_cases hseq : rc.seq = n
      · subst hseq
        cases hv : verdictOf ev with
        | none =>
          refine hsilent rfl ?_
          rw [verdictsBy_event hat, if_pos rfl, hv]
          rfl
        | some v => exact hf.fate.verdict hinv hinv' hframe.calls hf.live hat hframe hv
      · refine hsilent rfl ?_
        rw [verdictsBy_event hat, if_neg hseq]
  | cancelGone hc hzero hset hfind =>
    rename_i c m rs durable
    by_cases hseq : c.first = n
    · subst hseq
      exact hf.fate.vanished hinv hu hc hzero hset hfind rfl ht
    · refine hsilent ?_ rfl
      rw [actsBy_cancelEnd hc hzero hset, if_neg hseq]
  | cancelEnd hc hzero hset hi hseq hr =>
    rename_i c m rs durable stands i rc q₁
    by_cases hn : c.first = n
    · obtain rfl : rc.seq = n := hseq.trans hn
      obtain ⟨-, -, hdone⟩ := hinv.retracts hc hzero hset hi hseq hr
      exact Fate.acted hinv hu hc hzero hset hi hseq hdone rfl rfl hinv' ht hf.live hf.fate
    · refine hsilent ?_ rfl
      rw [actsBy_cancelEnd hc hzero hset, if_neg hn]
  | _ => exact hsilent rfl rfl

/-- Every step of a running queue keeps track of the record. -/
theorem Follows.step (hinv : QueueInv q h.nextCall) (hu : Unanswered q h)
    (hm : Moves q d h l q' d' h') (hf : Follows n handle q h t) :
    Follows n handle q' h' (note n q h l q' t) := by
  obtain ⟨hnext, hissued⟩ := moves_grow hinv hm
  refine ⟨lt_of_lt_of_le hf.number hnext, hissued _ hf.issued, hf.live, ?_,
    hf.fate_step hinv hu hm⟩
  intro c hc
  show c ∈ (t.acts ++ actsBy n q l).map Prod.fst ∨ _
  rw [map_append, mem_append]
  rcases mem_append.mp (show c ∈ t.begun ++ begunBy n q h l from hc) with hc | hc
  · rcases hf.begun c hc with hacted | ⟨call, hmem, rfl, hret⟩
    · exact .inl (.inl hacted)
    · rcases retracts_on (moves_talks hinv hm) hinv.calls hmem hret with hgoes | hacts
      · exact .inr hgoes
      · exact .inl (.inr hacts)
  · exact .inr (moves_begun hinv hm c hc)

/-- Whether a step ends the run of the queue. -/
def endsRun : Label → Bool
  | .closeQueue => true
  | .powerCut _ _ => true
  | .die => true
  | _ => false

/-- A run of the queue keeps track of the record. -/
theorem follows_run {s' : Sys} (hinv : Inv s) (hsilent : Silent s) (hq : s.q = some q)
    (hstay : ∀ l ∈ ls, endsRun l = false) (hrun : run s ls = some s') (hq' : s'.q = some q')
    (hf : Follows n handle q s.hist t) : Follows n handle q' s'.hist (trailFrom n s t ls) := by
  induction ls generalizing s q t with
  | nil =>
    cases hrun
    rw [hq] at hq'
    cases hq'
    exact hf
  | cons l ls ih =>
    obtain ⟨s₁, hstep, hrest⟩ := Option.bind_eq_some_iff.mp hrun
    have hl := hstay l mem_cons_self
    have hup : stepUp q s.disk s.hist l = some s₁ := by
      unfold step at hstep
      rw [hq] at hstep
      exact hstep
    rcases stepUp_cases (hinv q hq).table hup with ⟨q₁, d₁, h₁, hm, hs₁⟩ | ⟨d₁, hstop, -⟩
    · have hfollows := hf.step (hinv q hq) (hsilent.2 q hq) hm
      have hs₁q : s₁.q = some q₁ := by rw [hs₁]; rfl
      have htrail : trailFrom n s t (l :: ls) =
          trailFrom n s₁ (note n q s.hist l q₁ t) ls := by
        rw [trailFrom, hstep]
        dsimp only
        rw [hq, hs₁q]
      rw [htrail]
      refine ih (inv_step hinv hstep) (silent_step hinv hsilent hstep) hs₁q
        (fun l' hl' => hstay l' (mem_cons_of_mem _ hl')) hrest ?_
      rw [hs₁]
      obtain ⟨hnumber, hissued, hlive, hbegun, hfate⟩ := hfollows
      refine ⟨hnumber, hissued, hlive, hbegun, ?_⟩
      cases hfate with
      | opened a b c d e f g i => exact .opened a b c d e f g i
      | withdrawn a b c d e f => exact .withdrawn a b c d e f
      | judged a b c d e f => exact .judged a b c d e f
    · cases hstop <;> cases hl

end Follow

section Outcome

variable {q : Dq} {h : History} {n handle : ℕ} {t : Trail}

/-- The first durable retraction that acted is where the trail says. -/
theorem first_durable {before after before' after' : List (ℕ × Bool)} {c' : ℕ}
    (heq : before ++ (c, true) :: after = before' ++ (c', true) :: after')
    (hb : ∀ a ∈ before, a.2 = false) (hb' : ∀ a ∈ before', a.2 = false) :
    before = before' ∧ c = c' ∧ after = after' := by
  induction before generalizing before' with
  | nil =>
    cases before' with
    | nil =>
      cases heq
      exact ⟨rfl, rfl, rfl⟩
    | cons a before' =>
      have hhead := (cons.inj heq).1
      have hno := hb' a mem_cons_self
      rw [← hhead] at hno
      cases hno
  | cons a before ih =>
    cases before' with
    | nil =>
      have hhead := (cons.inj heq).1
      have hno := hb a mem_cons_self
      rw [hhead] at hno
      cases hno
    | cons a' before' =>
      obtain ⟨rfl, htail⟩ := cons.inj heq
      obtain ⟨rfl, hc, hafter⟩ := ih htail (fun x hx => hb x (mem_cons_of_mem _ hx))
        fun x hx => hb' x (mem_cons_of_mem _ hx)
      exact ⟨rfl, hc, hafter⟩

/-- The handle of a closed record is not in the index. -/
theorem mapFind_closed (hq : TableInv q) (hissued : (handle, n) ∈ q.issued)
    (hclosed : openIn n q = false) : mapFind q.index handle = none := by
  cases hfind : mapFind q.index handle with
  | none => rfl
  | some seq =>
    obtain ⟨rc, hrc, hopen, hhandle, hne, -⟩ := hq.mapFind_iff.mp hfind
    have hgiven := hq.issued rc hrc (hhandle ▸ hne)
    have hpair : (rc.handle, rc.seq) = (handle, n) :=
      inj_on_of_nodup_map hq.keys hgiven hissued hhandle
    have hno := openIn_false.mp hclosed rc hrc (Prod.mk.inj hpair).2
    rw [hopen] at hno
    cases hno

/-- Where no retraction is left, none is under way. -/
theorem retracts_over (hover : ∀ c ∈ q.calls, Call.items c = 0 → c.first ≠ n) :
    q.calls.countP (retracts n) = 0 := by
  refine countP_eq_zero.mpr fun c hc hret => ?_
  obtain ⟨hzero, hfirst, -⟩ := of_decide_eq_true hret
  exact hover c hc hzero hfirst

/-- A retraction that stands has succeeded once it is over. -/
theorem Stands.over {next : ℕ} (hs : Stands n q h c) (hinv : CallsInv q next)
    (hover : ∀ c ∈ q.calls, Call.items c = 0 → c.first ≠ n) : Succeeded h c := by
  rcases hs with hs | ⟨call, hmem, -, hpc, hfirst⟩
  · exact hs
  · exact absurd hfirst (hover call hmem (hinv.engine call hmem hpc))

/-- An open record without retractions under way has had no verdict. -/
theorem Fate.undecided {rc : DqRec} (hq : QueueInv q h.nextCall) (hrc : rc ∈ q.recs)
    (hseq : rc.seq = n) (hover : ∀ c ∈ q.calls, Call.items c = 0 → c.first ≠ n)
    (hwait : rc.deferred = t.verdicts.getLast?) : t.verdicts = [] := by
  rw [← getLast?_eq_none_iff, ← hwait]
  cases hd : rc.deferred with
  | none => rfl
  | some v =>
    have hpos := ((hq.table.each rc hrc).defer v hd).2.1
    rw [hq.calls.counts rc hrc, hseq, retracts_over hover] at hpos
    cases hpos

/-- Retraction against verdict. Take an open record with an execution and no retraction under way,
in any state of any run, and any further steps of the queue after which none is under way again.
Every retraction that began has acted. If none had a durable 'D' when it acted, all answered
GPTPS_E_IO, and the record is open and had no verdict, or the last verdict that arrived was applied,
once and after the last of them, and closed the record as quarantined or done. Otherwise those that
acted before the first durable one answered GPTPS_E_IO, that one and all that acted later succeeded,
and no verdict was applied. A record that was closed left the pending ones once, and its handle the
index. -/
theorem retraction_against_verdict {file : Option Bytes} {ls₀ ls : List Label} {s₀ s : Sys}
    {q₀ : Dq} {rc : DqRec} (hreach : run (init file) ls₀ = some s₀) (hq₀ : s₀.q = some q₀)
    (hrc : rc ∈ q₀.recs) (hopen : isOpen rc = true) (hlive : rc.handle ≠ 0)
    (hidle : rc.retracting = 0) (hstay : ∀ l ∈ ls, endsRun l = false)
    (hrun : run s₀ ls = some s) (hq : s.q = some q)
    (hover : ∀ c ∈ q.calls, Call.items c = 0 → c.first ≠ rc.seq) :
    (∀ c ∈ (trail rc.seq s₀ ls).begun, c ∈ (trail rc.seq s₀ ls).acts.map Prod.fst) ∧
    ((∀ a ∈ (trail rc.seq s₀ ls).acts, a.2 = false) →
      (∀ a ∈ (trail rc.seq s₀ ls).acts, answersTo s.hist a.1 = [.io]) ∧
      (((trail rc.seq s₀ ls).verdicts = [] ∧ (trail rc.seq s₀ ls).applied = [] ∧
          (trail rc.seq s₀ ls).closings = [] ∧ openIn rc.seq q = true) ∨
        ∃ v p, (trail rc.seq s₀ ls).verdicts.getLast? = some v ∧
          (trail rc.seq s₀ ls).applied = [v] ∧
          (trail rc.seq s₀ ls).closings = [⟨p + 1, p, 0, v = typeQ⟩] ∧
          openIn rc.seq q = false ∧ mapFind q.index rc.handle = none)) ∧
    ∀ before c after, (trail rc.seq s₀ ls).acts = before ++ (c, true) :: after →
      (∀ a ∈ before, a.2 = false) →
      (∀ a ∈ before, answersTo s.hist a.1 = [.io]) ∧
      (∀ a ∈ (c, true) :: after, Succeeded s.hist a.1) ∧ (trail rc.seq s₀ ls).applied = [] ∧
      (∃ p k, (trail rc.seq s₀ ls).closings = [⟨p + 1, p, k, false⟩]) ∧
      (∀ rc' ∈ q.recs, rc'.seq = rc.seq → rc'.done = true) ∧
      mapFind q.index rc.handle = none := by
  have hinv₀ := inv_run (inv_init file) hreach
  have hsilent₀ := silent_run (inv_init file) (silent_init file) hreach
  have hqi₀ := (hinv₀ q₀ hq₀).table
  have hnone : rc.deferred = none := by
    cases hd : rc.deferred with
    | none => rfl
    | some v =>
      have hpos := ((hqi₀.each rc hrc).defer v hd).2.1
      rw [hidle] at hpos
      cases hpos
  have hstart : Follows rc.seq rc.handle q₀ s₀.hist ⟨[], [], [], [], []⟩ :=
    ⟨(hqi₀.below rc.seq (mem_map_of_mem hrc)).2, hqi₀.issued rc hrc hlive, hlive,
      fun c hc => (by cases hc),
      .opened hrc rfl hopen rfl (fun a ha => (by cases ha)) hnone rfl rfl⟩
  have hend : Follows rc.seq rc.handle q s.hist (trail rc.seq s₀ ls) :=
    follows_run hinv₀ hsilent₀ hq₀ hstay hrun hq hstart
  have hqi := inv_run hinv₀ hrun q hq
  obtain ⟨-, hissued, -, hbegun, hfate⟩ := hend
  refine ⟨?_, ?_, ?_⟩
  · intro c hc
    rcases hbegun c hc with hacted | ⟨call, hmem, -, hret⟩
    · exact hacted
    · exact absurd hret (countP_eq_zero.mp (retracts_over hover) call hmem)
  · intro hall
    cases hfate with
    | opened hrc' hseq' hopen' _ hfailed hwait happlied hclosings =>
      exact ⟨fun a ha => (hfailed a ha).2, .inl ⟨Fate.undecided hqi hrc' hseq' hover hwait,
        happlied, hclosings, openIn_iff.mpr ⟨_, hrc', hseq', hopen'⟩⟩⟩
    | withdrawn _ hsplit _ _ _ _ =>
      have hno := hall (_, true) (by rw [hsplit]; exact mem_append_right _ mem_cons_self)
      cases hno
    | judged hclosed _ hfailed hlast happlied hclosings =>
      exact ⟨fun a ha => (hfailed a ha).2, .inr ⟨_, _, hlast, happlied, hclosings, hclosed,
        mapFind_closed hqi.table hissued hclosed⟩⟩
  · intro before c after hacts hbefore
    have hmem : (c, true) ∈ (trail rc.seq s₀ ls).acts := by
      rw [hacts]
      exact mem_append_right _ mem_cons_self
    cases hfate with
    | opened _ _ _ _ hfailed _ _ _ | judged _ _ hfailed _ _ _ => cases (hfailed _ hmem).1
    | withdrawn hgone hsplit hfailed hafter happlied hclosings =>
      obtain ⟨rfl, rfl, rfl⟩ := first_durable (hacts.symm.trans hsplit) hbefore
        fun a ha => (hfailed a ha).1
      exact ⟨fun a ha => (hfailed a ha).2, fun a ha => (hafter a ha).over hqi.calls hover,
        happlied, ⟨_, _, hclosings⟩, fun x hx hxseq => (hgone x hx hxseq).1,
        mapFind_closed hqi.table hissued (openIn_gone hgone)⟩

/-- Two retractions of it: the 'D' of the first becomes durable, the write of the second fails, and
the second acts first. -/
def twoRetractions : List Label :=
  [.cancel 7, .write 2 0 true, .cancel 7, .write 3 0 false, .cut 3 true, .syncBegin, .fsyncRet true,
    .syncSettle, .cancelEnd 3 ⟨true, 0, true⟩ [], .cancelEnd 2 ⟨true, 0, true⟩ [],
    .cancelTell 2 false]

theorem retraction_fails_after_durable : ∃ s₀ s q, run (init none) submitted = some s₀ ∧
    run s₀ twoRetractions = some s ∧ s.q = some q ∧ q.calls = [] ∧
    (trail 1 s₀ twoRetractions).begun = [2, 3] ∧
    (trail 1 s₀ twoRetractions).acts = [(3, false), (2, true)] ∧
    answersTo s.hist 3 = [.io] ∧ answersTo s.hist 2 = [.ok] ∧ openIn 1 q = false := by
  refine ⟨_, _, _, rfl, rfl, rfl, rfl, rfl, rfl, rfl, rfl, rfl⟩

theorem retraction_against_verdict_two : ∃ s₀ s q, run (init none) submitted = some s₀ ∧
    run s₀ twoRetractions = some s ∧ s.q = some q ∧ Succeeded s.hist 2 ∧
    (trail 1 s₀ twoRetractions).applied = [] ∧ mapFind q.index 7 = none := by
  obtain ⟨s₀, s, q₀, q, rc, hreach, hq₀, hrun, hq, hrc, hopen, hhandle, hseq, hidle, hcalls, hacts⟩ :
      ∃ s₀ s q₀ q rc, run (init none) submitted = some s₀ ∧ s₀.q = some q₀ ∧
        run s₀ twoRetractions = some s ∧ s.q = some q ∧ rc ∈ q₀.recs ∧ isOpen rc = true ∧
        rc.handle = 7 ∧ rc.seq = 1 ∧ rc.retracting = 0 ∧ q.calls = [] ∧
        (trail 1 s₀ twoRetractions).acts = [(3, false)] ++ (2, true) :: [] :=
    ⟨_, _, _, _, _, rfl, rfl, rfl, rfl, mem_cons_self, rfl, rfl, rfl, rfl, rfl, rfl⟩
  have hall := retraction_against_verdict hreach hq₀ hrc hopen (by rw [hhandle]; decide) hidle
    (by decide) hrun hq (fun c hc => by rw [hcalls] at hc; cases hc)
  rw [hseq, hhandle] at hall
  obtain ⟨-, hsucc, happlied, -, -, hindex⟩ := hall.2.2 [(3, false)] 2 [] hacts (by decide)
  exact ⟨s₀, s, q, hreach, hrun, hq, hsucc (2, true) mem_cons_self, happlied, hindex⟩

end Outcome

end Gptps.DurableRetraction
