import Gptps.DeskStore

/-!
# The stages of a pass

`engine_pass` cut at its numbered comments: what was drained, what was promoted, what was parked. A decision
on a finished item does one of four things and a round of admission one of ten; what each of them keeps, the
loops keep. The event buffer only grows from one stage to the next, so a pass that buffers nothing buffered
nothing on its way. After the promotion scan nothing due is delayed, and every instant left is one the pass
wakes for.
-/

namespace Gptps.PassStages

open Function EngineState EngineStore EnginePass EngineApi ItemLife DeskStore EngineDesk List

variable {inp : PassIn} {e : Engine} {pend : List Ev}

/-- After step 1. -/
def passDrained (inp : PassIn) (e : Engine) : PassState :=
  let ps := drainDone inp.now (e.q .done).length (passStart e)
  { ps with more := !(ps.e.q .done).isEmpty }

/-- After step 2. -/
def passPromoted (inp : PassIn) (e : Engine) : PassState :=
  ((passDrained inp e).e.q .delayed).foldl (promoteOne inp.now) (passDrained inp e)

/-- After step 2b. -/
def passParked (inp : PassIn) (e : Engine) : PassState :=
  (passPromoted inp e).announced.foldl (parkOne inp.now) { passPromoted inp e with announced := [] }

/-- After the rescoring of step 4. -/
def passScored (inp : PassIn) (e : Engine) : PassState := rescore inp (passSettle inp e)

/-- Steps 3 and 3b follow. -/
theorem passSettle_eq (inp : PassIn) (e : Engine) :
    passSettle inp e = boundDrain inp.now (enforceDeadlines inp.now (passParked inp e)) := rfl

section Decisions

/-- The event is about neither the start of an attempt nor a retry. -/
def Untold (ev : Ev) : Prop := ev.kind ≠ .started ∧ ev.kind ≠ .retried

/-- The conditions under which a finished item is tried again. -/
structure Retry (e : Engine) (x : Item) : Prop where
  /-- There is a retry left. -/
  left : x.attempt ≤ x.policy.maxRetries
  /-- The attempt failed and no stop was asked for. -/
  failed : Undecided x.toCore
  /-- The type is not being removed. -/
  kept : isRemoved e x.toCore = false

/-- The conditions under which a finished item begins a new cycle. -/
def Again (e : Engine) (x : Item) : Prop :=
  (x.outcome = .ok ∧ isAlwaysUp e x.toCore = true ∧ x.cancelled = false) ∨
    (Undecided x.toCore ∧ isRemoved e x.toCore = false ∧ ¬ x.attempt ≤ x.policy.maxRetries ∧
      x.policy.onFailure = .requeue)

/-- The event announces the retry of a finished item. -/
structure Announces (x : Item) (ev : Ev) : Prop where
  /-- It is RETRIED. -/
  kind : ev.kind = .retried
  /-- Of the item. -/
  handle : ev.handle = x.handle
  /-- It names the attempt to come. -/
  attempt : ev.attempt = x.attempt + 1

/-- A finished item as it begins a new cycle. -/
def againItem (now : ℕ) (it : Item) : Item := { it with
  resReserved := none, attempt := 1, notBeforeMs := requeueAt now it.policy.retryBackoffSeconds }

/-- A finished item as it is tried again. -/
def retryItem (now : ℕ) (it : Item) : Item := { it with
  resReserved := none, attempt := it.attempt + 1
  notBeforeMs := now + it.policy.retryBackoffSeconds * 1000 }

/-- What a decision on a finished item does. -/
inductive Decides (now : ℕ) (ps : PassState) (it : Item) : PassState → Prop
  /-- A new cycle begins. -/
  | again (h : Again ps.e it) (hst : ps.e.stopping = false) : Decides now ps it { ps with
      e := fifoPush (release ps.e it.toCore) .delayed (againItem now it) }
  /-- The item is freed, with one event at most. -/
  | drop (x : Item) (evs : List Ev) (hevs : ∀ ev ∈ evs, Untold ev) (hlen : evs.length ≤ 1) :
    Decides now ps it { ps with pend := ps.pend ++ evs, e := itemDrop (release ps.e it.toCore) x }
  /-- It becomes a dead letter. -/
  | bury (x : Item) (ev : Ev) (hev : Untold ev) : Decides now ps it { ps with
      pend := ps.pend ++ [ev], e := deadLetterPush (release ps.e it.toCore) x }
  /-- It is tried again, and that is announced. -/
  | retry (h : Retry ps.e it) (ev : Ev) (hev : Announces it ev) : Decides now ps it { ps with
      pend := ps.pend ++ [ev], e := release ps.e it.toCore
      announced := ps.announced ++ [retryItem now it] }

/-- An event with room in the buffer is buffered. -/
theorem pushEv_room (h : pend.length < pendingCap) (ev : Ev) : pushEv pend ev = pend ++ [ev] := if_pos h

/-- Every decision does one of these. -/
theorem decideDone_decides (now : ℕ) (ps : PassState) (it : Item) (hroom : ps.pend.length < pendingCap) :
    Decides now ps it (decideDone now ps it) := by
  have hsilent : ∀ x, Decides now ps it { ps with e := itemDrop (release ps.e it.toCore) x } := by
    intro x
    have hdrop : Decides now ps it
        { ps with pend := ps.pend ++ [], e := itemDrop (release ps.e it.toCore) x } :=
      .drop x [] nofun (Nat.zero_le 1)
    rwa [append_nil] at hdrop
  have hdrop : ∀ x ev, Untold ev → Decides now ps it
      { ps with pend := pushEv ps.pend ev, e := itemDrop (release ps.e it.toCore) x } := by
    intro x ev hev
    rw [pushEv_room hroom]
    exact .drop x [ev] (fun y hy => mem_singleton.mp hy ▸ hev) (le_refl 1)
  have hbury : ∀ x ev, Untold ev → Decides now ps it
      { ps with pend := pushEv ps.pend ev, e := deadLetterPush (release ps.e it.toCore) x } := by
    intro x ev hev
    rw [pushEv_room hroom]
    exact .bury x ev hev
  have howing : ∀ x, Decides now ps it (dropOwing ps (release ps.e it.toCore) x) := by
    intro x
    unfold dropOwing
    split_ifs
    · exact hsilent x
    · exact hdrop x _ ⟨nofun, nofun⟩
  unfold decideDone
  dsimp only
  split_ifs with hok hup hcan hself hrem hcancelling honfail hretry hst
  · exact .again (.inl ⟨hok, hup.1, Bool.eq_false_iff.mpr hup.2.1⟩) (Bool.eq_false_iff.mpr hup.2.2.2)
  · exact howing _
  · exact howing _
  · exact hsilent _
  · exact howing _
  · exact hdrop _ _ ⟨nofun, nofun⟩
  · exact hbury _ _ ⟨nofun, nofun⟩
  all_goals have hun : Undecided it.toCore := ⟨hok, Bool.eq_false_iff.mpr hcan, hself⟩
  all_goals have hkept : isRemoved ps.e it.toCore = false := Bool.eq_false_iff.mpr hrem
  · rw [pushEv_room hroom]
    exact .retry ⟨hretry, hun, hkept⟩ _ ⟨rfl, rfl, rfl⟩
  · cases it.policy.onFailure with
    | requeue | deadLetter => exact hbury _ _ ⟨nofun, nofun⟩
    | drop => exact hdrop _ _ ⟨nofun, nofun⟩
  · cases hp : it.policy.onFailure with
    | requeue => exact .again (.inr ⟨hun, hkept, hretry, hp⟩) (Bool.eq_false_iff.mpr hst)
    | drop => exact hdrop _ _ ⟨nofun, nofun⟩
    | deadLetter => exact hbury _ _ ⟨nofun, nofun⟩

end Decisions

section Loops

variable {M : PassState → Prop} {now : ℕ} {inp : PassIn} {ps : PassState}

/-- What one decision keeps, the loop over `done` keeps. -/
theorem drainDone_rule
    (hone : ∀ ps it e₁, M ps → ps.pend.length < pendingCap → fifoPop ps.e .done = some (it, e₁) →
      M (decideDone now { ps with e := e₁ } it))
    (fuel : ℕ) (h : M ps) : M (drainDone now fuel ps) := by
  induction fuel generalizing ps with
  | zero => exact h
  | succ fuel ih =>
    rw [drainDone]
    split_ifs with hroom
    · cases hpop : fifoPop ps.e .done with
      | none => exact h
      | some r => exact ih (hone ps r.1 r.2 h hroom hpop)
    · exact h

/-- The same told by what a decision does. -/
theorem drainDone_decides
    (hone : ∀ ps it e₁ ps', M ps → fifoPop ps.e .done = some (it, e₁) → Decides now { ps with
      e := e₁ } it ps' → M ps')
    (fuel : ℕ) (h : M ps) : M (drainDone now fuel ps) :=
  drainDone_rule (fun ps it e₁ hps hroom hpop =>
    hone ps it e₁ _ hps hpop (decideDone_decides now { ps with e := e₁ } it hroom)) fuel h

/-- What the end of one waiting item keeps, the loop over them keeps. -/
theorem drainWaiting_rule
    (hone : ∀ ps q it e₁, M ps → q = .delayed ∨ q = .intake → fifoPop ps.e q = some (it, e₁) →
      M (endWaiting { ps with e := e₁ } it))
    (fuel : ℕ) (h : M ps) : M (drainWaiting fuel ps) := by
  induction fuel generalizing ps with
  | zero => exact h
  | succ fuel ih =>
    rw [drainWaiting]
    split_ifs
    · unfold popWaiting
      cases hdel : fifoPop ps.e .delayed with
      | some r => exact ih (hone ps .delayed r.1 r.2 h (.inl rfl) hdel)
      | none =>
        cases hint : fifoPop ps.e .intake with
        | some r => exact ih (hone ps .intake r.1 r.2 h (.inr rfl) hint)
        | none => exact h
    · exact h

/-- The loop is at an item: there is one, the grace is not over and a slot is free. -/
structure AtItem (ps : PassState) (top : Item) : Prop where
  /-- The first item of intake. -/
  first : (ps.e.q .intake).head? = some top
  /-- The grace. -/
  grace : ps.pastGrace = false
  /-- The slot. -/
  free : ps.e.running < ps.e.maxConcurrentTasks

/-- What one round keeps, the admission loop keeps. -/
theorem admitLoop_rule (hone : ∀ ps top, M ps → AtItem ps top → M (admitOnce inp ps top).1) (fuel : ℕ)
    (h : M ps) : M (admitLoop inp fuel ps) := by
  induction fuel generalizing ps with
  | zero => exact h
  | succ fuel ih =>
    rw [admitLoop]
    cases hq : ps.e.q .intake with
    | nil => exact h
    | cons top rest =>
      dsimp only
      split_ifs with hstop
      · exact h
      · rw [not_or, not_le, Bool.not_eq_true] at hstop
        have hnext := hone ps top h ⟨by rw [hq]; rfl, hstop.1, hstop.2⟩
        cases hgo : admitOnce inp ps top with
        | mk ps' go =>
          rw [hgo] at hnext
          cases go with
          | true => exact ih hnext
          | false => exact hnext

end Loops

section Rounds

/-- What one round of the admission loop does. -/
inductive Round (inp : PassIn) (ps : PassState) (top : Item) : PassState × Bool → Prop
  /-- Nothing fits. -/
  | nothing (hscan : scanIntake ps.e (ps.e.q .intake) = .nothing) : Round inp ps top (ps, false)
  /-- An item can never fit, and there is no room for its event. -/
  | stuck {it : Item} (hscan : scanIntake ps.e (ps.e.q .intake) = .stranded it)
      (hfull : pendingCap ≤ ps.pend.length) : Round inp ps top ({ ps with more := true }, false)
  /-- An item that can never fit is ended. -/
  | strand {it : Item} (hscan : scanIntake ps.e (ps.e.q .intake) = .stranded it)
      (hroom : ps.pend.length < pendingCap) : Round inp ps top ({ ps with
        pend := pushEv ps.pend (evOf (intakeUnlink ps.e it) { it with outcome := .budget }
          .deadLettered .budget false)
        e := deadLetterPush (intakeUnlink ps.e it) { it with outcome := .budget } }, true)
  /-- Room is kept for the retries announced. -/
  | held {it : Item} (hscan : scanIntake ps.e (ps.e.q .intake) = .best it)
      (hheld : heldBack ps it = true) : Round inp ps top (ps, false)
  /-- Room is kept for the first item. -/
  | reserve {it : Item} (hscan : scanIntake ps.e (ps.e.q .intake) = .best it)
      (hheld : heldBack ps it = false) (hne : it.ptr ≠ top.ptr)
      (hskips : ps.e.reserveAfterSkips ≤ top.skips) : Round inp ps top (ps, false)
  /-- A hook defers. -/
  | defer {it : Item} {after : ℕ} (hscan : scanIntake ps.e (ps.e.q .intake) = .best it)
      (hheld : heldBack ps it = false) (hturn : it.ptr ≠ top.ptr → top.skips < ps.e.reserveAfterSkips)
      (hhook : runConstraints ps.e (inp.hook ps.asked) = .defer after) : Round inp ps top ({ ps with
        asked := ps.asked + 1
        e := fifoPush (intakeUnlink ps.e it) .delayed { it with notBeforeMs := inp.now + after }
        nextWake := minNonzero ps.nextWake (inp.now + after) }, true)
  /-- A hook denies, and there is no room for the event. -/
  | denyStuck {it : Item} (hscan : scanIntake ps.e (ps.e.q .intake) = .best it)
      (hheld : heldBack ps it = false) (hturn : it.ptr ≠ top.ptr → top.skips < ps.e.reserveAfterSkips)
      (hhook : runConstraints ps.e (inp.hook ps.asked) = .deny) (hfull : pendingCap ≤ ps.pend.length) :
    Round inp ps top ({ ps with asked := ps.asked + 1, more := true }, false)
  /-- A hook denies. -/
  | deny {it : Item} (hscan : scanIntake ps.e (ps.e.q .intake) = .best it)
      (hheld : heldBack ps it = false) (hturn : it.ptr ≠ top.ptr → top.skips < ps.e.reserveAfterSkips)
      (hhook : runConstraints ps.e (inp.hook ps.asked) = .deny) (hroom : ps.pend.length < pendingCap) :
    Round inp ps top ({ ps with
      asked := ps.asked + 1
      pend := pushEv ps.pend (evOf (intakeUnlink ps.e it) { it with outcome := .denied }
        .deadLettered .denied false)
      e := deadLetterPush (intakeUnlink ps.e it) { it with outcome := .denied } }, true)
  /-- An item is admitted. -/
  | admission {it : Item} {snap : Option (List UInt64)} {n : ℕ}
      (hscan : scanIntake ps.e (ps.e.q .intake) = .best it) (hheld : heldBack ps it = false)
      (hturn : it.ptr ≠ top.ptr → top.skips < ps.e.reserveAfterSkips)
      (hhook : runConstraints ps.e (inp.hook ps.asked) = .admitted) :
    Round inp ps top (admitItem { ps with asked := ps.asked + 1, snaps := n } top it snap, true)
  /-- The snapshot of an admission cannot be allocated. -/
  | starved {it : Item} (hscan : scanIntake ps.e (ps.e.q .intake) = .best it)
      (hheld : heldBack ps it = false) (hturn : it.ptr ≠ top.ptr → top.skips < ps.e.reserveAfterSkips)
      (hhook : runConstraints ps.e (inp.hook ps.asked) = .admitted) (hsnap : inp.snapOk ps.snaps = false) :
    Round inp ps top ({ ps with
      asked := ps.asked + 1
      snaps := ps.snaps + 1
      nextWake := minNonzero ps.nextWake (inp.now + 50) }, false)

/-- Every round does one of these. -/
theorem admitOnce_round (inp : PassIn) (ps : PassState) (top : Item) :
    Round inp ps top (admitOnce inp ps top) := by
  unfold admitOnce
  cases hscan : scanIntake ps.e (ps.e.q .intake) with
  | nothing => exact .nothing hscan
  | stranded it =>
    dsimp only
    by_cases hfull : pendingCap ≤ ps.pend.length
    · rw [if_pos hfull]
      exact .stuck hscan hfull
    · rw [if_neg hfull]
      exact .strand hscan (lt_of_not_ge hfull)
  | best it =>
    dsimp only
    by_cases hheld : heldBack ps it = true
    · rw [if_pos hheld]
      exact .held hscan hheld
    rw [if_neg hheld]
    have hheld := Bool.eq_false_iff.mpr hheld
    by_cases hres : it.ptr ≠ top.ptr ∧ ps.e.reserveAfterSkips ≤ top.skips
    · rw [if_pos hres]
      exact .reserve hscan hheld hres.1 hres.2
    rw [if_neg hres]
    have hturn : it.ptr ≠ top.ptr → top.skips < ps.e.reserveAfterSkips :=
      fun hne => UInt32.not_le.mp fun hle => hres ⟨hne, hle⟩
    cases hhook : runConstraints ps.e (inp.hook ps.asked) with
    | defer after => exact .defer hscan hheld hturn hhook
    | deny =>
      by_cases hfull : pendingCap ≤ ps.pend.length
      · rw [if_pos hfull]
        exact .denyStuck hscan hheld hturn hhook hfull
      · rw [if_neg hfull]
        exact .deny hscan hheld hturn hhook (lt_of_not_ge hfull)
    | admitted =>
      cases hcost : costOf ps.e it.toCore with
      | none => exact .admission hscan hheld hturn hhook
      | some cost =>
        dsimp only
        by_cases hsnap : ps.e.maxItems ≠ 0 ∨ inp.snapOk ps.snaps = true
        · rw [if_pos hsnap]
          exact .admission hscan hheld hturn hhook
        · rw [if_neg hsnap]
          exact .starved hscan hheld hturn hhook
            (Bool.eq_false_iff.mpr fun hok => hsnap (.inr hok))

end Rounds

section Buffer

/-- Buffering an event keeps those before it. -/
theorem pushEv_prefix (pend : List Ev) (ev : Ev) : pend <+: pushEv pend ev := by
  unfold pushEv
  split_ifs
  · exact prefix_append _ _
  · exact prefix_rfl

/-- The loop over `done`. -/
theorem drainDone_pend (now fuel : ℕ) (ps : PassState) : ps.pend <+: (drainDone now fuel ps).pend := by
  refine drainDone_decides (M := fun ps' => ps.pend <+: ps'.pend) ?_ fuel prefix_rfl
  intro ps₁ it e₁ ps' h hpop hd
  cases hd with
  | again => exact h
  | drop | bury | retry => exact h.trans (prefix_append _ _)

/-- Promotion buffers nothing. -/
theorem promote_pend (now : ℕ) (l : List Item) (ps : PassState) :
    (l.foldl (promoteOne now) ps).pend = ps.pend := by
  induction l generalizing ps with
  | nil => rfl
  | cons it l ih =>
    rw [foldl_cons, ih, promoteOne]
    split_ifs <;> rfl

/-- Nor does parking. -/
theorem park_pend (now : ℕ) (l : List Item) (ps : PassState) :
    (l.foldl (parkOne now) ps).pend = ps.pend := by
  induction l generalizing ps with
  | nil => rfl
  | cons it l ih =>
    rw [foldl_cons, ih, parkOne]
    split_ifs <;> rfl

/-- Ending a waiting item buffers one event. -/
theorem endWaiting_pend (ps : PassState) (it : Item) : ∃ ev, (endWaiting ps it).pend = ps.pend ++ [ev] := by
  unfold endWaiting
  dsimp only
  split_ifs
  · exact ⟨_, rfl⟩
  · exact ⟨_, rfl⟩

/-- The loop over waiting items. -/
theorem drainWaiting_pend (fuel : ℕ) (ps : PassState) : ps.pend <+: (drainWaiting fuel ps).pend := by
  refine drainWaiting_rule (M := fun ps' => ps.pend <+: ps'.pend) ?_ fuel prefix_rfl
  intro ps₁ q it e₁ h hq hpop
  obtain ⟨ev, hev⟩ := endWaiting_pend { ps₁ with e := e₁ } it
  rw [hev]
  exact h.trans (prefix_append _ _)

/-- Step 3b. -/
theorem boundDrain_pend (now : ℕ) (ps : PassState) : ps.pend <+: (boundDrain now ps).pend := by
  unfold boundDrain
  split_ifs
  · exact drainWaiting_pend _ _
  · exact prefix_rfl
  · exact prefix_rfl

/-- Rescoring buffers nothing. -/
theorem rescore_pend (inp : PassIn) (ps : PassState) : (rescore inp ps).pend = ps.pend := by
  unfold rescore
  split_ifs <;> rfl

/-- One round of admission. -/
theorem admitOnce_pend (inp : PassIn) (ps : PassState) (top : Item) :
    ps.pend <+: (admitOnce inp ps top).1.pend := by
  have hround := admitOnce_round inp ps top
  generalize admitOnce inp ps top = r at hround ⊢
  cases hround with
  | strand | deny => exact pushEv_prefix _ _
  | _ => exact prefix_rfl

/-- The admission loop. -/
theorem admitLoop_pend (inp : PassIn) (fuel : ℕ) (ps : PassState) :
    ps.pend <+: (admitLoop inp fuel ps).pend :=
  admitLoop_rule (M := fun ps' => ps.pend <+: ps'.pend)
    (fun ps₁ top h _ => h.trans (admitOnce_pend inp ps₁ top)) fuel prefix_rfl

/-- A pass that buffered nothing buffered nothing before admission. -/
theorem settle_pend (h : (enginePass inp e).pend = []) : (passSettle inp e).pend = [] := by
  have hloop := admitLoop_pend inp ((passScored inp e).e.q .intake).length (passScored inp e)
  rw [show (admitLoop inp ((passScored inp e).e.q .intake).length (passScored inp e)).pend = [] from h,
    passScored, rescore_pend] at hloop
  exact prefix_nil.mp hloop

/-- Nor while it drained `done`. -/
theorem drained_pend (h : (passSettle inp e).pend = []) : (passDrained inp e).pend = [] := by
  have hbound := boundDrain_pend inp.now (enforceDeadlines inp.now (passParked inp e))
  rw [← passSettle_eq, h] at hbound
  have hparked : (passParked inp e).pend = [] := prefix_nil.mp hbound
  rw [passParked, park_pend] at hparked
  exact (promote_pend _ _ _).symm.trans hparked

end Buffer

section Frame

/-- Only the store, the ledger and the count of dead letters changed. -/
def Fixed (e e' : Engine) : Prop :=
  e' = { e with
    toStore := e'.toStore, deadLetterCount := e'.deadLetterCount, deadEvicted := e'.deadEvicted
    reservedMem := e'.reservedMem, running := e'.running, resources := e'.resources }

variable {e e' e'' : Engine}

theorem Fixed.refl (e : Engine) : Fixed e e := rfl

theorem Fixed.trans (h : Fixed e e') (h' : Fixed e' e'') : Fixed e e'' := by
  rw [h] at h'
  exact h'

/-- The index and the dead letters are part of these. -/
theorem Fixed.of_kept (h : KeptLive e e') : Fixed e e' := by
  have hrest := h.rest
  unfold Fixed
  rw [hrest]

/-- What the loop over `done` changes. -/
theorem drainDone_frame (now fuel : ℕ) (ps : PassState) :
    drainDone now fuel ps = { ps with
      e := (drainDone now fuel ps).e
      pend := (drainDone now fuel ps).pend
      announced := (drainDone now fuel ps).announced } ∧ Fixed ps.e (drainDone now fuel ps).e := by
  refine drainDone_decides (M := fun ps' => ps' = { ps with
    e := ps'.e, pend := ps'.pend, announced := ps'.announced } ∧ Fixed ps.e ps'.e) ?_ fuel ⟨rfl, rfl⟩
  rintro ps₁ it e₁ ps' ⟨hframe, hfixed⟩ hpop hd
  have hfree : Fixed ps.e (release e₁ it.toCore) := hfixed.trans (fifoPop_rest hpop ▸ rfl)
  cases hd with
  | again => exact ⟨by rw [hframe], hfree.trans rfl⟩
  | drop x => exact ⟨by rw [hframe], hfree.trans (.of_kept (itemDrop_kept _ x).toKeptLive)⟩
  | bury x => exact ⟨by rw [hframe], hfree.trans (.of_kept (deadLetterPush_kept _ x))⟩
  | retry => exact ⟨by rw [hframe], hfree⟩

/-- A round of admission. -/
theorem round_fixed {ps ps' : PassState} {top : Item} {go : Bool} (h : Round inp ps top (ps', go)) :
    Fixed ps.e ps'.e := by
  have hbury : ∀ it x, Fixed ps.e (deadLetterPush (intakeUnlink ps.e it) x) := fun it x =>
    (show Fixed ps.e (intakeUnlink ps.e it) from rfl).trans (.of_kept (deadLetterPush_kept _ x))
  cases h with
  | strand | deny => exact hbury _ _
  | admission =>
    unfold admitItem
    split_ifs <;> exact rfl
  | _ => exact rfl

/-- Nothing is admitted yet and the settings stand. -/
structure Settling (e : Engine) (ps : PassState) : Prop where
  /-- The settings. -/
  fixed : Fixed e ps.e
  /-- The admissions. -/
  none : ps.admissions = []

/-- Up to step 2. -/
theorem promoted_settling (inp : PassIn) (e : Engine) : Settling e (passPromoted inp e) := by
  obtain ⟨hframe, hfixed⟩ := drainDone_frame inp.now (e.q .done).length (passStart e)
  have hdrained : Settling e (passDrained inp e) := ⟨hfixed, congrArg PassState.admissions hframe⟩
  refine foldlRecOn (motive := Settling e) _ _ hdrained ?_
  intro ps hps it _
  unfold promoteOne
  split_ifs
  · exact ⟨hps.fixed.trans rfl, hps.none⟩
  · exact ⟨hps.fixed, hps.none⟩

/-- Up to step 2b. -/
theorem parked_settling (inp : PassIn) (e : Engine) : Settling e (passParked inp e) := by
  have hpromoted := promoted_settling inp e
  refine foldlRecOn (motive := Settling e) _ _ ⟨hpromoted.fixed, hpromoted.none⟩ ?_
  intro ps hps it _
  unfold parkOne
  split_ifs <;> exact ⟨hps.fixed.trans rfl, hps.none⟩

/-- Up to step 3b. -/
theorem settle_settling (inp : PassIn) (e : Engine) : Settling e (passSettle inp e) := by
  rw [passSettle_eq]
  have hdeadlines : Settling e (enforceDeadlines inp.now (passParked inp e)) :=
    ⟨(parked_settling inp e).fixed.trans rfl, (parked_settling inp e).none⟩
  have hdrained : ∀ fuel, Settling e (drainWaiting fuel (enforceDeadlines inp.now (passParked inp e))) := by
    intro fuel
    refine drainWaiting_rule (M := Settling e) ?_ fuel hdeadlines
    intro ps q it e₁ hps _ hpop
    have hpopped : Fixed e e₁ := hps.fixed.trans (fifoPop_rest hpop ▸ rfl)
    unfold endWaiting
    dsimp only
    split_ifs
    · exact ⟨hpopped.trans (.of_kept (itemDrop_kept _ _).toKeptLive), hps.none⟩
    · exact ⟨hpopped.trans (.of_kept (deadLetterPush_kept _ _)), hps.none⟩
  unfold boundDrain
  split_ifs
  · exact ⟨(hdrained _).fixed.trans rfl, (hdrained _).none⟩
  · exact ⟨hdeadlines.fixed, hdeadlines.none⟩
  · exact hdeadlines

/-- Up to the rescoring. -/
theorem scored_settling (inp : PassIn) (e : Engine) : Settling e (passScored inp e) := by
  have hsettle := settle_settling inp e
  have hsort : ∀ e₁ : Engine, Fixed e₁ (intakeResort e₁) := by
    intro e₁
    unfold intakeResort
    split <;> exact rfl
  unfold passScored rescore
  split_ifs
  · exact hsettle
  · have hmap : Fixed (passSettle inp e).e (mapQueue (passSettle inp e).e .intake fun it =>
        { it with schedScore := inp.score it }) := rfl
    exact ⟨(hsettle.fixed.trans hmap).trans (hsort _), hsettle.none⟩

/-- A pass leaves the settings. -/
theorem enginePass_fixed (inp : PassIn) (e : Engine) : Fixed e (enginePass inp e).e := by
  have hloop : Fixed e (admitLoop inp ((passScored inp e).e.q .intake).length (passScored inp e)).e := by
    refine admitLoop_rule (M := fun ps => Fixed e ps.e) ?_ _ (scored_settling inp e).fixed
    intro ps top hps _
    exact hps.trans (round_fixed (admitOnce_round inp ps top))
  exact hloop.trans (.of_kept (hidxTrim_kept _ _).toKeptLive)

end Frame

section Drain

/-- A decision leaves the rest of `done` alone. -/
theorem Decides.done {now : ℕ} {ps ps' : PassState} {it : Item} (h : Decides now ps it ps') :
    ps'.e.q .done = ps.e.q .done := by
  cases h with
  | again | retry => rfl
  | drop x => exact (itemDrop_kept _ x).q _ (by decide)
  | bury x => exact (deadLetterPush_kept _ x).q _ (by decide)

/-- With room in the buffer to its end, the loop empties `done`. -/
theorem drainDone_empties (now fuel : ℕ) (ps : PassState) (hf : (ps.e.q .done).length ≤ fuel)
    (hend : (drainDone now fuel ps).pend = []) : (drainDone now fuel ps).e.q .done = [] := by
  induction fuel generalizing ps with
  | zero => exact length_eq_zero_iff.mp (Nat.le_zero.mp hf)
  | succ fuel ih =>
    have hpend : ps.pend = [] := prefix_nil.mp (hend ▸ drainDone_pend now (fuel + 1) ps)
    have hroom : ps.pend.length < pendingCap := by
      rw [hpend]
      decide
    rw [drainDone, if_pos hroom] at hend ⊢
    cases hpop : fifoPop ps.e .done with
    | none => exact fifoPop_none hpop
    | some r =>
      obtain ⟨it, e₁⟩ := r
      rw [hpop] at hend
      obtain ⟨rest, hq, hq₁⟩ := fifoPop_q hpop
      refine ih _ ?_ hend
      rw [(decideDone_decides now { ps with e := e₁ } it hroom).done]
      rw [hq, length_cons] at hf
      rw [hq₁, update_self]
      omega

/-- So step 1 leaves neither finished items nor retries. -/
theorem drained_clear (h : (passDrained inp e).pend = []) :
    (passDrained inp e).e.q .done = [] ∧ (passDrained inp e).announced = [] := by
  have hend : (drainDone inp.now (e.q .done).length (passStart e)).pend = [] := h
  refine ⟨drainDone_empties _ _ _ le_rfl hend, ?_⟩
  refine drainDone_decides (M := fun ps => ps.pend = [] → ps.announced = []) ?_ _ (fun _ => rfl) hend
  intro ps it e₁ ps' hann hpop hd hnil
  cases hd with
  | again => exact hann hnil
  | drop | bury => exact hann (append_eq_nil_iff.mp hnil).1
  | retry => exact absurd hnil (append_ne_nil_of_right_ne_nil _ (cons_ne_nil _ _))

end Drain

section Promotion

/-- The pass wakes in time for an instant. -/
def Wakes (w t : ℕ) : Prop := w ≠ 0 ∧ w ≤ t

variable {w t u : ℕ}

/-- It does so for one it is told of. -/
theorem wakes_new (w : ℕ) (ht : t ≠ 0) : Wakes (minNonzero w t) t := by
  unfold minNonzero
  split_ifs with hw
  · exact ⟨ht, le_refl t⟩
  · exact ⟨by omega, min_le_right w t⟩

/-- And still for the others. -/
theorem Wakes.keep (h : Wakes w u) (t : ℕ) : Wakes (minNonzero w t) u := by
  obtain ⟨hw, hle⟩ := h
  unfold minNonzero
  rw [if_neg hw]
  split_ifs with ht
  · exact ⟨hw, hle⟩
  · exact ⟨by omega, le_trans (min_le_left w t) hle⟩

/-- What the scan over a list of delayed items did. -/
structure Promoted (now : ℕ) (ps ps' : PassState) (l : List Item) : Prop where
  /-- Nothing due stays delayed. -/
  delayed : ∀ x ∈ ps'.e.q .delayed, x ∈ ps.e.q .delayed ∧ (x ∈ l → now < x.notBeforeMs)
  /-- What stays is woken for. -/
  wakes : ∀ x ∈ l, now < x.notBeforeMs → Wakes ps'.nextWake x.notBeforeMs
  /-- As are instants known before. -/
  kept : ∀ u, Wakes ps.nextWake u → Wakes ps'.nextWake u
  /-- What is due joins intake. -/
  due : ∀ x ∈ l, x.notBeforeMs ≤ now →
    ∃ n, { x with started := false, intakeSeq := n } ∈ ps'.e.q .intake
  /-- Intake keeps what it has. -/
  intake : ∀ y ∈ ps.e.q .intake, y ∈ ps'.e.q .intake
  /-- The other queues. -/
  others : ∀ q, q ≠ .delayed → q ≠ .intake → ps'.e.q q = ps.e.q q
  /-- Everything but the store and the wake. -/
  rest : ps' = { ps with e := { ps.e with toStore := ps'.e.toStore }, nextWake := ps'.nextWake }

/-- The scan promotes what is due. -/
theorem promote_spec (now : ℕ) (l : List Item) (ps : PassState) (hnd : (l.map (·.ptr)).Nodup)
    (hall : ((ps.e.q .delayed).map (·.ptr)).Nodup) (hl : ∀ it ∈ l, it ∈ ps.e.q .delayed) :
    Promoted now ps (l.foldl (promoteOne now) ps) l := by
  induction l generalizing ps with
  | nil =>
    exact ⟨fun x hx => ⟨hx, fun h => absurd h not_mem_nil⟩, forall_mem_nil _,
      fun _ h => h, forall_mem_nil _, fun _ h => h, fun _ _ _ => rfl, rfl⟩
  | cons it l ih =>
    rw [map_cons, nodup_cons] at hnd
    rw [foldl_cons]
    have hin := hl it mem_cons_self
    by_cases hdue : it.notBeforeMs ≤ now
    · have hone : promoteOne now ps it = { ps with
          e := intakeInsert (fifoRemove ps.e .delayed it) { it with started := false } } := if_pos hdue
      rw [hone]
      generalize hps₁ : ({ ps with
        e := intakeInsert (fifoRemove ps.e .delayed it) { it with started := false } } : PassState) = ps₁
      have hdel : ps₁.e.q .delayed = (ps.e.q .delayed).eraseP fun x => x.ptr = it.ptr := by
        subst hps₁
        rfl
      have hsub : (ps₁.e.q .delayed).Sublist (ps.e.q .delayed) := hdel ▸ eraseP_sublist
      have hself : ∃ n, { it with started := false, intakeSeq := n } ∈ ps₁.e.q .intake := by
        subst hps₁
        exact ⟨_, (insertBehind_perm _ _ _).mem_iff.mpr mem_cons_self⟩
      have hkeep : ∀ y ∈ ps.e.q .intake, y ∈ ps₁.e.q .intake := by
        subst hps₁
        exact fun y hy => (insertBehind_perm _ _ _).mem_iff.mpr (mem_cons_of_mem _ hy)
      have hrest : ps₁ = { ps with e := { ps.e with toStore := ps₁.e.toStore } } := by
        subst hps₁
        rfl
      have hothers : ∀ q, q ≠ .delayed → q ≠ .intake → ps₁.e.q q = ps.e.q q := by
        intro q hd hi
        subst hps₁
        simp only [intakeInsert, fifoRemove, update_of_ne hd, update_of_ne hi]
      have hnext := ih ps₁ hnd.2 (hall.sublist (hsub.map _)) (hdel ▸ still_queued hl hnd.1)
      generalize l.foldl (promoteOne now) ps₁ = ps₂ at hnext ⊢
      have hwake : ps₁.nextWake = ps.nextWake := by rw [hrest]
      refine ⟨?_, ?_, ?_, ?_, ?_, ?_, ?_⟩
      · intro x hx
        obtain ⟨hx₁, hlate⟩ := hnext.delayed x hx
        refine ⟨hsub.mem hx₁, fun hmem => ?_⟩
        rcases mem_cons.mp hmem with rfl | hmem
        · rw [hdel] at hx₁
          exact absurd hx₁ (not_mem_eraseP hall hin)
        · exact hlate hmem
      · intro x hx hlate
        rcases mem_cons.mp hx with rfl | hx
        · exact absurd hdue (Nat.not_le.mpr hlate)
        · exact hnext.wakes x hx hlate
      · exact fun u hu => hnext.kept u (hwake ▸ hu)
      · intro x hx hx'
        rcases mem_cons.mp hx with rfl | hx
        · obtain ⟨n, hn⟩ := hself
          exact ⟨n, hnext.intake _ hn⟩
        · exact hnext.due x hx hx'
      · exact fun y hy => hnext.intake y (hkeep y hy)
      · exact fun q hd hi => (hnext.others q hd hi).trans (hothers q hd hi)
      · have hlast := hnext.rest
        rw [hrest] at hlast
        exact hlast
    · have hone : promoteOne now ps it = { ps with nextWake := minNonzero ps.nextWake it.notBeforeMs } :=
        if_neg hdue
      rw [hone]
      have hnext := ih { ps with nextWake := minNonzero ps.nextWake it.notBeforeMs } hnd.2 hall
        fun x hx => hl x (mem_cons_of_mem _ hx)
      refine ⟨?_, ?_, ?_, ?_, hnext.intake, hnext.others, hnext.rest⟩
      · intro x hx
        obtain ⟨hx₁, hlate⟩ := hnext.delayed x hx
        refine ⟨hx₁, fun hmem => ?_⟩
        rcases mem_cons.mp hmem with rfl | hmem
        · exact lt_of_not_ge hdue
        · exact hlate hmem
      · intro x hx hlate
        rcases mem_cons.mp hx with rfl | hx
        · exact hnext.kept _ (wakes_new _ (by omega))
        · exact hnext.wakes x hx hlate
      · exact fun u hu => hnext.kept u (hu.keep _)
      · intro x hx hx'
        rcases mem_cons.mp hx with rfl | hx
        · exact absurd hx' hdue
        · exact hnext.due x hx hx'

end Promotion

section Admission

variable {inp : PassIn} {ps ps' : PassState} {top : Item} {it : Item} {a : Admission}

/-- What a round that goes on did to the queues and the wake. -/
structure Goes (inp : PassIn) (ps ps' : PassState) : Prop where
  /-- One item left intake. -/
  intake : (ps'.e.q .intake).length + 1 = (ps.e.q .intake).length
  /-- `done` -/
  done : ps'.e.q .done = ps.e.q .done
  /-- Running items. -/
  running : ps'.e.q .running = ps.e.q .running
  /-- A deferred item is delayed, and woken for. -/
  delayed : ps'.e.q .delayed = ps.e.q .delayed ∧ ps'.nextWake = ps.nextWake ∨
    ∃ (it : Item) (n : ℕ), 0 < n ∧
      ps'.e.q .delayed = ps.e.q .delayed ++ [{ it with notBeforeMs := inp.now + n }] ∧
      ps'.nextWake = minNonzero ps.nextWake (inp.now + n)
  /-- The shutdown. -/
  stopping : ps'.e.stopping = ps.e.stopping
  /-- Its deadline. -/
  stopDeadline : ps'.e.stopDeadlineMs = ps.e.stopDeadlineMs
  /-- The scheduler hook. -/
  sched : ps'.e.schedFn = ps.e.schedFn
  /-- The retries kept room for. -/
  held : ps'.held = ps.held
  /-- Whether the grace is over. -/
  past : ps'.pastGrace = ps.pastGrace
  /-- Whether another pass is owed. -/
  more : ps'.more = ps.more

/-- A deferral is of a millisecond at least. -/
theorem consultHooks_defer {answer : ℕ → Decision × ℕ} {n i after m : ℕ} {b : Bool}
    (h : consultHooks answer n i b m = .defer after) : 0 < after := by
  induction n generalizing i b m with
  | zero =>
    unfold consultHooks at h
    split_ifs at h with hb hm
    · cases h
      exact Nat.one_pos
    · cases h
      exact Nat.pos_of_ne_zero hm
  | succ n ih =>
    unfold consultHooks at h
    split at h
    · cases h
    · exact ih h
    · exact ih h

/-- What unlinking an item does to the queues. -/
theorem unlink_q (e : Engine) (it : Item) : (intakeUnlink e it).q =
    update e.q .intake ((e.q .intake).eraseP fun x => x.ptr = it.ptr) := rfl

/-- Unlinking an item of intake shortens it by one. -/
theorem length_unlink (e : Engine) (hit : it ∈ e.q .intake) :
    ((intakeUnlink e it).q .intake).length + 1 = (e.q .intake).length := by
  have hpos : 0 < (e.q .intake).length := length_pos_of_mem hit
  have hlen : ((e.q .intake).eraseP fun x => x.ptr = it.ptr).length = (e.q .intake).length - 1 :=
    length_eraseP_of_mem hit (decide_eq_true rfl)
  rw [unlink_q, update_self, hlen]
  omega

/-- The other queues stay. -/
theorem unlink_others (e : Engine) (it : Item) {q : QId} (hq : q ≠ .intake) :
    (intakeUnlink e it).q q = e.q q := by
  rw [unlink_q, update_of_ne hq]

/-- An item of intake becomes a dead letter. -/
theorem bury_goes {it' : Item} {asked : ℕ} (hit : it ∈ ps.e.q .intake) :
    Goes inp ps { ps with asked := asked, pend := pend, e := deadLetterPush (intakeUnlink ps.e it) it' } := by
  have hk : KeptLive (intakeUnlink ps.e it) (deadLetterPush (intakeUnlink ps.e it) it') :=
    deadLetterPush_kept _ _
  have hrest := hk.rest
  have hothers : ∀ q, q ≠ .intake → q ≠ .dead →
      (deadLetterPush (intakeUnlink ps.e it) it').q q = ps.e.q q :=
    fun q hi hd => (hk.q q hd).trans (unlink_others _ _ hi)
  refine ⟨?_, hothers _ (by decide) (by decide), hothers _ (by decide) (by decide),
    .inl ⟨hothers _ (by decide) (by decide), rfl⟩, ?_, ?_, ?_, rfl, rfl, rfl⟩
  · rw [hk.q _ (by decide), length_unlink _ hit]
  all_goals
    rw [hrest]
    rfl

/-- Every round that goes on is of this kind. -/
theorem round_goes (h : Round inp ps top (ps', true)) : Goes inp ps ps' := by
  cases h with
  | strand hscan hroom => exact bury_goes (scanIntake_stranded_mem hscan)
  | deny hscan => exact bury_goes (scanIntake_mem hscan)
  | @defer it n hscan hheld hturn hhook =>
    have hit := scanIntake_mem hscan
    refine ⟨?_, ?_, ?_, .inr ⟨it, n, consultHooks_defer hhook, ?_, rfl⟩, rfl, rfl, rfl, rfl, rfl, rfl⟩
    · exact length_unlink _ hit
    · simp only [fifoPush, update_of_ne (show QId.done ≠ .delayed by decide)]
      exact unlink_others _ _ (by decide)
    · simp only [fifoPush, update_of_ne (show QId.running ≠ .delayed by decide)]
      exact unlink_others _ _ (by decide)
    · simp only [fifoPush, update_self]
      rw [unlink_others _ _ (by decide)]
  | @admission it snap n hscan hheld hturn hhook =>
    have hit := scanIntake_mem hscan
    have hothers : ∀ q, q ≠ .intake → q ≠ .ready → (admitItem
        { ps with asked := ps.asked + 1, snaps := n } top it snap).e.q q = ps.e.q q := by
      intro q hi hr
      simp only [admitItem, fifoPush, update_of_ne hr]
      rw [unlink_others _ _ hi]
      split_ifs
      · rfl
      · simp only [mapQueue, update_of_ne hi]
    refine ⟨?_, hothers _ (by decide) (by decide), hothers _ (by decide) (by decide),
      .inl ⟨hothers _ (by decide) (by decide), rfl⟩, ?_, ?_, ?_, rfl, rfl, rfl⟩
    · simp only [admitItem, fifoPush, update_of_ne (show QId.intake ≠ .ready by decide)]
      split_ifs with htop
      · exact length_unlink _ hit
      · have hptr : ∀ x : Item, (chargeSkip top.ptr x).ptr = x.ptr := by
          intro x
          unfold chargeSkip
          split_ifs <;> rfl
        have hmem : ∃ x ∈ (mapQueue ps.e .intake (chargeSkip top.ptr)).q .intake, x.ptr = it.ptr := by
          exact ⟨_, mem_map_of_mem hit, hptr it⟩
        obtain ⟨x, hx, hxp⟩ := hmem
        have hlen := length_unlink _ hx
        rw [unlink_q, update_self, hxp] at hlen
        rw [unlink_q, update_self, hlen]
        simp only [mapQueue, update_self, length_map]
    all_goals
      simp only [admitItem, fifoPush, intakeUnlink, fifoRemove]
      split_ifs <;> rfl

/-- The states the admission loop goes through. -/
inductive Visits (inp : PassIn) (ps : PassState) : PassState → Prop
  /-- Where it begins. -/
  | here : Visits inp ps ps
  /-- After one more round. -/
  | next {ps₁ ps₂ : PassState} {top : Item} (h : Visits inp ps ps₁) (hat : AtItem ps₁ top)
      (hgo : Round inp ps₁ top (ps₂, true)) : Visits inp ps ps₂

/-- What is visited from the next state is visited. -/
theorem Visits.cons {ps₁ : PassState} (hat : AtItem ps top) (hgo : Round inp ps top (ps₁, true))
    (h : Visits inp ps₁ ps') : Visits inp ps ps' := by
  induction h with
  | here => exact .next .here hat hgo
  | next _ hat' hgo' ih => exact .next ih hat' hgo'

/-- The loop visits a state and ends there, or in the round it begins there. -/
theorem admitLoop_visits (inp : PassIn) (fuel : ℕ) (ps : PassState) :
    ∃ ps₁, Visits inp ps ps₁ ∧ (admitLoop inp fuel ps = ps₁ ∨
      ∃ top, AtItem ps₁ top ∧ Round inp ps₁ top (admitLoop inp fuel ps, false)) := by
  induction fuel generalizing ps with
  | zero => exact ⟨ps, .here, .inl rfl⟩
  | succ fuel ih =>
    rw [admitLoop]
    cases hq : ps.e.q .intake with
    | nil => exact ⟨ps, .here, .inl rfl⟩
    | cons top rest =>
      dsimp only
      by_cases hstop : ps.pastGrace ∨ ps.e.maxConcurrentTasks ≤ ps.e.running
      · rw [if_pos hstop]
        exact ⟨ps, .here, .inl rfl⟩
      · rw [if_neg hstop]
        rw [not_or, not_le, Bool.not_eq_true] at hstop
        have hat : AtItem ps top := ⟨by rw [hq]; rfl, hstop.1, hstop.2⟩
        have hround := admitOnce_round inp ps top
        generalize admitOnce inp ps top = r at hround ⊢
        obtain ⟨ps', go⟩ := r
        cases go with
        | false => exact ⟨ps, .here, .inr ⟨top, hat, hround⟩⟩
        | true =>
          obtain ⟨ps₁, hvisits, hend⟩ := ih ps'
          exact ⟨ps₁, hvisits.cons hat hround, hend⟩

/-- A round that ends the loop changes neither the engine nor the admissions. -/
theorem round_ends (h : Round inp ps top (ps', false)) : ps'.e = ps.e ∧ ps'.admissions = ps.admissions := by
  cases h <;> exact ⟨rfl, rfl⟩

/-- A pass ends with the live queues of the last state its loop visits. -/
theorem pass_visits (inp : PassIn) (e : Engine) : ∃ ps, Visits inp (passScored inp e) ps ∧
    ∀ q ≠ QId.dead, (enginePass inp e).e.q q = ps.e.q q := by
  obtain ⟨ps, hvisits, hend⟩ := admitLoop_visits inp ((passScored inp e).e.q .intake).length (passScored inp e)
  refine ⟨ps, hvisits, fun q hq => ?_⟩
  have htrim : (enginePass inp e).e.q q =
      (admitLoop inp ((passScored inp e).e.q .intake).length (passScored inp e)).e.q q :=
    (hidxTrim_kept _ inp.trimOk).q q hq
  rw [htrim]
  rcases hend with hend | ⟨top, -, hround⟩
  · rw [hend]
  · rw [(round_ends hround).1]

/-- An admission as the loop made it. -/
structure Admits (inp : PassIn) (ps : PassState) (a : Admission) : Prop where
  /-- The loop is at the first item. -/
  place : AtItem ps a.top
  /-- The engine. -/
  before : a.before = ps.e
  /-- The walk found the item admitted. -/
  scan : scanIntake ps.e (ps.e.q .intake) = .best a.best
  /-- It need not make room for retries. -/
  held : heldBack ps a.best = false
  /-- Nor for the first item. -/
  turn : a.best.ptr ≠ a.top.ptr → a.top.skips < ps.e.reserveAfterSkips
  /-- No hook objects. -/
  hook : runConstraints ps.e (inp.hook ps.asked) = .admitted

/-- A round that goes on makes one admission or none. -/
theorem round_admissions (h : Round inp ps top (ps', true)) : ps'.admissions = ps.admissions ∨
    ∃ it, ps'.admissions = ps.admissions ++ [⟨ps.e, top, it⟩] ∧
      (AtItem ps top → Admits inp ps ⟨ps.e, top, it⟩) := by
  cases h with
  | strand | deny | defer => exact .inl rfl
  | @admission it snap n hscan hheld hturn hhook =>
    exact .inr ⟨it, rfl, fun hat => ⟨hat, rfl, hscan, hheld, hturn, hhook⟩⟩

/-- The admissions up to a state were made in states before it. -/
theorem Visits.admissions (h : Visits inp ps ps') : ∀ a ∈ ps'.admissions,
    a ∈ ps.admissions ∨ ∃ ps₁, Visits inp ps ps₁ ∧ Admits inp ps₁ a := by
  induction h with
  | here => exact fun a ha => .inl ha
  | @next ps₁ ps₂ top hvisits hat hgo ih =>
    intro a ha
    rcases round_admissions hgo with heq | ⟨it, heq, hadm⟩
    · exact ih a (heq ▸ ha)
    · rw [heq] at ha
      rcases mem_append.mp ha with ha | ha
      · exact ih a ha
      · rw [mem_singleton.mp ha]
        exact .inr ⟨ps₁, hvisits, hadm hat⟩

/-- Every admission of a loop was made in a state it visits. -/
theorem admitLoop_admissions {fuel : ℕ} (ha : a ∈ (admitLoop inp fuel ps).admissions) :
    a ∈ ps.admissions ∨ ∃ ps₁, Visits inp ps ps₁ ∧ Admits inp ps₁ a := by
  obtain ⟨ps₁, hvisits, hend | ⟨top, hat, hround⟩⟩ := admitLoop_visits inp fuel ps
  · rw [hend] at ha
    exact hvisits.admissions a ha
  · rw [(round_ends hround).2] at ha
    exact hvisits.admissions a ha

/-- Every admission of a pass was made in a state its loop visits. -/
theorem pass_admits (ha : a ∈ (enginePass inp e).admissions) :
    ∃ ps, Visits inp (passScored inp e) ps ∧ Admits inp ps a := by
  rcases admitLoop_admissions ha with hold | hnew
  · have hold' : a ∈ (passScored inp e).admissions := hold
    rw [(scored_settling inp e).none] at hold'
    exact absurd hold' not_mem_nil
  · exact hnew

/-- Where a round of admission takes an item from. -/
inductive Brings (inp : PassIn) (ps : PassState) (top : Item) : QId → Item → Prop
  /-- It stays. -/
  | stay {q : QId} {y : Item} (hy : y ∈ ps.e.q q) : Brings inp ps top q y
  /-- The first item may be charged a skip. -/
  | charge {x : Item} (hx : x ∈ ps.e.q .intake) : Brings inp ps top .intake (chargeSkip top.ptr x)
  /-- A hook deferred the item found. -/
  | defer {it : Item} {after : ℕ} (hit : it ∈ ps.e.q .intake)
      (hscan : scanIntake ps.e (ps.e.q .intake) = .best it)
      (hhook : runConstraints ps.e (inp.hook ps.asked) = .defer after) :
    Brings inp ps top .delayed { it with notBeforeMs := inp.now + after }
  /-- The item found was admitted. -/
  | admitted {it : Item} {snap : Option (List UInt64)} (hit : it ∈ ps.e.q .intake)
      (hscan : scanIntake ps.e (ps.e.q .intake) = .best it) :
    Brings inp ps top .ready { it with resReserved := snap }

/-- Every live item after a round that goes on. -/
theorem round_brings (h : Round inp ps top (ps', true)) :
    ∀ q ≠ QId.dead, ∀ y ∈ ps'.e.q q, Brings inp ps top q y := by
  have hbury : ∀ x z : Item, ∀ q ≠ QId.dead, ∀ y ∈ (deadLetterPush (intakeUnlink ps.e z) x).q q,
      Brings inp ps top q y := by
    intro x z q hq y hy
    rw [(deadLetterPush_kept _ x).q q hq] at hy
    exact .stay (mem_removed hy)
  cases h with
  | strand | deny => exact hbury _ _
  | @defer it after hscan hheld hturn hhook =>
    intro q hne y hy
    rcases mem_pushed hy with hy | ⟨rfl, rfl⟩
    · exact .stay (mem_removed hy)
    · exact .defer (scanIntake_mem hscan) hscan hhook
  | @admission it snap n hscan hheld hturn hhook =>
    intro q hne y hy
    have hcharged : ∀ q, ∀ y ∈ (if it.ptr = top.ptr then ps.e
        else mapQueue ps.e .intake (chargeSkip top.ptr)).q q, Brings inp ps top q y := by
      intro q y hy
      split_ifs at hy with htop
      · exact .stay hy
      · rcases mem_mapped hy with ⟨rfl, x, hx, rfl⟩ | ⟨-, hy⟩
        · exact .charge hx
        · exact .stay hy
    rcases mem_pushed hy with hy | ⟨rfl, rfl⟩
    · exact hcharged _ y (mem_removed hy)
    · exact .admitted (scanIntake_mem hscan) hscan

end Admission

end Gptps.PassStages
