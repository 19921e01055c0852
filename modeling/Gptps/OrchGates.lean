import Gptps.EngineState
import Mathlib.Data.List.Count

/-!
# Gates that run after their dependencies

The orchestrator watches the terminal events of the engine. A gate holds a submission and a count
of dependencies that have not ended; an event that is the first of its handle, as far as the
orchestrator remembers, counts the handle out of every gate that names it, and a gate at zero is
submitted. What it remembers is an open-addressed set that may be dropped at any moment.
-/

namespace Gptps.OrchGates

open Function ProbeTable EngineState List Option

variable {deps : List ℕ}

section State

/-- The work of a gate: the name of its task and its payload. -/
structure Work where
  /-- The name of the task. -/
  task : Name
  /-- The payload. -/
  payload : List UInt8
  deriving DecidableEq, Repr

/-- One gate. -/
structure Gate where
  /-- The call that made it. -/
  id : ℕ
  /-- What it submits. -/
  work : Work
  /-- The handles it waits for. -/
  deps : List ℕ
  /-- How many of them have not ended. -/
  remaining : ℕ
  /-- It waits no longer. -/
  released : Bool := false
  /-- The refused submits so far. -/
  attempts : ℕ := 0
  /-- It was released without ever being submitted. -/
  abandoned : Bool := false
  /-- The engine's last verdict on its submit. -/
  lastStatus : Status := .ok
  deriving DecidableEq, Repr

/-- The orchestrator. -/
structure Orch where
  /-- The gates, oldest first. -/
  gates : List Gate
  /-- The handles that have ended. -/
  done : Table ℕ Unit
  /-- How many they are. -/
  ndone : ℕ
  /-- How many are remembered at most, 0 for any number. -/
  doneCap : ℕ

/-- `GPTPS_ORCH_RELEASE_ATTEMPTS` -/
def releaseAttempts : ℕ := 16

end State

section Done

/-- `is_terminal` -/
def isTerminal (k : EvKind) (st : Status) : Bool := lastEvent k st

/-- `done_hash`, masked to a table of `n` slots. -/
def doneHome (n h : ℕ) : ℕ := scatter n h

/-- `is_done`, `none` if the probe does not end. -/
def isDone (o : Orch) (h : ℕ) : Option Bool :=
  if o.done.size = 0 ∨ h = 0 then some false
  else (stopSlot doneHome o.done h).map fun i => decide ((o.done.slot i).map Prod.fst = some h)

/-- `orch_prune_locked`: every handle is forgotten. -/
def orchPruneLocked (o : Orch) : Orch := { o with done := ⟨o.done.size, fun _ => none⟩, ndone := 0 }

/-- `done_grow`: the table is doubled. -/
def doneGrow (o : Orch) : Option Orch :=
  (rebuild doneHome o.done (if o.done.size = 0 then 32 else o.done.size * 2)).map fun t =>
    { o with done := t }

/-- The handle is stored. -/
def store (o : Orch) (h : ℕ) : Option Orch :=
  (stopSlot doneHome o.done h).map fun i =>
    { o with
      done := { o.done with slot := update o.done.slot i (some (h, ())) }
      ndone := o.ndone + 1 }

/-- A full set is dropped before anything is added to it. -/
def capped (o : Orch) : Orch :=
  if o.doneCap ≠ 0 ∧ o.ndone ≥ o.doneCap then orchPruneLocked o else o

/-- `mark_done`: whether the handle is newly terminal. `alloc` says whether a larger table is to be
had. -/
def markDone (o : Orch) (h : ℕ) (alloc : Bool) : Option (Orch × Bool) :=
  if h = 0 then some (o, false)
  else
    (isDone (capped o) h).bind fun known =>
      if known then some (capped o, false)
      else if ((capped o).ndone + 1) * 2 > (capped o).done.size then
        if alloc then
          (doneGrow (capped o)).bind fun o' => (store o' h).map fun o'' => (o'', true)
        else some (capped o, true)
      else (store (capped o) h).map fun o' => (o', true)

end Done

section Gates

/-- What the orchestrator heard and did. -/
inductive Act
  /-- A terminal event of a handle came. -/
  | heard (h : ℕ)
  /-- The work of a call was submitted, and what the engine answered. -/
  | submitted (id : ℕ) (deps : List ℕ) (st : Status)
  deriving DecidableEq, Repr

/-- `release_gate`, with the engine's answer. -/
def releaseGate (g : Gate) (st : Status) : Gate :=
  if st = .ok then { g with lastStatus := st, released := true, abandoned := false }
  else if st ≠ .notfound ∧ st ≠ .full ∧ st ≠ .nomem then
    { g with lastStatus := st, released := true, abandoned := true }
  else if g.attempts + 1 ≥ releaseAttempts then
    { g with lastStatus := st, attempts := g.attempts + 1, released := true, abandoned := true }
  else { g with lastStatus := st, attempts := g.attempts + 1 }

/-- The loop over the dependencies of a gate: the first that is the handle is counted out. -/
def countOut (h : ℕ) : List ℕ → ℕ → ℕ
  | [], remaining => remaining
  | d :: ds, remaining =>
    if d = h ∧ remaining > 0 then remaining - 1 else countOut h ds remaining

/-- What the loop of `orch_obs` makes of a gate, and whether it submits it. -/
def obsGate (h : ℕ) (g : Gate) : Gate × Bool :=
  if g.released then (g, false)
  else
    let g' := { g with remaining := countOut h g.deps g.remaining }
    (g', decide (g'.remaining = 0))

/-- What the loop of `gptps_orch_retry` makes of a gate, and whether it submits it. -/
def retryGate (g : Gate) : Gate × Bool :=
  if g.abandoned then ({ g with released := false, abandoned := false, attempts := 0 }, true)
  else (g, false)

/-- A loop over the gates that prepares each and releases some, with the engine's answers to what it
submits; what is left of them and what was done. -/
def sweep (prepare : Gate → Gate × Bool) :
    List Gate → List Status → Option (List Gate × List Status × List Act)
  | [], as => some ([], as, [])
  | g :: gs, as =>
    if (prepare g).2 then
      match as with
      | [] => none
      | a :: as =>
        (sweep prepare gs as).map fun p =>
          (releaseGate (prepare g).1 a :: p.1, p.2.1, .submitted g.id g.deps a :: p.2.2)
    else (sweep prepare gs as).map fun p => ((prepare g).1 :: p.1, p.2)

/-- `orch_obs` for an event. -/
def orchObs (o : Orch) (k : EvKind) (st : Status) (h : ℕ) (alloc : Bool) (as : List Status) :
    Option (Orch × List Act) :=
  if isTerminal k st then
    (markDone o h alloc).bind fun p =>
      if p.2 then
        (sweep (obsGate h) p.1.gates as).map fun r => ({ p.1 with gates := r.1 }, .heard h :: r.2.2)
      else some (p.1, [.heard h])
  else some (o, [])

/-- The dependencies that are not remembered as ended. -/
def countRemaining (o : Orch) : List ℕ → Option ℕ
  | [] => some 0
  | d :: ds => (isDone o d).bind fun known => (countRemaining o ds).map fun n =>
      if known then n else n + 1

/-- `gptps_orch_after` by the call `id`. -/
def gptpsOrchAfter (o : Orch) (id : ℕ) (work : Work) (deps : List ℕ) (alloc : Bool) (a : Status) :
    Option (Orch × List Act) :=
  if 0 ∈ deps then some (o, [])
  else
    (countRemaining o deps).bind fun remaining =>
      if remaining = 0 then some (o, [.submitted id deps a])
      else if alloc then
        some ({ o with gates := o.gates ++
          [{ id := id, work := work, deps := deps, remaining := remaining }] }, [])
      else some (o, [])

end Gates

section System

/-- The orchestrator, what it heard and did so far, and the next call. -/
structure Sys where
  /-- The orchestrator. -/
  orch : Orch
  /-- What it heard and did, in order. -/
  trace : List Act
  /-- The next call of `gptps_orch_after`. -/
  nextId : ℕ

/-- What can happen next. -/
inductive Label
  /-- An event is delivered; whether memory is to be had, and the engine's answers. -/
  | event (k : EvKind) (st : Status) (h : ℕ) (alloc : Bool) (as : List Status)
  /-- `gptps_orch_after` -/
  | after (work : Work) (deps : List ℕ) (alloc : Bool) (a : Status)
  /-- `gptps_orch_prune` -/
  | prune
  /-- `gptps_orch_retry` -/
  | retry (as : List Status)
  deriving DecidableEq, Repr

/-- An orchestrator that was just installed. -/
def init (doneCap : ℕ) : Sys := ⟨⟨[], .empty, 0, doneCap⟩, [], 0⟩

/-- One step, `none` where it does not end or an answer is missing. -/
def step (s : Sys) : Label → Option Sys
  | .event k st h alloc as =>
    (orchObs s.orch k st h alloc as).map fun p => ⟨p.1, s.trace ++ p.2, s.nextId⟩
  | .after work deps alloc a =>
    (gptpsOrchAfter s.orch s.nextId work deps alloc a).map fun p =>
      ⟨p.1, s.trace ++ p.2, s.nextId + 1⟩
  | .prune => some { s with orch := orchPruneLocked s.orch }
  | .retry as =>
    (sweep retryGate s.orch.gates as).map fun p =>
      ⟨{ s.orch with gates := p.1 }, s.trace ++ p.2.2, s.nextId⟩

/-- The state some steps lead to. -/
def run : Sys → List Label → Option Sys
  | s, [] => some s
  | s, l :: ls => (step s l).bind fun s' => run s' ls

end System

section Set

variable {o o' : Orch} {l : List (ℕ × Unit)} {h : ℕ}

/-- A handle that is not held is the key of no entry. -/
theorem key_ne (hnew : (h, ()) ∉ l) : ∀ d ∈ l, d.1 ≠ ((h, ()) : ℕ × Unit).1 := by
  rintro ⟨x, u⟩ hd heq
  obtain rfl : x = h := heq
  exact hnew hd

/-- A home slot is in the table. -/
theorem doneHome_lt : ∀ n h, 0 < n → doneHome n h < n := scatter_lt

/-- The set holds the handles of `l`. -/
structure SetInv (o : Orch) (l : List (ℕ × Unit)) : Prop where
  /-- The table holds them. -/
  holds : Holds doneHome o.done l
  /-- They are counted. -/
  count : o.ndone = l.length

/-- The set answers exactly the handles it holds. -/
theorem isDone_eq (ho : SetInv o l) (hne : h ≠ 0) : isDone o h = some (decide ((h, ()) ∈ l)) := by
  unfold isDone
  by_cases hz : o.done.size = 0
  · have hhalf := ho.holds.half
    have hnil : l = [] := eq_nil_of_length_eq_zero (by omega)
    rw [if_pos (.inl hz), hnil]
    rfl
  · rw [if_neg (fun hno => hno.elim hz hne)]
    by_cases hmem : (h, ()) ∈ l
    · obtain ⟨s, -, hstop, hslot⟩ := ho.holds.keeps.stopSlot_stored doneHome_lt hmem
      rw [show stopSlot doneHome o.done h = some s from hstop, map_some, hslot]
      simp [hmem]
    · obtain ⟨s, -, hstop, hslot, -⟩ :=
        ho.holds.keeps.stopSlot_absent doneHome_lt (Nat.pos_of_ne_zero hz) (key_ne hmem)
      rw [show stopSlot doneHome o.done h = some s from hstop, map_some, hslot]
      simp [hmem]

theorem setInv_prune (o : Orch) : SetInv (orchPruneLocked o) [] := ⟨holds_fresh _, rfl⟩

/-- A set that was full is empty then. -/
theorem setInv_capped (ho : SetInv o l) : ∃ l', SetInv (capped o) l' ∧ l' ⊆ l := by
  unfold capped
  split_ifs
  · exact ⟨[], setInv_prune o, nil_subset l⟩
  · exact ⟨l, ho, .refl l⟩

/-- A handle that is new finds a slot while every other one is free. -/
theorem store_some (ho : SetInv o l) (hnew : (h, ()) ∉ l)
    (hroom : (l.length + 1) * 2 ≤ o.done.size) :
    ∃ o', store o h = some o' ∧ SetInv o' ((h, ()) :: l) ∧ o'.gates = o.gates := by
  obtain ⟨s, -, hstop, -, hput⟩ := ho.holds.keeps.stopSlot_absent doneHome_lt (by omega) (key_ne hnew)
  obtain ⟨u, hu, -, hholds⟩ := put_holds doneHome_lt ho.holds (key_ne hnew) hroom
  rw [hput] at hu
  obtain rfl := some.inj hu
  have hstore : store o h = some { o with
      done := { o.done with slot := update o.done.slot s (some (h, ())) }, ndone := o.ndone + 1 } := by
    rw [store, show stopSlot doneHome o.done h = some s from hstop]
    rfl
  refine ⟨_, hstore, ⟨hholds, ?_⟩, rfl⟩
  show o.ndone + 1 = _
  rw [ho.count, length_cons]

/-- What marking a handle does: it is remembered unless memory lacks, and it is new exactly if the
set, once it was dropped where it was full, did not hold it. -/
theorem markDone_some (ho : SetInv o l) (h : ℕ) (alloc : Bool) :
    ∃ o' l' new, markDone o h alloc = some (o', new) ∧ SetInv o' l' ∧ o'.gates = o.gates ∧
      (∀ x, (x, ()) ∈ l' → x = h ∨ (x, ()) ∈ l) ∧
      (new = true → h ≠ 0 ∧ isDone (capped o) h = some false) := by
  obtain ⟨lc, hc, hsub⟩ := setInv_capped ho
  have hgates : (capped o).gates = o.gates := by
    unfold capped
    split_ifs <;> rfl
  unfold markDone
  by_cases hz : h = 0
  · rw [if_pos hz]
    exact ⟨o, l, false, rfl, ho, rfl, fun x hx => .inr hx, fun hno => by cases hno⟩
  rw [if_neg hz, isDone_eq hc hz, bind_some]
  by_cases hmem : (h, ()) ∈ lc
  · rw [decide_eq_true hmem, if_pos rfl]
    exact ⟨_, lc, false, rfl, hc, hgates, fun x hx => .inr (hsub hx), fun hno => by cases hno⟩
  rw [decide_eq_false hmem, if_neg Bool.false_ne_true]
  have hfrom : ∀ x, (x, ()) ∈ (h, ()) :: lc → x = h ∨ (x, ()) ∈ l := by
    intro x hx
    rcases mem_cons.mp hx with heq | hx
    · exact .inl (Prod.mk.inj heq).1
    · exact .inr (hsub hx)
  by_cases hgrow : ((capped o).ndone + 1) * 2 > (capped o).done.size
  · rw [if_pos hgrow]
    cases alloc with
    | false => exact ⟨_, lc, true, rfl, hc, hgates, fun x hx => .inr (hsub hx), fun _ => ⟨hz, rfl⟩⟩
    | true =>
      rw [if_pos rfl]
      have hhalf := hc.holds.half
      have hcount := hc.count
      obtain ⟨u, hu, hsize, hholds⟩ := rebuild_holds doneHome_lt hc.holds
        (show lc.length * 2 ≤ if (capped o).done.size = 0 then 32 else (capped o).done.size * 2 by
          split_ifs <;> omega)
      have hinv : SetInv { capped o with done := u } lc := ⟨hholds, hc.count⟩
      obtain ⟨o', ho', hinv', hg⟩ := store_some hinv hmem
        (show (lc.length + 1) * 2 ≤ u.size by rw [hsize]; split_ifs <;> omega)
      refine ⟨o', _, true, ?_, hinv', hg.trans hgates, hfrom, fun _ => ⟨hz, rfl⟩⟩
      rw [doneGrow, hu, map_some, bind_some, ho', map_some]
  · rw [if_neg hgrow]
    obtain ⟨o', ho', hinv', hg⟩ := store_some hc hmem (by have := hc.count; omega)
    exact ⟨o', _, true, by rw [ho']; rfl, hinv', hg.trans hgates, hfrom, fun _ => ⟨hz, rfl⟩⟩

end Set

section Sweep

/-- The times the work of a call was submitted and taken. -/
def taken (id : ℕ) (t : List Act) : ℕ :=
  t.countP fun
    | .submitted i _ .ok => i = id
    | _ => false

/-- Whether a gate's work was taken. -/
def isTaken (g : Gate) : Bool := g.released && !g.abandoned

variable {prepare : Gate → Gate × Bool} {gs gs' : List Gate} {as as' : List Status}
  {acts : List Act} {g g' : Gate} {id : ℕ}

/-- The first gate of a sweep and the rest. -/
theorem sweep_cons (hs : sweep prepare (g :: gs) as = some (gs', as', acts)) :
    ((prepare g).2 = false ∧ ∃ rest, sweep prepare gs as = some (rest, as', acts) ∧
        gs' = (prepare g).1 :: rest) ∨
      (prepare g).2 = true ∧ ∃ a more rest done, as = a :: more ∧
        sweep prepare gs more = some (rest, as', done) ∧
        gs' = releaseGate (prepare g).1 a :: rest ∧ acts = .submitted g.id g.deps a :: done := by
  unfold sweep at hs
  cases hp : (prepare g).2 with
  | false =>
    rw [hp, if_neg Bool.false_ne_true] at hs
    obtain ⟨⟨rest, as₁, done⟩, hrest, heq⟩ := map_eq_some_iff.mp hs
    cases heq
    exact .inl ⟨rfl, rest, hrest, rfl⟩
  | true =>
    rw [hp, if_pos rfl] at hs
    cases as with
    | nil => cases hs
    | cons a more =>
      obtain ⟨⟨rest, as₁, done⟩, hrest, heq⟩ := map_eq_some_iff.mp hs
      cases heq
      exact .inr ⟨rfl, a, more, rest, done, rfl, hrest, rfl, rfl⟩

/-- Everything a sweep does is the submit of a gate it released. -/
theorem sweep_act {act : Act} (hs : sweep prepare gs as = some (gs', as', acts)) (hact : act ∈ acts) :
    ∃ g ∈ gs, (prepare g).2 = true ∧ ∃ a, act = .submitted g.id g.deps a := by
  induction gs generalizing as gs' acts with
  | nil =>
    cases hs
    cases hact
  | cons g gs ih =>
    rcases sweep_cons hs with ⟨-, rest, hrest, -⟩ | ⟨hyes, a, more, rest, done, -, hrest, -, rfl⟩
    · obtain ⟨x, hx, hcase⟩ := ih hrest hact
      exact ⟨x, mem_cons_of_mem _ hx, hcase⟩
    · rcases mem_cons.mp hact with rfl | hact
      · exact ⟨g, mem_cons_self, hyes, a, rfl⟩
      · obtain ⟨x, hx, hcase⟩ := ih hrest hact
        exact ⟨x, mem_cons_of_mem _ hx, hcase⟩

/-- What was submitted for a call. -/
def actsOf (id : ℕ) (t : List Act) : List Act :=
  t.filter fun
    | .submitted i _ _ => i = id
    | .heard _ => false

/-- A sweep submits for its gates alone. -/
theorem sweep_other (hs : sweep prepare gs as = some (gs', as', acts)) (hid : id ∉ gs.map Gate.id) :
    actsOf id acts = [] := by
  refine filter_eq_nil_iff.mpr fun act hact => ?_
  obtain ⟨g, hg, -, a, rfl⟩ := sweep_act hs hact
  have hne : g.id ≠ id := fun heq => hid (heq ▸ List.mem_map_of_mem hg)
  simp [hne]

/-- Every gate after a sweep was prepared, and perhaps released: that is what was submitted for its
call. -/
theorem sweep_gate (hn : (gs.map Gate.id).Nodup) (hs : sweep prepare gs as = some (gs', as', acts))
    (hg : g' ∈ gs') :
    ∃ g ∈ gs, ((prepare g).2 = false ∧ g' = (prepare g).1 ∧ actsOf g.id acts = []) ∨
      (prepare g).2 = true ∧ ∃ a, g' = releaseGate (prepare g).1 a ∧
        actsOf g.id acts = [.submitted g.id g.deps a] := by
  induction gs generalizing as gs' acts with
  | nil =>
    cases hs
    cases hg
  | cons g gs ih =>
    rw [map_cons, nodup_cons] at hn
    rcases sweep_cons hs with ⟨hno, rest, hrest, rfl⟩ | ⟨hyes, a, more, rest, done, -, hrest, rfl, rfl⟩
    · rcases mem_cons.mp hg with rfl | hg
      · exact ⟨g, mem_cons_self, .inl ⟨hno, rfl, sweep_other hrest hn.1⟩⟩
      · obtain ⟨x, hx, hcase⟩ := ih hn.2 hrest hg
        exact ⟨x, mem_cons_of_mem _ hx, hcase⟩
    · rcases mem_cons.mp hg with rfl | hg
      · refine ⟨g, mem_cons_self, .inr ⟨hyes, a, rfl, ?_⟩⟩
        rw [actsOf, filter_cons_of_pos (by simp)]
        exact congrArg _ (sweep_other hrest hn.1)
      · obtain ⟨x, hx, hcase⟩ := ih hn.2 hrest hg
        have hne : g.id ≠ x.id := fun heq => hn.1 (heq ▸ List.mem_map_of_mem hx)
        refine ⟨x, mem_cons_of_mem _ hx, ?_⟩
        rw [actsOf, filter_cons_of_neg (by simp [hne])]
        exact hcase

/-- The submits taken add up. -/
theorem taken_append (id : ℕ) (t t' : List Act) : taken id (t ++ t') = taken id t + taken id t' :=
  countP_append

/-- What counts the submits of a call counts them among those of the call. -/
theorem countP_actsOf {p : Act → Bool} (hheard : ∀ h, p (.heard h) = false)
    (hother : ∀ i deps st, i ≠ id → p (.submitted i deps st) = false) (t : List Act) :
    (actsOf id t).countP p = t.countP p := by
  unfold actsOf
  rw [countP_filter]
  refine countP_congr fun act _ => ?_
  cases act with
  | heard h => simp [hheard]
  | submitted i deps a =>
    by_cases hi : i = id
    · simp [hi]
    · simp [hi, hother i deps a hi]

/-- Only the acts of a call count for it. -/
theorem taken_actsOf (id : ℕ) (t : List Act) : taken id (actsOf id t) = taken id t :=
  countP_actsOf (fun _ => rfl) (fun _ _ a hne => by cases a <;> simp [hne]) t

/-- One submit of the call more. -/
theorem taken_cons_self {a : Status} (t : List Act) :
    taken id (.submitted id deps a :: t) = taken id t + if a = .ok then 1 else 0 := by
  unfold taken
  cases a <;> simp

/-- What a sweep's preparation may do: it keeps the call and the dependencies, it leaves alone
whether the work was taken, and what it releases was not taken and waits again. -/
structure Prepares (prepare : Gate → Gate × Bool) : Prop where
  /-- The call. -/
  id : ∀ g, (prepare g).1.id = g.id
  /-- The dependencies. -/
  deps : ∀ g, (prepare g).1.deps = g.deps
  /-- A gate that is not submitted. -/
  stays : ∀ g, (prepare g).2 = false → isTaken (prepare g).1 = isTaken g
  /-- A gate that is submitted. -/
  waits : ∀ g, (prepare g).2 = true → isTaken g = false ∧ (prepare g).1.released = false

/-- A submit leaves the gate its call. -/
theorem releaseGate_id (g : Gate) (a : Status) : (releaseGate g a).id = g.id := by
  unfold releaseGate
  split_ifs <;> rfl

theorem releaseGate_deps (g : Gate) (a : Status) : (releaseGate g a).deps = g.deps := by
  unfold releaseGate
  split_ifs <;> rfl

/-- A gate is taken exactly by a submit that answers GPTPS_OK. -/
theorem isTaken_releaseGate {a : Status} (hw : g.released = false) :
    isTaken (releaseGate g a) = decide (a = .ok) := by
  unfold releaseGate
  by_cases hok : a = .ok
  · rw [if_pos hok, decide_eq_true hok]
    rfl
  · rw [if_neg hok, decide_eq_false hok]
    split_ifs
    · rfl
    · rfl
    · show (g.released && !g.abandoned) = false
      rw [hw]
      rfl

/-- A sweep keeps the gates in their order. -/
theorem sweep_ids (hp : Prepares prepare) (hs : sweep prepare gs as = some (gs', as', acts)) :
    gs'.map Gate.id = gs.map Gate.id := by
  induction gs generalizing as gs' acts with
  | nil =>
    cases hs
    rfl
  | cons g gs ih =>
    rcases sweep_cons hs with ⟨-, rest, hrest, rfl⟩ | ⟨-, a, more, rest, done, -, hrest, rfl, -⟩
    · rw [map_cons, map_cons, ih hrest, hp.id]
    · rw [map_cons, map_cons, ih hrest, releaseGate_id, hp.id]

/-- A gate is taken after a sweep exactly as often as it was before and the sweep says. -/
theorem sweep_taken (hp : Prepares prepare) (hn : (gs.map Gate.id).Nodup)
    (hs : sweep prepare gs as = some (gs', as', acts)) (hg' : g' ∈ gs') :
    ∃ g ∈ gs, g'.id = g.id ∧ (isTaken g').toNat = (isTaken g).toNat + taken g.id acts := by
  obtain ⟨g, hg, ⟨hno, rfl, hacts⟩ | ⟨hyes, a, rfl, hacts⟩⟩ := sweep_gate hn hs hg'
  · refine ⟨g, hg, hp.id g, ?_⟩
    rw [← taken_actsOf, hacts, hp.stays g hno]
    rfl
  · obtain ⟨hnot, hw⟩ := hp.waits g hyes
    refine ⟨g, hg, (releaseGate_id _ a).trans (hp.id g), ?_⟩
    rw [← taken_actsOf, hacts, isTaken_releaseGate hw, taken_cons_self, hnot]
    by_cases hok : a = .ok
    · rw [decide_eq_true hok, if_pos hok]
      rfl
    · rw [decide_eq_false hok, if_neg hok]
      rfl

/-- A gate that waits no longer is passed over; the others are counted down. -/
theorem obsGate_cases (h : ℕ) (g : Gate) : (g.released = true ∧ obsGate h g = (g, false)) ∨
    g.released = false ∧ obsGate h g = ({ g with remaining := countOut h g.deps g.remaining },
      decide (countOut h g.deps g.remaining = 0)) := by
  cases hr : g.released with
  | true => exact .inl ⟨rfl, if_pos hr⟩
  | false =>
    refine .inr ⟨rfl, ?_⟩
    unfold obsGate
    rw [hr, if_neg Bool.false_ne_true]

/-- An event prepares a gate for its submit. -/
theorem prepares_obsGate (h : ℕ) : Prepares (obsGate h) := by
  constructor
  · intro g
    rcases obsGate_cases h g with ⟨-, heq⟩ | ⟨-, heq⟩ <;> rw [heq]
  · intro g
    rcases obsGate_cases h g with ⟨-, heq⟩ | ⟨-, heq⟩ <;> rw [heq]
  · intro g _
    rcases obsGate_cases h g with ⟨-, heq⟩ | ⟨-, heq⟩ <;> rw [heq]
    rfl
  · intro g hyes
    rcases obsGate_cases h g with ⟨-, heq⟩ | ⟨hr, heq⟩
    · rw [heq] at hyes
      cases hyes
    · rw [heq]
      unfold isTaken
      rw [hr]
      exact ⟨rfl, rfl⟩

/-- An abandoned gate is armed again; the others are passed over. -/
theorem retryGate_cases (g : Gate) : (g.abandoned = true ∧ retryGate g =
      ({ g with released := false, abandoned := false, attempts := 0 }, true)) ∨
    g.abandoned = false ∧ retryGate g = (g, false) := by
  cases ha : g.abandoned with
  | true => exact .inl ⟨rfl, if_pos ha⟩
  | false => exact .inr ⟨rfl, if_neg (by rw [ha]; exact Bool.false_ne_true)⟩

/-- `gptps_orch_retry` tries the abandoned gates. -/
theorem retryGate_snd (g : Gate) : (retryGate g).2 = g.abandoned := by
  rcases retryGate_cases g with ⟨ha, heq⟩ | ⟨ha, heq⟩ <;> rw [heq, ha]

/-- So does a retry. -/
theorem prepares_retryGate : Prepares retryGate := by
  constructor
  · intro g
    rcases retryGate_cases g with ⟨-, heq⟩ | ⟨-, heq⟩ <;> rw [heq]
  · intro g
    rcases retryGate_cases g with ⟨-, heq⟩ | ⟨-, heq⟩ <;> rw [heq]
  · intro g hno
    rcases retryGate_cases g with ⟨-, heq⟩ | ⟨-, heq⟩
    · rw [heq] at hno
      cases hno
    · rw [heq]
  · intro g hyes
    have ha := (retryGate_snd g).symm.trans hyes
    rw [isTaken, ha, Bool.not_true, Bool.and_false, retryGate, if_pos ha]
    exact ⟨rfl, rfl⟩

end Sweep

section Steps

variable {s s' : Sys} {l : Label} {ls : List Label}

/-- What the submits of a run come to: the set holds handles that ended, and a call's work was taken
exactly if its gate says so, and at most once. -/
structure SysInv (s : Sys) : Prop where
  /-- The set of the handles that are remembered. -/
  set : ∃ l, SetInv s.orch l ∧ ∀ x, (x, ()) ∈ l → Act.heard x ∈ s.trace
  /-- A call has one gate. -/
  nodup : (s.orch.gates.map Gate.id).Nodup
  /-- The calls of the gates were made. -/
  below : ∀ g ∈ s.orch.gates, g.id < s.nextId
  /-- A gate knows whether its work was taken. -/
  gates : ∀ g ∈ s.orch.gates, taken g.id s.trace = (isTaken g).toNat
  /-- No work was taken twice. -/
  once : ∀ id, taken id s.trace ≤ 1
  /-- No work of a later call was taken. -/
  later : ∀ id, s.nextId ≤ id → taken id s.trace = 0

/-- The invariant holds once the orchestrator is installed. -/
theorem init_inv (doneCap : ℕ) : SysInv (init doneCap) where
  set := ⟨[], ⟨holds_fresh 0, rfl⟩, fun _ hx => by cases hx⟩
  nodup := nodup_nil
  below := fun _ hg => by cases hg
  gates := fun _ hg => by cases hg
  once := fun _ => Nat.zero_le 1
  later := fun _ _ => rfl

theorem taken_heard (id h : ℕ) (t : List Act) : taken id (.heard h :: t) = taken id t := by
  unfold taken
  rw [countP_cons_of_neg (by simp)]

/-- What a step does: nothing but a note that a terminal event came, a sweep after one, a call that
submits at once, waits or is refused, a prune, or a sweep over the abandoned gates. -/
inductive Steps (s : Sys) (l : Label) : Sys → Prop
  /-- The set of a state changed to one that holds no other handles, and a terminal event came. -/
  | hears {o : Orch} {set : List (ℕ × Unit)} (h : ℕ) (hset : SetInv o set)
      (hheard : ∀ x, (x, ()) ∈ set → x = h ∨ Act.heard x ∈ s.trace) (hgates : o.gates = s.orch.gates) :
      Steps s l ⟨o, s.trace ++ [.heard h], s.nextId⟩
  /-- The event was the first, as far as is remembered, and the gates are swept. -/
  | advances {o : Orch} {set : List (ℕ × Unit)} {gs : List Gate} {as as' : List Status}
      {acts : List Act} {k : EvKind} {st : Status} {alloc : Bool} (h : ℕ) (hl : l = .event k st h alloc as)
      (hterm : isTerminal k st = true) (hset : SetInv o set)
      (hheard : ∀ x, (x, ()) ∈ set → x = h ∨ Act.heard x ∈ s.trace)
      (hgates : o.gates = s.orch.gates) (hnew : isDone (capped s.orch) h = some false)
      (hsweep : sweep (obsGate h) o.gates as = some (gs, as', acts)) :
      Steps s l ⟨{ o with gates := gs }, s.trace ++ .heard h :: acts, s.nextId⟩
  /-- The event is not terminal. -/
  | passes : Steps s l s
  /-- A call is refused. -/
  | refuses : Steps s l { s with nextId := s.nextId + 1 }
  /-- Every dependency of a call ended. -/
  | submits (deps : List ℕ) (a : Status) (hz : 0 ∉ deps) (hnone : countRemaining s.orch deps = some 0) :
      Steps s l ⟨s.orch, s.trace ++ [.submitted s.nextId deps a], s.nextId + 1⟩
  /-- A gate is made. -/
  | holds (work : Work) (deps : List ℕ) (n : ℕ) (hz : 0 ∉ deps)
      (hcount : countRemaining s.orch deps = some n) :
      Steps s l ⟨{ s.orch with gates := s.orch.gates ++
        [{ id := s.nextId, work := work, deps := deps, remaining := n }] }, s.trace, s.nextId + 1⟩
  /-- The set is dropped. -/
  | prunes : Steps s l { s with orch := orchPruneLocked s.orch }
  /-- The abandoned gates are submitted again. -/
  | retries {gs : List Gate} {as as' : List Status} {acts : List Act}
      (hsweep : sweep retryGate s.orch.gates as = some (gs, as', acts)) :
      Steps s l ⟨{ s.orch with gates := gs }, s.trace ++ acts, s.nextId⟩

/-- A step is one of these. -/
theorem step_steps (hs : SysInv s) (hstep : step s l = some s') : Steps s l s' := by
  obtain ⟨set, hset, hset_heard⟩ := hs.set
  cases l with
  | event k st h alloc as =>
    obtain ⟨⟨o, acts⟩, hobs, rfl⟩ := map_eq_some_iff.mp hstep
    unfold orchObs at hobs
    split_ifs at hobs with hterm
    · obtain ⟨o₁, l', new, hmark, hset', hgates, hsub, hnew⟩ := markDone_some hset h alloc
      have hheard : ∀ x, (x, ()) ∈ l' → x = h ∨ Act.heard x ∈ s.trace :=
        fun x hx => (hsub x hx).imp id (hset_heard x)
      rw [hmark, bind_some] at hobs
      cases new with
      | true =>
        obtain ⟨⟨gs, as', done⟩, hsweep, heq⟩ := map_eq_some_iff.mp hobs
        cases heq
        exact .advances h rfl hterm hset' hheard hgates (hnew rfl).2 hsweep
      | false =>
        cases hobs
        exact .hears h hset' hheard hgates
    · cases hobs
      rw [append_nil]
      exact .passes
  | after work deps alloc a =>
    obtain ⟨⟨o, acts⟩, hafter, rfl⟩ := map_eq_some_iff.mp hstep
    unfold gptpsOrchAfter at hafter
    by_cases hz : 0 ∈ deps
    · rw [if_pos hz] at hafter
      cases hafter
      rw [append_nil]
      exact .refuses
    · rw [if_neg hz] at hafter
      obtain ⟨n, hn, hrest⟩ := bind_eq_some_iff.mp hafter
      by_cases hnone : n = 0
      · rw [if_pos hnone] at hrest
        cases hrest
        exact .submits deps a hz (hnone ▸ hn)
      rw [if_neg hnone] at hrest
      cases alloc with
      | true =>
        cases hrest
        rw [append_nil]
        exact .holds work deps n hz hn
      | false =>
        cases hrest
        rw [append_nil]
        exact .refuses
  | prune =>
    cases hstep
    exact .prunes
  | retry as =>
    obtain ⟨⟨gs, as', acts⟩, hsweep, rfl⟩ := map_eq_some_iff.mp hstep
    exact .retries hsweep

/-- A sweep keeps what is known of the submits. -/
theorem SysInv.sweep {prepare : Gate → Gate × Bool} {o : Orch} {t : List Act} {gs gs' : List Gate}
    {as as' : List Status} {acts : List Act} {n : ℕ} (hp : Prepares prepare)
    (hs : SysInv ⟨{ o with gates := gs }, t, n⟩)
    (hsweep : OrchGates.sweep prepare gs as = some (gs', as', acts)) :
    SysInv ⟨{ o with gates := gs' }, t ++ acts, n⟩ := by
  have hids := sweep_ids hp hsweep
  have hgate : ∀ g' ∈ gs', taken g'.id (t ++ acts) = (isTaken g').toNat := by
    intro g' hg'
    obtain ⟨g, hg, hid, htaken⟩ := sweep_taken hp hs.nodup hsweep hg'
    rw [taken_append, hid, htaken, hs.gates g hg]
  have hmem : ∀ g' ∈ gs', ∃ g ∈ gs, g.id = g'.id := by
    intro g' hg'
    have hin : g'.id ∈ gs.map Gate.id := hids ▸ List.mem_map_of_mem hg'
    exact List.mem_map.mp hin
  have hother : ∀ id, id ∉ gs.map Gate.id → taken id (t ++ acts) = taken id t := by
    intro id hid
    rw [taken_append, ← taken_actsOf id acts, sweep_other hsweep hid]
    rfl
  refine ⟨?_, hids ▸ hs.nodup, ?_, hgate, ?_, ?_⟩
  · obtain ⟨l, hl, hheard⟩ := hs.set
    exact ⟨l, ⟨hl.holds, hl.count⟩, fun x hx => mem_append_left _ (hheard x hx)⟩
  · intro g' hg'
    obtain ⟨g, hg, hid⟩ := hmem g' hg'
    exact hid ▸ hs.below g hg
  · intro id
    by_cases hid : id ∈ gs.map Gate.id
    · rw [← hids] at hid
      obtain ⟨g', hg', rfl⟩ := List.mem_map.mp hid
      rw [hgate g' hg']
      exact Bool.toNat_le _
    · rw [hother id hid]
      exact hs.once id
  · intro id hid
    have hnot : id ∉ gs.map Gate.id := by
      intro hin
      obtain ⟨g, hg, rfl⟩ := List.mem_map.mp hin
      exact absurd (hs.below g hg) (Nat.not_lt.mpr hid)
    rw [hother id hnot]
    exact hs.later id hid

/-- A handle that ended is noted, and the set may change. -/
theorem SysInv.heard {o : Orch} {l : List (ℕ × Unit)} {h : ℕ} (hs : SysInv s) (hset : SetInv o l)
    (hheard : ∀ x, (x, ()) ∈ l → x = h ∨ Act.heard x ∈ s.trace) (hgates : o.gates = s.orch.gates) :
    SysInv ⟨o, s.trace ++ [.heard h], s.nextId⟩ := by
  have htaken : ∀ id, taken id (s.trace ++ [.heard h]) = taken id s.trace := by
    intro id
    rw [taken_append, taken_heard]
    rfl
  refine ⟨⟨l, hset, ?_⟩, hgates ▸ hs.nodup, hgates ▸ hs.below, ?_, ?_, ?_⟩
  · intro x hx
    rcases hheard x hx with rfl | hx
    · exact mem_append_right _ mem_cons_self
    · exact mem_append_left _ hx
  · rw [hgates]
    exact fun g hg => (htaken g.id).trans (hs.gates g hg)
  · exact fun id => (htaken id).symm ▸ hs.once id
  · exact fun id hid => (htaken id).trans (hs.later id hid)

/-- Every step keeps the invariant. -/
theorem SysInv.step (hs : SysInv s) (hstep : Steps s l s') : SysInv s' := by
  cases hstep with
  | hears h hset hheard hgates => exact hs.heard hset hheard hgates
  | advances h _ _ hset hheard hgates _ hsweep =>
    rw [append_cons]
    exact (hs.heard hset hheard hgates).sweep (prepares_obsGate h) hsweep
  | passes => exact hs
  | refuses =>
    exact { hs with
      below := fun g hg => Nat.lt_succ_of_lt (hs.below g hg)
      later := fun id hid => hs.later id (Nat.le_of_succ_le hid) }
  | submits deps a =>
    have hother : ∀ id, id ≠ s.nextId → taken id (s.trace ++ [.submitted s.nextId deps a]) =
        taken id s.trace := by
      intro id hne
      rw [taken_append]
      have hnone : taken id [.submitted s.nextId deps a] = 0 := by
        unfold taken
        cases a <;> simp [hne.symm]
      rw [hnone, add_zero]
    refine ⟨?_, hs.nodup, fun g hg => Nat.lt_succ_of_lt (hs.below g hg), ?_, ?_, ?_⟩
    · obtain ⟨l, hl, hheard⟩ := hs.set
      exact ⟨l, hl, fun x hx => mem_append_left _ (hheard x hx)⟩
    · exact fun g hg => (hother g.id (ne_of_lt (hs.below g hg))).trans (hs.gates g hg)
    · intro id
      by_cases hid : id = s.nextId
      · rw [hid, taken_append, hs.later _ le_rfl, taken_cons_self]
        have hnil : taken s.nextId [] = 0 := rfl
        split_ifs <;> omega
      · rw [hother id hid]
        exact hs.once id
    · exact fun id hid => (hother id (Nat.ne_of_gt hid)).trans (hs.later id (Nat.le_of_succ_le hid))
  | holds work deps n =>
    obtain ⟨l, hl, hheard⟩ := hs.set
    refine ⟨⟨l, ⟨hl.holds, hl.count⟩, hheard⟩, ?_, ?_, ?_, hs.once,
      fun id hid => hs.later id (Nat.le_of_succ_le hid)⟩
    · show ((s.orch.gates ++ _).map Gate.id).Nodup
      rw [map_append, map_singleton]
      refine nodup_append.mpr ⟨hs.nodup, nodup_singleton _, ?_⟩
      intro id hid id' hid'
      obtain ⟨g, hg, rfl⟩ := List.mem_map.mp hid
      rw [mem_singleton.mp hid']
      exact ne_of_lt (hs.below g hg)
    · intro g hg
      rcases mem_append.mp hg with hg | hg
      · exact Nat.lt_succ_of_lt (hs.below g hg)
      · rw [mem_singleton.mp hg]
        exact Nat.lt_succ_self _
    · intro g hg
      rcases mem_append.mp hg with hg | hg
      · exact hs.gates g hg
      · rw [mem_singleton.mp hg]
        exact hs.later _ le_rfl
  | prunes =>
    exact { hs with set := ⟨[], setInv_prune _, fun x hx => by cases hx⟩ }
  | retries hsweep => exact hs.sweep prepares_retryGate hsweep

/-- So does every run. -/
theorem SysInv.run (hs : SysInv s) (hrun : run s ls = some s') : SysInv s' := by
  induction ls generalizing s with
  | nil =>
    cases hrun
    exact hs
  | cons l ls ih =>
    obtain ⟨s₁, hstep, hrest⟩ := bind_eq_some_iff.mp hrun
    exact ih (hs.step (step_steps hs hstep)) hrest

end Steps

section Progress

variable {s : Sys} {prepare : Gate → Gate × Bool} {gs : List Gate} {as : List Status}

/-- A sweep that has an answer for each gate ends. -/
theorem sweep_some (hlen : gs.length ≤ as.length) : ∃ p, sweep prepare gs as = some p := by
  induction gs generalizing as with
  | nil => exact ⟨([], as, []), rfl⟩
  | cons g gs ih =>
    unfold sweep
    by_cases hsend : (prepare g).2 = true
    · rw [if_pos hsend]
      cases as with
      | nil => cases hlen
      | cons a as =>
        obtain ⟨p, hp⟩ := ih (Nat.le_of_succ_le_succ hlen)
        exact ⟨_, congrArg (Option.map _) hp⟩
    · rw [if_neg hsend]
      obtain ⟨p, hp⟩ := ih (Nat.le_of_succ_le hlen)
      rw [hp]
      exact ⟨_, rfl⟩

/-- The count of the dependencies ends. -/
theorem countRemaining_some (hs : SysInv s) (hz : 0 ∉ deps) :
    ∃ n, countRemaining s.orch deps = some n := by
  obtain ⟨set, hset, -⟩ := hs.set
  induction deps with
  | nil => exact ⟨0, rfl⟩
  | cons d ds ih =>
    rw [mem_cons, not_or] at hz
    obtain ⟨n, hn⟩ := ih hz.2
    rw [countRemaining, isDone_eq hset (fun heq => hz.1 heq.symm), bind_some, hn]
    exact ⟨_, rfl⟩

/-- A step's answers suffice: one for each gate. -/
def Answered (s : Sys) : Label → Prop
  | .event _ _ _ _ as => s.orch.gates.length ≤ as.length
  | .retry as => s.orch.gates.length ≤ as.length
  | _ => True

/-- No call hangs: its probes of the set end. -/
theorem step_some (hs : ∃ n ls, run (init n) ls = some s) {l : Label} (hl : Answered s l) :
    ∃ s', step s l = some s' := by
  obtain ⟨n, ls, hs⟩ := hs
  replace hs := (init_inv n).run hs
  cases l with
  | event k st h alloc as =>
    rw [step, orchObs]
    split_ifs with hterm
    · obtain ⟨set, hset, -⟩ := hs.set
      obtain ⟨o, -, new, hmark, -, hgates, -, -⟩ := markDone_some hset h alloc
      rw [hmark, bind_some]
      cases new with
      | true =>
        obtain ⟨p, hp⟩ : ∃ p, sweep (obsGate h) o.gates as = some p := sweep_some (hgates ▸ hl)
        rw [if_pos rfl, hp]
        exact ⟨_, rfl⟩
      | false => exact ⟨_, rfl⟩
    · exact ⟨_, rfl⟩
  | after work deps alloc a =>
    rw [step, gptpsOrchAfter]
    by_cases hz : 0 ∈ deps
    · rw [if_pos hz]
      exact ⟨_, rfl⟩
    · obtain ⟨n, hn⟩ := countRemaining_some hs hz
      rw [if_neg hz, hn, bind_some]
      split_ifs <;> exact ⟨_, rfl⟩
  | prune => exact ⟨_, rfl⟩
  | retry as =>
    obtain ⟨p, hp⟩ : ∃ p, sweep retryGate s.orch.gates as = some p := sweep_some hl
    rw [step, hp]
    exact ⟨_, rfl⟩

/-- The event that opens a gate. -/
theorem step_some_gated : ∃ s s', run (init 0) [.after ⟨[], []⟩ [1] true .ok] = some s ∧
    s.orch.gates.map (·.remaining) = [1] ∧ step s (.event .finished .ok 1 true [.ok]) = some s' := by
  have hrun : run (init 0) [.after ⟨[], []⟩ [1] true .ok] = some _ := rfl
  obtain ⟨s', hs'⟩ := step_some ⟨_, _, hrun⟩ (show Answered _ (.event .finished .ok 1 true [.ok]) from le_rfl)
  exact ⟨_, s', rfl, rfl, hs'⟩

end Progress

section Order

variable {s s' : Sys} {l : Label} {ls : List Label} {t acts : List Act} {g : Gate} {h : ℕ}

/-- Every submit comes after a terminal event of each of its dependencies. -/
def Gated (t : List Act) : Prop :=
  ∀ before id deps st later, t = before ++ .submitted id deps st :: later →
    ∀ d ∈ deps, Act.heard d ∈ before

/-- Submits whose dependencies have all ended. -/
theorem gated_append (ht : Gated t)
    (hacts : ∀ id deps st, .submitted id deps st ∈ acts → ∀ d ∈ deps, Act.heard d ∈ t) :
    Gated (t ++ acts) := by
  intro before id deps st later heq d hd
  rcases append_eq_append_iff.mp heq with ⟨mid, rfl, hmid⟩ | ⟨mid, rfl, hmid⟩
  · have hin : .submitted id deps st ∈ acts := hmid ▸ mem_append_right _ mem_cons_self
    exact mem_append_left _ (hacts id deps st hin d hd)
  · cases mid with
    | nil =>
      have hin : .submitted id deps st ∈ acts := by
        rw [show acts = .submitted id deps st :: later from hmid.symm]
        exact mem_cons_self
      have hheard := hacts id deps st hin d hd
      rwa [append_nil] at hheard
    | cons x mid =>
      obtain ⟨rfl, -⟩ := cons.inj hmid
      exact ht before id deps st mid rfl d hd

/-- An event submits nothing. -/
theorem gated_heard (ht : Gated t) (h : ℕ) : Gated (t ++ [.heard h]) :=
  gated_append ht fun _ _ _ hin => by cases mem_singleton.mp hin

/-- The dependencies that have not ended. -/
def unheard (t : List Act) (deps : List ℕ) : ℕ := deps.countP fun d => Act.heard d ∉ t

/-- Every dependency has ended. -/
theorem unheard_eq_zero : unheard t deps = 0 ↔ ∀ d ∈ deps, Act.heard d ∈ t := by
  unfold unheard
  simp

/-- What has ended stays so. -/
theorem unheard_append_le (t acts : List Act) (deps : List ℕ) :
    unheard (t ++ acts) deps ≤ unheard t deps := by
  refine countP_mono_left fun d _ hd => ?_
  simp only [decide_eq_true_eq, mem_append, not_or] at hd ⊢
  exact hd.1

/-- The first event of a dependency leaves one dependency less at the least. -/
theorem unheard_heard_lt (hnew : Act.heard h ∉ t) (hdep : h ∈ deps) :
    unheard (t ++ [.heard h]) deps + 1 ≤ unheard t deps := by
  induction deps with
  | nil => cases hdep
  | cons d ds ih =>
    have hle := unheard_append_le t [.heard h] ds
    unfold unheard at hle ih ⊢
    rw [countP_cons, countP_cons]
    by_cases hd : d = h
    · subst hd
      simp [hnew] at hle ⊢
      exact hle
    · have hds : h ∈ ds := (mem_cons.mp hdep).resolve_left (fun heq => hd heq.symm)
      have hiff : (Act.heard d ∈ t ++ [.heard h]) ↔ Act.heard d ∈ t := by
        simp [hd]
      have hrec := ih hds
      simp only [hiff] at hrec ⊢
      omega

/-- A gate's count covers the dependencies that have not ended, and a gate is only given up after
all of them did. -/
structure Waits (t : List Act) (g : Gate) : Prop where
  /-- The count of a gate that waits. -/
  count : g.released = false → unheard t g.deps ≤ g.remaining
  /-- A gate that was given up. -/
  given : g.abandoned = true → unheard t g.deps = 0

/-- A gate waits for no more later on. -/
theorem Waits.mono (hg : Waits t g) (acts : List Act) : Waits (t ++ acts) g := by
  have hle := unheard_append_le t acts g.deps
  exact ⟨fun hr => le_trans hle (hg.count hr), fun ha => Nat.le_zero.mp (hg.given ha ▸ hle)⟩

/-- A gate whose dependencies have ended. -/
theorem waits_ended (hz : unheard t g.deps = 0) : Waits t g := ⟨fun _ => by omega, fun _ => hz⟩

/-- The count goes down by one, or the handle is no dependency. -/
theorem countOut_eq (h : ℕ) (deps : List ℕ) (n : ℕ) :
    countOut h deps n = if h ∈ deps then n - 1 else n := by
  induction deps with
  | nil => rfl
  | cons d ds ih =>
    rw [countOut, ih]
    by_cases hd : d = h
    · rw [if_pos (show h ∈ d :: ds from hd ▸ mem_cons_self)]
      split_ifs <;> omega
    · have hiff : h ∈ d :: ds ↔ h ∈ ds := by
        rw [mem_cons]
        exact ⟨fun hor => hor.resolve_left fun heq => hd heq.symm, .inr⟩
      rw [if_neg (fun hno => hd hno.1)]
      simp only [hiff]

/-- A terminal event of a handle that had one before comes while the handle is remembered, or no
gate waits for it any more. -/
def Minds (s : Sys) : Label → Prop
  | .event k st h _ _ => isTerminal k st = true → Act.heard h ∈ s.trace →
      isDone (capped s.orch) h = some true ∨ ∀ g ∈ s.orch.gates, g.released = false → h ∉ g.deps
  | _ => True

/-- Every step of a run minds what was forgotten. -/
def RunMinds (s : Sys) : List Label → Prop
  | [] => True
  | l :: ls => Minds s l ∧ ∀ s', step s l = some s' → RunMinds s' ls

/-- A sweep keeps the gates right if it submits for none whose dependencies have not all ended. -/
theorem waits_sweep {prepare : Gate → Gate × Bool} {gs gs' : List Gate} {as as' : List Status}
    (hp : Prepares prepare) (hn : (gs.map Gate.id).Nodup) (hprep : ∀ g ∈ gs, Waits t (prepare g).1)
    (hsend : ∀ g ∈ gs, (prepare g).2 = true → unheard t g.deps = 0)
    (hsweep : sweep prepare gs as = some (gs', as', acts)) :
    (∀ g' ∈ gs', Waits t g') ∧
      ∀ id deps st, .submitted id deps st ∈ acts → ∀ d ∈ deps, Act.heard d ∈ t := by
  constructor
  · intro g' hg'
    obtain ⟨g, hg, ⟨-, rfl, -⟩ | ⟨hyes, a, rfl, -⟩⟩ := sweep_gate hn hsweep hg'
    · exact hprep g hg
    · refine waits_ended ?_
      rw [releaseGate_deps, hp.deps]
      exact hsend g hg hyes
  · intro id deps st hin
    obtain ⟨g, hg, hyes, a, heq⟩ := sweep_act hsweep hin
    cases heq
    exact unheard_eq_zero.mp (hsend g hg hyes)

/-- The count of a new gate covers the dependencies that have not ended: what is remembered did. -/
theorem countRemaining_covers (hs : SysInv s) {n : ℕ} (hz : 0 ∉ deps)
    (hcount : countRemaining s.orch deps = some n) : unheard s.trace deps ≤ n := by
  obtain ⟨set, hset, hheard⟩ := hs.set
  induction deps generalizing n with
  | nil => exact Nat.zero_le n
  | cons d ds ih =>
    rw [mem_cons, not_or] at hz
    rw [countRemaining, isDone_eq hset (fun heq => hz.1 heq.symm), bind_some] at hcount
    obtain ⟨m, hm, rfl⟩ := map_eq_some_iff.mp hcount
    have hrest := ih hz.2 hm
    unfold unheard at hrest ⊢
    rw [countP_cons]
    by_cases hmem : (d, ()) ∈ set
    · rw [decide_eq_true hmem, if_pos rfl, if_neg (by simp [hheard d hmem])]
      exact hrest
    · rw [decide_eq_false hmem, if_neg Bool.false_ne_true]
      split_ifs <;> omega

/-- The submits came late enough, and so will those to come. -/
structure OrderInv (s : Sys) : Prop where
  /-- Those that were made. -/
  gated : Gated s.trace
  /-- Those to come. -/
  waits : ∀ g ∈ s.orch.gates, Waits s.trace g

/-- A gate counted down by an event that no waiting gate was counted down by before. -/
theorem waits_obsGate (hg : Waits t g)
    (hminds : Act.heard h ∈ t → g.released = false → h ∉ g.deps) :
    Waits (t ++ [.heard h]) (obsGate h g).1 := by
  rcases obsGate_cases h g with ⟨-, heq⟩ | ⟨hr, heq⟩
  · rw [heq]
    exact hg.mono _
  · rw [heq]
    refine ⟨fun _ => ?_, fun ha => (hg.mono _).given ha⟩
    show unheard _ g.deps ≤ countOut h g.deps g.remaining
    have hle := unheard_append_le t [.heard h] g.deps
    have hcount := hg.count hr
    rw [countOut_eq]
    split_ifs with hdep
    · have hlt := unheard_heard_lt (fun hold => hminds hold hr hdep) hdep
      omega
    · omega

/-- A step that minds what was forgotten keeps the order. -/
theorem OrderInv.step (hs : SysInv s) (ho : OrderInv s) (hstep : Steps s l s') (hm : Minds s l) :
    OrderInv s' := by
  cases hstep with
  | hears h _ _ hgates =>
    refine ⟨gated_heard ho.gated h, ?_⟩
    rw [hgates]
    exact fun g hg => (ho.waits g hg).mono _
  | advances h hl hterm _ _ hgates hnew hsweep =>
    subst hl
    rw [hgates] at hsweep
    have hprep : ∀ g ∈ s.orch.gates, Waits (s.trace ++ [.heard h]) (obsGate h g).1 := by
      intro g hg
      refine waits_obsGate (ho.waits g hg) fun hold hr => ?_
      rcases hm hterm hold with hknown | hnone
      · rw [hnew] at hknown
        cases hknown
      · exact hnone g hg hr
    have hsend : ∀ g ∈ s.orch.gates, (obsGate h g).2 = true →
        unheard (s.trace ++ [.heard h]) g.deps = 0 := by
      intro g hg hyes
      have hcount := (hprep g hg).count ((prepares_obsGate h).waits g hyes).2
      rcases obsGate_cases h g with ⟨-, heq⟩ | ⟨-, heq⟩
      · rw [heq] at hyes
        cases hyes
      · rw [heq] at hyes hcount
        have hzero := of_decide_eq_true hyes
        exact Nat.le_zero.mp (hzero ▸ hcount)
    obtain ⟨hwaits, hacts⟩ := waits_sweep (prepares_obsGate h) hs.nodup hprep hsend hsweep
    rw [append_cons]
    exact ⟨gated_append (gated_heard ho.gated h) hacts, fun g hg => (hwaits g hg).mono _⟩
  | passes => exact ho
  | refuses | prunes => exact ⟨ho.gated, ho.waits⟩
  | submits deps a hz hnone =>
    refine ⟨gated_append ho.gated ?_, fun g hg => (ho.waits g hg).mono _⟩
    intro id deps' st hin
    cases mem_singleton.mp hin
    exact unheard_eq_zero.mp (Nat.le_zero.mp (countRemaining_covers hs hz hnone))
  | holds work deps n hz hcount =>
    refine ⟨ho.gated, fun g hg => ?_⟩
    rcases mem_append.mp hg with hg | hg
    · exact ho.waits g hg
    · rw [mem_singleton.mp hg]
      exact ⟨fun _ => countRemaining_covers hs hz hcount, fun ha => by cases ha⟩
  | retries hsweep =>
    have hgiven : ∀ g ∈ s.orch.gates, (retryGate g).2 = true → unheard s.trace g.deps = 0 :=
      fun g hg hyes => (ho.waits g hg).given ((retryGate_snd g).symm.trans hyes)
    have hprep : ∀ g ∈ s.orch.gates, Waits s.trace (retryGate g).1 := by
      intro g hg
      rcases retryGate_cases g with ⟨ha, heq⟩ | ⟨-, heq⟩
      · refine waits_ended ?_
        rw [prepares_retryGate.deps]
        exact (ho.waits g hg).given ha
      · rw [heq]
        exact ho.waits g hg
    obtain ⟨hwaits, hacts⟩ := waits_sweep prepares_retryGate hs.nodup hprep hgiven hsweep
    exact ⟨gated_append ho.gated hacts, fun g hg => (hwaits g hg).mono _⟩

/-- So does a run of such steps. -/
theorem OrderInv.run (hs : SysInv s) (ho : OrderInv s) (hrun : run s ls = some s')
    (hm : RunMinds s ls) : OrderInv s' := by
  induction ls generalizing s with
  | nil =>
    cases hrun
    exact ho
  | cons l ls ih =>
    obtain ⟨s₁, hstep, hrest⟩ := bind_eq_some_iff.mp hrun
    have hsteps := step_steps hs hstep
    exact ih (hs.step hsteps) (OrderInv.step hs ho hsteps hm.1) hrest (hm.2 s₁ hstep)

/-- Whatever happens, a call's work is taken at most once; and while no handle that a gate waits for
ends again after it was forgotten, no work is submitted before each of its dependencies ended. -/
theorem gates_open_late (doneCap : ℕ) (hrun : run (init doneCap) ls = some s) :
    (∀ id, taken id s.trace ≤ 1) ∧ (RunMinds (init doneCap) ls → Gated s.trace) := by
  have hinit := init_inv doneCap
  have hfirst : OrderInv (init doneCap) := by
    refine ⟨fun before id deps st later heq => ?_, fun g hg => by cases hg⟩
    cases (append_eq_nil_iff.mp heq.symm).2
  exact ⟨(hinit.run hrun).once, fun hm => (OrderInv.run hinit hfirst hrun hm).gated⟩

/-- A gate on the handles 1 and 2; the first ends, and what is remembered is dropped. -/
def forgotten : List Label :=
  [.after ⟨[], []⟩ [1, 2] true .ok, .event .finished .ok 1 true [], .prune]

/-- A gate on the handles 1 and 2 opens once the second ended, although the first was forgotten. -/
theorem gates_open_late_two :
    ∃ s, run (init 0) (forgotten ++ [.event .finished .ok 2 true [.ok]]) = some s ∧
    s.trace = [.heard 1, .heard 2, .submitted 0 [1, 2] .ok] ∧ taken 0 s.trace ≤ 1 ∧ Gated s.trace := by
  have hrun : ∃ s, run (init 0) (forgotten ++ [.event .finished .ok 2 true [.ok]]) = some s ∧
      s.trace = [.heard 1, .heard 2, .submitted 0 [1, 2] .ok] := ⟨_, rfl, rfl⟩
  have hminds : RunMinds (init 0) (forgotten ++ [.event .finished .ok 2 true [.ok]]) := by
    refine ⟨trivial, fun s₁ h₁ => ⟨fun _ hold => ?_, fun s₂ h₂ => ⟨trivial, fun s₃ h₃ =>
      ⟨fun _ hold => ?_, fun _ _ => trivial⟩⟩⟩⟩
    · obtain rfl := some.inj h₁
      cases hold
    · obtain rfl := some.inj h₁
      obtain rfl := some.inj h₂
      obtain rfl := some.inj h₃
      have hno : Act.heard 2 ∈ [Act.heard 1] := hold
      simp at hno
  obtain ⟨s, hs, htrace⟩ := hrun
  have hboth := gates_open_late 0 hs
  exact ⟨s, hs, htrace, hboth.1 0, hboth.2 hminds⟩

/-- A service's handle ends, is forgotten and ends again: the gate is counted down twice by it and
its work is submitted although its other dependency never ended. -/
theorem gate_opens_early : ∃ s, run (init 0) (forgotten ++ [.event .finished .ok 1 true [.ok]]) = some s ∧
    s.trace = [.heard 1, .heard 1, .submitted 0 [1, 2] .ok] ∧ ¬Gated s.trace := by
  refine ⟨_, rfl, rfl, fun hgated => ?_⟩
  have hheard := hgated [.heard 1, .heard 1] 0 [1, 2] .ok [] rfl 2 (by decide)
  revert hheard
  decide

end Order

section Retry

variable {s s' : Sys} {l : Label} {ls : List Label} {gs gs' : List Gate} {as as' : List Status}
  {acts : List Act} {g : Gate} {a : Status} {since : ℕ → ℕ} {n : ℕ}

/-- The gates `gptps_orch_stalled` counts. -/
def stalled (gs : List Gate) : List Gate := gs.filter Gate.abandoned

/-- `gptps_orch_retry`: the gates it leaves, the count it returns and what it did. -/
def gptpsOrchRetry (gs : List Gate) (as : List Status) : Option (List Gate × ℕ × List Act) :=
  (sweep retryGate gs as).map fun p =>
    (p.1, (gs.zip p.1).countP fun q => q.1.abandoned && !q.2.abandoned, p.2.2)

/-- A refusal that can clear. -/
def transient (st : Status) : Bool := st = .notfound || st = .full || st = .nomem

/-- How many submits were taken. -/
def accepted (t : List Act) : ℕ :=
  t.countP fun
    | .submitted _ _ st => st = .ok
    | .heard _ => false

/-- A gate armed again is given up exactly by a refusal that cannot clear. -/
theorem abandoned_retryGate (hg : g.abandoned = true) (a : Status) :
    (releaseGate (retryGate g).1 a).abandoned = !(decide (a = .ok) || transient a) := by
  unfold retryGate releaseGate transient releaseAttempts
  rw [if_pos hg]
  cases a <;> simp

/-- A retry counts what was taken and what can clear, and leaves the rest taken or stalled. -/
theorem sweep_retryGate (hs : sweep retryGate gs as = some (gs', as', acts)) :
    ((gs.zip gs').countP fun q => q.1.abandoned && !q.2.abandoned) =
        accepted acts + (as.take (stalled gs).length).countP transient ∧
      ((∀ a ∈ as.take (stalled gs).length, transient a = false) →
        ∀ q ∈ gs.zip gs', q.1.abandoned = true → isTaken q.2 = true ∨ q.2.abandoned = true) := by
  induction gs generalizing as gs' acts with
  | nil =>
    cases hs
    exact ⟨rfl, fun _ q hq => by cases hq⟩
  | cons g gs ih =>
    rcases sweep_cons hs with ⟨hno, rest, hrest, rfl⟩ | ⟨hyes, a, more, rest, done, rfl, hrest, rfl, rfl⟩
    · rw [retryGate_snd] at hno
      have hsame : stalled (g :: gs) = stalled gs := filter_cons_of_neg (by simp [hno])
      rw [hsame, zip_cons_cons, countP_cons_of_neg (by simp [hno])]
      refine (ih hrest).imp_right fun hleft hclear => forall_mem_cons.mpr ⟨fun hg => ?_, hleft hclear⟩
      cases hno.symm.trans hg
    · have hg := (retryGate_snd g).symm.trans hyes
      obtain ⟨hcount, hleft⟩ := ih hrest
      have hmore : stalled (g :: gs) = g :: stalled gs := filter_cons_of_pos hg
      rw [hmore, length_cons, take_succ_cons, zip_cons_cons, countP_cons,
        countP_cons, hcount, forall_mem_cons, forall_mem_cons, hg,
        abandoned_retryGate hg, isTaken_releaseGate (prepares_retryGate.waits g hyes).2]
      refine ⟨?_, fun hclear => ⟨fun _ => ?_, hleft hclear.2⟩⟩
      · rw [accepted, accepted, countP_cons]
        cases a <;> simp [transient] <;> omega
      · rw [hclear.1]
        cases decide (a = .ok) <;> simp

/-- The refused submits of a call. -/
def rejected (id : ℕ) (t : List Act) : ℕ :=
  t.countP fun
    | .submitted i _ st => i = id && st ≠ .ok
    | .heard _ => false

/-- Only the acts of a call count for it. -/
theorem rejected_actsOf (id : ℕ) (t : List Act) : rejected id (actsOf id t) = rejected id t :=
  countP_actsOf (fun _ => rfl) (fun _ _ _ hne => by simp [hne]) t

/-- The refused submits of a call's gate so far: none counts for a gate that was not made yet or is
stalled, which nothing but a retry submits. -/
def armed (s : Sys) (since : ℕ → ℕ) (id : ℕ) : ℕ :=
  if id ∈ (s.orch.gates.filter fun g => !g.abandoned).map Gate.id then since id else 0

/-- The refused submits of a call's gate since it was armed, after a step. -/
def recount (s s' : Sys) (since : ℕ → ℕ) (id : ℕ) : ℕ :=
  armed s since id + rejected id (s'.trace.drop s.trace.length)

/-- The refused submits of each call's gate since it was armed, after some steps. -/
def sinceArmed : Sys → (ℕ → ℕ) → List Label → ℕ → ℕ
  | _, since, [] => since
  | s, since, l :: ls =>
    match step s l with
    | none => since
    | some s' => sinceArmed s' (recount s s' since) ls

/-- What is known of a gate after `n` refused submits. -/
structure Paced (g : Gate) (n : ℕ) : Prop where
  /-- A gate that was given up waits no longer. -/
  given : g.abandoned = true → g.released = true
  /-- A gate that waits counts them, and they are few. -/
  counted : g.released = false → g.attempts = n ∧ n < releaseAttempts
  /-- They are never more. -/
  most : n ≤ releaseAttempts

/-- A gate that is released. -/
theorem paced_released (hr : g.released = true) (hn : n ≤ releaseAttempts) : Paced g n :=
  ⟨fun _ => hr, fun hno => absurd hr (by rw [hno]; exact Bool.false_ne_true), hn⟩

/-- A gate that was never refused. -/
theorem paced_fresh (hg : g.abandoned = false) (hz : g.attempts = 0) : Paced g 0 :=
  ⟨fun ha => absurd ha (by rw [hg]; exact Bool.false_ne_true), fun _ => ⟨hz, by decide⟩,
    Nat.zero_le _⟩

/-- A submit that is refused is counted. -/
theorem Paced.release (hg : Paced g n) (hw : g.released = false) (a : Status) :
    Paced (releaseGate g a) (n + if a = .ok then 0 else 1) := by
  obtain ⟨hcount, hfew⟩ := hg.counted hw
  unfold releaseGate
  split_ifs with hok hlast hmany
  · exact paced_released rfl hg.most
  · exact paced_released rfl hfew
  · exact paced_released rfl hfew
  · refine ⟨hg.given, fun _ => ?_, hfew⟩
    show g.attempts + 1 = n + 1 ∧ n + 1 < releaseAttempts
    omega

/-- What a step starts the counts from. -/
theorem paced_armed (hp : ∀ g ∈ s.orch.gates, Paced g (since g.id)) (hg : g ∈ s.orch.gates) :
    Paced g (armed s since g.id) := by
  unfold armed
  split_ifs with hin
  · exact hp g hg
  · cases ha : g.abandoned with
    | false => exact absurd (List.mem_map_of_mem (mem_filter.mpr ⟨hg, by rw [ha]; rfl⟩)) hin
    | true => exact paced_released ((hp g hg).given ha) (Nat.zero_le _)

/-- An abandoned gate is counted anew. -/
theorem armed_stalled (hs : SysInv s) (hg : g ∈ s.orch.gates) (ha : g.abandoned = true) :
    armed s since g.id = 0 := by
  refine if_neg fun hin => ?_
  obtain ⟨x, hx, hid⟩ := List.mem_map.mp hin
  obtain ⟨hx, hnot⟩ := mem_filter.mp hx
  rw [inj_on_of_nodup_map hs.nodup hx hg hid, ha] at hnot
  cases hnot

/-- A sweep counts the refused submits of each gate. -/
theorem paced_sweep {prepare : Gate → Gate × Bool} {c : ℕ → ℕ} (hp : Prepares prepare)
    (hn : (gs.map Gate.id).Nodup) (hprep : ∀ g ∈ gs, Paced (prepare g).1 (c g.id))
    (hsweep : sweep prepare gs as = some (gs', as', acts)) :
    ∀ g' ∈ gs', Paced g' (c g'.id + rejected g'.id acts) := by
  intro g' hg'
  obtain ⟨g, hg, ⟨-, rfl, hacts⟩ | ⟨hyes, a, rfl, hacts⟩⟩ := sweep_gate hn hsweep hg'
  · rw [hp.id, ← rejected_actsOf, hacts]
    exact hprep g hg
  · rw [releaseGate_id, hp.id, ← rejected_actsOf, hacts]
    have hone : rejected g.id [.submitted g.id g.deps a] = if a = .ok then 0 else 1 := by
      cases a <;> simp [rejected]
    rw [hone]
    exact (hprep g hg).release (hp.waits g hyes).2 a

/-- The refusals of a step are added. -/
theorem recount_append {id : ℕ} (htrace : s'.trace = s.trace ++ acts) :
    recount s s' since id = armed s since id + rejected id acts := by
  rw [recount, htrace, drop_left]

/-- A step keeps the count of every gate. -/
theorem paced_step (hs : SysInv s) (hp : ∀ g ∈ s.orch.gates, Paced g (since g.id))
    (hstep : Steps s l s') : ∀ g ∈ s'.orch.gates, Paced g (recount s s' since g.id) := by
  have hbase : ∀ g ∈ s.orch.gates, Paced g (armed s since g.id) := fun g hg => paced_armed hp hg
  have hquiet : ∀ acts, s'.trace = s.trace ++ acts → ∀ id, actsOf id acts = [] →
      recount s s' since id = armed s since id := by
    intro acts htrace id hnone
    rw [recount_append htrace, ← rejected_actsOf, hnone]
    rfl
  cases hstep with
  | hears h _ _ hgates =>
    rw [hgates]
    exact fun g hg => hquiet _ rfl g.id rfl ▸ hbase g hg
  | advances h _ _ _ _ hgates _ hsweep =>
    rw [hgates] at hsweep
    intro g' hg'
    rw [recount_append rfl]
    refine paced_sweep (prepares_obsGate h) hs.nodup (fun g hg => ?_) hsweep g' hg'
    rcases obsGate_cases h g with ⟨-, heq⟩ | ⟨-, heq⟩
    · rw [heq]
      exact hbase g hg
    · rw [heq]
      exact ⟨(hbase g hg).given, (hbase g hg).counted, (hbase g hg).most⟩
  | submits deps a =>
    intro g hg
    rw [hquiet _ rfl g.id (by simp [actsOf, Nat.ne_of_gt (hs.below g hg)])]
    exact hbase g hg
  | holds work deps n =>
    intro g hg
    rw [hquiet [] (append_nil _).symm g.id rfl]
    rcases mem_append.mp hg with hg | hg
    · exact hbase g hg
    · rw [mem_singleton.mp hg]
      have hnew : armed s since s.nextId = 0 := by
        refine if_neg fun hin => ?_
        obtain ⟨x, hx, hid⟩ := List.mem_map.mp hin
        exact absurd hid (ne_of_lt (hs.below x (mem_filter.mp hx).1))
      rw [hnew]
      exact paced_fresh rfl rfl
  | passes | refuses | prunes => exact fun g hg => hquiet [] (append_nil _).symm g.id rfl ▸ hbase g hg
  | retries hsweep =>
    intro g' hg'
    rw [recount_append rfl]
    refine paced_sweep prepares_retryGate hs.nodup (fun g hg => ?_) hsweep g' hg'
    rcases retryGate_cases g with ⟨ha, heq⟩ | ⟨-, heq⟩
    · rw [heq, armed_stalled hs hg ha]
      exact paced_fresh rfl rfl
    · rw [heq]
      exact hbase g hg

/-- So does a run. -/
theorem paced_run (since : ℕ → ℕ) (hs : SysInv s) (hp : ∀ g ∈ s.orch.gates, Paced g (since g.id))
    (hrun : run s ls = some s') : ∀ g ∈ s'.orch.gates, Paced g (sinceArmed s since ls g.id) := by
  induction ls generalizing s since with
  | nil =>
    cases hrun
    exact hp
  | cons l ls ih =>
    obtain ⟨s₁, hstep, hrest⟩ := bind_eq_some_iff.mp hrun
    have hsteps := step_steps hs hstep
    rw [sinceArmed, hstep]
    exact ih _ (hs.step hsteps) (paced_step hs hp hsteps) hrest

/-- A retry returns the number of gates it submitted, and leaves each gate it found stalled submitted
or stalled again, exactly if none of its submits is refused by an answer that can clear. In any run,
a gate is submitted or stalled after at most 16 refused submits since it was armed. -/
theorem retry_counts_taken {doneCap : ℕ} (hretry : gptpsOrchRetry gs as = some (gs', n, acts))
    (hrun : run (init doneCap) ls = some s) :
    ((n = accepted acts ∧ ∀ q ∈ gs.zip gs', q.1.abandoned = true →
        isTaken q.2 = true ∨ q.2.abandoned = true) ↔
      ∀ a ∈ as.take (stalled gs).length, transient a = false) ∧
    ∀ g ∈ s.orch.gates, sinceArmed (init doneCap) (fun _ => 0) ls g.id ≤ releaseAttempts ∧
      (isTaken g = true ∨ g ∈ stalled s.orch.gates ∨
        sinceArmed (init doneCap) (fun _ => 0) ls g.id < releaseAttempts) := by
  constructor
  · obtain ⟨⟨gs₁, as₁, acts₁⟩, hsweep, heq⟩ := map_eq_some_iff.mp hretry
    cases heq
    obtain ⟨hcount, hleft⟩ := sweep_retryGate hsweep
    constructor
    · rintro ⟨hn, -⟩ a ha
      have hzero := Nat.add_eq_left.mp (hcount.symm.trans hn)
      exact Bool.eq_false_iff.mpr (countP_eq_zero.mp hzero a ha)
    · intro hclear
      have hzero := countP_eq_zero.mpr fun a ha => Bool.eq_false_iff.mp (hclear a ha)
      exact ⟨hcount.trans (Nat.add_eq_left.mpr hzero), hleft hclear⟩
  · intro g hg
    have hg' := paced_run (fun _ => 0) (init_inv doneCap) (fun g hg => by cases hg) hrun g hg
    refine ⟨hg'.most, ?_⟩
    cases hr : g.released with
    | false => exact .inr (.inr (hg'.counted hr).2)
    | true =>
      cases ha : g.abandoned with
      | false => exact .inl (by rw [isTaken, hr, ha]; rfl)
      | true => exact .inr (.inl (mem_filter.mpr ⟨hg, ha⟩))

/-- A gate on the handle 1, which ends; the submit of its work can never fit the budget. -/
def givenUp : List Label :=
  [.after ⟨[], []⟩ [1] true .ok, .event .finished .ok 1 true [.budget]]

/-- The gate that was given up is taken by a retry, which says so. -/
theorem retry_counts_taken_one : ∃ s gs' acts, run (init 0) givenUp = some s ∧
    gptpsOrchRetry s.orch.gates [.ok] = some (gs', 1, acts) ∧ 1 = accepted acts := by
  obtain ⟨s, gs', acts, hrun, hretry⟩ : ∃ s gs' acts, run (init 0) givenUp = some s ∧
    gptpsOrchRetry s.orch.gates [.ok] = some (gs', 1, acts) := ⟨_, _, _, rfl, rfl⟩
  refine ⟨s, gs', acts, hrun, hretry, ?_⟩
  exact ((retry_counts_taken hretry hrun).1.mpr fun a ha => by
    cases mem_singleton.mp (mem_of_mem_take ha)
    rfl).1

/-- A retry whose one submit is refused by a paused type returns 1, and the gate is neither submitted
nor stalled. -/
theorem retry_counts_refused : ∃ s gs' acts, run (init 0) givenUp = some s ∧
    gptpsOrchRetry s.orch.gates [.notfound] = some (gs', 1, acts) ∧ accepted acts = 0 ∧
    stalled gs' = [] ∧ ∀ g ∈ gs', isTaken g = false := by
  refine ⟨_, _, _, rfl, rfl, rfl, rfl, ?_⟩
  decide

end Retry

end Gptps.OrchGates
