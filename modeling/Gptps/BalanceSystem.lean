import Gptps.BalanceBooks

/-!
# Any number of threads at the load balancer

A call of the router is cut where it takes or drops the lock, calls into an engine, or calls the host
back; between two cuts anything may happen on the other threads. An engine delivers events on its own
threads and inside `gptps_cancel`; a callback may call the router again. The pool is closed shard by
shard, then the router is closed.
-/

namespace Gptps.BalanceSystem

open Function ProbeMap ArrayHeap Balancer BalanceBooks List
open EngineState hiding Item Engine Phase

section System

/-- A thread. -/
inductive Thread
  /-- One of the host's. -/
  | host (n : ℕ)
  /-- One of a shard's engine. -/
  | shard (i n : ℕ)
  deriving DecidableEq, Repr

/-- Where a call of the router is. -/
inductive Frame
  /-- `gptps_balance_submit_ex` made its copy and takes the lock. -/
  | submitting (task : Name) (payload : List UInt8) (prio : ℤ)
  /-- It will call the host back with QUEUED. -/
  | announcing (bh : Handle)
  /-- The callback runs; then the call hands work over. -/
  | announced
  /-- The loop of `emit_fails`. -/
  | failing (fails : List Handle)
  /-- It is inside `gptps_cancel`. -/
  | withdrawing (i : ℕ) (bh : Handle) (rest : List Handle)
  /-- The callback runs; then the item is freed. -/
  | failed (bh : Handle) (rest : List Handle)
  /-- `gptps_balance_cancel` will call the host back with FAILED. -/
  | cancelling (bh : Handle)
  /-- The callback runs; then the call returns. -/
  | calledBack
  /-- `gptps_balance_cancel` will call `gptps_cancel`. -/
  | forwarding (i : ℕ) (eh : Handle)
  /-- It is inside `gptps_cancel`. -/
  | within (i : ℕ)
  /-- `observe` takes the lock. -/
  | hearing (i : ℕ) (eh : Handle) (k : EvKind) (st : Status)
  /-- It will forward the event. -/
  | telling (bh : Handle) (k : EvKind) (st : Status) (fails : List Handle)
  /-- The callback runs; then the item is freed if the event was its last. -/
  | told (bh : Handle) (last : Bool) (fails : List Handle)
  deriving DecidableEq, Repr

/-- What the environment decides while a call goes on. -/
structure Choice where
  /-- There is memory for the directory. -/
  mapMemory : Bool := true
  /-- There is memory for the heap. -/
  heapMemory : Bool := true
  /-- What the engines answer. -/
  ask : Handle → Answer := fun _ => {}

/-- A call goes on to its next cut, `none` as the second answer where it returns. -/
def advance (w : World) (f : Frame) (c : Choice) : Option (World × Option Frame) :=
  match f with
  | .submitting task payload prio =>
    (enqueue w task payload prio c.mapMemory c.heapMemory).map fun p => (p.1, p.2.map .announcing)
  | .announcing bh => some (w.emitAs bh .queued .ok, some .announced)
  | .announced => (dispatch w c.ask).map fun p => (p.1, some (.failing p.2))
  | .failing [] => some (w, none)
  | .failing (bh :: rest) =>
    (w.b.items bh).map fun it =>
      if it.eh ≠ 0 then (w.call it.shard, some (.withdrawing it.shard bh rest))
      else (w.emitAs bh .deadLettered it.fail, some (.failed bh rest))
  | .withdrawing _ bh rest =>
    (w.b.items bh).map fun it => (w.emitAs bh .deadLettered it.fail, some (.failed bh rest))
  | .failed bh rest => some (w.itemFree bh, some (.failing rest))
  | .cancelling bh => some (w.emitAs bh .failed .cancelled, some .calledBack)
  | .calledBack => some (w, none)
  | .forwarding i _ => some (w.call i, some (.within i))
  | .within _ => some (w, none)
  | .hearing i eh k st =>
    (observe w i eh k st c.ask).map fun p => (p.1, p.2.map fun r => .telling r.1 k st r.2)
  | .telling bh k st fails => some (w.emitAs bh k st, some (.told bh (lastEvent k st) fails))
  | .told bh last fails => some (if last then w.itemFree bh else w, some (.failing fails))

/-- How far `gptps_balance_close` is. -/
inductive Closing
  /-- It was not called. -/
  | no
  /-- It empties the queue. -/
  | busy
  /-- It returned. -/
  | done
  deriving DecidableEq, Repr

/-- The router, the calls in progress, the inner ones of a thread first, and how far the closes are. -/
structure Sys where
  /-- The router and the engines. -/
  w : World
  /-- The calls in progress. -/
  calls : List (Thread × Frame)
  /-- The shard `gptps_pool_close` shuts down. -/
  pool : Option ℕ
  /-- How far `gptps_balance_close` is. -/
  close : Closing

/-- What the lookup before a submit finds, and whether there is memory for the copy. -/
structure Lookup where
  /-- `gptps_task_exists` -/
  known : Bool := true
  /-- The task is a service. -/
  service : Bool := false
  /-- There is memory. -/
  memory : Bool := true
  deriving DecidableEq, Repr

/-- What can happen next. -/
inductive Label
  /-- `gptps_balance_submit_ex` up to where it takes the lock. -/
  | submit (t : Thread) (task : Name) (payload : List UInt8) (prio : ℤ) (found : Lookup)
  /-- `gptps_balance_cancel` up to where it drops the lock. -/
  | cancel (t : Thread) (h : Handle)
  /-- An engine delivers an event. -/
  | event (t : Thread) (i : ℕ) (eh : Handle) (k : EvKind) (st : Status)
  /-- Work is submitted straight to a shard. -/
  | direct (i : ℕ) (a : Answer)
  /-- A call goes on. -/
  | resume (n : ℕ) (c : Choice)
  /-- `gptps_pool_close` is called. -/
  | poolClose
  /-- `gptps_shutdown` of a shard returns. -/
  | poolNext
  /-- `gptps_balance_close` is called. -/
  | balanceClose
  /-- It takes the next item off the queue. -/
  | closeStep

/-- The callback of the host runs. -/
def Frame.callback : Frame → Bool
  | .announced | .failed .. | .calledBack | .told .. => true
  | _ => false

/-- The call is inside `gptps_cancel` of a shard. -/
def Frame.inside (i : ℕ) : Frame → Bool
  | .withdrawing j .. | .within j => i = j
  | _ => false

/-- The innermost call of a thread. -/
def innermost (calls : List (Thread × Frame)) (t : Thread) : Option Frame :=
  (calls.find? fun c => c.1 = t).map Prod.snd

/-- The host's code runs on a thread: on its own unless it is inside a call, on a shard's in a
callback. -/
def Sys.hostRuns (s : Sys) (t : Thread) : Bool :=
  match t, innermost s.calls t with
  | .host _, none => s.pool = none
  | .shard .., none => false
  | _, some f => f.callback

/-- The engine's code runs on a thread: on its own ones, and inside `gptps_cancel`, of which the host
may call that of a shard itself before it closes the pool. -/
def Sys.engineRuns (s : Sys) (t : Thread) (i : ℕ) : Bool :=
  (match t, innermost s.calls t with
    | .shard j _, none => i = j
    | .shard j _, some f => f.inside i || i = j && f.callback
    | .host _, none => false
    | .host _, some f => f.inside i) ||
  s.pool = none && s.hostRuns t

/-- The `n`-th call is the innermost of its thread. -/
def Sys.onTop (s : Sys) (n : ℕ) : Bool :=
  match s.calls[n]? with
  | none => false
  | some (t, _) => (s.calls.take n).all fun c => c.1 ≠ t

/-- No call is in progress on a thread of the host. -/
def Sys.hostIdle (s : Sys) : Bool := s.calls.all fun c => match c.1 with
  | .host _ => false
  | .shard .. => true

/-- No call is in progress on a thread of the shard. -/
def Sys.shardIdle (s : Sys) (i : ℕ) : Bool := s.calls.all fun c => match c.1 with
  | .host _ => true
  | .shard j _ => i ≠ j

/-- What may happen: the host calls as its contract permits, an engine delivers one last event of each
handle and shuts down when all of them had it. -/
def Sys.allowed (s : Sys) : Label → Bool
  | .submit t .. => s.close = .no && s.hostRuns t
  | .cancel t _ => s.close = .no && s.hostRuns t
  | .event t i eh k st =>
    s.close = .no && i < s.w.b.sh.length && (s.w.eng i).phase ≠ .freed && s.engineRuns t i &&
      (!lastEvent k st || (s.w.eng i).live.contains eh)
  | .direct _ _ => s.close = .no
  | .resume n _ => s.close = .no && s.onTop n
  | .poolClose => s.close = .no && s.pool = none && s.hostIdle
  | .poolNext =>
    match s.pool with
    | none => false
    | some i => i < s.w.b.sh.length && (s.w.eng i).live = [] && s.shardIdle i
  | .balanceClose => s.close = .no && s.pool = some s.w.b.sh.length && s.calls.isEmpty
  | .closeStep => s.close = .busy

/-- The phase of an engine changes. -/
def World.setPhase (w : World) (i : ℕ) (p : Phase) : World :=
  { w with eng := update w.eng i { w.eng i with phase := p } }

/-- `gptps_shutdown` of shard `i` is called, if there is such a shard. -/
def Sys.stop (s : Sys) (i : ℕ) : Sys :=
  { s with
    pool := some i
    w := if i < s.w.b.sh.length then World.setPhase s.w i .stopping else s.w }

/-- The lookups of a submit on shard 0. -/
def lookup (w : World) (task : Name) (found : Lookup) : World × Bool :=
  if task = [] then (w, false)
  else if !found.known then (w.call 0, false)
  else ((w.call 0).call 0, !found.service && found.memory)

/-- The calls once the `n`-th went on, or returned. -/
def wentOn (calls : List (Thread × Frame)) (n : ℕ) (t : Thread) : Option Frame → List (Thread × Frame)
  | none => calls.eraseIdx n
  | some f => calls.set n (t, f)

/-- One step that is allowed, `none` where it does not end. -/
def Sys.act (s : Sys) : Label → Option Sys
  | .submit t task payload prio found =>
    let p := lookup s.w task found
    some { s with
      w := p.1
      calls := if p.2 then (t, .submitting task payload prio) :: s.calls else s.calls }
  | .cancel t h =>
    (cancelLocked s.w h).map fun p =>
      { s with
        w := p.1
        calls := match p.2 with
          | .nothing => s.calls
          | .waiting => (t, .cancelling h) :: s.calls
          | .onShard i eh => (t, .forwarding i eh) :: s.calls }
  | .event t i eh k st =>
    if k = .queued then some s
    else
      some { s with
        w := if lastEvent k st then
          { s.w with eng := update s.w.eng i ((s.w.eng i).ended eh) } else s.w
        calls := (t, .hearing i eh k st) :: s.calls }
  | .direct i a =>
    some { s with w := { s.w with eng := update s.w.eng i ((s.w.eng i).answered a) } }
  | .resume n c =>
    (s.calls[n]?).bind fun p => (advance s.w p.2 c).map fun r =>
      { s with w := r.1, calls := wentOn s.calls n p.1 r.2 }
  | .poolClose => some (s.stop 0)
  | .poolNext =>
    s.pool.map fun i => Sys.stop { s with w := World.setPhase s.w i .freed } (i + 1)
  | .balanceClose => some { s with close := .busy }
  | .closeStep => (closePass s.w).map fun p =>
      { s with w := p.1, close := if p.2 then .busy else .done }

/-- One step, `none` where it is not allowed or does not end. -/
def Sys.step (s : Sys) (l : Label) : Option Sys := if s.allowed l then s.act l else none

/-- The state some steps lead to. -/
def Sys.run : Sys → List Label → Option Sys
  | s, [] => some s
  | s, l :: ls => (s.step l).bind fun s' => s'.run ls

/-- `limits.max_concurrent_tasks` of a shard, which has a thread for each. -/
structure Workers where
  /-- How many. -/
  n : ℕ
  /-- At least one. -/
  pos : 0 < n
  /-- As many threads as a 32-bit word counts do not exist. -/
  few : n < 2 ^ 31

/-- The cap of a shard when the router is opened. -/
def shardCap (depth : ℕ) (k : Workers) : ℕ := if depth ≠ 0 then depth else 2 * k.n % 2 ^ 32

/-- A router above a pool that was just opened. -/
def opened (depth : ℕ) (pool : List Workers) : Sys :=
  ⟨⟨⟨pool.map fun k => ⟨shardCap depth k, 0, .empty⟩, ⟨[], 0⟩, 0, .empty, 0, 0, fun _ => none⟩,
    fun _ => {}, []⟩, [], none, .no⟩

/-- `gptps_balance_open`, where there is memory; a pool without shards is refused. -/
def gptpsBalanceOpen (depth : ℕ) (pool : List Workers) : Option Sys :=
  if pool = [] then none else some (opened depth pool)

end System

section Frames

variable {bh : Handle} {rest : List Handle}

/-- The items a call will free. -/
def Frame.holds : Frame → List Handle
  | .failing fails => fails
  | .withdrawing _ bh rest => bh :: rest
  | .failed bh rest => bh :: rest
  | .telling bh k st fails => (if lastEvent k st then [bh] else []) ++ fails
  | .told bh last fails => (if last then [bh] else []) ++ fails
  | _ => []

/-- The handles whose last event a call owes. -/
def Frame.owes : Frame → List Handle
  | .failing fails => fails
  | .withdrawing _ bh rest => bh :: rest
  | .failed _ rest => rest
  | .cancelling bh => [bh]
  | .telling bh k st fails => (if lastEvent k st then [bh] else []) ++ fails
  | .told _ _ fails => fails
  | _ => []

/-- The last event a call brings. -/
def Frame.brings : Frame → List (ℕ × Handle)
  | .hearing i eh k st => if lastEvent k st then [(i, eh)] else []
  | _ => []

/-- The call put an item into the queue and will hand work over. -/
def Frame.pending : Frame → Bool
  | .announcing _ | .announced => true
  | _ => false

/-- The call neither puts an item into the queue nor cancels one on a shard. -/
def Frame.tame (w : World) : Frame → Prop
  | .submitting .. => False
  | .forwarding .. => False
  | .failing (bh :: _) => ∀ it, w.b.items bh = some it → it.eh = 0
  | _ => True

/-- The shard of an event exists. -/
def Frame.aimed (n : ℕ) : Frame → Prop
  | .hearing i .. => i < n
  | _ => True

variable {w : World} {out : List Hand} {H O : List Handle} {F : List (ℕ × Handle)} {P : Prop}

theorem settled_of_eq {b b' : Balance} (hsh : b'.sh = b.sh) (hq : b'.queued ≤ b.queued)
    (hs : Settled b) : Settled b' := by
  rcases hs with hs | hs
  · exact .inl (by omega)
  · exact .inr (by rwa [hsh])

/-- What a call leaves when it goes on. -/
structure Advanced (w : World) (f : Frame) (H O : List Handle) (F : List (ℕ × Handle)) (w' : World)
    (r : Option Frame) : Prop where
  /-- The books. -/
  books : ∃ out, Books w' [] out (r.elim [] Frame.holds ++ H) (r.elim [] Frame.owes ++ O)
    (r.elim [] Frame.brings ++ F)
  /-- The engines. -/
  steady : Steady w w'
  /-- Nothing waits that a shard has room for, unless a call will hand it over. -/
  settled : ∀ P, (Settled w.b ∨ f.pending = true ∨ P) →
    Settled w'.b ∨ r.elim false Frame.pending = true ∨ P
  /-- Most calls only hand work over. -/
  quiet : f.tame w → Quiet w w'
  /-- A call into an engine knows whether it was freed. -/
  calls : ∀ i x, Act.called i x ∈ w'.trace → Act.called i x ∈ w.trace ∨
    x = decide ((w.eng i).phase = .freed)
  /-- The shards of events exist. -/
  aimed : r.elim True (Frame.aimed w.b.sh.length)

/-- A step in which the router hardly changes. -/
theorem advanced_of_quiet {f : Frame} {w' : World} {r : Option Frame}
    (hb : ∃ out, Books w' [] out (r.elim [] Frame.holds ++ H) (r.elim [] Frame.owes ++ O)
      (r.elim [] Frame.brings ++ F))
    (hquiet : Quiet w w') (hset : Settled w'.b ∨ w'.b.sh = w.b.sh ∧ (f.pending = true →
      r.elim false Frame.pending = true)) (haim : r.elim True (Frame.aimed w.b.sh.length)) :
    Advanced w f H O F w' r := by
  refine ⟨hb, hquiet.toSteady, fun P hP => ?_, fun _ => hquiet,
    fun i x hx => (hquiet.calls i x hx).imp_right fun h => h.2.2, haim⟩
  rcases hset with hset | ⟨hsh, hpend⟩
  · exact .inl hset
  · rcases hP with hP | hP | hP
    · exact .inl (settled_of_eq hsh hquiet.queued hP)
    · exact .inr (.inl (hpend hP))
    · exact .inr (.inr hP)

theorem quiet_emit (w : World) (bh : Handle) (k : EvKind) (st : Status) : Quiet w (w.emitAs bh k st) := by
  refine .of_eq rfl rfl le_rfl fun i x hx => ?_
  rcases mem_append.mp hx with hx | hx
  · exact hx
  · cases mem_singleton.mp hx

/-- A call into an engine is noted as such. -/
theorem call_noted {w : World} {j : ℕ} (i : ℕ) (x : Bool) (hx : Act.called i x ∈ (w.call j).trace) :
    Act.called i x ∈ w.trace ∨ x = decide ((w.eng i).phase = .freed) := by
  rcases mem_append.mp hx with hx | hx
  · exact .inl hx
  · cases mem_singleton.mp hx
    exact .inr rfl

theorem quiet_free (w : World) (bh : Handle) : Quiet w (w.itemFree bh) :=
  .of_eq rfl rfl le_rfl fun _ _ h => h

/-- The item of a call is allocated. -/
theorem held_item (hb : Books w [] out (bh :: rest ++ H) O F) : ∃ it, w.b.items bh = some it :=
  hb.withCall bh (mem_append_right _ (mem_append_left _ mem_cons_self))

/-- A submit enters its item. -/
theorem advance_submitting (hb : Books w [] out H O F) (task : Name) (payload : List UInt8) (prio : ℤ)
    (c : Choice) : ∃ w' r, advance w (.submitting task payload prio) c = some (w', r) ∧
      Advanced w (.submitting task payload prio) H O F w' r := by
  rcases hb.enqueue task payload prio c.mapMemory c.heapMemory with
    ⟨w', bh, heq, heng, hsh, hcalls, hbooks⟩ | ⟨w', heq, heng, hsh, hq, htrace, hbooks⟩
  · refine ⟨w', some (.announcing bh), by rw [advance, heq]; rfl, ⟨out, hbooks⟩, ?_, ?_, False.elim,
      fun i x hx => .inl (hcalls i x hx), ?_⟩
    · exact ⟨congrArg (map Shard.cap) hsh, fun _ => by rw [heng], fun _ _ => by rw [heng]⟩
    · exact fun P _ => .inr (.inl rfl)
    · trivial
  · refine ⟨w', none, by rw [advance, heq]; rfl, ⟨out, hbooks⟩, ?_, ?_, False.elim,
      fun i x hx => .inl (htrace ▸ hx), trivial⟩
    · exact ⟨congrArg (map Shard.cap) hsh, fun _ => by rw [heng], fun _ _ => by rw [heng]⟩
    · intro P hP
      rcases hP with hP | hP | hP
      · exact .inl (settled_of_eq hsh (le_of_eq hq) hP)
      · cases hP
      · exact .inr (.inr hP)

/-- `emit_fails` goes on with an item. -/
theorem advance_failing (hb : Books w [] out (bh :: rest ++ H) (bh :: rest ++ O) F) (c : Choice) :
    ∃ w' r, advance w (.failing (bh :: rest)) c = some (w', r) ∧
      Advanced w (.failing (bh :: rest)) H O F w' r := by
  obtain ⟨it, hit⟩ := held_item hb
  rw [advance, hit, Option.map_some]
  by_cases heh : it.eh ≠ 0
  · rw [if_pos heh]
    refine ⟨_, _, rfl, ⟨out, hb.call it.shard⟩, ⟨rfl, fun _ => rfl, fun _ _ => rfl⟩, ?_, ?_,
      call_noted, ?_⟩
    · intro P hP
      rcases hP with hP | hP | hP
      · exact .inl hP
      · cases hP
      · exact .inr (.inr hP)
    · exact fun htame => absurd (htame it hit) heh
    · trivial
  · rw [if_neg heh]
    refine ⟨_, _, rfl, advanced_of_quiet ⟨out, ?_⟩ (quiet_emit w bh _ _) (.inr ⟨rfl, nofun⟩) ?_⟩
    · exact hb.emit rfl
    · trivial

/-- An event arrives. -/
theorem advance_hearing {i : ℕ} {eh : Handle} {k : EvKind} {st : Status}
    (hb : Books w [] out H O ((Frame.hearing i eh k st).brings ++ F)) (hi : i < w.b.sh.length)
    (c : Choice) : ∃ w' r, advance w (.hearing i eh k st) c = some (w', r) ∧
      Advanced w (.hearing i eh k st) H O F w' r := by
  have hs : w.b.sh[i]? = some (w.b.sh.get ⟨i, hi⟩) := getElem?_eq_getElem hi
  rw [advance]
  by_cases hrow : eh ∈ (rows i out).map Prod.fst
  · obtain ⟨⟨eh', bh⟩, hmem, heq⟩ := mem_map.mp hrow
    have heq' : eh' = eh := heq
    subst heq'
    cases hk : lastEvent k st with
    | false =>
      have hbrings : (Frame.hearing i eh' k st).brings = [] := by rw [Frame.brings, hk]; rfl
      rw [hbrings] at hb
      rw [hb.observe_known hs hmem hk c.ask]
      refine ⟨_, _, rfl, advanced_of_quiet ⟨out, ?_⟩ (.refl w) (.inr ⟨rfl, nofun⟩) ?_⟩
      · show Books w [] out ((if lastEvent k st then [bh] else []) ++ [] ++ H)
          ((if lastEvent k st then [bh] else []) ++ [] ++ O) F
        rw [hk]
        exact hb
      · trivial
    | true =>
      have hbrings : (Frame.hearing i eh' k st).brings = [(i, eh')] := by rw [Frame.brings, if_pos hk]
      rw [hbrings] at hb
      obtain ⟨w', fails, hobs, ⟨out', hbooks⟩, hset, hquiet⟩ := hb.observe_last hs hmem hk c.ask
      rw [hobs]
      refine ⟨_, _, rfl, advanced_of_quiet ⟨out', ?_⟩ hquiet (.inl hset) ?_⟩
      · show Books w' [] out' ((if lastEvent k st then [bh] else []) ++ fails ++ H)
          ((if lastEvent k st then [bh] else []) ++ fails ++ O) F
        rw [if_pos hk]
        exact hbooks.perm perm_middle perm_middle
      · trivial
  · have hland : Books w [] out H O F := by
      rw [Frame.brings] at hb
      split_ifs at hb
      · refine hb.land fun h hmem heq => hrow ?_
        obtain ⟨hshard, heh⟩ := Prod.mk.inj heq
        have hr := mem_rows_of hmem
        rw [hshard, heh] at hr
        exact mem_map.mpr ⟨_, hr, rfl⟩
      · exact hb
    rw [hland.observe_unknown hs hrow k st c.ask]
    exact ⟨_, _, rfl, advanced_of_quiet ⟨out, hland⟩ (.refl w) (.inr ⟨rfl, nofun⟩) trivial⟩

/-- A call goes on, and the books are kept. -/
theorem advance_some (f : Frame) (hb : Books w [] out (f.holds ++ H) (f.owes ++ O) (f.brings ++ F))
    (hi : f.aimed w.b.sh.length) (c : Choice) :
    ∃ w' r, advance w f c = some (w', r) ∧ Advanced w f H O F w' r := by
  cases f with
  | submitting task payload prio => exact advance_submitting hb task payload prio c
  | announcing bh =>
    refine ⟨_, _, rfl, advanced_of_quiet ⟨out, hb.tell rfl bh⟩ (quiet_emit w bh _ _)
      (.inr ⟨rfl, fun _ => rfl⟩) ?_⟩
    trivial
  | announced =>
    obtain ⟨w', fails, hrun, hd⟩ := Books.dispatch hb c.ask
    refine ⟨w', some (.failing fails), by rw [advance, hrun]; rfl, advanced_of_quiet hd.books hd.quiet
      (.inl hd.settled) ?_⟩
    trivial
  | failing fails =>
    cases fails with
    | nil => exact ⟨w, none, rfl, advanced_of_quiet ⟨out, hb⟩ (.refl w) (.inr ⟨rfl, nofun⟩) trivial⟩
    | cons bh rest => exact advance_failing hb c
  | withdrawing i bh rest =>
    obtain ⟨it, hit⟩ := held_item hb
    refine ⟨w.emitAs bh .deadLettered it.fail, some (.failed bh rest), by rw [advance, hit]; rfl,
      advanced_of_quiet ⟨out, Books.emit hb rfl⟩ (quiet_emit w bh _ _) (.inr ⟨rfl, nofun⟩) ?_⟩
    trivial
  | failed bh rest =>
    refine ⟨_, _, rfl, advanced_of_quiet ⟨out, Books.free hb⟩ (quiet_free w bh) (.inr ⟨rfl, nofun⟩) ?_⟩
    trivial
  | cancelling bh =>
    refine ⟨_, _, rfl, advanced_of_quiet ⟨out, Books.emit hb rfl⟩ (quiet_emit w bh _ _)
      (.inr ⟨rfl, nofun⟩) ?_⟩
    trivial
  | calledBack => exact ⟨w, none, rfl, advanced_of_quiet ⟨out, hb⟩ (.refl w) (.inr ⟨rfl, nofun⟩) trivial⟩
  | forwarding i eh =>
    refine ⟨_, _, rfl, ⟨out, Books.call hb i⟩, ⟨rfl, fun _ => rfl, fun _ _ => rfl⟩, fun P hP => ?_,
      False.elim, call_noted, ?_⟩
    · rcases hP with hP | hP | hP
      · exact .inl hP
      · cases hP
      · exact .inr (.inr hP)
    · trivial
  | within i => exact ⟨w, none, rfl, advanced_of_quiet ⟨out, hb⟩ (.refl w) (.inr ⟨rfl, nofun⟩) trivial⟩
  | hearing i eh k st => exact advance_hearing hb hi c
  | telling bh k st fails =>
    refine ⟨_, _, rfl, advanced_of_quiet ⟨out, ?_⟩ (quiet_emit w bh _ _) (.inr ⟨rfl, nofun⟩) ?_⟩
    · have hb' : Books w [] out ((if lastEvent k st then [bh] else []) ++ fails ++ H)
        ((if lastEvent k st then [bh] else []) ++ fails ++ O) F := hb
      show Books _ [] out ((if lastEvent k st then [bh] else []) ++ fails ++ H) (fails ++ O) F
      cases hk : lastEvent k st with
      | true =>
        rw [hk] at hb'
        exact Books.emit hb' hk
      | false =>
        rw [hk] at hb'
        exact hb'.tell hk bh
    · trivial
  | told bh last fails =>
    cases last with
    | true =>
      refine ⟨_, _, rfl, advanced_of_quiet ⟨out, Books.free hb⟩ (quiet_free w bh) (.inr ⟨rfl, nofun⟩) ?_⟩
      trivial
    | false =>
      refine ⟨_, _, rfl, advanced_of_quiet ⟨out, hb⟩ (.refl w) (.inr ⟨rfl, nofun⟩) ?_⟩
      trivial

end Frames

end Gptps.BalanceSystem
