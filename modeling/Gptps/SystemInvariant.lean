import Gptps.DeskLife
import Gptps.SystemDesk

/-!
# What holds in every reachable state

The store, the order of intake and the life of items are kept by every act. The
pump, the calls and the shutdown add what they know of each other: the step of a
MANUAL engine runs one item at a time, and once the dispatcher has ended, or the
shutdown has collected what was left, no work is in the engine.
-/

namespace Gptps.SystemInvariant

open Function LinkedQueue ProbeTable EngineState EngineStore EnginePass EngineApi EngineSystem List
open ItemLife IntakeOrder StoreInvariant EngineDesk DeskStore DeskLife ApiDesk SystemDesk

variable {w : Bool} {it : Item} {e : Engine}

/-- The engine is shutting down and no item is waiting or admitted. -/
structure Quiet (e : Engine) : Prop where
  /-- The shutdown has begun. -/
  stopping : e.stopping = true
  /-- Only dead letters are left. -/
  empty : ∀ q ≠ QId.dead, e.q q = []

/-- The mode of an engine stays, and its shutdown does not end. -/
structure Onward (e e' : Engine) : Prop where
  /-- The mode. -/
  manual : e'.manual = e.manual
  /-- The shutdown. -/
  stopping : e.stopping = true → e'.stopping = true

namespace Onward

variable {e e' e'' : Engine}

/-- Nothing changes. -/
theorem of_eq (hm : e'.manual = e.manual) (hs : e'.stopping = e.stopping) : Onward e e' :=
  ⟨hm, fun h => hs.trans h⟩

/-- One after the other. -/
theorem trans (h : Onward e e') (h' : Onward e' e'') : Onward e e'' :=
  ⟨h'.manual.trans h.manual, fun hs => h'.stopping (h.stopping hs)⟩

/-- What keeps the live queues. -/
theorem kept (h : KeptLive e e') : Onward e e' :=
  .of_eq ((congrArg Engine.manual h.rest).trans rfl) ((congrArg Engine.stopping h.rest).trans rfl)

/-- What changes the store alone. -/
theorem store {s : Store} (h : e' = { e with toStore := s }) : Onward e e' :=
  .of_eq (by rw [h]) (by rw [h])

end Onward

section Acts

variable {d d' : Desk} {p' : Option Place} {c : Core} {q : QId}

/-- Where an item lands does not matter to the mode. -/
theorem lands_onward (h : Lands d it p' d') : Onward d.e d'.e := by
  cases h with
  | push | entry | announce | pick => exact .of_eq rfl rfl
  | bury => exact .kept (deadLetterPush_kept d.e it)
  | drop => exact .kept (itemDrop_kept d.e it).toKeptLive

/-- Neither does what is released. -/
theorem charge_onward {e' : Engine} {a b : Bool} {snap : Option (List UInt64)}
    (h : Charge e c a b e' snap) : Onward e e' := by
  cases h <;> exact .of_eq rfl rfl

/-- Sorting intake again changes the store alone. -/
theorem intakeResort_onward (e : Engine) : Onward e (intakeResort e) := by
  unfold intakeResort
  split <;> exact .of_eq rfl rfl

/-- Every act keeps the mode and the shutdown. -/
theorem act_onward (h : Act w d d') : Onward d.e d'.e := by
  cases h with
  | move hq hl hc hk hmem hm hev hland =>
    exact ((Onward.store (leaves_rest hl)).trans (charge_onward hc)).trans (lands_onward hland)
  | collect h => exact .store (fifoPop_rest h)
  | park h => exact .of_eq rfl rfl
  | unindex => exact .kept (indexDropList_kept _ _).toKeptLive
  | drain | handOver | giveBack => exact .kept (itemFree_kept _ _).toKeptLive
  | hand h | start h => exact (Onward.store (fifoPop_rest h)).trans (.of_eq rfl rfl)
  | touch | attempt | forget | tombstone => exact .of_eq rfl rfl
  | admission =>
    unfold EngineDesk.admitted
    simp only
    split_ifs <;> exact .of_eq rfl rfl
  | @rescore f =>
    have h := intakeResort_onward (mapQueue d.e .intake fun it => { it with schedScore := f it })
    exact ⟨h.manual, h.stopping⟩
  | trim => exact .kept (hidxTrim_kept _ _).toKeptLive
  | grow => exact .kept (hidxReserve_kept _ _).toKeptLive
  | take => exact .kept (takeItem_kept _ _).toKeptLive
  | pool hs h => exact .kept (poolTake_kept _ _ h).toKeptLive
  | @submit p rest args r mem e₁ ev hf hs hc hr =>
    have hres := hidxReserve_kept d.e args.indexOk
    rw [hr] at hres
    have hinsert : Onward e₁ (intakeInsert { e₁ with nextHandle := e₁.nextHandle + 1 }
      (newItem e₁ p args r mem)) := .of_eq rfl rfl
    exact ((Onward.kept hres.toKeptLive).trans hinsert).trans (.kept (hidxPut_kept _ _).toKeptLive)
  | sealing hm h =>
    unfold boundedSeal at h
    split_ifs at h <;> cases h <;> exact .of_eq rfl rfl
  | configure h => exact .of_eq h.manual h.stopping
  | halt => exact ⟨rfl, fun _ => rfl⟩
  | rearrange h => exact .of_eq (by rw [h.engine]) (by rw [h.engine])

/-- Every sequence of acts does. -/
theorem acts_onward (h : Acts w d d') : Onward d.e d'.e := by
  induction h with
  | refl => exact .of_eq rfl rfl
  | tail _ hact ih => exact ih.trans (act_onward hact)

/-- Only a start or an attempt's own progress leaves an item running. -/
theorem Move.from_running {reg : RegId → Reg} {stopping : Bool} {c' : Core} {ns : List (EvKind × Status)}
    (h : Move reg stopping (.queue q) c (some (.queue .running)) c' ns) : q = .running := by
  cases h <;> rfl

/-- An item of a live queue was there, or it has landed there. -/
theorem lands_mem {x : Item} (h : Lands d it p' d') (hq : q ≠ .dead) (hx : x ∈ d'.e.q q) :
    x ∈ d.e.q q ∨ p' = some (.queue q) ∧ x.ptr = it.ptr := by
  cases h with
  | push q' =>
    rcases mem_pushed hx with hx | ⟨rfl, rfl⟩
    · exact .inl hx
    · exact .inr ⟨rfl, rfl⟩
  | entry =>
    rcases mem_inserted hx with hx | ⟨rfl, rfl⟩
    · exact .inl hx
    · exact .inr ⟨rfl, rfl⟩
  | bury => exact .inl ((deadLetterPush_kept d.e it).q q hq ▸ hx)
  | drop => exact .inl ((itemDrop_kept d.e it).q q hq ▸ hx)
  | announce | pick => exact .inl hx

/-- An item that has left a queue is in no other. -/
theorem leaves_mem {x : Item} {q₀ : QId} {e₁ : Engine} {b : Bool} (hd : DeskInv d)
    (h : Leaves d q₀ it e₁ b) (hx : x ∈ e₁.q q) : x ∈ d.e.q q := by
  rw [leaves_q hd h] at hx
  rcases mem_update hx with ⟨rfl, hx⟩ | ⟨-, hx⟩
  · exact eraseP_sublist.mem hx
  · exact hx

/-- A queue that is rewritten in place keeps the addresses of its items. -/
theorem mapped_mem {x : Item} {q₀ : QId} {f : Item → Item} (hf : Retouch q₀ f)
    (hx : x ∈ (mapQueue e q₀ f).q q) : ∃ y ∈ e.q q, y.ptr = x.ptr := by
  rcases mem_mapped hx with ⟨rfl, y, hy, rfl⟩ | ⟨-, hx⟩
  · exact ⟨y, hy, (congrArg Prod.snd (hf.key y)).symm⟩
  · exact ⟨x, hx, rfl⟩

/-- So does a queue whose items are scored. -/
theorem rescored_mem {x : Item} (hd : DeskInv d) (f : Item → ℤ)
    (hx : x ∈ (intakeResort (mapQueue d.e .intake fun it => { it with schedScore := f it })).q q) :
    ∃ y ∈ d.e.q q, y.ptr = x.ptr := by
  obtain ⟨m, a, k, heq, hperm⟩ := rescored_eq hd f
  rw [heq] at hx
  rcases mem_update hx with ⟨rfl, hx⟩ | ⟨-, hx⟩
  · obtain ⟨y, hy, rfl⟩ := mem_map.mp (hperm.mem_iff.mp hx)
    exact ⟨y, hy, rfl⟩
  · exact ⟨x, hx, rfl⟩

/-- An admission starts nothing. -/
theorem admitted_running (e : Engine) (top it : Item) (snap : Option (List UInt64)) :
    (EngineDesk.admitted e top it snap).q .running = e.q .running := by
  unfold EngineDesk.admitted
  simp only
  split_ifs <;> simp only [fifoPush, intakeUnlink, fifoRemove, mapQueue,
    update_of_ne (show QId.running ≠ .ready by decide),
    update_of_ne (show QId.running ≠ .intake by decide)]

/-- Nor does a submit. -/
theorem accepted_running {args : SubmitArgs} {e₁ : Engine}
    (hr : hidxReserve e args.indexOk = (e₁, true)) :
    (hidxPut (intakeInsert { e₁ with nextHandle := e₁.nextHandle + 1 } it) it).q .running =
      e.q .running := by
  have hres := (hidxReserve_kept e args.indexOk).q .running (by decide)
  rw [hr] at hres
  rw [(hidxPut_kept _ _).q .running (by decide), ← hres]
  simp only [intakeInsert, update_of_ne (show QId.running ≠ .intake by decide)]

/-- Where an item of a live queue comes from: it was there, or an act brought it, which starts an attempt if
it is running then, and finds work or begins it. -/
theorem act_item {x : Item} (hd : DeskInv d) (h : Act w d d') (hne : q ≠ .dead) (hx : x ∈ d'.e.q q) :
    (∃ y ∈ d.e.q q, y.ptr = x.ptr) ∨
      (q = .running → d.starts.length < d'.starts.length) ∧
        ((∃ q', q' ≠ .dead ∧ d.e.q q' ≠ []) ∨ d.announced ≠ [] ∨ d.e.stopping = false) := by
  have hsame (heq : d'.e.q q = d.e.q q) : ∃ y ∈ d.e.q q, y.ptr = x.ptr := ⟨x, heq ▸ hx, rfl⟩
  have hkept (hk : KeptLive d.e d'.e) : ∃ y ∈ d.e.q q, y.ptr = x.ptr := hsame (hk.q q hne)
  cases h with
  | @move _ q₀ it it' e₁ e₂ b p' ns evs hq hl hc hk hmem hm hev hland =>
    rcases lands_mem hland hne hx with hx | ⟨rfl, hptr⟩
    · rw [charge_store hc] at hx
      exact .inl ⟨x, leaves_mem hd hl hx, rfl⟩
    · have hin := (leaves_eq hd hl).1
      by_cases hrun : q = .running
      · subst hrun
        obtain rfl := Move.from_running hm
        exact .inl ⟨it, hin, (congrArg Prod.snd hk).symm.trans hptr.symm⟩
      · exact .inr ⟨fun h => absurd h hrun, .inl ⟨q₀, hq, ne_nil_of_mem hin⟩⟩
  | collect h => exact .inl ⟨x, mem_popped h hx, rfl⟩
  | park h =>
    rcases mem_pushed hx with hx | ⟨rfl, -⟩
    · exact .inl ⟨x, hx, rfl⟩
    · exact .inr ⟨fun hr => (by cases hr), .inr (.inl (by rw [h]; simp))⟩
  | unindex => exact .inl (hkept (indexDropList_kept _ _).toKeptLive)
  | drain | handOver | giveBack => exact .inl (hkept (itemFree_kept _ _).toKeptLive)
  | hand h => exact .inl (hsame ((fifoPop_dead_kept _ _ h).q q hne))
  | touch hf => exact .inl (mapped_mem hf hx)
  | @attempt it f ns evs hm hf => exact .inl (mapped_mem (retouch_at hf it.ptr) hx)
  | start h =>
    obtain ⟨rest, hq₀, -⟩ := fifoPop_q h
    exact .inr ⟨fun _ => by simp, .inl ⟨.ready, by decide, by rw [hq₀]; simp⟩⟩
  | admission hs ht =>
    by_cases hrun : q = .running
    · subst hrun
      exact .inl (hsame (admitted_running ..))
    · exact .inr ⟨fun h => absurd h hrun, .inl ⟨.intake, by decide, by rw [ht]; simp⟩⟩
  | @rescore f => exact .inl (rescored_mem hd f hx)
  | forget | tombstone | halt => exact .inl (hsame rfl)
  | trim => exact .inl (hkept (hidxTrim_kept _ _).toKeptLive)
  | grow => exact .inl (hkept (hidxReserve_kept _ _).toKeptLive)
  | take => exact .inl (hkept (takeItem_kept _ _).toKeptLive)
  | pool hs' h => exact .inl (hkept (poolTake_kept _ _ h).toKeptLive)
  | submit hf hs' hc hr =>
    by_cases hrun : q = .running
    · subst hrun
      exact .inl (hsame (accepted_running hr))
    · exact .inr ⟨fun h => absurd h hrun, .inr (.inr (submitCheck_spec hc).1)⟩
  | sealing hm h =>
    refine .inl (hsame ?_)
    unfold boundedSeal at h
    split_ifs at h <;> cases h <;> rfl
  | configure h => exact .inl (hsame (congrFun (congrArg Store.q h.store) _))
  | rearrange h => exact .inl (hsame (by rw [h.engine]))

/-- The items an act leaves running were running, unless it starts an attempt. -/
theorem act_running (hd : DeskInv d) (h : Act w d d') (hs : d'.starts.length = d.starts.length) :
    ∀ x ∈ d'.e.q .running, ∃ y ∈ d.e.q .running, y.ptr = x.ptr := by
  intro x hx
  rcases act_item hd h (by decide) hx with hold | ⟨hstart, -⟩
  · exact hold
  · exact absurd (hstart rfl) (by omega)

/-- Attempts started are never forgotten. -/
theorem act_starts (h : Act w d d') : d.starts.length ≤ d'.starts.length := by
  cases h with
  | move hq hl hc hk hmem hm hev hland => cases hland <;> exact le_rfl
  | start =>
    rw [length_append]
    exact Nat.le_add_right _ _
  | rearrange h => exact le_of_eq h.starts.length_eq
  | _ => exact le_rfl

/-- Nor by a sequence of acts. -/
theorem acts_starts (h : Acts w d d') : d.starts.length ≤ d'.starts.length := by
  induction h with
  | refl => exact le_rfl
  | tail _ hact ih => exact ih.trans (act_starts hact)

/-- The items a sequence of acts leaves running were running, unless it starts an attempt. -/
theorem acts_running (hd : DeskInv d) (h : Acts w d d') (hs : d'.starts.length = d.starts.length) :
    ∀ x ∈ d'.e.q .running, ∃ y ∈ d.e.q .running, y.ptr = x.ptr := by
  induction h with
  | refl => exact fun x hx => ⟨x, hx, rfl⟩
  | tail hacts hact ih =>
    have hle := acts_starts hacts
    have hle' := act_starts hact
    intro x hx
    obtain ⟨y, hy, hyx⟩ := act_running (acts_inv hd hacts) hact (by omega) x hx
    obtain ⟨z, hz, hzy⟩ := ih (by omega) y hy
    exact ⟨z, hz, hzy.trans hyx⟩

/-- Nothing can be popped from an empty queue. -/
theorem fifoPop_nil (h : e.q q = []) : fifoPop e q = none := by
  unfold fifoPop
  rw [h]

/-- Only a move announces a retry. -/
theorem act_announced (hd : DeskInv d) (h : Act w d d') (hx : it ∈ d'.announced) :
    it ∈ d.announced ∨ ∃ q, q ≠ .dead ∧ d.e.q q ≠ [] := by
  cases h with
  | @move _ q _ _ _ _ _ _ _ _ hne hl => exact .inr ⟨q, hne, ne_nil_of_mem (leaves_eq hd hl).1⟩
  | park h => exact .inl (h ▸ mem_cons_of_mem _ hx)
  | rearrange h => exact .inl (h.announced.mem_iff.mpr hx)
  | _ => exact .inl hx

/-- A quiet engine stays quiet. -/
theorem act_quiet (hd : DeskInv d) (h : Act w d d') (hq : Quiet d.e) (ha : d.announced = []) :
    Quiet d'.e ∧ d'.announced = [] := by
  have hnone : ¬∃ q, q ≠ .dead ∧ d.e.q q ≠ [] := fun ⟨q, hne, hno⟩ => hno (hq.empty q hne)
  refine ⟨⟨(act_onward h).stopping hq.stopping, fun q hne => ?_⟩, ?_⟩
  · refine eq_nil_iff_forall_not_mem.mpr fun x hx => ?_
    rcases act_item hd h hne hx with ⟨y, hy, -⟩ | ⟨-, hwork | hann | hup⟩
    · rw [hq.empty q hne] at hy
      cases hy
    · exact hnone hwork
    · exact hann ha
    · rw [hq.stopping] at hup
      cases hup
  · refine eq_nil_iff_forall_not_mem.mpr fun x hx => ?_
    rcases act_announced hd h hx with hx | hwork
    · rw [ha] at hx
      cases hx
    · exact hnone hwork

/-- And so through a sequence of acts. -/
theorem acts_quiet (hd : DeskInv d) (h : Acts w d d') (hq : Quiet d.e) (ha : d.announced = []) :
    Quiet d'.e ∧ d'.announced = [] := by
  induction h with
  | refl => exact ⟨hq, ha⟩
  | tail hacts hact ih => exact act_quiet (acts_inv hd hacts) hact ih.1 ih.2

end Acts

/-- The pump is the dispatcher of a THREADED engine. -/
def threaded : Pump → Bool
  | .rest _ => true
  | .exited => true
  | _ => false

/-- The item the step of a MANUAL engine is executing. -/
def slot : Pump → List Ptr
  | .exec p _ => [p]
  | _ => []

/-- The shutdown has collected what was left. -/
def collected : Shut → Bool
  | .collecting _ => true
  | .returned => true
  | _ => false

/-- What holds of the pump, the calls and the shutdown together. -/
structure SysInv (s : Sys) : Prop where
  /-- The store, the order of intake and the registry. -/
  desk : DeskInv (desk s)
  /-- The pump is that of the engine's mode. -/
  mode : s.e.manual = !threaded s.pump
  /-- A MANUAL engine runs what its step executes. -/
  slot : s.e.manual = true → ∀ x ∈ s.e.q .running, x.ptr ∈ slot s.pump
  /-- The shutdown has begun once it was called. -/
  halted : s.shut ≠ .up → s.e.stopping = true
  /-- Nothing is left once the dispatcher has ended or the shutdown has collected. -/
  quiet : s.pump = .exited ∨ collected s.shut = true → Quiet s.e

/-- A step of a call: neither the pump nor the shutdown moves, and no attempt starts. -/
structure Aside (s s' : Sys) : Prop where
  /-- The pump. -/
  pump : s'.pump = s.pump
  /-- The shutdown. -/
  shut : s'.shut = s.shut
  /-- The attempts. -/
  starts : s'.starts = s.starts

section Steps

variable {s s' : Sys} {l : Label} {p : Ptr} {args : SubmitArgs} {r : RegId} {dropped : List Item}
  {now : ℕ}

/-- An attempt moves on. -/
theorem stepExec_aside (hl : ∀ p, l ≠ .execPost p) (h : stepExec s it l = some s') : Aside s s' := by
  unfold stepExec at h
  split at h
  · split_ifs at h
    cases h
    exact ⟨rfl, rfl, rfl⟩
  · split_ifs at h
    cases h
    exact ⟨rfl, rfl, rfl⟩
  · split_ifs at h
    cases h
    exact ⟨rfl, rfl, rfl⟩
  · split at h
    · cases h
      exact ⟨rfl, rfl, rfl⟩
    · cases h
  · exact absurd rfl (hl _)
  · cases h

/-- A submit takes memory. -/
theorem submitTake_aside {len : ℕ} (h : stepSubmitTake s p len = some s') : Aside s s' := by
  unfold stepSubmitTake at h
  split_ifs at h
  · cases h
    exact ⟨rfl, rfl, rfl⟩
  · split at h
    · split_ifs at h
      cases h
      exact ⟨rfl, rfl, rfl⟩
    · cases h

/-- A submit runs its critical section. -/
theorem submitCommit_aside (h : stepSubmitCommit s p args = some s') : Aside s s' := by
  obtain ⟨-, h⟩ := onCall_some h
  split_ifs at h
  split at h <;> cases h <;> exact ⟨rfl, rfl, rfl⟩

/-- A submit seals a bounded engine. -/
theorem submitSeal_aside {ok : Bool} (h : stepSubmitSeal s args ok = some s') : Aside s s' := by
  unfold stepSubmitSeal at h
  split_ifs at h
  split at h <;> cases h <;> exact ⟨rfl, rfl, rfl⟩

/-- A call emits. -/
theorem callEmit_aside {evs : List Ev} (h : stepCallEmit s evs = some s') : Aside s s' := by
  obtain ⟨-, h⟩ := onCall_some h
  split at h <;> cases h <;> exact ⟨rfl, rfl, rfl⟩

/-- An unregister ends an item of its backlog. -/
theorem dropNext_aside {named : Bool} (h : stepDropNext s r dropped named = some s') : Aside s s' := by
  obtain ⟨-, h⟩ := onCall_some h
  split at h <;> cases h <;> exact ⟨rfl, rfl, rfl⟩

/-- A drain hands over an item. -/
theorem handNext_aside {items : List Item} (h : stepHandNext s items = some s') : Aside s s' := by
  obtain ⟨-, h⟩ := onCall_some h
  split at h <;> cases h <;> exact ⟨rfl, rfl, rfl⟩

/-- An unregister begins. -/
theorem unregister_aside {tid : ℕ} {name : Name} {mode : RemoveMode} {reentrant : Bool}
    (h : stepUnregister s tid name mode reentrant = some s') : Aside s s' := by
  unfold stepUnregister at h
  split_ifs at h
  split at h <;> cases h <;> exact ⟨rfl, rfl, rfl⟩

/-- The type of an unregister has drained. -/
theorem unregisterEnd_aside {nameOk : Ptr → Bool} (h : stepUnregisterEnd s r dropped nameOk = some s') :
    Aside s s' := by
  obtain ⟨-, h⟩ := onCall_some h
  split_ifs at h
  cases h
  exact ⟨rfl, rfl, rfl⟩

/-- Registrations and definitions. -/
theorem setup_aside (h : stepRegister s l = some s' ∨ stepDefine s l = some s') : Aside s s' := by
  rcases h with h | h
  · unfold stepRegister at h
    split at h
    · split_ifs at h
      split at h <;> cases h <;> exact ⟨rfl, rfl, rfl⟩
    · obtain ⟨-, h⟩ := onCall_some h
      cases h
      exact ⟨rfl, rfl, rfl⟩
    · obtain ⟨-, h⟩ := onCall_some h
      cases h
      exact ⟨rfl, rfl, rfl⟩
    · obtain ⟨-, h⟩ := onCall_some h
      split_ifs at h
      cases h
      exact ⟨rfl, rfl, rfl⟩
    · cases h
  · unfold stepDefine at h
    split at h
    · split_ifs at h <;> cases h <;> exact ⟨rfl, rfl, rfl⟩
    · obtain ⟨-, h⟩ := onCall_some h
      split at h <;> cases h <;> exact ⟨rfl, rfl, rfl⟩
    · cases h
      exact ⟨rfl, rfl, rfl⟩
    · obtain ⟨-, h⟩ := onCall_some h
      cases h
      exact ⟨rfl, rfl, rfl⟩
    · cases h

/-- A sequence of acts between two system states. -/
def Progress (s s' : Sys) : Prop :=
  ∃ w adm, Acts w (SystemDesk.desk s) { SystemDesk.desk s' with admissions := adm }

/-- Through a sequence of acts that keeps the kind of the pump. -/
theorem SysInv.progress (h : SysInv s) (hp : Progress s s') (hthr : threaded s'.pump = threaded s.pump)
    (hslot : s'.e.manual = true → ∀ x ∈ s'.e.q .running, x.ptr ∈ SystemInvariant.slot s'.pump)
    (hhalt : s'.shut ≠ .up → s'.e.stopping = true)
    (hquiet : s'.pump = .exited ∨ collected s'.shut = true → Quiet s'.e) : SysInv s' := by
  obtain ⟨w, adm, hacts⟩ := hp
  have hd := acts_inv h.desk hacts
  refine ⟨⟨hd.store, hd.sorted, hd.registry⟩, ?_, hslot, hhalt, hquiet⟩
  have hman : s'.e.manual = s.e.manual := (acts_onward hacts).manual
  rw [hman, hthr]
  exact h.mode

/-- What runs after steps that start nothing was running before. -/
theorem Progress.running (h : SysInv s) (hp : Progress s s') (hs : s'.starts.length = s.starts.length) :
    ∀ x ∈ s'.e.q .running, ∃ y ∈ s.e.q .running, y.ptr = x.ptr := by
  obtain ⟨w, adm, hacts⟩ := hp
  exact acts_running h.desk hacts hs

/-- The shutdown goes on. -/
theorem Progress.stopping (hp : Progress s s') (hs : s.e.stopping = true) : s'.e.stopping = true := by
  obtain ⟨w, adm, hacts⟩ := hp
  exact (acts_onward hacts).stopping hs

/-- The mode stays. -/
theorem Progress.manual (hp : Progress s s') : s'.e.manual = s.e.manual := by
  obtain ⟨w, adm, hacts⟩ := hp
  exact (acts_onward hacts).manual

/-- Quiet stays. -/
theorem Progress.quiet (h : SysInv s) (hp : Progress s s') (hq : Quiet s.e) : Quiet s'.e := by
  obtain ⟨w, adm, hacts⟩ := hp
  exact (acts_quiet h.desk hacts hq rfl).1

/-- A step in which neither the slot of the pump nor the shutdown changes. -/
theorem SysInv.steady (h : SysInv s) (hp : Progress s s') (hthr : threaded s'.pump = threaded s.pump)
    (hslot : SystemInvariant.slot s'.pump = SystemInvariant.slot s.pump) (hshut : s'.shut = s.shut)
    (hs : s'.starts = s.starts) (hquiet : s'.pump = .exited → Quiet s'.e) : SysInv s' := by
  refine h.progress hp hthr ?_ ?_ ?_
  · intro hman x hx
    obtain ⟨y, hy, hyx⟩ := hp.running h (congrArg _ hs) x hx
    rw [hslot, ← hyx]
    exact h.slot (hp.manual ▸ hman) y hy
  · rw [hshut]
    exact fun hup => hp.stopping (h.halted hup)
  · rintro (hex | hcol)
    · exact hquiet hex
    · rw [hshut] at hcol
      exact hp.quiet h (h.quiet (.inr hcol))

/-- A step of a call. -/
theorem SysInv.aside (h : SysInv s) (hp : Progress s s') (ha : Aside s s') : SysInv s' := by
  refine h.steady hp (by rw [ha.pump]) (by rw [ha.pump]) ha.shut ha.starts ?_
  rw [ha.pump]
  exact fun hex => hp.quiet h (h.quiet (.inl hex))

/-- A drained engine is quiet. -/
theorem quiet_of_drained (h : drained e = true) : Quiet e := by
  simp only [drained, Bool.and_eq_true, List.isEmpty_iff] at h
  obtain ⟨⟨⟨⟨⟨⟨hst, hi⟩, hr⟩, hdn⟩, hdl⟩, hrun⟩, -⟩ := h
  refine ⟨hst, ?_⟩
  intro q hq
  cases q
  case intake => exact hi
  case ready => exact hr
  case done => exact hdn
  case delayed => exact hdl
  case running => exact hrun
  case dead => exact absurd rfl hq

/-- The pump runs a pass. -/
theorem pass_inv {inp : PassIn} (h : SysInv s) (hp : Progress s s')
    (hstep : stepPass s inp = some s') : SysInv s' := by
  unfold stepPass at hstep
  generalize enginePass inp s.e = ps at hstep
  simp only at hstep
  split at hstep
  · rename_i hpump
    split_ifs at hstep with hex
    · cases hstep
      refine h.steady hp (by rw [hpump]; rfl) (by rw [hpump]; rfl) rfl rfl ?_
      intro _
      have hq := quiet_of_drained hex.2.2
      exact ⟨hq.stopping, hq.empty⟩
    · cases hstep
      exact h.steady hp (by rw [hpump]; rfl) (by rw [hpump]; rfl) rfl rfl fun hno => by cases hno
  · rename_i hpump
    cases hstep
    exact h.steady hp (by rw [hpump]; rfl) (by rw [hpump]; rfl) rfl rfl fun hno => by cases hno
  · cases hstep

/-- The pump emits an event. -/
theorem emit_inv (h : SysInv s) (hp : Progress s s') (hstep : stepEmit s = some s') : SysInv s' := by
  unfold stepEmit at hstep
  split at hstep
  · rename_i hpump
    cases hstep
    exact h.steady hp (by rw [hpump]; rfl) (by rw [hpump]; rfl) rfl rfl fun hno => by cases hno
  · rename_i hpump
    cases hstep
    exact h.steady hp (by rw [hpump]; rfl) (by rw [hpump]; rfl) rfl rfl fun hno => by cases hno
  · cases hstep

/-- The step moves on between its parts. -/
theorem manual_inv (h : SysInv s) (hp : Progress s s') (hstep : stepManual s l = some s') :
    SysInv s' := by
  unfold stepManual at hstep
  split at hstep
  · split_ifs at hstep with hidle
    cases hstep
    exact h.steady hp (by rw [hidle.1]; rfl) (by rw [hidle.1]; rfl) rfl rfl fun hno => by cases hno
  · split at hstep
    · rename_i b more ran hpump
      cases hstep
      have hafter : threaded (afterFlush s.e b more ran) = false ∧
          SystemInvariant.slot (afterFlush s.e b more ran) = [] := by
        unfold afterFlush
        split_ifs <;> exact ⟨rfl, rfl⟩
      refine h.steady hp ?_ ?_ rfl rfl ?_
      · rw [hpump]
        exact hafter.1
      · rw [hpump]
        exact hafter.2
      · intro hex
        have hno := hafter.1
        simp only at hex
        rw [hex] at hno
        cases hno
    · cases hstep
  · split at hstep
    · rename_i hpump
      split_ifs at hstep
      cases hstep
      exact h.steady hp (by rw [hpump]; rfl) (by rw [hpump]; rfl) rfl rfl fun hno => by cases hno
    · cases hstep
  · cases hstep

/-- A quiet engine has nothing to take. -/
theorem takeReady_none (h : Quiet e) : takeReady now e = none := by
  unfold takeReady
  rw [fifoPop_nil (h.empty .ready (by decide))]

/-- What is running once an item was taken. -/
theorem takeReady_running {e' : Engine} (h : takeReady now e = some (e', it))
    (hm : mustDiscard e it = false) : e'.q .running = e.q .running ++ [startItem e now it] := by
  obtain ⟨e₁, hpop, ⟨hyes, -⟩ | ⟨-, rfl⟩⟩ := takeReady_some h
  · cases hyes.symm.trans hm
  · obtain ⟨rest, -, hrest⟩ := fifoPop_q hpop
    simp only [fifoPush, update_self, hrest, update_of_ne (show QId.running ≠ .ready by decide)]

/-- A ready item is taken. -/
theorem take_inv (h : SysInv s) (hp : Progress s s') (hstep : stepTake s now = some s') : SysInv s' := by
  unfold stepTake at hstep
  split_ifs at hstep with hcan
  obtain ⟨r, hr, heq⟩ := Option.map_eq_some_iff.mp hstep
  obtain ⟨e, it⟩ := r
  simp only at heq
  have hnex : s.pump ≠ .exited := by
    intro hex
    rw [takeReady_none (h.quiet (.inl hex))] at hr
    cases hr
  have hncol : collected s.shut ≠ true := by
    intro hcol
    rw [takeReady_none (h.quiet (.inr hcol))] at hr
    cases hr
  cases hm : mustDiscard s.e it with
  | true =>
    rw [if_pos hm] at heq
    subst heq
    exact h.steady hp rfl rfl rfl rfl fun hex => absurd hex hnex
  | false =>
    rw [if_neg (Bool.eq_false_iff.mp hm)] at heq
    subst heq
    have hthr : threaded (afterTake s.pump it.ptr) = threaded s.pump := by cases s.pump <;> rfl
    refine h.progress hp hthr ?_ ?_ ?_
    · intro hman x hx
      have hman' : s.e.manual = true := hp.manual ▸ hman
      -- only the step of a MANUAL engine takes items, and it has none in hand
      obtain ⟨ran, hpump⟩ : ∃ ran, s.pump = .run ran := by
        have hmode := h.mode
        rw [hman'] at hmode
        unfold canTake at hcan
        cases hpump : s.pump with
        | run ran => exact ⟨ran, rfl⟩
        | rest buf =>
          rw [hpump] at hmode
          cases hmode
        | exited => exact absurd hpump hnex
        | _ =>
          rw [hpump] at hcan
          cases hcan
      have hnone : s.e.q .running = [] := by
        refine eq_nil_iff_forall_not_mem.mpr ?_
        intro y hy
        have hslot := h.slot hman' y hy
        rw [hpump] at hslot
        cases hslot
      simp only [takeReady_running hr hm, hnone, nil_append, mem_singleton] at hx
      subst hx
      simp only [hpump]
      exact mem_singleton.mpr rfl
    · exact fun hup => hp.stopping (h.halted hup)
    · rintro (hex | hcol)
      · refine absurd ?_ hnex
        revert hex
        cases s.pump <;> intro hex <;> cases hex
        rfl
      · exact absurd hcol hncol

/-- An executed item is posted. -/
theorem post_inv (h : SysInv s) (hp : Progress s s') (hit : runningItem s p = some it)
    (hstep : stepExec s it (.execPost p) = some s') : SysInv s' := by
  simp only [stepExec] at hstep
  split at hstep
  · rename_i st hphase
    cases hstep
    have hmem : it ∈ s.e.q .running := mem_of_find?_eq_some hit
    have hptr : it.ptr = p := by
      have hfound := find?_some (p := fun x : Item => decide (x.ptr = p)) hit
      exact of_decide_eq_true hfound
    have hthr : threaded (afterPost s.pump p) = threaded s.pump := by
      cases s.pump
      case exec p' ran =>
        simp only [afterPost]
        split_ifs <;> rfl
      all_goals rfl
    have hnex : ¬ Quiet s.e := by
      intro hq
      rw [hq.empty .running (by decide)] at hmem
      cases hmem
    refine h.progress hp hthr ?_ ?_ ?_
    · intro hman x hx
      exfalso
      have hman' : s.e.manual = true := hp.manual ▸ hman
      have hall : ∀ y ∈ s.e.q .running, y.ptr = it.ptr := by
        intro y hy
        have hy' := h.slot hman' y hy
        have hi' := h.slot hman' it hmem
        revert hy' hi'
        cases s.pump
        case exec p' ran =>
          intro hy' hi'
          rw [mem_singleton.mp hy', mem_singleton.mp hi']
        all_goals
          intro hy' _
          cases hy'
      have hrun : (postDone s.e it st).q .running =
          (s.e.q .running).eraseP fun x => x.ptr = it.ptr := by
        simp only [postDone, fifoPush, fifoRemove, update_of_ne (show QId.running ≠ .done by decide),
          update_self]
      simp only [hrun] at hx
      have hnd := queue_nodup h.desk .running
      have hxm := eraseP_sublist.mem hx
      have hxi : x = it := inj_on_of_nodup_map hnd hxm hmem (hall x hxm)
      rw [hxi] at hx
      exact not_mem_eraseP hnd hmem hx
    · exact fun hup => hp.stopping (h.halted hup)
    · rintro (hex | hcol)
      · refine absurd (h.quiet (.inl ?_)) hnex
        revert hex
        cases s.pump
        case exec p' ran =>
          simp only [afterPost]
          split_ifs <;> intro hex <;> cases hex
        case exited => exact fun _ => rfl
        all_goals
          intro hex
          cases hex
      · exact absurd (h.quiet (.inr hcol)) hnex
  · cases hstep

/-- Threads that were joined run nothing. -/
theorem SysInv.joined_running (h : SysInv s) (hj : joined s = true) : s.e.q .running = [] := by
  simp only [joined, Bool.or_eq_true, Bool.and_eq_true, List.isEmpty_iff, decide_eq_true_eq] at hj
  rcases hj with ⟨-, hrun⟩ | hidle
  · exact hrun
  · have hman : s.e.manual = true := by
      rw [h.mode, hidle]
      rfl
    refine eq_nil_iff_forall_not_mem.mpr ?_
    intro x hx
    have hslot := h.slot hman x hx
    rw [hidle] at hslot
    cases hslot

/-- The shutdown, once begun, is on record. -/
theorem shutdownBegin_stopping (e : Engine) (now : ℕ) : (shutdownBegin e now).1.stopping = true := by
  obtain ⟨t, heq⟩ := shutdownBegin_eq e now
  rw [heq]

/-- The final collection leaves a quiet engine. -/
theorem shutdownCollect_empty (e : Engine) : ∀ q ≠ QId.dead, (shutdownCollect e).1.q q = [] := by
  intro q hq
  rw [shutdownCollect_q]
  cases q
  case dead => exact absurd rfl hq
  all_goals rfl

/-- The parts of the shutdown. -/
theorem shutdown_inv (h : SysInv s) (hp : Progress s s') (hstep : stepShutdown s l = some s') :
    SysInv s' := by
  have hslot : s'.pump = s.pump → s'.starts = s.starts → s'.e.manual = true →
      ∀ x ∈ s'.e.q .running, x.ptr ∈ SystemInvariant.slot s'.pump := by
    intro hpump hs hman x hx
    obtain ⟨y, hy, hyx⟩ := hp.running h (congrArg _ hs) x hx
    rw [hpump, ← hyx]
    exact h.slot (hp.manual ▸ hman) y hy
  have hex : s'.pump = s.pump → s'.pump = .exited → Quiet s'.e :=
    fun hpump he => hp.quiet h (h.quiet (.inl (hpump ▸ he)))
  unfold stepShutdown at hstep
  split at hstep
  · rename_i now
    split_ifs at hstep with hup
    cases hstep
    refine h.progress hp rfl (hslot rfl rfl) (fun _ => shutdownBegin_stopping s.e now) ?_
    rintro (he | hc)
    · exact hex rfl he
    · cases hc
  · split at hstep
    · rename_i hshut
      cases hstep
      refine h.progress hp rfl (hslot rfl rfl) (fun _ => hp.stopping (h.halted ?_)) ?_
      · rw [hshut]
        exact fun hno => by cases hno
      · rintro (he | hc)
        · exact hex rfl he
        · cases hc
    · rename_i hshut
      cases hstep
      have hq := h.quiet (.inr (by rw [hshut]; rfl))
      exact h.progress hp rfl (hslot rfl rfl) (fun _ => hp.stopping hq.stopping)
        fun _ => hp.quiet h hq
    · cases hstep
  · split_ifs at hstep with hjoin
    have hempty := shutdownCollect_empty s.e
    generalize shutdownCollect s.e = r at hstep hempty
    cases hstep
    have hst : s.e.stopping = true := h.halted (by rw [hjoin.1]; exact fun hno => by cases hno)
    have hst' := hp.stopping hst
    exact h.progress hp rfl (hslot rfl rfl) (fun _ => hst') fun _ => ⟨hst', hempty⟩
  · split_ifs at hstep with hend
    cases hstep
    have hq := h.quiet (.inr (by rw [hend.1]; rfl))
    exact h.progress hp rfl (hslot rfl rfl) (fun _ => hp.stopping hq.stopping)
      fun _ => hp.quiet h hq
  · cases hstep

/-- Every step is a sequence of acts. -/
theorem SysInv.step_progress (h : SysInv s) (hstep : step s l = some s') : Progress s s' :=
  ⟨_, _, step_acts h.desk h.joined_running hstep⟩

/-- Which thread a step belongs to. -/
inductive Kind (s : Sys) (l : Label) (s' : Sys) : Prop
  /-- A call, or a thread that executes an item. -/
  | aside (h : Aside s s')
  /-- The pump runs a pass. -/
  | pass (inp : PassIn) (h : stepPass s inp = some s')
  /-- The pump emits. -/
  | emit (h : stepEmit s = some s')
  /-- The step moves on. -/
  | manual (h : stepManual s l = some s')
  /-- A ready item is taken. -/
  | take (now : ℕ) (h : stepTake s now = some s')
  /-- An executed item is posted. -/
  | post (p : Ptr) (it : Item) (hit : runningItem s p = some it)
    (h : stepExec s it (.execPost p) = some s')
  /-- The shutdown. -/
  | shutdown (h : stepShutdown s l = some s')

/-- Every step belongs to one of them. -/
theorem step_kind (hstep : EngineSystem.step s l = some s') : Kind s l s' := by
  have hexec : ∀ {p : Ptr}, (∀ p', l ≠ .execPost p') →
      ((runningItem s p).bind fun it => stepExec s it l) = some s' → Kind s l s' := by
    intro p hl hbind
    obtain ⟨it, -, hex⟩ := Option.bind_eq_some_iff.mp hbind
    exact .aside (stepExec_aside hl hex)
  unfold EngineSystem.step at hstep
  split_ifs at hstep
  cases l with
  | pass inp => exact .pass inp hstep
  | emit => exact .emit hstep
  | stepBegin | stepNext | stepDry => exact .manual hstep
  | take now => exact .take now hstep
  | execStarted p | execSample p | execReturn p st now | execReport p =>
    exact hexec (fun _ hno => by cases hno) hstep
  | execPost p =>
    obtain ⟨it, hit, hex⟩ := Option.bind_eq_some_iff.mp hstep
    exact .post p it hit hex
  | submitSeal args ok => exact .aside (submitSeal_aside hstep)
  | submitTake p len => exact .aside (submitTake_aside hstep)
  | submitCommit p args => exact .aside (submitCommit_aside hstep)
  | callEmit evs => exact .aside (callEmit_aside hstep)
  | cancel h' | deadDrain cb nameOk | setting x =>
    cases hstep
    exact .aside ⟨rfl, rfl, rfl⟩
  | unregister tid name mode reentrant => exact .aside (unregister_aside hstep)
  | unregisterEnd r dropped nameOk => exact .aside (unregisterEnd_aside hstep)
  | dropNext r dropped named => exact .aside (dropNext_aside hstep)
  | handNext items => exact .aside (handNext_aside hstep)
  | register tid t | registerPublish r tid | registerDone r tid | registerUndo r tid =>
    exact .aside (setup_aside (.inl hstep))
  | defineBegin name budget addon | definePublish name budget addon ok | defineTaskSetting
  | defineEnd addon => exact .aside (setup_aside (.inr hstep))
  | setCost tid task resource amount =>
    simp only at hstep
    split_ifs at hstep
    cases hstep
    exact .aside ⟨rfl, rfl, rfl⟩
  | shutdownBegin now | shutdownNext | shutdownCollect | shutdownEnd => exact .shutdown hstep

/-- Every step keeps what holds of the threads. -/
theorem SysInv.step (h : SysInv s) (hstep : EngineSystem.step s l = some s') : SysInv s' := by
  have hp := h.step_progress hstep
  cases step_kind hstep with
  | aside ha => exact h.aside hp ha
  | pass inp hs => exact pass_inv h hp hs
  | emit hs => exact emit_inv h hp hs
  | manual hs => exact manual_inv h hp hs
  | take now hs => exact take_inv h hp hs
  | post p it hit hs => exact post_inv h hp hit hs
  | shutdown hs => exact shutdown_inv h hp hs

/-- Only the shutdown itself moves on with the shutdown. -/
theorem step_shut (hstep : EngineSystem.step s l = some s') :
    s'.shut = s.shut ∨ stepShutdown s l = some s' := by
  cases step_kind hstep with
  | aside ha => exact .inl ha.shut
  | pass inp hs =>
    unfold stepPass at hs
    generalize enginePass inp s.e = ps at hs
    simp only at hs
    split at hs
    · split_ifs at hs <;> (cases hs; exact .inl rfl)
    · cases hs
      exact .inl rfl
    · cases hs
  | emit hs =>
    unfold stepEmit at hs
    split at hs <;> cases hs <;> exact .inl rfl
  | manual hs =>
    unfold stepManual at hs
    repeat' split at hs
    all_goals
      cases hs
    all_goals exact .inl rfl
  | take now hs =>
    unfold stepTake at hs
    split_ifs at hs
    obtain ⟨r, -, heq⟩ := Option.map_eq_some_iff.mp hs
    simp only at heq
    split_ifs at heq <;> (subst heq; exact .inl rfl)
  | post p it hit hs =>
    simp only [stepExec] at hs
    split at hs
    · cases hs
      exact .inl rfl
    · cases hs
  | shutdown hs => exact .inr hs

end Steps

/-- A freshly opened engine. -/
theorem init_inv (a : OpenArgs) : SysInv (init a) := by
  refine ⟨⟨openEngine_inv a, ?_, ?_⟩, ?_, ?_, ?_, ?_⟩
  · exact ⟨⟨forall_mem_nil _, nodup_nil, nodup_nil⟩, .nil,
      fun _ => ⟨forall_mem_nil _, .nil, Nat.zero_le _⟩⟩
  · exact forall_mem_nil _
  · show a.manual = !threaded (if a.manual then .idle else .rest [])
    cases a.manual <;> rfl
  · exact fun _ x hx => absurd hx not_mem_nil
  · exact fun h => absurd rfl h
  · rintro (h | h)
    · revert h
      show (if a.manual then Pump.idle else .rest []) = .exited → _
      cases a.manual <;> intro h <;> cases h
    · cases h

/-- In every reachable state. -/
theorem reachable_inv {s : Sys} (h : Reachable s) : SysInv s :=
  reachable_invariant init_inv (fun _ _ _ _ hs hstep => hs.step hstep) h

section Store

variable {s : Sys}

/-- The items calls still hold, and the memory of items being submitted. -/
def inTransit (s : Sys) : List Ptr :=
  addrs ((desk s).dropped ++ (desk s).handed) ++ (desk s).fresh

/-- The index answers with the item of a handle while gptps_cancel may act on it. -/
theorem hidxFind_live (hs : SysInv s) (n : Handle) (p : Ptr) :
    hidxFind s.e n = some p ↔ ∃ q, q ≠ QId.dead ∧ ∃ it ∈ s.e.q q, it.handle = n ∧ it.ptr = p := by
  have hindex : Indexed s.e.toStore ((live s.e.toStore ++ []).map key) := hs.desk.store.index
  rw [hidxFind_iff hindex, append_nil, mem_map]
  constructor
  · intro hkey
    obtain ⟨it, hit, hk⟩ := hkey
    obtain ⟨q, hq, hmem⟩ := mem_live.mp hit
    exact ⟨q, hq, it, hmem, congrArg Prod.fst hk, congrArg Prod.snd hk⟩
  · intro hlive
    obtain ⟨q, hq, it, hit, hh, hp⟩ := hlive
    exact ⟨it, mem_live.mpr ⟨q, hq, hit⟩, by rw [key, hh, hp]⟩

/-- Every probe of the index has ended after one round. -/
theorem probe_ends (hs : SysInv s) (n : Handle) (hsize : 0 < s.e.hidx.size) (more : ℕ) :
    findFrom s.e.hidx.slot s.e.hidx.size n (s.e.hidx.size + more) (hidxSlot s.e.hidx.size n) =
      findSlot hidxSlot s.e.hidx n := by
  have hstores := hs.desk.store.index.holds.stores hsize
  obtain ⟨r, hr, hfree⟩ := hstores.exists_free
  have hhome := hidxSlot_lt s.e.hidx.size n hsize
  rw [findSlot, if_neg (Nat.ne_of_gt hsize)]
  exact findFrom_ends n more hhome hr hfree (dist_lt hhome hr)

/-- In every state with the lock free the queues are what their links, counts and the
`where` bytes say, every item is in one place, the index answers with a handle's item
exactly while that item is in a live queue, and every probe ends. -/
theorem store_exact (h : Reachable s) :
    (ptrs s.e.toStore ++ inTransit s).Nodup ∧
      (∀ p, s.e.allocated p = true ↔ p ∈ ptrs s.e.toStore ++ inTransit s) ∧
      (∀ q, ∀ it ∈ s.e.q q, s.e.whereIs it.ptr = .queue q) ∧
      (∀ q, Rep s.e.links (s.e.anchor q) (addrs (s.e.q q))) ∧
      (∀ n p, hidxFind s.e n = some p ↔
        ∃ q, q ≠ QId.dead ∧ ∃ it ∈ s.e.q q, it.handle = n ∧ it.ptr = p) ∧
      s.e.hung = false ∧
      ∀ n more, 0 < s.e.hidx.size →
        findFrom s.e.hidx.slot s.e.hidx.size n (s.e.hidx.size + more) (hidxSlot s.e.hidx.size n) =
          findSlot hidxSlot s.e.hidx n := by
  have hs := reachable_inv h
  have hlay : Layout s.e.toStore (inTransit s) := hs.desk.store.layout
  refine ⟨hlay.nodup, hlay.taken, ?_, hlay.rep, hidxFind_live hs, hs.desk.store.index.ends, ?_⟩
  · intro q it hit
    exact hlay.queued q it.ptr (mem_map.mpr ⟨it, hit, rfl⟩)
  · intro n more hsize
    exact probe_ends hs n hsize more

/-- With one item running, the index leads to it. -/
theorem store_exact_sample :
    hidxFind (sampled (sampleStart false 600 ++ sampleBegin)).e 1 = some 7 := by
  have hexact := store_exact (s := sampled (sampleStart false 600 ++ sampleBegin))
    (reachable_ranTo (by decide +kernel))
  exact (hexact.2.2.2.2.1 1 7).mpr ⟨.running, by decide, by decide +kernel⟩

end Store

end Gptps.SystemInvariant
