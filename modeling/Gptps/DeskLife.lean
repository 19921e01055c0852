import Gptps.DeskStore
import Mathlib.Tactic.Abel

/-!
# The engine refines the life of items

The items of a desk, wherever the engine or a call keeps them, are a state of
the life of items. Every act is a sequence of its steps, so whatever those keep
true holds of the engine.
-/

namespace Gptps.DeskLife

open Function EngineState EngineStore EnginePass EngineApi ItemLife IntakeOrder List
open StoreInvariant EngineDesk DeskStore

variable {w : Bool} {q : QId} {e : Engine} {ev : Multiset (Place × Core)} {p' : Option Place}
  {c c' : Core}

/-- An item at a place. -/
def located (p : Place) (it : Item) : Place × Core := (p, it.toCore)

/-- The items of a list at one place. -/
def group (p : Place) (l : List Item) : Multiset (Place × Core) := ↑(l.map (located p))

/-- The items in the queues. -/
def queued (f : QId → List Item) : Multiset (Place × Core) :=
  ↑(allQueues.flatMap fun q => (f q).map (located (.queue q)))

/-- The items outside the queues. -/
def aside (d : Desk) : Multiset (Place × Core) :=
  group .announced d.announced + group .picked d.picked + group .dropped d.dropped +
    group .handed d.handed

/-- The life of the items of a desk. -/
def life (d : Desk) : Life :=
  { reg := d.e.reg, nextReg := d.e.nextReg, stopping := d.e.stopping
    items := queued d.e.q + aside d, notes := ↑(d.evs.map noteOf), starts := ↑d.starts
    accepted := ↑d.accepted, next := d.e.nextHandle }

/-- A sequence of steps. -/
def Steps : Life → Life → Prop := Relation.ReflTransGen Step

section Groups

variable {p : Place} {it : Item} {l l₁ l₂ : List Item} {f : QId → List Item} {b : Bool}

/-- One item more. -/
theorem group_cons : group p (it :: l) = located p it ::ₘ group p l := rfl

/-- Lists one after the other. -/
theorem group_append : group p (l₁ ++ l₂) = group p l₁ + group p l₂ := by
  simp [group]

/-- The order of a list does not matter. -/
theorem group_perm (h : l₁.Perm l₂) : group p l₁ = group p l₂ :=
  Multiset.coe_eq_coe.mpr (h.map _)

/-- Membership. -/
theorem mem_group {x : Place × Core} : x ∈ group p l ↔ ∃ it ∈ l, x = located p it := by
  simp [group, eq_comm]

/-- The queues after one of them changed. -/
theorem queued_update (f : QId → List Item) (q : QId) (l : List Item) :
    ∃ rest, queued f = group (.queue q) (f q) + rest ∧
      queued (update f q l) = group (.queue q) l + rest := by
  obtain ⟨rest, hold, hnew⟩ := flatMap_update allQueues_nodup (mem_allQueues q)
    (fun q => (f q).map (located (.queue q))) (l.map (located (.queue q)))
  have hfun : update (fun q => (f q).map (located (.queue q))) q (l.map (located (.queue q))) =
      fun q' => (update f q l q').map (located (.queue q')) := by
    funext q'
    by_cases hq : q' = q
    · subst hq
      rw [update_self, update_self]
    · rw [update_of_ne hq, update_of_ne hq]
  rw [hfun] at hnew
  exact ⟨↑rest, Multiset.coe_eq_coe.mpr hold, Multiset.coe_eq_coe.mpr hnew⟩

/-- Rearranging and rewriting one queue without touching what an item is. -/
theorem queued_same (h : group (.queue q) l = group (.queue q) (f q)) :
    queued (update f q l) = queued f := by
  obtain ⟨rest, hold, hnew⟩ := queued_update f q l
  rw [hold, hnew, h]

/-- One item more in a queue. -/
theorem queued_cons (h : l.Perm (it :: f q)) :
    queued (update f q l) = located (.queue q) it ::ₘ queued f := by
  obtain ⟨rest, hold, hnew⟩ := queued_update f q l
  rw [hold, hnew, group_perm h, group_cons, Multiset.cons_add]

/-- An item taken out of its queue. -/
theorem queued_erase {d : Desk} {e₁ : Engine} (hd : DeskInv d) (h : Leaves d q it e₁ b) :
    queued d.e.q = located (.queue q) it ::ₘ queued e₁.q := by
  have hm := (leaves_eq hd h).1
  obtain ⟨k₁, k₂, hl, -, herase⟩ := hd.store.around hm
  rw [leaves_q hd h, herase]
  obtain ⟨rest, hold, hnew⟩ := queued_update d.e.q q (k₁ ++ k₂)
  have hperm : (d.e.q q).Perm (it :: (k₁ ++ k₂)) := hl ▸ perm_middle
  rw [hold, hnew, group_perm hperm, group_cons, Multiset.cons_add]

/-- An item put in its place in the intake. -/
theorem queued_insert (h : IntakeOk (e.q .intake) e.runs e.intakeSeq) (it : Item) :
    queued (intakeInsert e it).q = located (.queue .intake) it ::ₘ queued e.q := by
  obtain ⟨l₁, l₂, hl, -, -, heq⟩ := intakeInsert_eq h it
  have hperm : (l₁ ++ { it with intakeSeq := e.intakeSeq + 1 } :: l₂).Perm
      ({ it with intakeSeq := e.intakeSeq + 1 } :: e.q .intake) := by
    rw [hl]
    exact perm_middle
  rw [heq]
  have hcons := queued_cons hperm
  exact hcons

/-- What leaves its queue was among the items. -/
theorem leaves_items {d : Desk} {e₁ : Engine} (hd : DeskInv d) (h : Leaves d q it e₁ b) :
    (life d).items = (.queue q, it.toCore) ::ₘ (queued e₁.q + aside d) :=
  congrArg (· + aside d) (queued_erase hd h)

/-- What leaving a queue keeps of the engine. -/
theorem leaves_fields {d : Desk} {e₁ : Engine} (hd : DeskInv d) (h : Leaves d q it e₁ b) :
    e₁.reg = d.e.reg ∧ e₁.nextReg = d.e.nextReg ∧ e₁.stopping = d.e.stopping ∧
      e₁.nextHandle = d.e.nextHandle := by
  have hrest := leaves_rest h
  exact ⟨by rw [hrest], by rw [hrest], by rw [hrest], leaves_next hd h⟩

end Groups

section Chains

variable {L : Life} {rest : Multiset (Place × Core)}

/-- Dead letters are evicted. -/
theorem evict_steps (h : ∀ x ∈ ev, x.1 = .queue .dead) (hi : L.items = ev + rest) :
    Steps L { L with items := rest } := by
  induction ev using Multiset.induction_on generalizing L with
  | empty =>
    rw [zero_add] at hi
    rw [← hi]
    exact .refl
  | cons x ev ih =>
    rw [Multiset.cons_add] at hi
    obtain ⟨p, c⟩ := x
    have hp : p = .queue .dead := h (p, c) (Multiset.mem_cons_self _ _)
    subst hp
    have hstep := Step.move L (ev + rest) _ c none c [] hi (.evict c)
    have hsame : ({ L with
        items := settle none c + (ev + rest), notes := noteAll c.handle [] + L.notes } : Life) =
        { L with items := ev + rest } := by simp [settle, noteAll]
    rw [hsame] at hstep
    have hrest := ih (L := { L with items := ev + rest })
      (fun y hy => h y (Multiset.mem_cons_of_mem hy)) rfl
    exact .head hstep hrest

/-- Each item of a list stays as it is or makes a silent transition to one place. -/
theorem list_steps {p q : Place} {f : Item → Item} (l : List Item)
    (h : ∀ it ∈ l, (p = q ∧ (f it).toCore = it.toCore) ∨
      Move L.reg L.stopping p it.toCore (some q) (f it).toCore [])
    (hi : L.items = group p l + rest) :
    Steps L { L with items := group q (l.map f) + rest } := by
  induction l generalizing L rest with
  | nil =>
    have hsame : ({ L with items := group q ([].map f) + rest } : Life) = L := by
      exact congrArg (fun i => ({ L with items := i } : Life)) hi.symm
    rw [hsame]
    exact .refl
  | cons it l ih =>
    rw [group_cons, Multiset.cons_add] at hi
    have hnext := ih (L := { L with items := group p l + (located q (f it) ::ₘ rest) })
      (fun x hx => h x (mem_cons_of_mem _ hx)) rfl
    have hgoal : group q ((it :: l).map f) + rest =
        group q (l.map f) + (located q (f it) ::ₘ rest) := by
      rw [map_cons, group_cons, Multiset.cons_add, Multiset.add_cons]
    rw [hgoal]
    rcases h it mem_cons_self with ⟨rfl, hcore⟩ | hm
    · have hsame : ({ L with items := group p l + (located p (f it) ::ₘ rest) } : Life) = L := by
        have hloc : located p (f it) = located p it := by rw [located, located, hcore]
        rw [hloc, Multiset.add_cons]
        exact congrArg (fun i => ({ L with items := i } : Life)) hi.symm
      rw [hsame] at hnext
      exact hnext
    · have hstep := Step.move L (group p l + rest) _ _ _ _ _ hi hm
      have hsame : ({ L with
          items := settle (some q) (f it).toCore + (group p l + rest)
          notes := noteAll it.handle [] + L.notes } : Life) =
          { L with items := group p l + (located q (f it) ::ₘ rest) } := by
        simp [settle, noteAll, located]
      rw [hsame] at hstep
      exact .head hstep hnext

end Chains

section Kept

variable {d : Desk} {e' : Engine}

/-- What keeps the live queues keeps everything but the dead letters. -/
theorem life_keptLive (h : KeptLive d.e e') :
    life { d with e := e' } = { life d with items := queued e'.q + aside d } := by
  have hreg : e'.reg = d.e.reg := (congrArg Engine.reg h.rest).trans rfl
  have hnext : e'.nextReg = d.e.nextReg := (congrArg Engine.nextReg h.rest).trans rfl
  have hstop : e'.stopping = d.e.stopping := (congrArg Engine.stopping h.rest).trans rfl
  simp only [life, hreg, hnext, hstop, h.next]
  rfl

/-- What keeps all queues keeps the life of items. -/
theorem life_kept (h : Kept d.e e') : life { d with e := e' } = life d := by
  rw [life_keptLive h.toKeptLive, h.queues]
  rfl

/-- Eviction drops the oldest dead letters. -/
theorem evictDead_q (fuel : ℕ) (e : Engine) :
    ∃ k, (evictDead fuel e).q .dead = (e.q .dead).drop k := by
  induction fuel generalizing e with
  | zero => exact ⟨0, rfl⟩
  | succ fuel ih =>
    rw [evictDead]
    split
    · split
      · exact ⟨0, rfl⟩
      · rename_i old e₁ hpop
        obtain ⟨k, hk⟩ := ih (itemFree { e₁ with
          deadLetterCount := e₁.deadLetterCount - 1, deadEvicted := e₁.deadEvicted + 1 } old.ptr)
        have hfree := (itemFree_kept { e₁ with
          deadLetterCount := e₁.deadLetterCount - 1, deadEvicted := e₁.deadEvicted + 1 } old.ptr).dead
        obtain ⟨rest, l, a, hq, rfl⟩ := fifoPop_some hpop
        refine ⟨k + 1, ?_⟩
        rw [hk, hfree, hq, drop_succ_cons]
        simp only [update_self]
    · exact ⟨0, rfl⟩

/-- Retaining an item evicts the oldest dead letters and appends it. -/
theorem deadLetterPush_q (e : Engine) (it : Item) :
    ∃ k, (deadLetterPush e it).q = update e.q .dead ((e.q .dead).drop k ++ [it]) := by
  obtain ⟨k, hk⟩ := evictDead_q ((hidxDel e it).q .dead).length (hidxDel e it)
  rw [(hidxDel_kept e it).dead] at hk
  refine ⟨k, ?_⟩
  funext q
  by_cases hq : q = .dead
  · subst hq
    simp only [deadLetterPush, fifoPush, update_self, (hidxDel_kept e it).dead, hk]
  · rw [update_of_ne hq]
    exact (deadLetterPush_kept e it).q q hq

end Kept

/-- A settled item is a group of one. -/
theorem settle_some (p : Place) (it : Item) : settle (some p) it.toCore = group p [it] := rfl

/-- Where an item lands, it is among the items; only dead letters may go for it. -/
theorem lands_items {d d' : Desk} {it : Item} (h : Lands d it p' d') (hs : Sorted d.e d.stale) :
    ∃ ev rest, (∀ x ∈ ev, x.1 = .queue .dead) ∧
      (life d).items = ev + rest ∧
      life d' = { life d with items := settle p' it.toCore + rest } := by
  have hplain (hlife : life d' = { life d with items := settle p' it.toCore + (life d).items }) :
      ∃ ev rest, (∀ x ∈ ev, x.1 = .queue .dead) ∧ (life d).items = ev + rest ∧
        life d' = { life d with items := settle p' it.toCore + rest } :=
    ⟨0, (life d).items, fun x hx => absurd hx (Multiset.notMem_zero x), (zero_add _).symm, hlife⟩
  cases h with
  | push q hq hi =>
    refine hplain ?_
    have hcons : queued (fifoPush d.e q it).q = located (.queue q) it ::ₘ queued d.e.q :=
      queued_cons (perm_append_singleton _ _)
    simp only [life, hcons, Multiset.cons_add]
    rfl
  | entry hst =>
    rw [hst] at hs
    refine hplain ?_
    simp only [life, queued_insert hs.ok it, Multiset.cons_add]
    rfl
  | bury =>
    obtain ⟨k, hk⟩ := deadLetterPush_q d.e it
    obtain ⟨rest, hold, hnew⟩ := queued_update d.e.q .dead ((d.e.q .dead).drop k ++ [it])
    refine ⟨group (.queue .dead) ((d.e.q .dead).take k),
      group (.queue .dead) ((d.e.q .dead).drop k) + rest + aside d, ?_, ?_, ?_⟩
    · intro x hx
      obtain ⟨y, -, rfl⟩ := mem_group.mp hx
      rfl
    · have hsplit : group (.queue .dead) (d.e.q .dead) =
          group (.queue .dead) ((d.e.q .dead).take k) + group (.queue .dead) ((d.e.q .dead).drop k) := by
        rw [← group_append, take_append_drop]
      simp only [life, hold, hsplit, add_assoc]
    · rw [life_keptLive (deadLetterPush_kept d.e it), hk, hnew, group_append, settle_some]
      refine congrArg (fun i => ({ life d with items := i } : Life)) ?_
      abel
  | drop =>
    refine hplain ?_
    rw [life_kept (itemDrop_kept d.e it)]
    simp [settle]
  | announce | pick =>
    refine hplain ?_
    simp only [life, aside, group_append, settle_some]
    congr 1
    abel

/-- Events added to the earlier ones. -/
theorem notes_append {evs : List Ev} {h : Handle} {ns : List (EvKind × Status)}
    (hev : Reports evs h ns) (old : List Ev) :
    ((old ++ evs).map noteOf : Multiset Note) = noteAll h ns + ↑(old.map noteOf) := by
  rw [map_append, hev, noteAll, Multiset.coe_add]
  exact Multiset.coe_eq_coe.mpr perm_append_comm

/-- A transition of one item, for which dead letters may go. -/
theorem move_steps {L : Life} {rest : Multiset (Place × Core)} {p : Place} {ns : List (EvKind × Status)}
    (hi : L.items = (p, c) ::ₘ (ev + rest)) (hev : ∀ x ∈ ev, x.1 = .queue .dead)
    (hm : Move L.reg L.stopping p c p' c' ns) :
    Steps L { L with items := settle p' c' + rest, notes := noteAll c.handle ns + L.notes } := by
  refine .head (Step.move L (ev + rest) p c p' c' ns hi hm) ?_
  refine evict_steps (L := { L with
    items := settle p' c' + (ev + rest), notes := noteAll c.handle ns + L.notes }) hev ?_
  exact add_left_comm _ _ _

/-- A transition of one item. -/
theorem move_step {L L' : Life} {rest : Multiset (Place × Core)} {p : Place}
    {ns : List (EvKind × Status)} (hi : L.items = (p, c) ::ₘ rest)
    (hm : Move L.reg L.stopping p c p' c' ns)
    (hL : L' = { L with items := settle p' c' + rest, notes := noteAll c.handle ns + L.notes }) :
    Steps L L' := by
  rw [hL]
  exact .single (.move L rest p c p' c' ns hi hm)

section Refinement

variable {d d' : Desk} {it : Item} {e₁ : Engine} {evs : List Ev} {it' : Item}
  {ns : List (EvKind × Status)} {snap : Option (List UInt64)} {args : SubmitArgs} {r : RegId}
  {mem : UInt64} {x : Place × Core}

/-- An item moves. -/
theorem move_life {e₂ : Engine} {b a₁ a₂ : Bool} (hd : DeskInv d) (hl : Leaves d q it e₁ b)
    (hc : Charge e₁ it.toCore a₁ a₂ e₂ snap)
    (hm : Move d.e.reg d.e.stopping (.queue q) it.toCore p' it'.toCore ns)
    (hev : Reports evs it.handle ns)
    (hland : Lands { d with e := e₂, evs := d.evs ++ evs, stale := b } it' p' d') :
    Steps (life d) (life d') := by
  have hstore := charge_store hc
  have hsorted : Sorted e₂ b := (leaves_sorted hd hl).congr
    (congrFun (congrArg Store.q hstore) _) (congrArg Store.runs hstore)
    (congrArg Store.intakeSeq hstore)
  have hq : e₂.q = e₁.q := congrArg Store.q hstore
  obtain ⟨hreg, hnreg, hstop, hnext⟩ := leaves_fields hd hl
  replace hreg : e₂.reg = d.e.reg := by rw [charge_rest hc, hreg]
  replace hnreg : e₂.nextReg = d.e.nextReg := by rw [charge_rest hc, hnreg]
  replace hstop : e₂.stopping = d.e.stopping := by rw [charge_rest hc, hstop]
  replace hnext : e₂.nextHandle = d.e.nextHandle := (congrArg Store.nextHandle hstore).trans hnext
  obtain ⟨ev, rest, hdead, hitems, hlife⟩ := lands_items hland hsorted
  have hold : (life d).items = located (.queue q) it ::ₘ (ev + rest) := by
    rw [← hitems]
    simp only [life, queued_erase hd hl, hq, Multiset.cons_add]
    rfl
  have hsteps := move_steps hold hdead hm
  rw [hlife]
  simp only [life, hreg, hnreg, hstop, hnext, notes_append hev]
  exact hsteps

/-- The shutdown collects an item. -/
theorem collect_life (hd : DeskInv d) (h : fifoPop d.e q = some (it, e₁))
    (hq : q = .delayed ∨ q = .intake ∨ q = .ready ∨ q = .done) :
    Steps (life d)
      (life { d with e := e₁, picked := d.picked ++ [it], stale := d.stale || q = .intake }) := by
  have hmove : Move d.e.reg d.e.stopping (.queue q) it.toCore (some .picked) it.toCore [] :=
    .detach it.toCore q it.resReserved hq
  have hrep : Reports [] it.handle [] := rfl
  refine move_life hd (.head h) (.keep true) hmove hrep ?_
  rw [append_nil]
  exact .pick

/-- A retry begins its pause. -/
theorem park_life {rest : List Item} (h : d.announced = it :: rest) :
    Steps (life d) (life { d with e := fifoPush d.e .delayed it, announced := rest }) := by
  have hcons : queued (fifoPush d.e .delayed it).q = located (.queue .delayed) it ::ₘ queued d.e.q :=
    queued_cons (perm_append_singleton _ _)
  have hitems : (life d).items =
      (.announced, it.toCore) ::ₘ (life { d with announced := rest }).items := by
    simp only [life, aside, h, group_cons, located, Multiset.cons_add, Multiset.add_cons]
  refine move_step hitems (.park it.toCore) ?_
  simp only [life, hcons, Multiset.cons_add]
  rfl

/-- Detached items leave the index. -/
theorem unindex_life : Steps (life d) (life { d with
    e := indexDropList d.e d.picked, picked := [], dropped := d.dropped ++ d.picked }) := by
  have hitems : (life d).items = group .picked d.picked + (life { d with picked := [] }).items := by
    simp only [life, aside, group, map_nil, Multiset.coe_nil]
    abel
  have hsteps := list_steps (q := .dropped) (f := id) d.picked
    (fun it _ => .inr (Move.unindex it.toCore)) hitems
  have hkept := indexDropList_kept d.e d.picked
  have hgoal := life_kept (d := { d with picked := [], dropped := d.dropped ++ d.picked }) hkept
  have hlife : life { d with picked := [], dropped := d.dropped ++ d.picked } =
      { life d with
        items := group .dropped (d.picked.map id) + (life { d with picked := [] }).items } := by
    simp only [life, aside, group_append, map_id]
    congr 1
    abel
  rw [hlife] at hgoal
  rw [hgoal]
  exact hsteps

/-- An item of a local list is freed, with what it reports. -/
theorem freed_life {p : Place} (hitems : (life d).items = (p, it.toCore) ::ₘ (life d').items)
    (hm : Move d.e.reg d.e.stopping p it.toCore none it.toCore ns) (hev : Reports evs it.handle ns)
    (hd' : life d' = { life d with items := (life d').items, notes := ↑((d.evs ++ evs).map noteOf) }) :
    Steps (life d) (life d') := by
  refine move_step hitems hm ?_
  rw [hd', notes_append hev]
  rfl

/-- A call ends an item of its list. -/
theorem drain_life {rest : List Item} (h : d.dropped = it :: rest)
    (hev : Reports evs it.handle (owed d.e.reg it.toCore)) :
    Steps (life d)
      (life { d with e := itemFree d.e it.ptr, dropped := rest, evs := d.evs ++ evs }) := by
  have hkept := life_kept (d := { d with dropped := rest, evs := d.evs ++ evs })
    (itemFree_kept d.e it.ptr)
  refine freed_life ?_ (.drained it.toCore) hev ?_
  · rw [hkept]
    simp only [life, aside, h, group_cons, located, Multiset.cons_add, Multiset.add_cons]
  · rw [hkept]
    rfl

/-- A drain frees a dead letter it has handed over. -/
theorem handOver_life {rest : List Item} (h : d.handed = it :: rest) :
    Steps (life d) (life { d with e := itemFree d.e it.ptr, handed := rest }) := by
  have hkept := life_kept (d := { d with handed := rest }) (itemFree_kept d.e it.ptr)
  have hrep : Reports [] it.handle [] := rfl
  refine freed_life ?_ (.handOver it.toCore) hrep ?_
  · rw [hkept]
    simp only [life, aside, h, group_cons, located, Multiset.add_cons]
  · rw [hkept, append_nil]
    rfl

/-- A drain takes a dead letter. -/
theorem hand_life {n : ℕ} {r : Option RegId} (hd : DeskInv d) (h : fifoPop d.e .dead = some (it, e₁))
    (hcore : it'.toCore = { it.toCore with reg := r }) (hr : r = it.reg ∨ r = none) :
    Steps (life d)
      (life { d with e := { e₁ with deadLetterCount := n }, handed := d.handed ++ [it'] }) := by
  have hl := Leaves.head h
  obtain ⟨hreg, hnreg, hstop, hnext⟩ := leaves_fields hd hl
  have hmove : Move d.e.reg d.e.stopping (.queue .dead) it.toCore (some .handed) it'.toCore [] := by
    rw [hcore]
    exact .hand it.toCore r hr
  refine move_step (leaves_items hd hl) hmove ?_
  simp only [life, aside, hreg, hnreg, hstop, hnext, settle_some, group_append]
  congr 1
  abel

/-- Queued items are rewritten in place. -/
theorem touch_life {f : Item → Item}
    (hm : ∀ it ∈ d.e.q q, (f it).toCore = it.toCore ∨
      Move d.e.reg d.e.stopping (.queue q) it.toCore (some (.queue q)) (f it).toCore []) :
    Steps (life d) (life { d with e := mapQueue d.e q f }) := by
  obtain ⟨rest, hold, hnew⟩ := queued_update d.e.q q ((d.e.q q).map f)
  have hitems : (life d).items = group (.queue q) (d.e.q q) + (rest + aside d) := by
    simp only [life, hold, add_assoc]
  have hsteps := list_steps (q := .queue q) (d.e.q q)
    (fun it hit => (hm it hit).imp (fun hc => ⟨rfl, hc⟩) id) hitems
  have hgoal : life { d with e := mapQueue d.e q f } =
      { life d with items := group (.queue q) ((d.e.q q).map f) + (rest + aside d) } := by
    rw [← add_assoc, ← hnew]
    rfl
  rw [hgoal]
  exact hsteps

/-- An attempt moves on. -/
theorem attempt_life {f : Item → Item} (hd : DeskInv d) (h : it ∈ d.e.q .running)
    (hm : Move d.e.reg d.e.stopping (.queue .running) it.toCore (some (.queue .running)) (f it).toCore ns)
    (hev : Reports evs it.handle ns) :
    Steps (life d) (life { d with e := updItem d.e .running it.ptr f, evs := d.evs ++ evs }) := by
  obtain ⟨k₁, k₂, hl, hnd, -⟩ := hd.store.around h
  have hne : ∀ x ∈ k₁ ++ k₂, x.ptr ≠ it.ptr := by
    have hout := (nodup_cons.mp ((perm_middle.map _).nodup_iff.mp hnd)).1
    exact fun x hx hp => hout (mem_map.mpr ⟨x, hx, hp⟩)
  have hmap : ((d.e.q .running).map fun x => if x.ptr = it.ptr then f x else x) =
      k₁ ++ f it :: k₂ := by
    rw [hl, map_append, map_cons, if_pos rfl]
    have hside : ∀ l : List Item, (∀ x ∈ l, x.ptr ≠ it.ptr) →
        (l.map fun x => if x.ptr = it.ptr then f x else x) = l := by
      intro l hl
      exact (map_congr_left fun x hx => if_neg (hl x hx)).trans (map_id l)
    rw [hside k₁ (fun x hx => hne x (mem_append_left _ hx)),
      hside k₂ (fun x hx => hne x (mem_append_right _ hx))]
  obtain ⟨rest, hold, hnew⟩ := queued_update d.e.q .running (k₁ ++ f it :: k₂)
  have hitems : (life d).items = (.queue .running, it.toCore) ::ₘ
      (group (.queue .running) (k₁ ++ k₂) + rest + aside d) := by
    rw [← Multiset.cons_add, ← Multiset.cons_add]
    have hperm : group (.queue .running) (d.e.q .running) =
        located (.queue .running) it ::ₘ group (.queue .running) (k₁ ++ k₂) := by
      rw [hl]
      exact group_perm perm_middle
    simp only [life, hold, hperm]
    rfl
  have hq : queued (updItem d.e .running it.ptr f).q = group (.queue .running) [f it] +
      (group (.queue .running) (k₁ ++ k₂) + rest) := by
    simp only [updItem, mapQueue, hmap, hnew]
    rw [← add_assoc, ← group_append]
    exact congrArg (· + rest) (group_perm perm_middle)
  refine move_step hitems hm ?_
  simp only [life, hq, notes_append hev, settle_some, add_assoc]
  rfl

/-- An attempt starts. -/
theorem start_life {now : ℕ} (hd : DeskInv d) (h : fifoPop d.e .ready = some (it, e₁))
    (hs : mustDiscard d.e it = false) :
    Steps (life d) (life { d with
      e := fifoPush e₁ .running (startItem d.e now it), starts := d.starts ++ [it.handle] }) := by
  have hl := Leaves.head h
  have hstep := Step.start (life d) _ it.toCore (leaves_items hd hl) hs
  have hcons : queued (fifoPush e₁ .running (startItem d.e now it)).q =
      located (.queue .running) (startItem d.e now it) ::ₘ queued e₁.q :=
    queued_cons (perm_append_singleton _ _)
  obtain ⟨hreg, hnreg, hstop, hnext⟩ := leaves_fields hd hl
  have hgoal : life { d with
      e := fifoPush e₁ .running (startItem d.e now it), starts := d.starts ++ [it.handle] } =
      { life d with
        items := (.queue .running, { it.toCore with started := true, phase := .begun }) ::ₘ
          (queued e₁.q + aside d)
        starts := it.handle ::ₘ (life d).starts } := by
    have hstarts : (↑(d.starts ++ [it.handle]) : Multiset Handle) = it.handle ::ₘ ↑d.starts :=
      Multiset.coe_eq_coe.mpr (perm_append_singleton _ _)
    simp only [life, hcons, hstarts, Multiset.cons_add]
    simp only [fifoPush, hreg, hnreg, hstop, hnext]
    rfl
  rw [hgoal]
  exact .single hstep

/-- Charging the skipped item changes nothing about the items. -/
theorem charged_life (top it : Item) : life { d with e := charged d.e top it } = life d := by
  unfold charged
  split_ifs
  · rfl
  · have hsame : queued (mapQueue d.e .intake (chargeSkip top.ptr)).q = queued d.e.q := by
      refine queued_same ?_
      rw [group, group, map_map]
      refine congrArg _ (map_congr_left ?_)
      intro x _
      simp only [Function.comp_apply, located, chargeSkip]
      split_ifs <;> rfl
    simp only [life, hsame]
    rfl

/-- An item is admitted. -/
theorem admission_life {top : Item} {adm : List Admission} (hd : DeskInv d) (hs : d.stale = false)
    (hm : it ∈ d.e.q .intake) :
    Steps (life d) (life { d with e := admitted d.e top it snap, admissions := adm }) := by
  obtain ⟨hd₀, hl⟩ := charged_leaves hd top hs hm
  have hpush : queued (admitted d.e top it snap).q =
      located (.queue .ready) { it with resReserved := snap } ::ₘ
        queued (intakeUnlink (charged d.e top it) it).q :=
    queued_cons (perm_append_singleton _ _)
  rw [← charged_life (d := d) top it]
  refine move_step (leaves_items hd₀ hl) (.admission it.toCore snap) ?_
  simp only [life, hpush, Multiset.cons_add]
  rfl

/-- Intake is rescored and sorted again. -/
theorem rescore_life {f : Item → ℤ} (hd : DeskInv d) : life { d with
    e := intakeResort (mapQueue d.e .intake fun it => { it with schedScore := f it })
    stale := false } = life d := by
  obtain ⟨m, a, k, heq, hperm⟩ := rescored_eq hd f
  have hsame : group (.queue .intake) k = group (.queue .intake) (d.e.q .intake) := by
    rw [group_perm hperm, group, group, map_map]
    rfl
  simp only [life, heq, queued_same hsame]
  rfl

/-- What the checks of a submit make sure of. -/
theorem submitCheck_spec (h : submitCheck e args = .ok (r, mem)) :
    e.stopping = false ∧ r ∈ e.registry ∧ (e.reg r).removed = false := by
  unfold submitCheck at h
  by_cases hst : e.stopping = true
  · rw [if_pos hst] at h
    cases h
  rw [if_neg hst] at h
  cases hfind : registryFind e args.tid args.name with
  | none =>
    rw [hfind] at h
    cases h
  | some k =>
    rw [hfind] at h
    have hk : k = r := by
      cases hcost : submitCost (e.reg k) args with
      | error st =>
        simp only [hcost] at h
        split_ifs at h
      | ok m =>
        simp only [hcost] at h
        split_ifs at h
        cases h
        rfl
    subst hk
    exact ⟨Bool.eq_false_iff.mpr hst, registryFind_spec hfind⟩

/-- A submit is accepted. -/
theorem submit_life {p : Ptr} {rest : List Ptr} {ev : Ev} (hd : DeskInv d) (hs : d.stale = false)
    (hc : submitCheck d.e args = .ok (r, mem)) (hr : hidxReserve d.e args.indexOk = (e₁, true))
    (hev : noteOf ev = ⟨d.e.nextHandle, .queued, .ok⟩) :
    Steps (life d) (life { d with
      e := hidxPut (intakeInsert { e₁ with nextHandle := e₁.nextHandle + 1 }
        (newItem e₁ p args r mem)) (newItem e₁ p args r mem)
      fresh := rest
      evs := d.evs ++ [ev]
      accepted := d.accepted ++ [(d.e.nextHandle, r)] }) := by
  obtain ⟨hst, hmem, hrem⟩ := submitCheck_spec hc
  have hkept := hidxReserve_kept d.e args.indexOk
  rw [hr] at hkept
  have hreg : e₁.reg = d.e.reg := (congrArg Engine.reg hkept.rest).trans rfl
  have hnreg : e₁.nextReg = d.e.nextReg := (congrArg Engine.nextReg hkept.rest).trans rfl
  have hstop : e₁.stopping = d.e.stopping := (congrArg Engine.stopping hkept.rest).trans rfl
  have hnew : Submitted (newItem e₁ p args r mem).toCore (d.e.reg r) := by
    refine ⟨rfl, rfl, rfl, ?_⟩
    intro hserv
    simp only [newItem, hreg, hserv, if_true, servicePolicy, and_self]
  have hstep := Step.submit (life d) (newItem e₁ p args r mem).toCore r hst hkept.next rfl
    (hd.registry r hmem) hrem hnew
  have hsorted : Sorted { e₁ with nextHandle := e₁.nextHandle + 1 } false := by
    have h := hd.sorted.kept hkept.toKeptLive
    rw [hs] at h
    exact h.congr rfl rfl rfl
  have hput := hidxPut_kept (intakeInsert { e₁ with nextHandle := e₁.nextHandle + 1 }
    (newItem e₁ p args r mem)) (newItem e₁ p args r mem)
  have hlife := life_kept (d := { d with
    e := intakeInsert { e₁ with nextHandle := e₁.nextHandle + 1 } (newItem e₁ p args r mem)
    fresh := rest, evs := d.evs ++ [ev], accepted := d.accepted ++ [(d.e.nextHandle, r)] }) hput
  have hcons : queued (intakeInsert { e₁ with nextHandle := e₁.nextHandle + 1 }
      (newItem e₁ p args r mem)).q =
      located (.queue .intake) (newItem e₁ p args r mem) ::ₘ queued d.e.q := by
    rw [← hkept.queues]
    exact queued_insert hsorted.ok _
  have hnotes : ((d.evs ++ [ev]).map noteOf : Multiset Note) =
      ⟨d.e.nextHandle, .queued, .ok⟩ ::ₘ ↑(d.evs.map noteOf) := by
    rw [map_append, map_cons, map_nil, hev]
    exact Multiset.coe_eq_coe.mpr (perm_append_singleton _ _)
  have hacc : (↑(d.accepted ++ [(d.e.nextHandle, r)]) : Multiset (Handle × RegId)) =
      (d.e.nextHandle, r) ::ₘ ↑d.accepted :=
    Multiset.coe_eq_coe.mpr (perm_append_singleton _ _)
  rw [hlife]
  refine .single ?_
  have hhandle : (newItem e₁ p args r mem).handle = d.e.nextHandle := hkept.next
  rw [hhandle] at hstep
  have hgoal : life { d with
      e := intakeInsert { e₁ with nextHandle := e₁.nextHandle + 1 } (newItem e₁ p args r mem)
      fresh := rest, evs := d.evs ++ [ev], accepted := d.accepted ++ [(d.e.nextHandle, r)] } =
      { life d with
        items := (.queue .intake, (newItem e₁ p args r mem).toCore) ::ₘ (life d).items
        notes := ⟨d.e.nextHandle, .queued, .ok⟩ ::ₘ (life d).notes
        accepted := (d.e.nextHandle, r) ::ₘ (life d).accepted
        next := (life d).next + 1 } := by
    simp only [life, hcons, hnotes, hacc, Multiset.cons_add]
    simp only [← hreg, ← hnreg, ← hstop, ← hkept.next]
    rfl
  rw [hgoal]
  exact hstep

/-- The engine record changes outside the items. -/
theorem configure_life (h : Reconfigured d.e e₁) : Steps (life d) (life { d with e := e₁ }) := by
  have hstep := Step.retype (life d) e₁.reg e₁.nextReg h.kinds h.more h.added
  have hq : e₁.q = d.e.q := congrArg Store.q h.store
  have hnext : e₁.nextHandle = d.e.nextHandle := congrArg Store.nextHandle h.store
  refine .single ?_
  simp only [life, hq, hnext, h.stopping]
  exact hstep

/-- Where an item of a desk is. -/
theorem mem_items : x ∈ (life d).items ↔
    (∃ q, ∃ it ∈ d.e.q q, x = located (.queue q) it) ∨ (∃ it ∈ d.announced, x = located .announced it) ∨
      (∃ it ∈ d.picked, x = located .picked it) ∨ (∃ it ∈ d.dropped, x = located .dropped it) ∨
      ∃ it ∈ d.handed, x = located .handed it := by
  simp only [life, aside, Multiset.mem_add, mem_group, queued, Multiset.mem_coe, mem_flatMap,
    mem_map, or_assoc]
  refine or_congr_left ?_
  constructor
  · rintro ⟨q, -, it, hit, rfl⟩
    exact ⟨q, it, hit, rfl⟩
  · rintro ⟨q, it, hit, rfl⟩
    exact ⟨q, mem_allQueues q, it, hit, rfl⟩

/-- Detached and retained items are not waiting. -/
theorem waiting_item (ha : d.announced = []) (hx : x ∈ (life d).items) (hw : x.1.waiting = true) :
    ∃ it ∈ d.e.q .intake ++ d.e.q .delayed, x.2 = it.toCore := by
  rcases mem_items.mp hx with ⟨q, it, hit, rfl⟩ | ⟨it, hit, rfl⟩ | ⟨it, hit, rfl⟩ | ⟨it, hit, rfl⟩ |
    ⟨it, hit, rfl⟩
  · refine ⟨it, mem_append.mpr ?_, rfl⟩
    cases q
    case intake => exact .inl hit
    case delayed => exact .inr hit
    all_goals cases hw
  · rw [ha] at hit
    cases hit
  all_goals cases hw

/-- Admitted items are in three queues. -/
theorem admitted_item (hx : x ∈ (life d).items) (hw : x.1.admitted = true) :
    ∃ it ∈ d.e.q .ready ++ d.e.q .running ++ d.e.q .done, x.2 = it.toCore := by
  rcases mem_items.mp hx with ⟨q, it, hit, rfl⟩ | ⟨it, hit, rfl⟩ | ⟨it, hit, rfl⟩ | ⟨it, hit, rfl⟩ |
    ⟨it, hit, rfl⟩
  · refine ⟨it, ?_, rfl⟩
    simp only [mem_append]
    cases q
    case ready => exact .inl (.inl hit)
    case running => exact .inl (.inr hit)
    case done => exact .inr hit
    all_goals cases hw
  all_goals cases hw

/-- A type is tombstoned. -/
theorem tombstone_life {k : Bool} (ha : d.announced = []) (hr : (d.e.reg r).removed = false)
    (hw : k = true → ∀ it ∈ d.e.q .intake ++ d.e.q .delayed, it.reg ≠ some r)
    (hs : (d.e.reg r).service = true → k = true ∨ ∀ it ∈ live d.e.toStore, it.reg ≠ some r) :
    Steps (life d) (life { d with e := EngineApi.tombstone d.e r k }) := by
  refine .single (Step.tombstone (life d) r k ?_ ?_ hr)
  · intro hk x hx hreg
    by_contra hwait
    obtain ⟨it, hit, hcore⟩ := waiting_item ha hx (Bool.not_eq_false _ ▸ hwait)
    exact hw hk it hit (hcore ▸ hreg)
  · intro hserv
    refine (hs hserv).imp id ?_
    intro hnone x hx hreg
    by_contra hlive
    have hor : x.1.waiting = true ∨ x.1.admitted = true := by
      rw [Bool.not_eq_false] at hlive
      exact (Bool.or_eq_true _ _).mp hlive
    rcases hor with hwait | hadm
    · obtain ⟨it, hit, hcore⟩ := waiting_item ha hx hwait
      refine hnone it (mem_live.mpr ?_) (hcore ▸ hreg)
      rcases mem_append.mp hit with hit | hit
      · exact ⟨.intake, by decide, hit⟩
      · exact ⟨.delayed, by decide, hit⟩
    · obtain ⟨it, hit, hcore⟩ := admitted_item hx hadm
      refine hnone it (mem_live.mpr ?_) (hcore ▸ hreg)
      simp only [mem_append] at hit
      rcases hit with (hit | hit) | hit
      · exact ⟨.ready, by decide, hit⟩
      · exact ⟨.running, by decide, hit⟩
      · exact ⟨.done, by decide, hit⟩

/-- The shutdown begins. -/
theorem halt_life {t : ℕ} (ha : d.announced = [])
    (hw : ∀ it ∈ d.e.q .intake ++ d.e.q .delayed, isService d.e it.toCore = false)
    (hs : ∀ it ∈ d.e.q .ready ++ d.e.q .running ++ d.e.q .done,
      isService d.e it.toCore = true → it.cancelled = true) :
    Steps (life d) (life { d with e := { d.e with stopping := true, stopDeadlineMs := t } }) := by
  refine .single (Step.halt (life d) ?_)
  intro x hx hserv
  have hwait : x.1.waiting = false := by
    by_contra hwait
    obtain ⟨it, hit, hcore⟩ := waiting_item ha hx (Bool.not_eq_false _ ▸ hwait)
    have hno := hw it hit
    rw [hcore] at hserv
    exact Bool.false_ne_true (hno.symm.trans hserv)
  unfold stopped
  rw [hwait, Bool.not_false, Bool.true_and]
  cases hadm : x.1.admitted with
  | false => rfl
  | true =>
    obtain ⟨it, hit, hcore⟩ := admitted_item hx hadm
    rw [hcore] at hserv ⊢
    rw [hs it hit hserv]
    rfl

/-- Lists kept in another order. -/
theorem rearrange_life (h : Rearranged d d') : life d' = life d := by
  have hevs : (d'.evs.map noteOf : Multiset Note) = ↑(d.evs.map noteOf) :=
    Multiset.coe_eq_coe.mpr (h.evs.symm.map _)
  have hstarts : (↑d'.starts : Multiset Handle) = ↑d.starts := Multiset.coe_eq_coe.mpr h.starts.symm
  have hacc : (↑d'.accepted : Multiset (Handle × RegId)) = ↑d.accepted :=
    Multiset.coe_eq_coe.mpr h.accepted.symm
  simp only [life, aside, h.engine, hevs, hstarts, hacc, group_perm h.announced.symm,
    group_perm h.picked.symm, group_perm h.dropped.symm, group_perm h.handed.symm]

/-- Sealing a bounded engine leaves the items alone. -/
theorem seal_life {ok : Bool} (h : boundedSeal d.e ok = .ok e₁) : life { d with e := e₁ } = life d := by
  unfold boundedSeal at h
  split_ifs at h <;> cases h <;> rfl

/-- Every act is a sequence of steps. -/
theorem act_life (hd : DeskInv d) (h : Act w d d') : Steps (life d) (life d') := by
  have hsame : ∀ {L L' : Life}, L' = L → Steps L L' := fun heq => heq ▸ .refl
  cases h with
  | move hq hl hc hk hmem hm hev hland => exact move_life hd hl hc hm hev hland
  | collect h hq => exact collect_life hd h hq
  | park h => exact park_life h
  | unindex => exact unindex_life
  | drain h hev => exact drain_life h hev
  | hand h hk hcore hr => exact hand_life hd h hcore hr
  | handOver h => exact handOver_life h
  | touch hf hm => exact touch_life hm
  | attempt h hf hm hev => exact attempt_life hd h hm hev
  | start h hs => exact start_life hd h hs
  | admission hs ht hb => exact admission_life hd hs (scanIntake_mem hb)
  | rescore => exact hsame (rescore_life hd)
  | forget => exact .refl
  | trim => exact hsame (life_kept (hidxTrim_kept _ _))
  | grow => exact hsame (life_kept (hidxReserve_kept _ _))
  | take hm h => exact hsame (life_kept (takeItem_kept _ _))
  | pool hs h => exact hsame (life_kept (poolTake_kept _ _ h))
  | giveBack h => exact hsame (life_kept (itemFree_kept _ _))
  | submit hf hs hc hr hev => exact submit_life hd hs hc hr hev
  | sealing hm h => exact hsame (seal_life h)
  | configure h => exact configure_life h
  | tombstone ha hr hw hs => exact tombstone_life ha hr hw hs
  | halt ha hw hs => exact halt_life ha hw hs
  | rearrange h => exact hsame (rearrange_life h)

/-- Every sequence of acts is. -/
theorem acts_life (hd : DeskInv d) (h : Acts w d d') : Steps (life d) (life d') := by
  induction h with
  | refl => exact .refl
  | tail hacts hact ih => exact ih.trans (act_life (acts_inv hd hacts) hact)

end Refinement

end Gptps.DeskLife
