import Gptps.EngineApi
import Gptps.IntakeOrder
import Mathlib.Data.List.Perm.Basic

/-!
# What the queue store keeps true

An item in a queue is in that queue alone, its `where` byte names it, and the
links represent every queue's content. The handle index holds exactly the items
gptps_cancel may act on: those of the five live queues and those a call holding
the lock has in hand. Every address that is taken is accounted for: it is in a
queue, in hand, or in the local list of a call that is past the index.
-/

namespace Gptps.StoreInvariant

open Function LinkedQueue ProbeTable LinkedMergeSort EngineState EngineStore IntakeOrder List

variable {q : QId} {s : Store} {p : Ptr} {l : List Item}

/-- Every queue. -/
def allQueues : List QId := [.intake, .delayed, .ready, .running, .done, .dead]

/-- The queues gptps_cancel reaches into. -/
def liveQueues : List QId := [.intake, .delayed, .ready, .running, .done]

/-- The addresses of a list of items. -/
def addrs (l : List Item) : List Ptr := l.map (·.ptr)

/-- The addresses of all queued items. -/
def ptrs (s : Store) : List Ptr := allQueues.flatMap fun q => addrs (s.q q)

/-- The items of the live queues. -/
def live (s : Store) : List Item := liveQueues.flatMap s.q

/-- The index entry of an item. -/
def key (it : Item) : Handle × Ptr := (it.handle, it.ptr)

/-- Where every item is. The addresses in transit are those of items that a call holds. -/
structure Layout (s : Store) (transit : List Ptr) : Prop where
  /-- The links represent every queue's content. -/
  rep : ∀ q, Rep s.links (s.anchor q) (addrs (s.q q))
  /-- No item is in two places. -/
  nodup : (ptrs s ++ transit).Nodup
  /-- The taken addresses are those of queued items and of items in transit. -/
  taken : ∀ p, s.allocated p = true ↔ p ∈ ptrs s ++ transit
  /-- The `where` byte names the queue an item is in. -/
  queued : ∀ q, ∀ p ∈ addrs (s.q q), s.whereIs p = .queue q
  /-- The `where` byte of an item in transit is clear. -/
  between : ∀ p ∈ transit, s.whereIs p = .none
  /-- The pool's free items are not taken. -/
  free : ∀ p ∈ s.freeItems, s.allocated p = false
  /-- The pool lists a free item once. -/
  freeNodup : s.freeItems.Nodup
  /-- Before the seal a bounded engine has no item. -/
  unsealed : s.maxItems ≠ 0 → s.sealed = false → ptrs s ++ transit = []
  /-- A classic engine has no pool. -/
  classic : s.maxItems = 0 → s.freeItems = []

/-- What the handle index holds. -/
structure Indexed (s : Store) (ks : List (Handle × Ptr)) : Prop where
  /-- The table stores these entries. -/
  holds : Holds hidxSlot s.hidx ks
  /-- The count of entries. -/
  count : s.hidxLive = ks.length
  /-- The items entered are flagged. -/
  flag : ∀ k ∈ ks, s.indexed k.2 = true
  /-- Their handles were given out. -/
  given : ∀ k ∈ ks, 0 < k.1 ∧ k.1 < s.nextHandle
  /-- No probe and no sort failed to end. -/
  ends : s.hung = false
  /-- The table has a power of two slots, so that masking is taking the remainder. -/
  pow : s.hidx.size = 0 ∨ ∃ k, s.hidx.size = 2 ^ k
  /-- The next handle is not the null one. -/
  next : 0 < s.nextHandle

/-- The store invariant: `hand` are indexed items in hand, `loose` the addresses of
items past the index that calls still hold. -/
structure StoreInv (s : Store) (hand : List Item) (loose : List Ptr) : Prop where
  /-- Where every item is. -/
  layout : Layout s (addrs hand ++ loose)
  /-- The index holds the live items and those in hand. -/
  index : Indexed s ((live s ++ hand).map key)
  /-- Dead letters and loose items are not flagged as indexed. -/
  plain : ∀ p ∈ addrs (s.q .dead) ++ loose, s.indexed p = false

section Updates

variable {α : Type*}

/-- Replacing one queue's content replaces its part of a concatenation. -/
theorem flatMap_update {L : List QId} (hL : L.Nodup) (hq : q ∈ L) (f : QId → List α) (l : List α) :
    ∃ rest, (L.flatMap f).Perm (f q ++ rest) ∧
      (L.flatMap (update f q l)).Perm (l ++ rest) := by
  obtain ⟨L₁, L₂, rfl⟩ := append_of_mem hq
  rw [nodup_append, nodup_cons] at hL
  have h₁ : L₁.flatMap (update f q l) = L₁.flatMap f := by
    refine flatMap_congr fun x hx => update_of_ne ?_ _ _
    exact hL.2.2 x hx q mem_cons_self
  have h₂ : L₂.flatMap (update f q l) = L₂.flatMap f := by
    refine flatMap_congr fun x hx => update_of_ne ?_ _ _
    exact fun he => hL.2.1.1 (he ▸ hx)
  refine ⟨L₁.flatMap f ++ L₂.flatMap f, ?_, ?_⟩
  · rw [flatMap_append, flatMap_cons]
    exact perm_append_comm_assoc _ _ _
  · rw [flatMap_append, flatMap_cons, h₁, h₂, update_self]
    exact perm_append_comm_assoc _ _ _

/-- The queues are listed once each. -/
theorem allQueues_nodup : allQueues.Nodup := by decide

/-- The live queues are listed once each. -/
theorem liveQueues_nodup : liveQueues.Nodup := by decide

/-- Every queue is listed. -/
theorem mem_allQueues (q : QId) : q ∈ allQueues := by cases q <;> decide

/-- Every queue but the dead letters is live. -/
theorem mem_liveQueues : q ∈ liveQueues ↔ q ≠ .dead := by cases q <;> decide

/-- Addresses after one queue's content changed. -/
theorem ptrs_update (s : Store) (q : QId) (l : List Item) :
    ∃ rest, (ptrs s).Perm (addrs (s.q q) ++ rest) ∧
      (allQueues.flatMap fun q' => addrs (update s.q q l q')).Perm (addrs l ++ rest) := by
  have h := flatMap_update allQueues_nodup (mem_allQueues q) (fun q' => addrs (s.q q')) (addrs l)
  have hfun : update (fun q' => addrs (s.q q')) q (addrs l) = fun q' => addrs (update s.q q l q') := by
    funext q'
    by_cases hq : q' = q
    · subst hq
      rw [update_self, update_self]
    · rw [update_of_ne hq, update_of_ne hq]
  rwa [hfun] at h

/-- Live items after one live queue's content changed. -/
theorem live_update (s : Store) (hq : q ≠ .dead) (l : List Item) :
    ∃ rest, (live s).Perm (s.q q ++ rest) ∧
      (liveQueues.flatMap (update s.q q l)).Perm (l ++ rest) :=
  flatMap_update liveQueues_nodup (mem_liveQueues.mpr hq) s.q l

/-- The dead letters are not live. -/
theorem live_update_dead (s : Store) (l : List Item) :
    liveQueues.flatMap (update s.q .dead l) = live s := by
  refine flatMap_congr fun q hq => update_of_ne ?_ _ _
  exact mem_liveQueues.mp hq

end Updates

/-- An address in a queue is among all of them. -/
theorem mem_ptrs : p ∈ ptrs s ↔ ∃ q, p ∈ addrs (s.q q) := by
  simp only [ptrs, mem_flatMap]
  exact ⟨fun ⟨q, _, h⟩ => ⟨q, h⟩, fun ⟨q, h⟩ => ⟨q, mem_allQueues q, h⟩⟩

/-- An item of a live queue is live. -/
theorem mem_live {it : Item} : it ∈ live s ↔ ∃ q, q ≠ .dead ∧ it ∈ s.q q := by
  simp only [live, mem_flatMap, mem_liveQueues]

namespace Layout

variable {s : Store} {transit : List Ptr}

variable (h : Layout s transit)

include h

/-- Two queues share no item. -/
theorem disjoint {q' : QId} (hne : q' ≠ q) (hp : p ∈ addrs (s.q q')) : p ∉ addrs (s.q q) := by
  intro hp'
  have h₁ := h.queued q p hp'
  have h₂ := h.queued q' p hp
  rw [h₁] at h₂
  cases h₂
  exact hne rfl

/-- A queued item is not in transit. -/
theorem not_transit (hp : p ∈ addrs (s.q q)) : p ∉ transit := by
  intro ht
  have h₁ := h.queued q p hp
  rw [h.between p ht] at h₁
  cases h₁

/-- An item in transit is in no queue. -/
theorem not_queued (hp : p ∈ transit) (q : QId) : p ∉ addrs (s.q q) := fun hq => h.not_transit hq hp

/-- The order in which items in transit are listed does not matter. -/
theorem perm {transit' : List Ptr} (hp : transit.Perm transit') : Layout s transit' := by
  have hall : (ptrs s ++ transit).Perm (ptrs s ++ transit') := hp.append_left _
  refine ⟨h.rep, hall.nodup_iff.mp h.nodup, ?_, h.queued, ?_, h.free, h.freeNodup, ?_, h.classic⟩
  · intro p
    rw [h.taken, hall.mem_iff]
  · intro p hp'
    exact h.between p (hp.mem_iff.mpr hp')
  · intro hm hs
    have hnil := h.unsealed hm hs
    rw [hnil] at hall
    exact hall.nil_eq.symm

/-- Rewriting one queue, its links and the `where` bytes: what has to be shown. -/
theorem relink {m : Links Ptr} {a : Anchor Ptr} {w : Ptr → Where} {transit' : List Ptr}
    (hrep : Rep m a (addrs l))
    (hframe : ∀ q' ≠ q, ∀ x ∈ addrs (s.q q'), m.next x = s.links.next x ∧ m.prev x = s.links.prev x)
    (hsame : (addrs l ++ transit').Perm (addrs (s.q q) ++ transit)) (hwq : ∀ p ∈ addrs l, w p = .queue q)
    (hwt : ∀ p ∈ transit', w p = .none) (hwo : ∀ p, p ∉ addrs (s.q q) ++ transit → w p = s.whereIs p) :
    Layout { s with
      q := update s.q q l, links := m, anchor := update s.anchor q a, whereIs := w } transit' := by
  obtain ⟨rest, hold, hnew⟩ := ptrs_update s q l
  have hall : (ptrs { s with
      q := update s.q q l, links := m, anchor := update s.anchor q a, whereIs := w } ++
        transit').Perm (ptrs s ++ transit) := by
    refine (hnew.append_right transit').trans ?_
    refine Perm.trans ?_ (hold.append_right transit).symm
    have h₁ : (addrs l ++ rest ++ transit').Perm (addrs l ++ transit' ++ rest) := by
      rw [append_assoc, append_assoc]
      exact perm_append_comm.append_left _
    have h₂ : (addrs (s.q q) ++ transit ++ rest).Perm (addrs (s.q q) ++ rest ++ transit) := by
      rw [append_assoc, append_assoc]
      exact perm_append_comm.append_left _
    exact h₁.trans ((hsame.append_right rest).trans h₂)
  refine ⟨?_, hall.nodup_iff.mpr h.nodup, ?_, ?_, hwt, h.free, h.freeNodup, ?_, h.classic⟩
  · intro q'
    by_cases hq : q' = q
    · subst hq
      simp only [update_self]
      exact hrep
    · simp only [update_of_ne hq]
      exact (h.rep q').frame (hframe q' hq)
  · intro p
    rw [hall.mem_iff]
    exact h.taken p
  · intro q' p hp
    by_cases hq : q' = q
    · subst hq
      simp only [update_self] at hp
      exact hwq p hp
    · simp only [update_of_ne hq] at hp
      refine (hwo p ?_).trans (h.queued q' p hp)
      intro hmem
      rcases mem_append.mp hmem with hx | hx
      · exact h.disjoint hq hp hx
      · exact h.not_transit hp hx
  · intro hm hs
    have hnil := h.unsealed hm hs
    rw [hnil] at hall
    exact hall.eq_nil

omit h

end Layout

/-- The order in which entries are listed does not matter. -/
theorem Indexed.perm {ks ks' : List (Handle × Ptr)} (h : Indexed s ks) (hp : ks.Perm ks') :
    Indexed s ks' :=
  ⟨h.holds.perm hp, h.count.trans hp.length_eq, fun k hk => h.flag k (hp.mem_iff.mpr hk),
    fun k hk => h.given k (hp.mem_iff.mpr hk), h.ends, h.pow, h.next⟩

namespace StoreInv

variable {e : Engine} {hand hand' l₁ l₂ : List Item} {loose loose' : List Ptr} {it it' : Item}
  {q : QId}

/-- The order in which items in hand and loose ones are listed does not matter. -/
theorem perm (h : StoreInv e.toStore hand loose) (hh : hand.Perm hand') (hl : loose.Perm loose') :
    StoreInv e.toStore hand' loose' := by
  refine ⟨h.layout.perm ((hh.map _).append hl), ?_, ?_⟩
  · exact h.index.perm ((hh.append_left _).map _)
  · intro p hp
    exact h.plain p ((hl.append_left _).mem_iff.mpr hp)

/-- Of the items in hand only their entries count. -/
theorem rehand (h : StoreInv s hand loose) (hk : (hand.map key).Perm (hand'.map key)) :
    StoreInv s hand' loose := by
  have haddrs : ∀ l : List Item, addrs l = (l.map key).map Prod.snd := by
    intro l
    rw [map_map]
    rfl
  refine ⟨h.layout.perm ?_, h.index.perm ?_, h.plain⟩
  · rw [haddrs, haddrs]
    exact (hk.map _).append_right loose
  · rw [map_append, map_append]
    exact hk.append_left _

/-- An item of a queue with what stands around it. -/
theorem around (h : StoreInv e.toStore hand loose) (hit : it ∈ e.q q) :
    ∃ l₁ l₂, e.q q = l₁ ++ it :: l₂ ∧ ((l₁ ++ it :: l₂).map (·.ptr)).Nodup ∧
      (e.q q).eraseP (fun x => x.ptr = it.ptr) = l₁ ++ l₂ := by
  obtain ⟨l₁, l₂, hl⟩ := append_of_mem hit
  have hnd := (h.layout.rep q).nodup
  rw [addrs, hl] at hnd
  exact ⟨l₁, l₂, hl, hnd, hl ▸ eraseP_split hnd⟩

/-- Unlinking an item puts it in transit. -/
theorem fifoRemove_layout (h : StoreInv e.toStore hand loose) (hit : it ∈ e.q q) :
    Layout (fifoRemove e q it).toStore (it.ptr :: (addrs hand ++ loose)) := by
  obtain ⟨l₁, l₂, hl, hnd, herase⟩ := h.around hit
  have hrep := h.layout.rep q
  have haddr : addrs (e.q q) = addrs l₁ ++ it.ptr :: addrs l₂ := by
    rw [hl]
    simp [addrs]
  rw [haddr] at hrep
  have hnew : addrs (l₁ ++ l₂) = addrs l₁ ++ addrs l₂ := map_append
  have hout : it.ptr ∉ addrs l₁ ++ addrs l₂ := by
    have hn := hrep.nodup
    rw [nodup_middle, nodup_cons] at hn
    exact hn.1
  unfold fifoRemove
  simp only [herase]
  refine h.layout.relink ?_ ?_ ?_ ?_ ?_ ?_
  · rw [hnew]
    exact remove_rep hrep
  · intro q' hq'
    refine remove_frame hrep ?_
    intro x hx
    rw [← haddr]
    exact h.layout.disjoint hq' hx
  · rw [haddr, hnew, append_assoc, append_assoc, cons_append]
    exact (perm_middle.append_left _)
  · intro p hp
    have hne : p ≠ it.ptr := by
      rintro rfl
      rw [hnew] at hp
      exact hout hp
    rw [update_of_ne hne]
    refine h.layout.queued q p ?_
    rw [haddr]
    rw [hnew] at hp
    rcases mem_append.mp hp with hp | hp
    · exact mem_append_left _ hp
    · exact mem_append_right _ (mem_cons_of_mem _ hp)
  · intro p hp
    by_cases hne : p = it.ptr
    · rw [hne, update_self]
    · rw [update_of_ne hne]
      exact h.layout.between p ((mem_cons.mp hp).resolve_left hne)
  · intro p hp
    refine update_of_ne ?_ _ _
    rintro rfl
    refine hp (mem_append_left _ ?_)
    rw [haddr]
    exact mem_append_right _ mem_cons_self

/-- Taking an item out of a live queue puts its entry in hand. -/
theorem live_erase (hl : e.q q = l₁ ++ it :: l₂) (hq : q ≠ .dead) :
    ((liveQueues.flatMap (update e.q q (l₁ ++ l₂)) ++ it :: hand).map key).Perm
      ((live e.toStore ++ hand).map key) := by
  obtain ⟨rest, hold, hnew⟩ := live_update e.toStore hq (l₁ ++ l₂)
  refine Perm.map key ?_
  have h₁ : (liveQueues.flatMap (update e.q q (l₁ ++ l₂)) ++ it :: hand).Perm
      (it :: (l₁ ++ l₂ ++ rest ++ hand)) := (hnew.append_right _).trans perm_middle
  have h₂ : (live e.toStore ++ hand).Perm (it :: (l₁ ++ l₂ ++ rest ++ hand)) := by
    refine (hold.append_right hand).trans ?_
    rw [hl, append_assoc, append_assoc, cons_append, append_assoc,
      append_assoc]
    exact perm_middle
  exact h₁.trans h₂.symm

variable (h : StoreInv e.toStore hand loose)

include h

/-- Unlinking an item from a live queue puts it in hand. -/
theorem fifoRemove (hit : it ∈ e.q q) (hq : q ≠ .dead) :
    StoreInv (EngineStore.fifoRemove e q it).toStore (it :: hand) loose := by
  obtain ⟨l₁, l₂, hl, -, herase⟩ := h.around hit
  have hlive : (live (EngineStore.fifoRemove e q it).toStore ++ it :: hand).map key |>.Perm
      ((live e.toStore ++ hand).map key) := by
    simp only [live, EngineStore.fifoRemove, herase]
    exact live_erase hl hq
  refine ⟨h.fifoRemove_layout hit, ?_, ?_⟩
  · have hx := h.index.perm hlive.symm
    exact { hx with }
  · intro p hp
    refine h.plain p ?_
    simpa only [EngineStore.fifoRemove, update_of_ne hq.symm] using hp

/-- Unlinking a dead letter makes it loose. -/
theorem fifoRemove_dead (hit : it ∈ e.q .dead) :
    StoreInv (EngineStore.fifoRemove e .dead it).toStore hand (it.ptr :: loose) := by
  obtain ⟨l₁, l₂, hl, -, herase⟩ := h.around hit
  have hlive : live (EngineStore.fifoRemove e .dead it).toStore = live e.toStore :=
    live_update_dead e.toStore _
  refine ⟨(h.fifoRemove_layout hit).perm perm_middle.symm, ?_, ?_⟩
  · have hx := h.index
    exact { hx with }
  · intro p hp
    refine h.plain p ?_
    simp only [EngineStore.fifoRemove, update_self, herase] at hp
    rw [hl]
    simp only [addrs, map_append, map_cons, mem_append, mem_cons] at hp ⊢
    tauto

/-- What a pop takes is what unlinking the first item takes. -/
theorem fifoPop_eq {rest : List Item} (hl : e.q q = it :: rest) :
    fifoPop e q = some (it, EngineStore.fifoRemove e q it) := by
  have hrep := h.layout.rep q
  rw [hl, addrs, map_cons] at hrep
  simp only [fifoPop, hl, EngineStore.fifoRemove, pop_eq_remove hrep, eraseP_cons_of_pos,
    decide_true]

/-- Linking an item in behind a prefix of a queue: what has to be shown of the links. -/
theorem link_layout {transit : List Ptr} {m : Links Ptr} {a : Anchor Ptr}
    (ht : (addrs hand ++ loose).Perm (it.ptr :: transit)) (hrep : Rep m a (addrs l))
    (hl : (addrs l).Perm (it.ptr :: addrs (e.q q)))
    (hframe : ∀ q' ≠ q, ∀ x ∈ addrs (e.q q'), m.next x = e.links.next x ∧ m.prev x = e.links.prev x) :
    Layout { e.toStore with
      q := update e.q q l, links := m, anchor := update e.anchor q a
      whereIs := update e.whereIs it.ptr (.queue q) } transit := by
  have hlay := h.layout.perm ht
  have hnd := hlay.nodup
  have hout : it.ptr ∉ transit := by
    rw [nodup_append, nodup_cons] at hnd
    exact hnd.2.1.1
  refine hlay.relink hrep hframe ?_ ?_ ?_ ?_
  · exact (hl.append_right transit).trans perm_middle.symm
  · intro p hp
    by_cases hne : p = it.ptr
    · rw [hne, update_self]
    · rw [update_of_ne hne]
      exact hlay.queued q p ((mem_cons.mp (hl.mem_iff.mp hp)).resolve_left hne)
  · intro p hp
    have hne : p ≠ it.ptr := fun he => hout (he ▸ hp)
    rw [update_of_ne hne]
    exact hlay.between p (mem_cons_of_mem _ hp)
  · intro p hp
    refine update_of_ne ?_ _ _
    rintro rfl
    exact hp (mem_append_right _ mem_cons_self)

/-- Appending an item in transit. -/
theorem fifoPush_layout {transit : List Ptr} (ht : (addrs hand ++ loose).Perm (it.ptr :: transit))
    (q : QId) : Layout (fifoPush e q it).toStore transit := by
  have hlay := h.layout.perm ht
  have hin : it.ptr ∈ it.ptr :: transit := mem_cons_self
  refine h.link_layout ht ?_ ?_ ?_
  · have hrep := push_rep (hlay.rep q) (hlay.not_queued hin q)
    simpa [addrs] using hrep
  · simp only [addrs, map_append, map_cons, map_nil]
    exact perm_append_singleton _ _
  · intro q' hq'
    exact push_frame (hlay.rep q) (hlay.not_queued hin q') fun x hx => hlay.disjoint hq' hx

omit h

/-- Linking an item of the hand into a live queue keeps the entries. -/
theorem live_link (hq : q ≠ .dead) (hl : l.Perm (it' :: e.q q)) (hk : key it' = key it) :
    ((liveQueues.flatMap (update e.q q l) ++ hand).map key).Perm
      ((live e.toStore ++ it :: hand).map key) := by
  obtain ⟨rest, hold, hnew⟩ := live_update e.toStore hq l
  have h₁ : (liveQueues.flatMap (update e.q q l) ++ hand).Perm (it' :: (e.q q ++ rest ++ hand)) :=
    (hnew.append_right hand).trans ((hl.append_right rest).append_right hand)
  have h₂ : (live e.toStore ++ it :: hand).Perm (it :: (e.q q ++ rest ++ hand)) :=
    perm_middle.trans ((hold.append_right hand).cons it)
  refine (h₁.map key).trans ?_
  rw [map_cons, hk, ← map_cons]
  exact (h₂.map key).symm

/-- Linking an item of the hand into a live queue. -/
theorem link (h : StoreInv e.toStore (it :: hand) loose) (hq : q ≠ .dead) (hk : key it' = key it)
    {m : Links Ptr} {a : Anchor Ptr} (hl : l.Perm (it' :: e.q q))
    (hlay : Layout { e.toStore with
      q := update e.q q l, links := m, anchor := update e.anchor q a
      whereIs := update e.whereIs it'.ptr (.queue q) } (addrs hand ++ loose)) :
    StoreInv { e.toStore with
      q := update e.q q l, links := m, anchor := update e.anchor q a
      whereIs := update e.whereIs it'.ptr (.queue q) } hand loose := by
  refine ⟨hlay, ?_, ?_⟩
  · have hperm : ((liveQueues.flatMap (update e.q q l) ++ hand).map key).Perm
        ((live e.toStore ++ it :: hand).map key) := live_link hq hl hk
    have hx := h.index.perm hperm.symm
    exact { hx with }
  · intro p hp
    refine h.plain p ?_
    simpa only [update_of_ne hq.symm] using hp

/-- Appending an item of the hand to a live queue. -/
theorem fifoPush (h : StoreInv e.toStore (it :: hand) loose) (hq : q ≠ .dead)
    (hk : key it' = key it) : StoreInv (EngineStore.fifoPush e q it').toStore hand loose := by
  have hp : it'.ptr = it.ptr := congrArg Prod.snd hk
  refine h.link hq hk (perm_append_singleton _ _) ?_
  refine h.fifoPush_layout ?_ q
  rw [hp]
  exact .refl _

/-- Appending a loose item to the dead letters. -/
theorem fifoPush_dead (h : StoreInv e.toStore hand (it.ptr :: loose)) :
    StoreInv (EngineStore.fifoPush e .dead it).toStore hand loose := by
  refine ⟨h.fifoPush_layout perm_middle .dead, ?_, ?_⟩
  · have hlive : live (EngineStore.fifoPush e .dead it).toStore = live e.toStore :=
      live_update_dead e.toStore _
    have hx := h.index
    exact { hx with }
  · intro p hp
    refine h.plain p ?_
    simp only [EngineStore.fifoPush, update_self, addrs, map_append, map_cons,
      map_nil, mem_append, mem_cons, not_mem_nil, or_false] at hp ⊢
    tauto

/-- The cache of run tails and the entry counter are no part of the invariant. -/
theorem scratch (h : StoreInv s hand loose) (r : List (ℤ × Ptr)) (n : ℕ) :
    StoreInv { s with runs := r, intakeSeq := n } hand loose := by
  have hl := h.layout
  have hx := h.index
  exact ⟨{ hl with },
    { hx with }, h.plain⟩

/-- Entering intake in order. -/
theorem intakeInsert (h : StoreInv e.toStore (it :: hand) loose)
    (hok : IntakeOk (e.q .intake) e.runs e.intakeSeq) (hk : key it' = key it) :
    StoreInv (EngineStore.intakeInsert e it').toStore hand loose := by
  have hp : it'.ptr = it.ptr := congrArg Prod.snd hk
  have hin : it.ptr ∈ addrs (it :: hand) ++ loose := mem_cons_self
  obtain ⟨l₁, l₂, hl, -, -, heq⟩ := intakeInsert_eq hok it'
  have hrep := h.layout.rep .intake
  have haddr : addrs (e.q .intake) = addrs l₁ ++ addrs l₂ := by rw [hl]; exact map_append
  rw [haddr] at hrep
  have hout : it'.ptr ∉ addrs l₁ ++ addrs l₂ := by
    rw [hp, ← haddr]
    exact h.layout.not_queued hin .intake
  have hperm : (l₁ ++ { it' with intakeSeq := e.intakeSeq + 1 } :: l₂).Perm
      ({ it' with intakeSeq := e.intakeSeq + 1 } :: e.q .intake) := by
    rw [hl]
    exact perm_middle
  have hstamped : key { it' with intakeSeq := e.intakeSeq + 1 } = key it := hk
  rw [heq]
  refine scratch (h.link (by decide) hstamped hperm ?_) _ _
  refine h.link_layout ?_ ?_ ?_ ?_
  · have hsame : (addrs (it :: hand) ++ loose).Perm (it.ptr :: (addrs hand ++ loose)) :=
      .refl _
    rwa [← hp] at hsame
  · have hnew := insertAfter_rep hrep hout
    simpa [addrs] using hnew
  · simpa [addrs] using hperm.map (·.ptr)
  · intro q' hq'
    have hnot : it'.ptr ∉ addrs (e.q q') := by
      rw [hp]
      exact h.layout.not_queued hin q'
    have hother : ∀ x ∈ addrs (e.q q'), x ∉ addrs l₁ ++ addrs l₂ := by
      intro x hx
      rw [← haddr]
      exact h.layout.disjoint hq' hx
    exact insertAfter_frame hrep hnot hother

variable (h : StoreInv e.toStore hand loose)

include h

/-- Leaving intake with the cache repaired. -/
theorem intakeUnlink (hit : it ∈ e.q .intake) :
    StoreInv (EngineStore.intakeUnlink e it).toStore (it :: hand) loose :=
  (h.fifoRemove hit (by decide)).scratch _ _

/-- Forgetting the cache. -/
theorem intakeForget : StoreInv (EngineStore.intakeForget e).toStore hand loose :=
  h.scratch [] e.intakeSeq

/-- Rewriting fields of queued items that neither name nor place them. -/
theorem mapQueue (q : QId) {f : Item → Item} (hf : ∀ x, key (f x) = key x) :
    StoreInv (EngineStore.mapQueue e q f).toStore hand loose := by
  have hkeys : ∀ l : List Item, (l.map f).map key = l.map key := by
    intro l
    rw [map_map]
    exact map_congr_left fun x _ => hf x
  have haddrs : ∀ q', addrs ((EngineStore.mapQueue e q f).q q') = addrs (e.q q') := by
    intro q'
    have hsnd : ∀ l : List Item, addrs l = (l.map key).map Prod.snd := by
      intro l
      rw [map_map]
      rfl
    by_cases hq : q' = q
    · subst hq
      simp only [EngineStore.mapQueue, update_self]
      rw [hsnd, hkeys, ← hsnd]
    · simp only [EngineStore.mapQueue, update_of_ne hq]
  have hptrs : ptrs (EngineStore.mapQueue e q f).toStore = ptrs e.toStore :=
    flatMap_congr fun q' _ => haddrs q'
  have hlive : (live (EngineStore.mapQueue e q f).toStore ++ hand).map key =
      (live e.toStore ++ hand).map key := by
    rw [map_append, map_append, live, live, map_flatMap, map_flatMap]
    congr 1
    refine flatMap_congr fun q' _ => ?_
    by_cases hq : q' = q
    · subst hq
      simp only [EngineStore.mapQueue, update_self]
      exact hkeys _
    · simp only [EngineStore.mapQueue, update_of_ne hq]
  have hl := h.layout
  refine ⟨⟨?_, ?_, ?_, ?_, hl.between, hl.free, hl.freeNodup, ?_, hl.classic⟩, ?_, ?_⟩
  · intro q'
    rw [haddrs]
    exact hl.rep q'
  · rw [hptrs]
    exact hl.nodup
  · intro p
    rw [hptrs]
    exact hl.taken p
  · intro q' p hp
    rw [haddrs] at hp
    exact hl.queued q' p hp
  · intro hm hs
    rw [hptrs]
    exact hl.unsealed hm hs
  · have hx := h.index
    rw [hlive]
    exact { hx with }
  · intro p hp
    rw [haddrs] at hp
    exact h.plain p hp

/-- Re-sorting intake. -/
theorem intakeResort {seq : ℕ} (hent : Entered (e.q .intake) seq) :
    StoreInv (EngineStore.intakeResort e).toStore hand loose := by
  obtain ⟨m, a, k, heq, hk, -, hrep, hframe⟩ := intakeResort_spec hent (h.layout.rep .intake)
  have hdead : (QId.intake : QId) ≠ .dead := by decide
  rw [heq]
  refine scratch (s := { e.toStore with
    q := update e.q .intake k, links := m, anchor := update e.anchor .intake a }) ?_ [] e.intakeSeq
  refine ⟨?_, ?_, ?_⟩
  · refine h.layout.relink hrep ?_ ?_ ?_ h.layout.between ?_
    · intro q' hq' x hx
      exact hframe x (h.layout.disjoint hq' hx)
    · exact ((hk.map _).append_right _)
    · intro p hp
      exact h.layout.queued .intake p ((hk.map _).mem_iff.mp hp)
    · intro p _
      rfl
  · obtain ⟨rest, hold, hnew⟩ := live_update e.toStore hdead k
    have hlive : (liveQueues.flatMap (update e.q .intake k) ++ hand).Perm (live e.toStore ++ hand) :=
      (hnew.trans ((hk.append_right rest).trans hold.symm)).append_right hand
    have hx := h.index.perm (hlive.map key).symm
    exact { hx with }
  · intro p hp
    refine h.plain p ?_
    simpa only [update_of_ne hdead.symm] using hp

omit h

end StoreInv

section Index

/-- The home slot of a handle lies in the table. -/
theorem hidxSlot_lt (n : ℕ) (h : Handle) (hn : 0 < n) : hidxSlot n h < n :=
  lt_of_le_of_lt Nat.and_le_right (by omega)

/-- Doubling reaches its target. -/
theorem le_doubleUntil {target fuel nn : ℕ} (hn : 0 < nn) (hf : target ≤ nn + fuel) :
    target ≤ doubleUntil target fuel nn := by
  induction fuel generalizing nn with
  | zero => exact hf
  | succ fuel ih =>
    rw [doubleUntil]
    split_ifs with hlt
    · exact ih (by omega) (by omega)
    · omega

/-- Doubling a power of two gives a power of two. -/
theorem doubleUntil_pow (target fuel k : ℕ) : ∃ m, doubleUntil target fuel (2 ^ k) = 2 ^ m := by
  induction fuel generalizing k with
  | zero => exact ⟨k, rfl⟩
  | succ fuel ih =>
    rw [doubleUntil]
    split_ifs
    · exact ih (k + 1)
    · exact ⟨k, rfl⟩

/-- The size chosen for a number of entries is a power of two and a quarter full. -/
theorem hidxSizeFor_spec (n : ℕ) : n * 4 ≤ hidxSizeFor n ∧ ∃ k, hidxSizeFor n = 2 ^ k :=
  ⟨le_doubleUntil (by omega) (by omega), doubleUntil_pow _ _ 6⟩

variable {e : Engine} {ks : List (Handle × Ptr)} {it : Item}

variable (h : Indexed e.toStore ks)

include h

/-- A rebuild, done or failed, keeps the entries. -/
theorem hidxRebuild_spec {n : ℕ} (hroom : ks.length * 2 ≤ n) (hpow : ∃ k, n = 2 ^ k) (ok : Bool) :
    ∃ t, (hidxRebuild e n ok).1 = { e with hidx := t } ∧
      Indexed (hidxRebuild e n ok).1.toStore ks ∧
      ((hidxRebuild e n ok).2 = true → t.size = n) := by
  obtain ⟨t, ht, hsize, hholds⟩ := rebuild_holds hidxSlot_lt h.holds hroom
  cases ok with
  | false => exact ⟨e.hidx, rfl, h, fun hx => absurd hx Bool.false_ne_true⟩
  | true =>
    have heq : hidxRebuild e n true = ({ e with hidx := t }, true) := by
      rw [hidxRebuild, if_pos rfl, ht]
    rw [heq]
    refine ⟨t, rfl, { h with holds := hholds, pow := ?_ }, fun _ => hsize⟩
    right
    rw [hsize]
    exact hpow

/-- Making room keeps the entries, and on success there is room for one more. -/
theorem hidxReserve_spec (ok : Bool) :
    ∃ t, (hidxReserve e ok).1 = { e with hidx := t } ∧ Indexed (hidxReserve e ok).1.toStore ks ∧
      ((hidxReserve e ok).2 = true → (ks.length + 1) * 2 ≤ t.size) := by
  have hcount := h.count
  have hsize := hidxSizeFor_spec (e.hidxLive + 1)
  unfold hidxReserve
  split_ifs with hroom
  · refine ⟨e.hidx, rfl, h, fun _ => ?_⟩
    rw [← hcount]
    exact hroom
  · have hfit : ks.length * 2 ≤ hidxSizeFor (e.hidxLive + 1) := by omega
    obtain ⟨t, ht, hx, hnew⟩ := hidxRebuild_spec h hfit hsize.2 ok
    refine ⟨t, ht, hx, fun hok => ?_⟩
    rw [hnew hok]
    omega

/-- Trimming, done or failed, keeps the entries. -/
theorem hidxTrim_spec (ok : Bool) :
    ∃ t, hidxTrim e ok = { e with hidx := t } ∧ Indexed (hidxTrim e ok).toStore ks := by
  have hsize := hidxSizeFor_spec e.hidxLive
  have hcount := h.count
  unfold hidxTrim
  split_ifs
  · exact ⟨e.hidx, rfl, h⟩
  · have hfit : ks.length * 2 ≤ hidxSizeFor e.hidxLive := by omega
    obtain ⟨t, ht, hx, -⟩ := hidxRebuild_spec h hfit hsize.2 ok
    exact ⟨t, ht, hx⟩
  · exact ⟨e.hidx, rfl, h⟩

/-- Entering the item of a fresh handle. -/
theorem hidxPut_spec (hroom : (ks.length + 1) * 2 ≤ e.hidx.size) (hnew : ∀ k ∈ ks, k.1 ≠ it.handle)
    (hgiven : 0 < it.handle ∧ it.handle < e.nextHandle) :
    ∃ t, hidxPut e it = { e with
        hidx := t, hidxLive := e.hidxLive + 1, indexed := update e.indexed it.ptr true } ∧
      Indexed (hidxPut e it).toStore (key it :: ks) := by
  obtain ⟨t, ht, hsize, hholds⟩ := put_holds hidxSlot_lt h.holds (e := key it) hnew hroom
  have heq : hidxPut e it = { e with
      hidx := t, hidxLive := e.hidxLive + 1, indexed := update e.indexed it.ptr true } := by
    have hput : put hidxSlot e.hidx (it.handle, it.ptr) = some t := ht
    rw [hidxPut, hput]
  refine ⟨t, heq, ?_⟩
  rw [heq]
  refine ⟨hholds, ?_, ?_, ?_, h.ends, ?_, h.next⟩
  · simp only [length_cons, h.count]
  · intro k hk
    by_cases hp : k.2 = it.ptr
    · rw [hp]
      exact update_self ..
    · rcases mem_cons.mp hk with rfl | hk
      · exact absurd rfl hp
      · exact (update_of_ne hp _ _).trans (h.flag k hk)
  · intro k hk
    rcases mem_cons.mp hk with rfl | hk
    · exact hgiven
    · exact h.given k hk
  · rw [hsize]
    exact h.pow

omit h

/-- Dropping an entered item. -/
theorem hidxDel_spec (h : Indexed e.toStore (key it :: ks)) (hp : ∀ k ∈ ks, k.2 ≠ it.ptr) :
    ∃ t, hidxDel e it = { e with
        hidx := t, hidxLive := e.hidxLive - 1, indexed := update e.indexed it.ptr false } ∧
      Indexed (hidxDel e it).toStore ks := by
  obtain ⟨t, ht, hsize, hholds⟩ := del_holds hidxSlot_lt h.holds
  obtain ⟨i, -, hfind, -⟩ := h.holds.keeps.findSlot_stored hidxSlot_lt (e := key it) mem_cons_self
  have heq : hidxDel e it = { e with
      hidx := t, hidxLive := e.hidxLive - 1, indexed := update e.indexed it.ptr false } := by
    have hflag := h.flag (key it) mem_cons_self
    have hdel : del hidxSlot e.hidx it.handle = some t := ht
    have hslot : findSlot hidxSlot e.hidx it.handle = some i := hfind
    simp only [key] at hflag
    simp only [hidxDel, hflag, if_true, hslot, hdel]
  refine ⟨t, heq, ?_⟩
  rw [heq]
  refine ⟨hholds, ?_, ?_, ?_, h.ends, ?_, h.next⟩
  · have hcount := h.count
    rw [length_cons] at hcount
    simp only
    omega
  · intro k hk
    exact (update_of_ne (hp k hk) _ _).trans (h.flag k (mem_cons_of_mem _ hk))
  · intro k hk
    exact h.given k (mem_cons_of_mem _ hk)
  · rw [hsize]
    exact h.pow

/-- Only the live item of a handle is found under it. -/
theorem hidxFind_iff (h : Indexed e.toStore ks) (n : Handle) (p : Ptr) :
    hidxFind e n = some p ↔ (n, p) ∈ ks := by
  unfold hidxFind
  split_ifs with hz
  · constructor
    · intro hnone
      cases hnone
    · intro hmem
      have hpos := (h.given _ hmem).1
      exact absurd hz (Nat.ne_of_gt hpos)
  · exact lookup_iff hidxSlot_lt h.holds n p

end Index

namespace StoreInv

variable {e : Engine} {hand l : List Item} {loose : List Ptr} {it it' : Item}

/-- The entries of other items have other addresses. -/
theorem key_ne (h : StoreInv e.toStore (it :: hand) loose) :
    ∀ k ∈ (live e.toStore ++ hand).map key, k.2 ≠ it.ptr := by
  have hnd := h.layout.nodup
  have hin : it.ptr ∈ addrs (it :: hand) ++ loose := mem_cons_self
  intro k hk he
  obtain ⟨x, hx, rfl⟩ := mem_map.mp hk
  rcases mem_append.mp hx with hx | hx
  · obtain ⟨q, -, hq⟩ := mem_live.mp hx
    refine h.layout.not_queued hin q ?_
    rw [← he]
    exact mem_map_of_mem hq
  · have hn := (nodup_append.mp hnd).2.1
    rw [addrs, map_cons, cons_append, nodup_cons] at hn
    refine hn.1 (mem_append_left _ ?_)
    rw [← he]
    exact mem_map_of_mem hx

/-- Dropping an item of the hand from the index makes it loose. -/
theorem hidxDel (h : StoreInv e.toStore (it :: hand) loose) (hk : key it' = key it) :
    StoreInv (EngineStore.hidxDel e it').toStore hand (it.ptr :: loose) := by
  have hperm : ((live e.toStore ++ it :: hand).map key).Perm
      (key it' :: (live e.toStore ++ hand).map key) := by
    rw [hk, ← map_cons]
    exact perm_middle.map key
  have hp : it'.ptr = it.ptr := congrArg Prod.snd hk
  obtain ⟨t, heq, hx⟩ := hidxDel_spec (h.index.perm hperm) (by rw [hp]; exact h.key_ne)
  have hl := h.layout
  have hlay : Layout e.toStore (addrs hand ++ it.ptr :: loose) := hl.perm perm_middle.symm
  rw [heq] at hx ⊢
  refine ⟨{ hlay with }, hx, ?_⟩
  intro p hm
  by_cases hpe : p = it'.ptr
  · rw [hpe]
    exact update_self ..
  · refine (update_of_ne hpe _ _).trans (h.plain p ?_)
    rcases mem_append.mp hm with hm | hm
    · exact mem_append_left _ hm
    · rcases mem_cons.mp hm with rfl | hm
      · exact absurd hp.symm hpe
      · exact mem_append_right _ hm

/-- Dropping a whole local list from the index. -/
theorem indexDropList (h : StoreInv e.toStore (l ++ hand) loose) :
    StoreInv (EngineStore.indexDropList e l).toStore hand (addrs l ++ loose) := by
  induction l generalizing e loose with
  | nil => exact h
  | cons x xs ih =>
    have hstep := ih (h.hidxDel rfl)
    refine hstep.perm (.refl _) ?_
    exact perm_middle

/-- Freeing a loose item. -/
theorem itemFree (h : StoreInv e.toStore hand (p :: loose)) :
    StoreInv (EngineStore.itemFree e p).toStore hand loose := by
  have hl : Layout e.toStore (p :: (addrs hand ++ loose)) := h.layout.perm perm_middle
  have hx := h.index
  have hnd : (ptrs e.toStore ++ (p :: (addrs hand ++ loose))).Nodup := hl.nodup
  have hout : p ∉ ptrs e.toStore ++ (addrs hand ++ loose) := by
    rw [nodup_middle, nodup_cons] at hnd
    exact hnd.1
  have hrest : (ptrs e.toStore ++ (addrs hand ++ loose)).Nodup := by
    rw [nodup_middle, nodup_cons] at hnd
    exact hnd.2
  have htaken : ∀ x, update e.allocated p false x = true ↔
      x ∈ ptrs e.toStore ++ (addrs hand ++ loose) := by
    intro x
    by_cases hxp : x = p
    · subst hxp
      rw [update_self]
      exact ⟨fun hf => absurd hf Bool.false_ne_true, fun hm => absurd hm hout⟩
    · rw [update_of_ne hxp]
      refine (hl.taken x).trans ?_
      simp only [mem_append, mem_cons, hxp, false_or]
  have hplain : ∀ x ∈ addrs (e.q .dead) ++ loose, e.indexed x = false := by
    intro x hm
    refine h.plain x ?_
    rcases mem_append.mp hm with hm | hm
    · exact mem_append_left _ hm
    · exact mem_append_right _ (mem_cons_of_mem _ hm)
  have hin : p ∈ ptrs e.toStore ++ (p :: (addrs hand ++ loose)) :=
    mem_append_right _ mem_cons_self
  have hsealed : e.maxItems ≠ 0 → e.sealed = false → ptrs e.toStore ++ (addrs hand ++ loose) = [] := by
    intro hm hs
    exact absurd (hl.unsealed hm hs ▸ hin) not_mem_nil
  have hwhere : e.whereIs p = .none := hl.between p mem_cons_self
  unfold EngineStore.itemFree
  split_ifs with hmax hpool
  · refine ⟨⟨hl.rep, hrest, htaken, ?_, ?_, ?_, ?_, hsealed, fun hz => absurd hz hmax⟩,
      { hx with }, hplain⟩
    · intro q x hm
      refine (update_of_ne ?_ _ _).trans (hl.queued q x hm)
      rintro rfl
      exact hout (mem_append_left _ (mem_ptrs.mpr ⟨q, hm⟩))
    · intro x hm
      refine (update_of_ne ?_ _ _).trans (hl.between x (mem_cons_of_mem _ hm))
      rintro rfl
      exact hout (mem_append_right _ hm)
    · intro x hm
      by_cases hxp : x = p
      · rw [hxp]
        exact update_self ..
      · exact (update_of_ne hxp _ _).trans (hl.free x ((mem_cons.mp hm).resolve_left hxp))
    · refine nodup_cons.mpr ⟨?_, hl.freeNodup⟩
      intro hm
      have hfree := hl.free p hm
      rw [(hl.taken p).mpr hin] at hfree
      exact Bool.false_ne_true hfree.symm
  · rw [hwhere] at hpool
    exact absurd (fun hc => by cases hc) hpool
  · refine ⟨⟨hl.rep, hrest, htaken, hl.queued, fun x hm => hl.between x (mem_cons_of_mem _ hm),
      ?_, hl.freeNodup, hsealed, hl.classic⟩,
      { hx with }, hplain⟩
    intro x hm
    by_cases hxp : x = p
    · rw [hxp]
      exact update_self ..
    · exact (update_of_ne hxp _ _).trans (hl.free x hm)

/-- Freeing an item of the hand. -/
theorem itemDrop (h : StoreInv e.toStore (it :: hand) loose) (hk : key it' = key it) :
    StoreInv (EngineStore.itemDrop e it').toStore hand loose := by
  have hp : it'.ptr = it.ptr := congrArg Prod.snd hk
  have hdel := h.hidxDel hk
  rw [← hp] at hdel
  exact hdel.itemFree

/-- Evicting the oldest dead letters. -/
theorem evictDead (h : StoreInv e.toStore hand loose) (fuel : ℕ) :
    StoreInv (EngineStore.evictDead fuel e).toStore hand loose := by
  induction fuel generalizing e with
  | zero => exact h
  | succ fuel ih =>
    rw [EngineStore.evictDead]
    split_ifs
    · cases hq : e.q .dead with
      | nil =>
        have hpop : fifoPop e .dead = none := by rw [fifoPop, hq]
        rw [hpop]
        exact h
      | cons old rest =>
        rw [h.fifoPop_eq hq]
        have hold : old ∈ e.q .dead := hq ▸ mem_cons_self
        refine ih (itemFree ?_)
        exact h.fifoRemove_dead hold
    · exact h

/-- Retaining an item of the hand as a dead letter. -/
theorem deadLetterPush (h : StoreInv e.toStore (it :: hand) loose) (hk : key it' = key it) :
    StoreInv (EngineStore.deadLetterPush e it').toStore hand loose := by
  have hp : it'.ptr = it.ptr := congrArg Prod.snd hk
  have hdel := (h.hidxDel hk).evictDead ((EngineStore.hidxDel e it').q .dead).length
  rw [← hp] at hdel
  exact hdel.fifoPush_dead

variable (h : StoreInv e.toStore hand loose)

include h

/-- Taking the memory of an item. -/
theorem takeItem (hfree : e.allocated p = false) (hpool : p ∉ e.freeItems)
    (hsealed : e.maxItems ≠ 0 → e.sealed = true) :
    StoreInv (EngineApi.takeItem e p).toStore hand (p :: loose) := by
  have hl := h.layout
  have hx := h.index
  have hout : p ∉ ptrs e.toStore ++ (addrs hand ++ loose) := by
    intro hm
    rw [(hl.taken p).mpr hm] at hfree
    exact Bool.false_ne_true hfree.symm
  refine ⟨⟨hl.rep, ?_, ?_, ?_, ?_, ?_, hl.freeNodup, ?_, hl.classic⟩, { hx with flag := ?_ }, ?_⟩
  · have hnd : (ptrs e.toStore ++ (p :: (addrs hand ++ loose))).Nodup := by
      rw [nodup_middle, nodup_cons]
      exact ⟨hout, hl.nodup⟩
    exact (perm_middle.append_left (ptrs e.toStore)).nodup_iff.mpr hnd
  · intro x
    have hall : x ∈ ptrs e.toStore ++ (addrs hand ++ p :: loose) ↔
        x = p ∨ x ∈ ptrs e.toStore ++ (addrs hand ++ loose) := by
      simp only [mem_append, mem_cons]
      tauto
    refine Iff.trans ?_ hall.symm
    by_cases hxp : x = p
    · simp [EngineApi.takeItem, hxp]
    · simp only [EngineApi.takeItem, update_of_ne hxp, hxp, false_or]
      exact hl.taken x
  · intro q x hm
    refine (update_of_ne ?_ _ _).trans (hl.queued q x hm)
    rintro rfl
    exact hout (mem_append_left _ (mem_ptrs.mpr ⟨q, hm⟩))
  · intro x hm
    by_cases hxp : x = p
    · rw [hxp]
      exact update_self ..
    · refine (update_of_ne hxp _ _).trans (hl.between x ?_)
      simp only [mem_append, mem_cons, hxp, false_or] at hm
      exact mem_append.mpr hm
  · intro x hm
    refine (update_of_ne ?_ _ _).trans (hl.free x hm)
    rintro rfl
    exact hpool hm
  · intro hm hs
    rw [show e.sealed = false from hs] at hsealed
    exact absurd (hsealed hm) Bool.false_ne_true
  · intro k hk
    refine (update_of_ne ?_ _ _).trans (hx.flag k hk)
    intro hkp
    obtain ⟨x, hxm, rfl⟩ := mem_map.mp hk
    refine hout ?_
    rw [← hkp]
    rcases mem_append.mp hxm with hxm | hxm
    · obtain ⟨q, -, hq⟩ := mem_live.mp hxm
      exact mem_append_left _ (mem_ptrs.mpr ⟨q, mem_map_of_mem hq⟩)
    · exact mem_append_right _ (mem_append_left _ (mem_map_of_mem hxm))
  · intro x hm
    by_cases hxp : x = p
    · rw [hxp]
      exact update_self ..
    · refine (update_of_ne hxp _ _).trans (h.plain x ?_)
      simp only [mem_append, mem_cons, hxp, false_or] at hm
      exact mem_append.mpr hm

/-- Taking a free item of a bounded engine's pool. -/
theorem poolTake {e' : Engine} (hsealed : e.sealed = true) (ht : EngineApi.poolTake e = some (p, e')) :
    StoreInv e'.toStore hand (p :: loose) := by
  unfold EngineApi.poolTake at ht
  split at ht
  · cases ht
  · rename_i x rest hfree
    cases ht
    have hl := h.layout
    have hx := h.index
    have hnd := hl.freeNodup
    rw [hfree, nodup_cons] at hnd
    have hrest : StoreInv ({ e with freeItems := rest } : Engine).toStore hand loose := by
      refine ⟨{ hl with
        free := fun y hy => hl.free y (hfree ▸ mem_cons_of_mem _ hy)
        freeNodup := hnd.2
        classic := ?_ },
        { hx with }, h.plain⟩
      intro hz
      have hnil := hl.classic hz
      rw [hfree] at hnil
      cases hnil
    exact hrest.takeItem (hl.free p (hfree ▸ mem_cons_self)) hnd.1 fun _ => hsealed

/-- Sealing a bounded engine, which has no item yet. -/
theorem boundedSeal {e' : Engine} {ok : Bool} (hmax : e.maxItems ≠ 0)
    (hs : EngineApi.boundedSeal e ok = .ok e') : StoreInv e'.toStore hand loose := by
  unfold EngineApi.boundedSeal at hs
  split_ifs at hs with hsealed hok
  · cases hs
    exact h
  · cases hs
    have hl := h.layout
    have hx := h.index
    have hnil := hl.unsealed hmax (by simpa using hsealed)
    rw [append_eq_nil_iff, append_eq_nil_iff] at hnil
    obtain ⟨hq, hhand, hloose⟩ := hnil
    have hhand' : hand = [] := map_eq_nil_iff.mp hhand
    have hlive : live e.toStore = [] := by
      rw [eq_nil_iff_forall_not_mem]
      intro x hxm
      obtain ⟨q, -, hmem⟩ := mem_live.mp hxm
      have hp : x.ptr ∈ ptrs e.toStore := mem_ptrs.mpr ⟨q, mem_map_of_mem hmem⟩
      rw [hq] at hp
      exact absurd hp not_mem_nil
    have hkeys : (live e.toStore ++ hand).map key = [] := by rw [hlive, hhand']; rfl
    have hnone : ∀ p, e.allocated p = false := by
      intro p
      have hiff := hl.taken p
      rw [hq, hhand, hloose] at hiff
      simpa using hiff
    refine ⟨⟨hl.rep, hl.nodup, hl.taken, hl.queued, hl.between, fun p _ => hnone p,
      nodup_range, fun _ hf => absurd hf Bool.true_eq_false.mp, fun hz => absurd hz hmax⟩, ?_,
      h.plain⟩
    refine Eq.mpr (congrArg (Indexed _) hkeys) ?_
    refine ⟨holds_fresh _, rfl, ?_, ?_, hx.ends, .inr (doubleUntil_pow _ _ 6), hx.next⟩
    · intro k hk
      exact absurd hk not_mem_nil
    · intro k hk
      exact absurd hk not_mem_nil

/-- Replacing the index by another that holds the same entries. -/
theorem reindex {t : Table Handle Ptr}
    (hx : Indexed { e.toStore with hidx := t } ((live e.toStore ++ hand).map key)) :
    StoreInv { e.toStore with hidx := t } hand loose := by
  have hl := h.layout
  exact ⟨{ hl with },
    hx, h.plain⟩

/-- Trimming the index. -/
theorem hidxTrim (ok : Bool) : StoreInv (EngineStore.hidxTrim e ok).toStore hand loose := by
  obtain ⟨t, heq, hx⟩ := hidxTrim_spec h.index ok
  rw [heq] at hx ⊢
  exact h.reindex hx

/-- Making room in the index. -/
theorem hidxReserve (ok : Bool) : StoreInv (EngineStore.hidxReserve e ok).1.toStore hand loose := by
  obtain ⟨t, heq, hx, -⟩ := hidxReserve_spec h.index ok
  rw [heq] at hx ⊢
  exact h.reindex hx

omit h

/-- Entering a new item into the index puts it in hand. -/
theorem hidxPut (h : StoreInv e.toStore hand (it.ptr :: loose))
    (hroom : ((live e.toStore ++ hand).length + 1) * 2 ≤ e.hidx.size)
    (hnew : it.handle = e.nextHandle) :
    StoreInv (EngineStore.hidxPut { e with nextHandle := e.nextHandle + 1 } it).toStore
      (it :: hand) loose := by
  have hx := h.index
  have hl := h.layout
  have hnext : Indexed { e.toStore with nextHandle := e.nextHandle + 1 }
      ((live e.toStore ++ hand).map key) :=
    { hx with
      given := fun k hk => ⟨(hx.given k hk).1, Nat.lt_succ_of_lt (hx.given k hk).2⟩
      next := Nat.succ_pos _ }
  have hfresh : ∀ k ∈ (live e.toStore ++ hand).map key, k.1 ≠ it.handle := by
    intro k hk
    have hlt := (hx.given k hk).2
    rw [hnew]
    exact ne_of_lt hlt
  have hgiven : 0 < it.handle ∧ it.handle < e.nextHandle + 1 := by
    rw [hnew]
    exact ⟨hx.next, Nat.lt_succ_self _⟩
  rw [← length_map (f := key)] at hroom
  obtain ⟨t, heq, hput⟩ := hidxPut_spec (e := { e with nextHandle := e.nextHandle + 1 }) hnext hroom
    hfresh hgiven
  have hlay : Layout e.toStore (addrs (it :: hand) ++ loose) := hl.perm perm_middle
  have hperm : (key it :: (live e.toStore ++ hand).map key).Perm
      ((live e.toStore ++ it :: hand).map key) := by
    exact (perm_middle.map key).symm
  have hindex := hput.perm hperm
  rw [heq] at hindex ⊢
  refine ⟨{ hlay with }, hindex, ?_⟩
  intro p hp
  have hne : p ≠ it.ptr := by
    rintro rfl
    have hin : it.ptr ∈ addrs (it :: hand) ++ loose := mem_cons_self
    rcases mem_append.mp hp with hp | hp
    · exact hlay.not_queued hin .dead hp
    · have hn := (nodup_append.mp hlay.nodup).2.1
      rw [addrs, map_cons, cons_append, nodup_cons] at hn
      exact hn.1 (mem_append_right _ hp)
  refine (update_of_ne hne _ _).trans (h.plain p ?_)
  rcases mem_append.mp hp with hp | hp
  · exact mem_append_left _ hp
  · exact mem_append_right _ (mem_cons_of_mem _ hp)

end StoreInv

/-- Linking into intake and entering the index do not touch the same fields. -/
theorem hidxPut_intakeInsert (e : Engine) (it x : Item) :
    hidxPut (intakeInsert e x) it = intakeInsert (hidxPut e it) x := by
  unfold hidxPut
  cases hput : put hidxSlot e.hidx (it.handle, it.ptr) with
  | none =>
    have h : put hidxSlot (intakeInsert e x).hidx (it.handle, it.ptr) = none := hput
    rw [h]
    rfl
  | some t =>
    have h : put hidxSlot (intakeInsert e x).hidx (it.handle, it.ptr) = some t := hput
    rw [h]
    rfl

/-- A fresh engine. -/
theorem openEngine_inv (a : EngineApi.OpenArgs) :
    StoreInv (EngineApi.openEngine a).toStore [] [] := by
  have hp : ptrs (EngineApi.openEngine a).toStore = [] := rfl
  refine ⟨⟨fun q => rep_empty _, ?_, ?_, ?_, ?_, ?_, nodup_nil, fun _ _ => rfl, fun _ => rfl⟩,
    ⟨holds_empty, rfl, ?_, ?_, rfl, .inl rfl, Nat.one_pos⟩, ?_⟩
  · exact nodup_nil
  · intro p
    exact ⟨fun hf => absurd hf Bool.false_ne_true, fun hm => absurd hm not_mem_nil⟩
  all_goals
    intros
    rename_i hm
    exact absurd hm not_mem_nil

end Gptps.StoreInvariant
