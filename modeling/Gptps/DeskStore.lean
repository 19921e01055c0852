import Gptps.EngineDesk

/-!
# Every act keeps the store

The store invariant and the order of intake hold at every desk a sequence of
acts leads to: no item is lost, linked twice or left in the index, and between
two forgets the cache of run tails is right.
-/

namespace Gptps.DeskStore

open Function LinkedQueue EngineState EngineStore EnginePass EngineApi ItemLife IntakeOrder List
open StoreInvariant EngineDesk

variable {w : Bool} {e₁ e e' : Engine} {q : QId} {f : Item → Item} {l : List Item} {it it' : Item}
  {b : Bool} {now : ℕ} {c : Core} {a : Bool} {p' : Option Place} {r : RegId}

/-- Nothing to pop means that the queue is empty. -/
theorem fifoPop_none (h : fifoPop e q = none) : e.q q = [] := by
  unfold fifoPop at h
  split at h
  · assumption
  · cases h

/-- Popping takes the first item off one queue, and changes the store alone. -/
theorem fifoPop_some (h : fifoPop e q = some (it, e₁)) : ∃ rest l a, e.q q = it :: rest ∧
    e₁ = { e with
      q := update e.q q rest, links := l, anchor := a, whereIs := update e.whereIs it.ptr .none } := by
  unfold fifoPop at h
  split at h
  · cases h
  · rename_i x rest hq
    cases h
    exact ⟨rest, _, _, hq, rfl⟩

/-- Only the index, the taken addresses, and the dead letters changed. -/
structure KeptLive (e e' : Engine) : Prop where
  /-- The live queues. -/
  q : ∀ q ≠ QId.dead, e'.q q = e.q q
  /-- The cache of run tails. -/
  runs : e'.runs = e.runs
  /-- The entry counter. -/
  seq : e'.intakeSeq = e.intakeSeq
  /-- The next handle. -/
  next : e'.nextHandle = e.nextHandle
  /-- Everything outside the store. -/
  rest : e' = { e with
    toStore := e'.toStore, deadLetterCount := e'.deadLetterCount, deadEvicted := e'.deadEvicted }

/-- Only the index and the taken addresses changed. -/
structure Kept (e e' : Engine) : Prop extends KeptLive e e' where
  /-- The dead letters. -/
  dead : e'.q .dead = e.q .dead

namespace KeptLive

variable {e e' e'' : Engine}

/-- One after the other. -/
theorem trans (h : KeptLive e e') (h' : KeptLive e' e'') : KeptLive e e'' := by
  refine ⟨fun q hq => (h'.q q hq).trans (h.q q hq), h'.runs.trans h.runs, h'.seq.trans h.seq,
    h'.next.trans h.next, ?_⟩
  have h₂ := h'.rest
  rw [h.rest] at h₂
  exact h₂

end KeptLive

namespace Kept

variable {e e' e'' : Engine}

/-- Nothing changed. -/
theorem refl (e : Engine) : Kept e e := ⟨⟨fun _ _ => rfl, rfl, rfl, rfl, rfl⟩, rfl⟩

/-- One after the other. -/
theorem trans (h : Kept e e') (h' : Kept e' e'') : Kept e e'' :=
  ⟨h.toKeptLive.trans h'.toKeptLive, h'.dead.trans h.dead⟩

/-- A change of the store alone that leaves queues and intake alone. -/
theorem of_store {s : Store} (hq : s.q = e.q) (hr : s.runs = e.runs)
    (hs : s.intakeSeq = e.intakeSeq) (hn : s.nextHandle = e.nextHandle) :
    Kept e { e with toStore := s } :=
  ⟨⟨fun q _ => congrFun hq q, hr, hs, hn, rfl⟩, congrFun hq _⟩

/-- All queues are the same. -/
theorem queues (h : Kept e e') : e'.q = e.q := by
  funext q
  by_cases hq : q = .dead
  · rw [hq]
    exact h.dead
  · exact h.q q hq

end Kept

section Frames

variable (e : Engine) (it : Item) (p : Ptr) (ok : Bool)

/-- Dropping an item from the index. -/
theorem hidxDel_kept : Kept e (hidxDel e it) := by
  unfold hidxDel
  split
  · split
    · exact Kept.of_store rfl rfl rfl rfl
    · split
      · exact Kept.of_store rfl rfl rfl rfl
      · exact Kept.of_store rfl rfl rfl rfl
  · exact .refl e

/-- Dropping a list from the index. -/
theorem indexDropList_kept (l : List Item) : Kept e (indexDropList e l) := by
  induction l generalizing e with
  | nil => exact .refl e
  | cons x xs ih => exact (hidxDel_kept e x).trans (ih _)

/-- Freeing an item. -/
theorem itemFree_kept : Kept e (itemFree e p) := by
  unfold itemFree
  split
  · split
    · exact Kept.of_store rfl rfl rfl rfl
    · exact .refl e
  · exact Kept.of_store rfl rfl rfl rfl

/-- Freeing an indexed item. -/
theorem itemDrop_kept : Kept e (itemDrop e it) :=
  (hidxDel_kept e it).trans (itemFree_kept _ _)

/-- Taking a dead letter. -/
theorem fifoPop_dead_kept (h : fifoPop e .dead = some (it, e₁)) : KeptLive e e₁ := by
  obtain ⟨rest, l, a, -, rfl⟩ := fifoPop_some h
  exact ⟨fun q hq => update_of_ne hq _ _, rfl, rfl, rfl, rfl⟩

/-- Evicting dead letters. -/
theorem evictDead_kept (fuel : ℕ) : KeptLive e (evictDead fuel e) := by
  induction fuel generalizing e with
  | zero => exact (Kept.refl e).toKeptLive
  | succ fuel ih =>
    rw [evictDead]
    split
    · split
      · exact (Kept.refl e).toKeptLive
      · rename_i old e₁ hpop
        have hcount : KeptLive e₁ { e₁ with
            deadLetterCount := e₁.deadLetterCount - 1, deadEvicted := e₁.deadEvicted + 1 } :=
          ⟨fun _ _ => rfl, rfl, rfl, rfl, rfl⟩
        have hfree := (itemFree_kept { e₁ with
            deadLetterCount := e₁.deadLetterCount - 1, deadEvicted := e₁.deadEvicted + 1 } old.ptr)
        exact (((fifoPop_dead_kept e old hpop).trans hcount).trans hfree.toKeptLive).trans (ih _)
    · exact (Kept.refl e).toKeptLive

/-- Retaining a dead letter. -/
theorem deadLetterPush_kept : KeptLive e (deadLetterPush e it) := by
  have hpush : ∀ e : Engine, KeptLive e (fifoPush e .dead it) :=
    fun e => ⟨fun q hq => update_of_ne hq _ _, rfl, rfl, rfl, rfl⟩
  have hcount : ∀ e : Engine, KeptLive e { e with deadLetterCount := e.deadLetterCount + 1 } :=
    fun e => ⟨fun _ _ => rfl, rfl, rfl, rfl, rfl⟩
  exact (((hidxDel_kept e it).toKeptLive.trans (evictDead_kept _ _)).trans (hpush _)).trans (hcount _)

/-- Rebuilding the index. -/
theorem hidxRebuild_kept (n : ℕ) : Kept e (hidxRebuild e n ok).1 := by
  unfold hidxRebuild
  split
  · split
    · exact Kept.of_store rfl rfl rfl rfl
    · exact Kept.of_store rfl rfl rfl rfl
  · exact .refl e

/-- Growing the index. -/
theorem hidxReserve_kept : Kept e (hidxReserve e ok).1 := by
  unfold hidxReserve
  split
  · exact .refl e
  · exact hidxRebuild_kept e ok _

/-- Shrinking the index. -/
theorem hidxTrim_kept : Kept e (hidxTrim e ok) := by
  unfold hidxTrim
  split
  · exact .refl e
  · split
    · exact hidxRebuild_kept e ok _
    · exact .refl e

/-- Entering an item into the index. -/
theorem hidxPut_kept : Kept e (hidxPut e it) := by
  unfold hidxPut
  split
  · exact Kept.of_store rfl rfl rfl rfl
  · exact Kept.of_store rfl rfl rfl rfl

/-- Taking the memory of an item. -/
theorem takeItem_kept : Kept e (takeItem e p) := Kept.of_store rfl rfl rfl rfl

/-- Taking an item of the pool. -/
theorem poolTake_kept (h : poolTake e = some (p, e₁)) : Kept e e₁ := by
  unfold poolTake at h
  split at h
  · cases h
  · cases h
    exact Kept.of_store rfl rfl rfl rfl

end Frames

/-- Intake is in order, and its cache is right unless it is out of date. -/
structure Sorted (e : Engine) (stale : Bool) : Prop where
  /-- The items of intake are told apart. -/
  entered : Entered (e.q .intake) e.intakeSeq
  /-- Admission order. -/
  ordered : Ordered (e.q .intake)
  /-- The cache. -/
  cache : stale = false → CacheOk (e.q .intake) e.runs

/-- What holds at every desk. -/
structure DeskInv (d : Desk) : Prop where
  /-- The store. -/
  store : StoreInv d.e.toStore (d.announced ++ d.picked) (addrs (d.dropped ++ d.handed) ++ d.fresh)
  /-- The order of intake. -/
  sorted : Sorted d.e d.stale
  /-- Registered types were given out. -/
  registry : ∀ r ∈ d.e.registry, r < d.e.nextReg

namespace Sorted

variable {e e' : Engine} {b : Bool}

/-- With an up-to-date cache. -/
theorem ok (h : Sorted e false) : IntakeOk (e.q .intake) e.runs e.intakeSeq :=
  ⟨h.entered, h.ordered, h.cache rfl⟩

/-- The other way round. -/
theorem of_ok (h : IntakeOk (e.q .intake) e.runs e.intakeSeq) : Sorted e b :=
  ⟨h.toEntered, h.ordered, fun _ => h.cache⟩

variable (h : Sorted e b)

include h

/-- What leaves intake alone. -/
theorem congr (hq : e'.q .intake = e.q .intake) (hr : e'.runs = e.runs) (hs : e'.intakeSeq = e.intakeSeq) :
    Sorted e' b := by
  refine ⟨?_, ?_, ?_⟩
  · rw [hq, hs]
    exact h.entered
  · rw [hq]
    exact h.ordered
  · rw [hq, hr]
    exact h.cache

/-- What keeps the live queues and the cache. -/
theorem kept (hk : KeptLive e e') : Sorted e' b :=
  h.congr (hk.q _ (by decide)) hk.runs hk.seq

/-- Fewer items in the same order, the cache out of date. -/
theorem sublist (hq : (e'.q .intake).Sublist (e.q .intake)) (hs : e'.intakeSeq = e.intakeSeq) :
    Sorted e' true := by
  refine ⟨?_, h.ordered.sublist hq, fun hf => by cases hf⟩
  rw [hs]
  exact h.entered.sublist hq

/-- Pushing on another queue. -/
theorem push (hq : q ≠ .intake) (it : Item) : Sorted (fifoPush e q it) b :=
  h.congr (update_of_ne hq.symm _ _) rfl rfl

/-- Forgetting the cache. -/
theorem forget : IntakeOk (e.q .intake) [] e.intakeSeq :=
  ⟨h.entered, h.ordered, forall_mem_nil _, .nil, Nat.zero_le _⟩

/-- Rewriting what the order does not read. -/
theorem map (hf : Retouch q f) : Sorted (mapQueue e q f) b := by
  by_cases hq : q = .intake
  · subst hq
    have hp : ∀ x, (f x).ptr = x.ptr := fun x => congrArg Prod.snd (hf.key x)
    have hs : ∀ x, (f x).schedScore = x.schedScore := fun x => (hf.order rfl x).1
    have hn : ∀ x, (f x).intakeSeq = x.intakeSeq := fun x => (hf.order rfl x).2
    have heq : (mapQueue e .intake f).q .intake = (e.q .intake).map f := by
      simp only [mapQueue, update_self]
    have hbase := h.forget.map hp hs hn
    refine ⟨?_, ?_, ?_⟩
    · exact hbase.toEntered
    · exact hbase.ordered
    · intro hb
      subst hb
      exact (h.ok.map hp hs hn).cache
  · exact h.congr (update_of_ne (fun he => hq he.symm) _ _) rfl rfl

omit h

end Sorted

/-- What is left of a queue once one of its items was taken out. -/
theorem mem_eraseP {x : Item} (hx : x ∈ l) (hne : x.ptr ≠ it.ptr) :
    x ∈ l.eraseP fun y => y.ptr = it.ptr :=
  (mem_eraseP_of_neg (by simpa using hne)).mpr hx

/-- What a scan has still to visit stays in the queue when the item it visits is taken out. -/
theorem still_queued {k : List Item} (hk : ∀ x ∈ it :: k, x ∈ l) (hnd : it.ptr ∉ k.map (·.ptr)) :
    ∀ x ∈ k, x ∈ l.eraseP fun y => y.ptr = it.ptr := fun x hx =>
  mem_eraseP (hk x (mem_cons_of_mem _ hx)) fun hptr => hnd (mem_map.mpr ⟨x, hx, hptr⟩)

/-- An unlinked item is no longer in its queue. -/
theorem not_mem_eraseP (hnd : (l.map (·.ptr)).Nodup) (hm : it ∈ l) :
    it ∉ l.eraseP fun x => x.ptr = it.ptr := by
  obtain ⟨l₁, l₂, rfl⟩ := append_of_mem hm
  rw [eraseP_split hnd]
  have hout := (nodup_cons.mp ((perm_middle.map _).nodup_iff.mp hnd)).1
  exact fun h => hout (mem_map.mpr ⟨it, h, rfl⟩)

section Leaving

variable {d : Desk} {q : QId} {it : Item} {e₁ : Engine} {b : Bool} {e : Engine}

/-- An item that leaves a queue was in it, and is unlinked. -/
theorem leaves_eq (hd : DeskInv d) (h : Leaves d q it e₁ b) :
    it ∈ d.e.q q ∧ (e₁ = fifoRemove d.e q it ∧ b = (d.stale || q = .intake) ∨
      q = .intake ∧ e₁ = intakeUnlink d.e it ∧ b = false ∧ d.stale = false) := by
  cases h with
  | head hpop =>
    cases hq : d.e.q q with
    | nil =>
      rw [fifoPop, hq] at hpop
      cases hpop
    | cons x rest =>
      rw [hd.store.fifoPop_eq hq] at hpop
      cases hpop
      exact ⟨mem_cons_self, .inl ⟨rfl, rfl⟩⟩
  | inside hm => exact ⟨hm, .inl ⟨rfl, rfl⟩⟩
  | ordered hm hs => exact ⟨hm, .inr ⟨rfl, rfl, rfl, hs⟩⟩

/-- Popping changes the store alone. -/
theorem fifoPop_rest (h : fifoPop e q = some (it, e₁)) : e₁ = { e with toStore := e₁.toStore } := by
  obtain ⟨rest, l, a, -, rfl⟩ := fifoPop_some h
  rfl

/-- Popping leaves the other queues. -/
theorem fifoPop_q (h : fifoPop e q = some (it, e₁)) :
    ∃ rest, e.q q = it :: rest ∧ e₁.q = update e.q q rest := by
  obtain ⟨rest, l, a, hq, rfl⟩ := fifoPop_some h
  exact ⟨rest, hq, rfl⟩

/-- A splice adds the item alone. -/
theorem insertBehind_perm (l : List Item) (p : Option Ptr) (it : Item) :
    (insertBehind l p it).Perm (it :: l) := by
  induction l with
  | nil => cases p <;> exact .refl _
  | cons x xs ih =>
    cases p with
    | none => exact .refl _
    | some p =>
      rw [insertBehind]
      split_ifs
      · exact .swap it x xs
      · exact (ih.cons x).trans (.swap it x xs)

section Members

variable {e e₁ : Engine} {q q' : QId} {x y : Item}

/-- The items of a queue that was rewritten. -/
theorem mem_update {f : QId → List Item} (h : y ∈ update f q l q') :
    q' = q ∧ y ∈ l ∨ q' ≠ q ∧ y ∈ f q' := by
  by_cases hq : q' = q
  · subst hq
    rw [update_self] at h
    exact .inl ⟨rfl, h⟩
  · rw [update_of_ne hq] at h
    exact .inr ⟨hq, h⟩

/-- Linking an item at the end of a queue. -/
theorem mem_pushed (h : y ∈ (fifoPush e q x).q q') : y ∈ e.q q' ∨ q' = q ∧ y = x := by
  rcases mem_update h with ⟨rfl, h⟩ | ⟨-, h⟩
  · exact (mem_append.mp h).imp_right fun hx => ⟨rfl, mem_singleton.mp hx⟩
  · exact .inl h

/-- Unlinking an item. -/
theorem mem_removed (h : y ∈ (fifoRemove e q x).q q') : y ∈ e.q q' := by
  rcases mem_update h with ⟨rfl, h⟩ | ⟨-, h⟩
  · exact mem_of_mem_eraseP h
  · exact h

/-- Taking the first item. -/
theorem mem_popped (hpop : fifoPop e q = some (x, e₁)) (h : y ∈ e₁.q q') : y ∈ e.q q' := by
  obtain ⟨rest, hrest, hq⟩ := fifoPop_q hpop
  rw [hq] at h
  rcases mem_update h with ⟨rfl, hy⟩ | ⟨-, hy⟩
  · exact hrest ▸ mem_cons_of_mem _ hy
  · exact hy

/-- Rewriting a queue in place. -/
theorem mem_mapped (h : y ∈ (mapQueue e q f).q q') :
    (q' = q ∧ ∃ x ∈ e.q q, y = f x) ∨ q' ≠ q ∧ y ∈ e.q q' := by
  rcases mem_update h with ⟨rfl, h⟩ | h
  · obtain ⟨x, hx, rfl⟩ := mem_map.mp h
    exact .inl ⟨rfl, x, hx, rfl⟩
  · exact .inr h

/-- Inserting an item into intake. -/
theorem mem_inserted (h : y ∈ (intakeInsert e x).q q') :
    y ∈ e.q q' ∨ q' = .intake ∧ y = { x with intakeSeq := e.intakeSeq + 1 } := by
  rcases mem_update h with ⟨rfl, h⟩ | ⟨-, h⟩
  · rcases mem_cons.mp ((insertBehind_perm _ _ _).mem_iff.mp h) with hx | h
    · exact .inr ⟨rfl, hx⟩
    · exact .inl h
  · exact .inl h

end Members

section Calls

variable {e e' : Engine} {n : Handle} {p : Ptr} {args : SubmitArgs}

/-- What a worker took: an item to pass on, or one whose attempt starts. -/
theorem takeReady_some (h : takeReady now e = some (e', it)) :
    ∃ e₁, fifoPop e .ready = some (it, e₁) ∧
      (mustDiscard e it = true ∧ e' = fifoPush e₁ .done { it with outcome := .cancelled } ∨
        mustDiscard e it = false ∧ e' = fifoPush e₁ .running (startItem e now it)) := by
  unfold takeReady at h
  split at h
  · cases h
  · rename_i x e₁ hpop
    have hsame : mustDiscard e₁ x = mustDiscard e x := by rw [fifoPop_rest hpop]; rfl
    rw [hsame] at h
    split_ifs at h with hx
    · cases h
      exact ⟨e₁, hpop, .inl ⟨hx, rfl⟩⟩
    · cases h
      exact ⟨e₁, hpop, .inr ⟨Bool.eq_false_iff.mpr hx, rfl⟩⟩

/-- What a cancel did. -/
inductive Cancels (e : Engine) (n : Handle) : Engine × Status × Option Ev → Prop
  /-- It found nothing it may cancel. -/
  | refused {st : Status} : st ≠ .ok → Cancels e n (e, st, none)
  /-- An admitted item is asked to stop. -/
  | stop {p : Ptr} {q : QId} : hidxFind e n = some p → e.whereIs p = .queue q →
      q = .ready ∨ q = .running ∨ q = .done → Cancels e n (updItem e q p stopItem, .ok, none)
  /-- A waiting item is dropped. -/
  | intake {it : Item} : hidxFind e n = some it.ptr → e.whereIs it.ptr = .queue .intake →
      it ∈ e.q .intake →
      Cancels e n (itemDrop (intakeUnlink e it) it, .ok, some (evOf e it .failed .cancelled false))
  /-- A delayed one. -/
  | delayed {it : Item} : hidxFind e n = some it.ptr → e.whereIs it.ptr = .queue .delayed →
      it ∈ e.q .delayed → Cancels e n
        (itemDrop (fifoRemove e .delayed it) it, .ok, some (evOf e it .failed .cancelled false))

theorem gptpsCancel_cancels (e : Engine) (n : Handle) : Cancels e n (gptpsCancel e n) := by
  unfold gptpsCancel
  split_ifs
  · exact .refused nofun
  · exact .refused nofun
  · split
    · exact .refused nofun
    · rename_i p hfind
      split
      case h_1 hw => exact .stop hfind hw (.inr (.inl rfl))
      case h_2 hw => exact .stop hfind hw (.inl rfl)
      case h_3 hw => exact .stop hfind hw (.inr (.inr rfl))
      case h_4 hw | h_5 hw =>
        split
        · exact .refused nofun
        · rename_i it hit
          obtain rfl : it.ptr = p := by simpa using find?_some hit
          constructor
          · exact hfind
          · exact hw
          · exact mem_of_find?_eq_some hit
      case h_6 => exact .refused nofun

/-- What a submit's critical section did. -/
inductive Submission (e : Engine) (p : Ptr) (args : SubmitArgs) :
    Engine × Except Status Item → Prop
  /-- It was refused, before or after the index grew. -/
  | refused {e₁ : Engine} {st : Status} : e₁ = e ∨ e₁ = (hidxReserve e args.indexOk).1 →
      Submission e p args (itemFree e₁ p, .error st)
  /-- The item is queued. -/
  | accepted {r : RegId} {mem : UInt64} {e₁ : Engine} : submitCheck e args = .ok (r, mem) →
      hidxReserve e args.indexOk = (e₁, true) → Submission e p args
        (hidxPut (intakeInsert { e₁ with nextHandle := e₁.nextHandle + 1 }
          (newItem e₁ p args r mem)) (newItem e₁ p args r mem), .ok (newItem e₁ p args r mem))

theorem submitInternal_submission (e : Engine) (p : Ptr) (args : SubmitArgs) :
    Submission e p args (submitInternal e p args) := by
  unfold submitInternal
  split
  · exact .refused (.inl rfl)
  · rename_i hcheck
    split
    · rename_i hres
      exact .refused (.inr (congrArg Prod.fst hres).symm)
    · rename_i hres
      exact .accepted hcheck hres

end Calls

/-- Unlinking changes the store alone. -/
theorem leaves_rest (h : Leaves d q it e₁ b) : e₁ = { d.e with toStore := e₁.toStore } := by
  cases h with
  | head h => exact fifoPop_rest h
  | inside => rfl
  | ordered => rfl

/-- Unlinking takes one item out of one queue. -/
theorem leaves_q (hd : DeskInv d) (h : Leaves d q it e₁ b) :
    e₁.q = update d.e.q q ((d.e.q q).eraseP fun x => x.ptr = it.ptr) := by
  rcases (leaves_eq hd h).2 with ⟨rfl, -⟩ | ⟨rfl, rfl, -⟩
  · rfl
  · rfl

/-- Unlinking gives out no handle. -/
theorem leaves_next (hd : DeskInv d) (h : Leaves d q it e₁ b) : e₁.nextHandle = d.e.nextHandle := by
  rcases (leaves_eq hd h).2 with ⟨rfl, -⟩ | ⟨-, rfl, -⟩
  · rfl
  · rfl

/-- An item that leaves a live queue is in hand. -/
theorem leaves_store (hd : DeskInv d) (hq : q ≠ .dead) (h : Leaves d q it e₁ b) :
    StoreInv e₁.toStore (it :: (d.announced ++ d.picked))
      (addrs (d.dropped ++ d.handed) ++ d.fresh) := by
  obtain ⟨hm, ⟨rfl, -⟩ | ⟨rfl, rfl, -⟩⟩ := leaves_eq hd h
  · exact hd.store.fifoRemove hm hq
  · exact hd.store.intakeUnlink hm

/-- Intake stays in order when an item leaves. -/
theorem leaves_sorted (hd : DeskInv d) (h : Leaves d q it e₁ b) : Sorted e₁ b := by
  obtain ⟨hm, ⟨rfl, rfl⟩ | ⟨rfl, rfl, rfl, hs⟩⟩ := leaves_eq hd h
  · by_cases hq : q = .intake
    · subst hq
      have hsub : ((fifoRemove d.e .intake it).q .intake).Sublist (d.e.q .intake) := by
        exact eraseP_sublist
      simpa using hd.sorted.sublist hsub rfl
    · have hsame : (fifoRemove d.e q it).q .intake = d.e.q .intake :=
        update_of_ne (fun he => hq he.symm) _ _
      simpa [hq] using hd.sorted.congr hsame rfl rfl
  · have hsorted := hd.sorted
    rw [hs] at hsorted
    exact Sorted.of_ok (intakeUnlink_ok hsorted.ok hm)

end Leaving

/-- Settling the budget leaves the store alone. -/
theorem charge_store {snap : Option (List UInt64)} (h : Charge e c a b e' snap) :
    e'.toStore = e.toStore := by
  cases h <;> rfl

/-- Settling the budget changes nothing but the ledger. -/
theorem charge_rest {snap : Option (List UInt64)} (h : Charge e c a b e' snap) :
    e' = { e with
      reservedMem := e'.reservedMem, running := e'.running, resources := e'.resources } := by
  cases h <;> rfl

/-- An item in hand lands somewhere. -/
theorem lands_inv {d d' : Desk} (h : Lands d it' p' d') (hk : key it' = key it)
    (hstore : StoreInv d.e.toStore (it :: (d.announced ++ d.picked)) (addrs (d.dropped ++ d.handed) ++ d.fresh))
    (hsorted : Sorted d.e d.stale) (hreg : ∀ r ∈ d.e.registry, r < d.e.nextReg) : DeskInv d' := by
  have hkept : ∀ {e' : Engine}, KeptLive d.e e' → ∀ r ∈ e'.registry, r < e'.nextReg := by
    intro e' hke
    rw [hke.rest]
    exact hreg
  cases h with
  | push q hq hi =>
    exact ⟨hstore.fifoPush hq hk, hsorted.push hi it', hreg⟩
  | entry hs =>
    have hin : it.ptr ∈ addrs (it :: (d.announced ++ d.picked)) ++
        (addrs (d.dropped ++ d.handed) ++ d.fresh) := mem_cons_self
    have hout : it'.ptr ∉ (d.e.q .intake).map (·.ptr) := by
      rw [show it'.ptr = it.ptr from congrArg Prod.snd hk]
      exact hstore.layout.not_queued hin .intake
    rw [hs] at hsorted
    exact ⟨hstore.intakeInsert hsorted.ok hk, Sorted.of_ok (intakeInsert_ok hsorted.ok hout), hreg⟩
  | bury =>
    exact ⟨hstore.deadLetterPush hk, hsorted.kept (deadLetterPush_kept d.e it'),
      hkept (deadLetterPush_kept d.e it')⟩
  | drop =>
    exact ⟨hstore.itemDrop hk, hsorted.kept (itemDrop_kept d.e it').toKeptLive,
      hkept (itemDrop_kept d.e it').toKeptLive⟩
  | announce =>
    refine ⟨hstore.rehand ?_, hsorted, hreg⟩
    simp only [map_append, map_cons, map_nil, append_assoc, hk]
    exact perm_middle.symm
  | pick =>
    refine ⟨hstore.rehand ?_, hsorted, hreg⟩
    simp only [map_append, map_cons, map_nil, hk, ← append_assoc]
    exact (perm_append_singleton _ _).symm

/-- A type a call finds is registered and not being removed. -/
theorem registryFind_spec {tid : ℕ} {name : Name} (h : registryFind e tid name = some r) :
    r ∈ e.registry ∧ (e.reg r).removed = false := by
  have hfilter := Option.filter_eq_some_iff.mp h
  have hprop := find?_some hfilter.1
  simp only [Bool.and_eq_true, Bool.not_eq_true'] at hprop
  exact ⟨mem_of_find?_eq_some hfilter.1, hprop.1⟩

section Acts

variable {d d' : Desk} {q : QId} {it : Item} {e₁ : Engine} {evs : List Ev} {rest : List Item}
  {p : Ptr} {snap : Option (List UInt64)}

variable (hd : DeskInv d)

include hd

/-- What keeps the live queues and the cache keeps the order of intake and the types. -/
theorem inv_of_kept (hk : KeptLive d.e e') {b : List Item} {l₁ l₂ : List Item} {f : List Ptr}
    (hs : StoreInv e'.toStore (d.announced ++ b) (addrs (l₁ ++ l₂) ++ f)) :
    DeskInv { d with e := e', picked := b, dropped := l₁, handed := l₂, fresh := f } := by
  refine ⟨hs, hd.sorted.kept hk, ?_⟩
  intro r hr
  rw [hk.rest] at hr ⊢
  exact hd.registry r hr

/-- An item moves. -/
theorem move_inv {e₂ : Engine} {a₁ a₂ : Bool} (hq : q ≠ .dead) (hl : Leaves d q it e₁ b)
    (hc : Charge e₁ it.toCore a₁ a₂ e₂ snap) (hk : key it' = key it)
    (hland : Lands { d with e := e₂, evs := evs, stale := b } it' p' d') : DeskInv d' := by
  have hstore := leaves_store hd hq hl
  have hsorted := leaves_sorted hd hl
  have hsame := charge_store hc
  refine lands_inv hland hk ?_ ?_ ?_
  · show StoreInv e₂.toStore _ _
    rw [hsame]
    exact hstore
  · refine hsorted.congr ?_ ?_ ?_
    · exact congrFun (congrArg Store.q hsame) _
    · exact congrArg Store.runs hsame
    · exact congrArg Store.intakeSeq hsame
  · show ∀ r ∈ e₂.registry, r < e₂.nextReg
    rw [charge_rest hc, leaves_rest hl]
    exact hd.registry

/-- An item is collected. -/
theorem collect_inv (h : fifoPop d.e q = some (it, e₁)) (hq : q ≠ .dead) :
    DeskInv { d with e := e₁, picked := d.picked ++ [it], stale := d.stale || q = .intake } :=
  move_inv hd hq (.head h) (.keep true) rfl .pick

/-- A retry decided in this pass begins its pause. -/
theorem park_inv (h : d.announced = it :: rest) :
    DeskInv { d with e := fifoPush d.e .delayed it, announced := rest } := by
  have hstore := hd.store
  rw [h, cons_append] at hstore
  exact ⟨hstore.fifoPush (by decide) rfl, hd.sorted.push (by decide) it, hd.registry⟩

/-- The detached items leave the index. -/
theorem unindex_inv : DeskInv { d with
    e := indexDropList d.e d.picked, picked := [], dropped := d.dropped ++ d.picked } := by
  refine inv_of_kept hd (indexDropList_kept _ _).toKeptLive ?_
  have hstore := hd.store.perm perm_append_comm (.refl _)
  have hdrop := hstore.indexDropList
  rw [append_nil]
  refine hdrop.perm (.refl _) ?_
  simp only [addrs, map_append, append_assoc]
  exact perm_append_comm_assoc _ _ _

/-- A call ends an item of its list. -/
theorem drain_inv (h : d.dropped = it :: rest) :
    DeskInv { d with e := itemFree d.e it.ptr, dropped := rest, evs := evs } := by
  have hstore := hd.store
  rw [h] at hstore
  have hfree := inv_of_kept hd (itemFree_kept _ _).toKeptLive hstore.itemFree
  exact ⟨hfree.store, hfree.sorted, hfree.registry⟩

/-- A drain frees a dead letter. -/
theorem handOver_inv (h : d.handed = it :: rest) :
    DeskInv { d with e := itemFree d.e it.ptr, handed := rest } := by
  have hstore := hd.store
  rw [h] at hstore
  refine inv_of_kept hd (itemFree_kept _ _).toKeptLive (hstore.perm (.refl _) ?_).itemFree
  simp only [addrs, map_append, map_cons, append_assoc, cons_append]
  exact perm_middle

/-- A drain takes a dead letter. -/
theorem hand_inv {n : ℕ} (h : fifoPop d.e .dead = some (it, e₁)) (hk : key it' = key it) :
    DeskInv { d with e := { e₁ with deadLetterCount := n }, handed := d.handed ++ [it'] } := by
  have hkept := fifoPop_dead_kept d.e it h
  cases hq : d.e.q .dead with
  | nil =>
    rw [fifoPop, hq] at h
    cases h
  | cons x rest =>
    rw [hd.store.fifoPop_eq hq] at h
    cases h
    have hm : it ∈ d.e.q .dead := hq ▸ mem_cons_self
    have hstore := hd.store.fifoRemove_dead hm
    have hp : it'.ptr = it.ptr := congrArg Prod.snd hk
    have hcount : KeptLive (fifoRemove d.e .dead it)
        { fifoRemove d.e .dead it with deadLetterCount := n } :=
      ⟨fun _ _ => rfl, rfl, rfl, rfl, rfl⟩
    refine inv_of_kept hd (hkept.trans hcount) (hstore.perm (.refl _) ?_)
    simp only [addrs, map_append, map_cons, map_nil, hp, ← append_assoc]
    rw [append_assoc _ [it.ptr]]
    exact perm_middle.symm

/-- Queued items are rewritten in place. -/
theorem touch_inv (hf : Retouch q f) : DeskInv { d with e := mapQueue d.e q f, evs := evs } :=
  ⟨hd.store.mapQueue q hf.key, hd.sorted.map hf, hd.registry⟩

omit hd

/-- Some items are rewritten and the others left alone. -/
theorem retouch_of {g : Item → Item} (hf : Retouch q f) (h : ∀ it, g it = f it ∨ g it = it) :
    Retouch q g := by
  refine ⟨fun it => ?_, fun it => ?_, fun it => ?_, fun hq it => ?_⟩
  all_goals rcases h it with heq | heq <;> rw [heq]
  · exact hf.key it
  · exact hf.mem it
  · exact hf.holds it
  · exact hf.order hq it
  · exact ⟨rfl, rfl⟩

/-- Rewriting the item at one address. -/
theorem retouch_at (hf : Retouch q f) (p : Ptr) : Retouch q fun it => if it.ptr = p then f it else it :=
  retouch_of hf fun _ => ite_eq_or_eq ..

/-- Asking items to stop rewrites them in place. -/
theorem stopItem_retouch (hq : q ≠ .intake) : Retouch q stopItem :=
  ⟨fun _ => rfl, fun _ => rfl, fun _ => rfl, fun h => absurd h hq⟩

/-- An attempt starts. -/
theorem start_inv {starts : List Handle} (hd : DeskInv d) (h : fifoPop d.e .ready = some (it, e₁)) :
    DeskInv { d with e := fifoPush e₁ .running (startItem d.e now it), starts := starts } := by
  have hl := Leaves.head h
  have hkey : key (startItem d.e now it) = key it := rfl
  have hsorted : Sorted e₁ d.stale := by simpa using leaves_sorted hd hl
  refine ⟨(leaves_store hd (by decide) hl).fifoPush (by decide) hkey, hsorted.push (by decide) _, ?_⟩
  show ∀ r ∈ e₁.registry, r < e₁.nextReg
  rw [leaves_rest hl]
  exact hd.registry

/-- Charging the skipped item rewrites it in place. -/
theorem chargeSkip_retouch (p : Ptr) : Retouch .intake (chargeSkip p) := by
  have hf : Retouch .intake fun it => { it with skips := it.skips + 1 } :=
    ⟨fun _ => rfl, fun _ => rfl, fun _ => rfl, fun _ _ => ⟨rfl, rfl⟩⟩
  exact retouch_at hf p

/-- The engine once the skipped item is charged. -/
def charged (e : Engine) (top it : Item) : Engine :=
  if it.ptr = top.ptr then e else mapQueue e .intake (chargeSkip top.ptr)

variable (hd : DeskInv d)

include hd

/-- Charging the skipped item keeps everything, and the other one as it is. -/
theorem charged_inv (top : Item) (hm : it ∈ d.e.q .intake) :
    DeskInv { d with e := charged d.e top it } ∧ it ∈ (charged d.e top it).q .intake := by
  unfold charged
  split_ifs with hp
  · exact ⟨hd, hm⟩
  · refine ⟨touch_inv hd (chargeSkip_retouch top.ptr), ?_⟩
    exact mem_map.mpr ⟨it, hm, if_neg hp⟩

/-- Then the item it chooses leaves intake. -/
theorem charged_leaves (top : Item) (hs : d.stale = false) (hm : it ∈ d.e.q .intake) :
    DeskInv { d with e := charged d.e top it } ∧ Leaves { d with e := charged d.e top it } .intake it
      (intakeUnlink (charged d.e top it) it) false := by
  obtain ⟨hd₀, hm₀⟩ := charged_inv hd top hm
  exact ⟨hd₀, .ordered hm₀ hs⟩

/-- An item is admitted. -/
theorem admission_inv {top : Item} {adm : List Admission} (hs : d.stale = false)
    (hm : it ∈ d.e.q .intake) : DeskInv { d with e := admitted d.e top it snap, admissions := adm } := by
  obtain ⟨hd₀, hl⟩ := charged_leaves hd top hs hm
  have hstore := leaves_store hd₀ (by decide) hl
  have hkey : key { it with resReserved := snap } = key it := rfl
  have hpush := hstore.fifoPush (q := .ready) (by decide) hkey
  refine ⟨hpush, ?_, ?_⟩
  · have hsorted := (leaves_sorted hd₀ hl).push (q := .ready) (by decide) { it with resReserved := snap }
    rw [hs]
    exact hsorted.congr rfl rfl rfl
  · have hreg := hd₀.registry
    exact hreg

/-- New scores keep the items of intake apart. -/
theorem rescored_entered {f : Item → ℤ} :
    Entered ((mapQueue d.e .intake fun it => { it with schedScore := f it }).q .intake)
      d.e.intakeSeq := by
  have h := hd.sorted.entered
  simp only [mapQueue, update_self]
  refine ⟨?_, ?_, ?_⟩
  · intro x hx
    obtain ⟨y, hy, rfl⟩ := mem_map.mp hx
    exact h.stamped y hy
  · rw [map_map]
    exact h.entries
  · rw [map_map]
    exact h.nodup

/-- Intake is rescored and sorted again. -/
theorem rescore_inv {f : Item → ℤ} : DeskInv { d with
    e := intakeResort (mapQueue d.e .intake fun it => { it with schedScore := f it })
    stale := false } := by
  have hmap : StoreInv (mapQueue d.e .intake fun it => { it with schedScore := f it }).toStore
      (d.announced ++ d.picked) (addrs (d.dropped ++ d.handed) ++ d.fresh) :=
    hd.store.mapQueue .intake fun _ => rfl
  have hent := rescored_entered (f := f) hd
  obtain ⟨m, a, k, heq, hperm, hord, -⟩ := intakeResort_spec hent (hmap.layout.rep .intake)
  refine ⟨hmap.intakeResort hent, ?_, ?_⟩
  · refine Sorted.of_ok ?_
    simp only [heq, update_self]
    exact resort_ok hent hperm hord
  · simp only [heq]
    exact hd.registry

/-- Rescoring changes the content of intake only. -/
theorem rescored_eq (f : Item → ℤ) : ∃ m a k,
    intakeResort (mapQueue d.e .intake fun it => { it with schedScore := f it }) =
      { d.e with links := m, anchor := a, q := update d.e.q .intake k, runs := [] } ∧
    k.Perm ((d.e.q .intake).map fun it => { it with schedScore := f it }) := by
  have hmap := hd.store.mapQueue (f := fun it => { it with schedScore := f it }) .intake fun _ => rfl
  obtain ⟨m, a, k, heq, hperm, -⟩ := intakeResort_spec (rescored_entered hd) (hmap.layout.rep .intake)
  refine ⟨m, update d.e.anchor .intake a, k, ?_, ?_⟩
  · rw [heq]
    simp only [mapQueue, update_idem]
  · simpa only [mapQueue, update_self] using hperm

/-- The cache is forgotten. -/
theorem forget_inv : DeskInv { d with e := intakeForget d.e, stale := false } :=
  ⟨hd.store.intakeForget, Sorted.of_ok hd.sorted.forget, hd.registry⟩

/-- The engine record changes outside the items. -/
theorem configure_inv (h : Reconfigured d.e e₁) : DeskInv { d with e := e₁ } := by
  refine ⟨?_, hd.sorted.congr ?_ ?_ ?_, h.registry hd.registry⟩
  · show StoreInv e₁.toStore _ _
    rw [h.store]
    exact hd.store
  · exact congrFun (congrArg Store.q h.store) _
  · exact congrArg Store.runs h.store
  · exact congrArg Store.intakeSeq h.store

/-- Local lists are kept in another order. -/
theorem rearrange_inv (h : Rearranged d d') : DeskInv d' := by
  refine ⟨?_, ?_, ?_⟩
  · rw [h.engine]
    exact hd.store.perm (h.announced.append h.picked)
      (((h.dropped.append h.handed).map _).append h.fresh)
  · rw [h.engine, h.stale]
    exact hd.sorted
  · rw [h.engine]
    exact hd.registry

/-- A submit takes memory. -/
theorem take_inv (hm : d.e.maxItems = 0) (h : d.e.allocated p = false) :
    DeskInv { d with e := takeItem d.e p, fresh := p :: d.fresh } := by
  have hnot : p ∉ d.e.freeItems := by
    rw [hd.store.layout.classic hm]
    exact not_mem_nil
  have hstore := hd.store.takeItem h hnot fun hne => absurd hm hne
  exact inv_of_kept hd (takeItem_kept _ _).toKeptLive (hstore.perm (.refl _) perm_middle.symm)

/-- A submit takes an item of the pool. -/
theorem pool_inv (hs : d.e.sealed = true) (h : poolTake d.e = some (p, e₁)) :
    DeskInv { d with e := e₁, fresh := p :: d.fresh } := by
  have hstore := hd.store.poolTake hs h
  exact inv_of_kept hd (poolTake_kept _ _ h).toKeptLive (hstore.perm (.refl _) perm_middle.symm)

/-- A refused submit gives its memory back. -/
theorem giveBack_inv {rest : List Ptr} (h : d.fresh = p :: rest) :
    DeskInv { d with e := itemFree d.e p, fresh := rest } := by
  have hstore := hd.store
  rw [h] at hstore
  exact inv_of_kept hd (itemFree_kept _ _).toKeptLive
    (hstore.perm (.refl _) perm_middle).itemFree

/-- A submit is accepted. -/
theorem submit_inv {rest : List Ptr} {args : SubmitArgs} {mem : UInt64} {acc : List (Handle × RegId)}
    {ok : Bool} (hf : d.fresh = p :: rest) (hs : d.stale = false) (hr : hidxReserve d.e ok = (e₁, true)) :
    DeskInv { d with
      e := hidxPut (intakeInsert { e₁ with nextHandle := e₁.nextHandle + 1 }
        (newItem e₁ p args r mem)) (newItem e₁ p args r mem)
      fresh := rest
      evs := evs
      accepted := acc } := by
  have hstore := hd.store.hidxReserve ok
  obtain ⟨t, heq, -, hroom⟩ := hidxReserve_spec hd.store.index ok
  have hsorted := hd.sorted.kept (hidxReserve_kept d.e ok).toKeptLive
  rw [hr] at hstore heq hroom hsorted
  rw [hf] at hstore
  rw [hs] at hsorted
  have heq' : e₁ = { d.e with hidx := t } := heq
  have hmiddle : StoreInv e₁.toStore (d.announced ++ d.picked)
      ((newItem e₁ p args r mem).ptr :: (addrs (d.dropped ++ d.handed) ++ rest)) :=
    hstore.perm (.refl _) perm_middle
  have hlen : ((live e₁.toStore ++ (d.announced ++ d.picked)).length + 1) * 2 ≤ e₁.hidx.size := by
    have hroom' := hroom rfl
    rw [length_map] at hroom'
    rw [heq']
    exact hroom'
  have hput := hmiddle.hidxPut hlen rfl
  have hkept := hidxPut_kept { e₁ with nextHandle := e₁.nextHandle + 1 } (newItem e₁ p args r mem)
  have hbase : Sorted { e₁ with nextHandle := e₁.nextHandle + 1 } false := hsorted.congr rfl rfl rfl
  have hok := (hbase.kept hkept.toKeptLive).ok
  have hin : (newItem e₁ p args r mem).ptr ∈ addrs (newItem e₁ p args r mem :: (d.announced ++ d.picked)) ++
      (addrs (d.dropped ++ d.handed) ++ rest) := mem_cons_self
  have hout := hput.layout.not_queued hin .intake
  rw [hidxPut_intakeInsert]
  refine ⟨hput.intakeInsert hok rfl, Sorted.of_ok (intakeInsert_ok hok hout), ?_⟩
  show ∀ k ∈ (hidxPut _ _).registry, k < (hidxPut _ _).nextReg
  rw [hkept.rest, heq']
  exact hd.registry

/-- A bounded engine is sealed. -/
theorem seal_inv {ok : Bool} (hm : d.e.maxItems ≠ 0) (h : boundedSeal d.e ok = .ok e₁) :
    DeskInv { d with e := e₁ } := by
  have hstore := hd.store.boundedSeal hm h
  refine ⟨hstore, ?_, ?_⟩ <;> unfold boundedSeal at h <;> split_ifs at h <;> cases h
  · exact hd.sorted
  · exact hd.sorted.congr rfl rfl rfl
  · exact hd.registry
  · exact hd.registry

omit hd

/-- An item the scan picks is in intake. -/
theorem scanIntake_mem (h : scanIntake e l = .best it) : it ∈ l := by
  induction l with
  | nil => cases h
  | cons x xs ih =>
    rw [scanIntake] at h
    split_ifs at h
    · cases h
      exact mem_cons_self
    · exact mem_cons_of_mem _ (ih h)

/-- An item the scan finds stranded is in intake. -/
theorem scanIntake_stranded_mem (h : scanIntake e l = .stranded it) : it ∈ l := by
  induction l with
  | nil => cases h
  | cons x xs ih =>
    rw [scanIntake] at h
    split_ifs at h
    · cases h
      exact mem_cons_self
    · exact mem_cons_of_mem _ (ih h)

/-- Every act keeps what holds at every desk. -/
theorem act_inv (hd : DeskInv d) (h : Act w d d') : DeskInv d' := by
  cases h with
  | move hq hl hc hk hmem hm hev hland => exact move_inv hd hq hl hc hk hland
  | collect h hq =>
    refine collect_inv hd h ?_
    rcases hq with rfl | rfl | rfl | rfl <;> decide
  | park h => exact park_inv hd h
  | unindex => exact unindex_inv hd
  | drain h => exact drain_inv hd h
  | hand h hk => exact hand_inv hd h hk
  | handOver h => exact handOver_inv hd h
  | touch hf => exact touch_inv hd hf
  | attempt h hf => exact touch_inv hd (retouch_at hf _)
  | start h => exact start_inv hd h
  | admission hs ht hb => exact admission_inv hd hs (scanIntake_mem hb)
  | rescore => exact rescore_inv hd
  | forget => exact forget_inv hd
  | trim => exact inv_of_kept hd (hidxTrim_kept _ _).toKeptLive (hd.store.hidxTrim _)
  | grow => exact inv_of_kept hd (hidxReserve_kept _ _).toKeptLive (hd.store.hidxReserve _)
  | take hm h => exact take_inv hd hm h
  | pool hs h => exact pool_inv hd hs h
  | giveBack h => exact giveBack_inv hd h
  | submit hf hs hc hr => exact submit_inv hd hf hs hr
  | sealing hm h => exact seal_inv hd hm h
  | configure h => exact configure_inv hd h
  | tombstone | halt => exact ⟨hd.store, hd.sorted.congr rfl rfl rfl, hd.registry⟩
  | rearrange h => exact rearrange_inv hd h

/-- Every sequence of acts does. -/
theorem acts_inv (hd : DeskInv d) (h : Acts w d d') : DeskInv d' := by
  induction h with
  | refl => exact hd
  | tail _ hstep ih => exact act_inv ih hstep

end Acts

end Gptps.DeskStore
