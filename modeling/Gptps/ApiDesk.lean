import Gptps.DeskStore

/-!
# The entry points are sequences of acts

Every critical section of a public call or of a worker does a sequence of acts.
Where the code tombstones a type, or begins the shutdown, before it detaches the
work that goes with it, the two are exchanged: neither reads what the other
writes.
-/

namespace Gptps.ApiDesk

open Function ProbeTable EngineState EngineStore EnginePass EngineApi ItemLife IntakeOrder List
open StoreInvariant EngineDesk DeskStore

variable {w : Bool} {q : QId} {e : Engine} {st : Status}

section Moves

variable {d d' : Desk} {q : QId} {it : Item} {e₁ e₂ : Engine}

/-- The first item of a queue other than intake is popped. -/
theorem leaves_head (hq : q ≠ .intake) (h : fifoPop d.e q = some (it, e₁)) :
    Leaves d q it e₁ d.stale := by
  have hl := Leaves.head h
  rwa [decide_eq_false hq, Bool.or_false] at hl

/-- An item of a queue other than intake is unlinked. -/
theorem leaves_inside (hq : q ≠ .intake) (h : it ∈ d.e.q q) :
    Leaves d q it (fifoRemove d.e q it) d.stale := by
  have hl := Leaves.inside h
  rwa [decide_eq_false hq, Bool.or_false] at hl

/-- An item moves without an event. -/
theorem silent_move {b : Bool} {p' : Option Place} (it' : Item) (hq : q ≠ .dead)
    (hl : Leaves d q it e₁ b)
    (hc : Charge e₁ it.toCore (Place.queue q).admitted (p'.any Place.admitted) e₂ it'.resReserved)
    (hk : key it' = key it) (hmem : it'.costMem = it.costMem)
    (hm : Move d.e.reg d.e.stopping (.queue q) it.toCore p' it'.toCore [])
    (hland : Lands { d with e := e₂, stale := b } it' p' d') : Act w d d' := by
  have hrep : Reports [] it.handle [] := rfl
  refine Act.move hq hl hc hk hmem hm hrep ?_
  rw [append_nil]
  exact hland

end Moves

section Attempts

variable {d : Desk} {it : Item} {e' : Engine} {now : ℕ}

/-- A worker passes on what must not be started. -/
theorem takeReady_discard (h : takeReady now d.e = some (e', it)) (hm : mustDiscard d.e it = true) :
    Acts w d { d with e := e' } := by
  obtain ⟨e₁, hpop, ⟨-, rfl⟩ | ⟨hno, -⟩⟩ := takeReady_some h
  · exact .single (silent_move { it with outcome := .cancelled } (by decide)
      (leaves_head (by decide) hpop) (.keep true) rfl rfl (.skip it.toCore hm)
      (.push .done (by decide) (by decide)))
  · cases hno.symm.trans hm

/-- A worker starts an attempt. -/
theorem takeReady_start (h : takeReady now d.e = some (e', it)) (hm : mustDiscard d.e it = false) :
    Acts w d { d with e := e', starts := d.starts ++ [it.handle] } := by
  obtain ⟨e₁, hpop, ⟨hyes, -⟩ | ⟨-, rfl⟩⟩ := takeReady_some h
  · cases hyes.symm.trans hm
  · exact .single (.start hpop hm)

/-- An executed item is posted. -/
theorem postDone_acts (hm : it ∈ d.e.q .running) (hp : it.phase = .reported st) :
    Acts w d { d with e := postDone d.e it st } :=
  .single (silent_move { it with outcome := st, phase := .idle } (by decide)
    (leaves_inside (by decide) hm) (.keep true) rfl rfl (.post it.toCore st hp)
    (.push .done (by decide) (by decide)))

end Attempts

section Submit

variable {d : Desk} {p : Ptr} {rest : List Ptr} {args : SubmitArgs} {e' : Engine}

/-- A refused submit gives its memory back. -/
theorem submitInternal_refused (hf : d.fresh = p :: rest)
    (h : submitInternal d.e p args = (e', .error st)) : Acts w d { d with e := e', fresh := rest } := by
  have hcases := submitInternal_submission d.e p args
  rw [h] at hcases
  cases hcases with
  | refused hgrown =>
    rcases hgrown with rfl | rfl
    · exact .single (.giveBack hf)
    · have hgrow : Act w d { d with e := (hidxReserve d.e args.indexOk).1 } := .grow
      exact (Relation.ReflTransGen.single hgrow).tail (.giveBack hf)

/-- An accepted submit queues its item under the next handle. -/
theorem submitInternal_accepted {it : Item} (hf : d.fresh = p :: rest) (hs : d.stale = false)
    (h : submitInternal d.e p args = (e', .ok it)) :
    Acts w d { d with
      e := e', fresh := rest, evs := d.evs ++ [queuedEv d.e it]
      accepted := d.accepted ++ [(it.handle, it.reg.getD 0)] } := by
  have hcases := submitInternal_submission d.e p args
  rw [h] at hcases
  cases hcases with
  | @accepted r mem e₁ hc hres =>
    have hnext : e₁.nextHandle = d.e.nextHandle := by
      have hkept := hidxReserve_kept d.e args.indexOk
      rw [hres] at hkept
      exact hkept.next
    have hhandle : (newItem e₁ p args r mem).handle = d.e.nextHandle := hnext
    have hev : noteOf (queuedEv d.e (newItem e₁ p args r mem)) = ⟨d.e.nextHandle, .queued, .ok⟩ := by
      rw [← hhandle]
      rfl
    rw [hhandle]
    exact .single (.submit hf hs hc hres hev)

end Submit

section Cancel

variable {d : Desk}

/-- Items of a queue are rewritten where a test holds. -/
theorem touch_of {q : QId} {f g : Item → Item} (hf : Retouch q f) (h : ∀ it, g it = f it ∨ g it = it)
    (hm : ∀ it, (f it).toCore = it.toCore ∨
      Move d.e.reg d.e.stopping (.queue q) it.toCore (some (.queue q)) (f it).toCore []) :
    Act w d { d with e := mapQueue d.e q g } := by
  refine Act.touch (retouch_of hf h) fun it _ => ?_
  rcases h it with heq | heq
  · rw [heq]
    exact hm it
  · rw [heq]
    exact .inl rfl

/-- A stop is requested of some admitted items. -/
theorem stopSome_act {q : QId} {g : Item → Item} (hq : q = .ready ∨ q = .running ∨ q = .done)
    (h : ∀ it, g it = stopItem it ∨ g it = it) : Act w d { d with e := mapQueue d.e q g } := by
  have hne : q ≠ .intake := by rcases hq with rfl | rfl | rfl <;> decide
  exact touch_of (stopItem_retouch hne) h fun it => .inr (.stop it.toCore q hq)

/-- Waiting work is cancelled. -/
theorem cancelWaiting_act {it : Item} {e₁ : Engine} (hq : q = .delayed ∨ q = .intake)
    (hl : Leaves d q it e₁ d.stale) :
    Act w d { d with
      e := itemDrop e₁ it, evs := d.evs ++ [evOf d.e it .failed .cancelled false] } := by
  have hdead : q ≠ .dead := by rcases hq with rfl | rfl <;> decide
  have hrep : Reports [evOf d.e it .failed .cancelled false] it.handle [(.failed, .cancelled)] := rfl
  have hkeep : Charge e₁ it.toCore (Place.queue q).admitted false e₁ it.resReserved := by
    have hout : (Place.queue q).admitted = false := by rcases hq with rfl | rfl <;> rfl
    rw [hout]
    exact .keep false
  refine Act.move hdead hl ?_ rfl rfl (.cancelWaiting it.toCore q hq) hrep .drop
  exact hkeep

/-- A cancel is at most one act. -/
theorem gptpsCancel_acts (h : Handle) (hs : d.stale = false) :
    Acts w d { d with
      e := (gptpsCancel d.e h).1, evs := d.evs ++ (gptpsCancel d.e h).2.2.toList } := by
  have hcases := gptpsCancel_cancels d.e h
  generalize gptpsCancel d.e h = r at hcases ⊢
  cases hcases with
  | refused =>
    rw [Option.toList_none, append_nil]
    exact .refl
  | stop _ _ hq =>
    rw [Option.toList_none, append_nil]
    exact .single (stopSome_act hq fun _ => ite_eq_or_eq ..)
  | @intake it _ _ hit =>
    have hl : Leaves d .intake it (intakeUnlink d.e it) d.stale := by
      rw [hs]
      exact .ordered hit hs
    exact .single (cancelWaiting_act (.inr rfl) hl)
  | delayed _ _ hit => exact .single (cancelWaiting_act (.inl rfl) (leaves_inside (by decide) hit))

end Cancel

/-- A change of the engine record outside the store and the ledger. -/
structure Outside (f : Engine → Engine) : Prop where
  /-- It leaves the store alone. -/
  keeps : ∀ e, (f e).toStore = e.toStore
  /-- It can be made before or after a change of the store. -/
  store : ∀ e s, f { e with toStore := s } = { f e with toStore := s }
  /-- The same for releasing a budget. -/
  release : ∀ e c, release (f e) c = f (release e c)

namespace Outside

variable {f : Engine → Engine}

/-- Unlinking an item. -/
theorem fifoRemove (h : Outside f) (e : Engine) (q : QId) (it : Item) :
    fifoRemove (f e) q it = f (fifoRemove e q it) := by
  unfold EngineStore.fifoRemove
  rw [h.keeps]
  exact (h.store e _).symm

/-- Forgetting the cache. -/
theorem intakeForget (h : Outside f) (e : Engine) : intakeForget (f e) = f (intakeForget e) := by
  unfold EngineStore.intakeForget
  rw [h.keeps]
  exact (h.store e _).symm

/-- Dropping an item from the index. -/
theorem hidxDel (h : Outside f) (e : Engine) (it : Item) : hidxDel (f e) it = f (hidxDel e it) := by
  unfold EngineStore.hidxDel
  rw [h.keeps]
  split_ifs
  · split
    · exact (h.store e _).symm
    · split
      · exact (h.store e _).symm
      · exact (h.store e _).symm
  · rfl

/-- Dropping a list from the index. -/
theorem indexDropList (h : Outside f) (e : Engine) (l : List Item) :
    indexDropList (f e) l = f (indexDropList e l) := by
  unfold EngineStore.indexDropList
  induction l generalizing e with
  | nil => rfl
  | cons it l ih => rw [foldl_cons, foldl_cons, h.hidxDel, ih]

/-- A loop whose steps can. -/
theorem foldl {g : Engine × List Item → Item → Engine × List Item}
    (hg : ∀ e l it, g (f e, l) it = (f (g (e, l) it).1, (g (e, l) it).2)) (k : List Item) (e : Engine)
    (l : List Item) : k.foldl g (f e, l) = (f (k.foldl g (e, l)).1, (k.foldl g (e, l)).2) := by
  induction k generalizing e l with
  | nil => rfl
  | cons it k ih => rw [foldl_cons, foldl_cons, hg, ih]

/-- Detaching items. -/
theorem detachItems (h : Outside f) (q : QId) (picked : Item → Bool) (e : Engine) (l : List Item) :
    detachItems q picked (f e, l) =
      (f (detachItems q picked (e, l)).1, (detachItems q picked (e, l)).2) := by
  unfold EngineApi.detachItems
  rw [h.keeps]
  refine foldl (fun e l it => ?_) _ e l
  by_cases hp : picked it = true
  · rw [detachOne, detachOne, if_pos hp, if_pos hp, h.fifoRemove]
  · rw [detachOne, detachOne, if_neg hp, if_neg hp]

/-- Detaching admitted items. -/
theorem fifoDetachRegAdmitted (h : Outside f) (q : QId) (r : RegId) (e : Engine) (l : List Item) :
    fifoDetachRegAdmitted q r (f e, l) =
      (f (fifoDetachRegAdmitted q r (e, l)).1, (fifoDetachRegAdmitted q r (e, l)).2) := by
  unfold EngineApi.fifoDetachRegAdmitted
  rw [h.keeps]
  refine foldl (fun e l it => ?_) _ e l
  by_cases hp : it.reg = some r
  · rw [detachAdmittedOne, detachAdmittedOne, if_pos hp, if_pos hp, h.fifoRemove, h.release]
  · rw [detachAdmittedOne, detachAdmittedOne, if_neg hp, if_neg hp]

end Outside

/-- Tombstoning a type is such a change. -/
theorem tombstone_outside (r : RegId) (k : Bool) : Outside fun e => tombstone e r k :=
  ⟨fun _ => rfl, fun _ _ => rfl, fun _ _ => rfl⟩

/-- So is the beginning of the shutdown. -/
theorem halt_outside (t : ℕ) :
    Outside fun e => { e with stopping := true, stopDeadlineMs := t } :=
  ⟨fun _ => rfl, fun _ _ => rfl, fun _ _ => rfl⟩

/-- The desk with a call's local list of detached items. -/
def accDesk (d : Desk) (acc : Engine × List Item) (b : Bool) : Desk :=
  { d with e := acc.1, picked := acc.2, stale := b }

/-- A step of a loop that takes the items with a property out of a queue. -/
structure Detaches (q : QId) (P : Item → Bool)
    (g : Engine × List Item → Item → Engine × List Item) : Prop where
  /-- Other items stay. -/
  skips : ∀ acc it, P it = false → g acc it = acc
  /-- One with the property is unlinked. -/
  takes : ∀ acc it, P it = true → (g acc it).1.q = (fifoRemove acc.1 q it).q
  /-- The task types are not touched. -/
  reg : ∀ acc it, (g acc it).1.reg = acc.1.reg
  /-- It is one act. -/
  act : ∀ (w : Bool) d it, P it = true → it ∈ d.e.q q →
    Act w d (accDesk d (g (d.e, d.picked) it) (d.stale || q = .intake))

/-- What such a loop leaves behind. -/
structure Detached (q : QId) (P : Item → Bool) (e e' : Engine) : Prop where
  /-- The other queues. -/
  others : ∀ q' ≠ q, e'.q q' = e.q q'
  /-- Items with the property are gone. -/
  gone : ∀ x ∈ e'.q q, P x = false
  /-- The task types. -/
  reg : e'.reg = e.reg

section Detach

variable {q : QId} {P : Item → Bool} {g : Engine × List Item → Item → Engine × List Item}

/-- The loop over a queue takes every item with the property out of it. -/
theorem detach_frame (hg : Detaches q P g) (k : List Item) (acc : Engine × List Item)
    (hk : ∀ it ∈ k, it ∈ acc.1.q q) (hnd : (k.map (·.ptr)).Nodup)
    (hall : ((acc.1.q q).map (·.ptr)).Nodup) (hrest : ∀ x ∈ acc.1.q q, x ∈ k ∨ P x = false) :
    Detached q P acc.1 (k.foldl g acc).1 := by
  induction k generalizing acc with
  | nil => exact ⟨fun _ _ => rfl, fun x hx => (hrest x hx).resolve_left not_mem_nil, rfl⟩
  | cons it k ih =>
    rw [map_cons, nodup_cons] at hnd
    rw [foldl_cons]
    cases hp : P it with
    | false =>
      rw [hg.skips acc it hp]
      refine ih acc (fun x hx => hk x (mem_cons_of_mem _ hx)) hnd.2 hall ?_
      intro x hx
      rcases hrest x hx with hmem | hno
      · rcases mem_cons.mp hmem with rfl | hmem
        · exact .inr hp
        · exact .inl hmem
      · exact .inr hno
    | true =>
      have hq := hg.takes acc it hp
      have hsame : (g acc it).1.q q = (acc.1.q q).eraseP fun x => x.ptr = it.ptr := by
        rw [hq]
        simp only [EngineStore.fifoRemove, update_self]
      have hin := hk it mem_cons_self
      have hsub : ((g acc it).1.q q).Sublist (acc.1.q q) := hsame ▸ eraseP_sublist
      have hnext := ih (g acc it) ?_ hnd.2 (hall.sublist (hsub.map _)) ?_
      · refine ⟨?_, hnext.gone, hnext.reg.trans (hg.reg acc it)⟩
        intro q' hne
        rw [hnext.others q' hne, hq]
        exact update_of_ne hne _ _
      · rw [hsame]
        exact still_queued hk hnd.1
      · intro x hx
        rcases hrest x (hsub.mem hx) with hmem | hno
        · rcases mem_cons.mp hmem with rfl | hmem
          · rw [hsame] at hx
            exact absurd hx (not_mem_eraseP hall hin)
          · exact .inl hmem
        · exact .inr hno

/-- The loop is a sequence of acts. -/
theorem detach_acts (hg : Detaches q P g) (k : List Item) (d : Desk)
    (hk : ∀ it ∈ k, it ∈ d.e.q q) (hnd : (k.map (·.ptr)).Nodup) :
    ∃ b, Acts w d (accDesk d (k.foldl g (d.e, d.picked)) b) ∧ (q ≠ .intake → b = d.stale) := by
  induction k generalizing d with
  | nil => exact ⟨d.stale, .refl, fun _ => rfl⟩
  | cons it k ih =>
    rw [map_cons, nodup_cons] at hnd
    rw [foldl_cons]
    cases hp : P it with
    | false =>
      rw [hg.skips _ it hp]
      exact ih d (fun x hx => hk x (mem_cons_of_mem _ hx)) hnd.2
    | true =>
      have hact := hg.act w d it hp (hk it mem_cons_self)
      have hq : (g (d.e, d.picked) it).1.q q = (d.e.q q).eraseP fun x => x.ptr = it.ptr := by
        rw [hg.takes _ it hp]
        simp only [EngineStore.fifoRemove, update_self]
      obtain ⟨b, hacts, hb⟩ := ih (accDesk d (g (d.e, d.picked) it) (d.stale || q = .intake))
        (hq ▸ still_queued hk hnd.1) hnd.2
      refine ⟨b, .head hact hacts, ?_⟩
      intro hne
      rw [hb hne]
      show (d.stale || decide (q = .intake)) = d.stale
      rw [decide_eq_false hne, Bool.or_false]

/-- Items that hold no budget. -/
theorem detachOne_detaches (hq : q = .delayed ∨ q = .intake) (P : Item → Bool) :
    Detaches q P (detachOne q P) := by
  refine ⟨?_, ?_, ?_, ?_⟩
  · exact fun acc it hp => if_neg (Bool.eq_false_iff.mp hp)
  · intro acc it hp
    rw [detachOne, if_pos hp]
  · intro acc it
    unfold detachOne
    split_ifs <;> rfl
  · intro w d it hp hm
    rw [detachOne, if_pos hp]
    have hdead : q ≠ .dead := by rcases hq with rfl | rfl <;> decide
    have hkeep : Charge (fifoRemove d.e q it) it.toCore (Place.queue q).admitted false
        (fifoRemove d.e q it) it.resReserved := by
      have hout : (Place.queue q).admitted = false := by rcases hq with rfl | rfl <;> rfl
      rw [hout]
      exact .keep false
    have hmove : Move d.e.reg d.e.stopping (.queue q) it.toCore (some .picked) it.toCore [] :=
      .detach it.toCore q it.resReserved (hq.imp id .inl)
    refine silent_move it hdead (.inside hm) ?_ rfl rfl hmove .pick
    exact hkeep

/-- Items that hold budget. -/
theorem detachAdmittedOne_detaches (hq : q = .ready ∨ q = .done) (r : RegId) :
    Detaches q (fun it => it.reg = some r) (detachAdmittedOne q r) := by
  refine ⟨?_, ?_, ?_, ?_⟩
  · exact fun acc it hp => if_neg (of_decide_eq_false hp)
  · intro acc it hp
    rw [detachAdmittedOne, if_pos (of_decide_eq_true hp)]
    rfl
  · intro acc it
    unfold detachAdmittedOne
    split_ifs <;> rfl
  · intro w d it hp hm
    rw [detachAdmittedOne, if_pos (of_decide_eq_true hp)]
    have hdead : q ≠ .dead := by rcases hq with rfl | rfl <;> decide
    have hrel : Charge (fifoRemove d.e q it) it.toCore (Place.queue q).admitted false
        (release (fifoRemove d.e q it) it.toCore) none := by
      have hin : (Place.queue q).admitted = true := by rcases hq with rfl | rfl <;> rfl
      rw [hin]
      exact .release
    refine silent_move { it with resReserved := none } hdead (.inside hm) ?_ rfl rfl
      (.detach it.toCore q none (.inr (.inr hq))) .pick
    exact hrel

end Detach

/-- Detach the waiting items with a property, as removals and the shutdown do. -/
def detachBacklog (P : Item → Bool) (acc : Engine × List Item) : Engine × List Item :=
  let acc := detachItems .intake P acc
  detachItems .delayed P (intakeForget acc.1, acc.2)

/-- What detaching the backlog leaves behind. -/
structure NoBacklog (P : Item → Bool) (e e' : Engine) : Prop where
  /-- Nothing waiting has the property. -/
  gone : ∀ x ∈ e'.q .intake ++ e'.q .delayed, P x = false
  /-- The other queues. -/
  others : ∀ q, q ≠ .intake → q ≠ .delayed → e'.q q = e.q q
  /-- The task types. -/
  reg : e'.reg = e.reg

section Backlog

variable {d : Desk} {P : Item → Bool}

/-- The addresses of a queue are different. -/
theorem queue_nodup (hd : DeskInv d) (q : QId) : ((d.e.q q).map (·.ptr)).Nodup :=
  (hd.store.layout.rep q).nodup

/-- Detaching items of one waiting queue. -/
theorem detachItems_spec (hd : DeskInv d) (hq : q = .delayed ∨ q = .intake) (P : Item → Bool) :
    (∃ b, Acts w d (accDesk d (detachItems q P (d.e, d.picked)) b) ∧ (q ≠ .intake → b = d.stale)) ∧
      Detached q P d.e (detachItems q P (d.e, d.picked)).1 :=
  ⟨detach_acts (detachOne_detaches hq P) (d.e.q q) d (fun _ h => h) (queue_nodup hd q),
    detach_frame (detachOne_detaches hq P) (d.e.q q) (d.e, d.picked) (fun _ h => h)
      (queue_nodup hd q) (queue_nodup hd q) fun _ h => .inl h⟩

/-- Detaching the admitted items of a type. -/
theorem fifoDetachRegAdmitted_spec (hd : DeskInv d) (hq : q = .ready ∨ q = .done) (r : RegId) :
    Acts w d (accDesk d (fifoDetachRegAdmitted q r (d.e, d.picked)) d.stale) ∧
      Detached q (fun it => it.reg = some r) d.e (fifoDetachRegAdmitted q r (d.e, d.picked)).1 := by
  have hne : q ≠ .intake := by rcases hq with rfl | rfl <;> decide
  obtain ⟨b, hacts, hb⟩ := detach_acts (detachAdmittedOne_detaches hq r) (d.e.q q) d (fun _ h => h)
    (queue_nodup hd q)
  rw [hb hne] at hacts
  exact ⟨hacts, detach_frame (detachAdmittedOne_detaches hq r) (d.e.q q) (d.e, d.picked)
    (fun _ h => h) (queue_nodup hd q) (queue_nodup hd q) fun _ h => .inl h⟩

/-- Detaching the backlog is a sequence of acts. -/
theorem detachBacklog_spec (hd : DeskInv d) (P : Item → Bool) :
    Acts w d (accDesk d (detachBacklog P (d.e, d.picked)) false) ∧
      NoBacklog P d.e (detachBacklog P (d.e, d.picked)).1 := by
  obtain ⟨⟨b, hacts, -⟩, hintake⟩ := detachItems_spec (w := w) hd (.inr rfl) P
  have hforget := hacts.tail .forget
  obtain ⟨⟨b', hacts', hb'⟩, hdelayed⟩ := detachItems_spec (acts_inv hd hforget) (.inl rfl) P
  rw [hb' (by decide)] at hacts'
  refine ⟨hforget.trans hacts', ⟨?_, ?_, ?_⟩⟩
  · intro x hx
    rcases mem_append.mp hx with hx | hx
    · have hsame := hdelayed.others .intake (by decide)
      exact hintake.gone x (hsame ▸ hx)
    · exact hdelayed.gone x hx
  · intro q hi hdel
    exact (hdelayed.others q hdel).trans (hintake.others q hi)
  · exact hdelayed.reg.trans hintake.reg

/-- The backlog can be detached before or after a change outside the store. -/
theorem Outside.detachBacklog {f : Engine → Engine} (h : Outside f) (P : Item → Bool) (e : Engine)
    (l : List Item) : detachBacklog P (f e, l) =
      (f (detachBacklog P (e, l)).1, (detachBacklog P (e, l)).2) := by
  unfold ApiDesk.detachBacklog
  simp only [h.detachItems, h.intakeForget]

/-- Detached items leave the index and become the call's backlog. -/
theorem unindex_acts {acc : Engine × List Item} (h : Acts w d (accDesk d acc false)) :
    Acts w d { d with
      e := indexDropList acc.1 acc.2, picked := [], dropped := d.dropped ++ acc.2, stale := false } :=
  h.tail .unindex

end Backlog

section Unregister

variable {d : Desk} {r : RegId} {e' : Engine} {l : List Item} {mode : RemoveMode} {reentrant : Bool}
  {tid : ℕ} {name : Name}

/-- A type is tombstoned once its backlog is detached. -/
theorem tombstone_acts {acc : Engine × List Item} (ha : d.announced = [])
    (h : Acts w d (accDesk d acc false)) (hreg : acc.1.reg = d.e.reg)
    (hold : (d.e.reg r).removed = false)
    (hgone : ∀ x ∈ acc.1.q .intake ++ acc.1.q .delayed, x.reg ≠ some r) :
    Acts w d { d with
      e := tombstone (indexDropList acc.1 acc.2) r true
      picked := [], dropped := d.dropped ++ acc.2, stale := false } := by
  have hkept := indexDropList_kept acc.1 acc.2
  have hsame : (indexDropList acc.1 acc.2).reg = d.e.reg := by
    rw [← hreg]
    exact (congrArg Engine.reg hkept.rest).trans rfl
  refine (unindex_acts h).tail (.tombstone ha ?_ ?_ ?_)
  · show ((indexDropList acc.1 acc.2).reg r).removed = false
    rw [hsame]
    exact hold
  · intro _
    show ∀ it ∈ (indexDropList acc.1 acc.2).q .intake ++ (indexDropList acc.1 acc.2).q .delayed, _
    rw [hkept.queues]
    exact hgone
  · exact fun _ => .inl rfl

/-- A call that found nothing detached before it and an up-to-date cache leaves them so. -/
theorem restored (hp : d.picked = []) (hs : d.stale = false)
    (h : Acts w d { d with e := e', picked := [], dropped := l, stale := false }) :
    Acts w d { d with e := e', dropped := l } := by
  have hsame : ({ d with e := e', picked := [], dropped := l, stale := false } : Desk) =
      { d with e := e', dropped := l } := by
    cases d
    simp only at hp hs
    subst hp hs
    rfl
  rwa [hsame] at h

/-- The backlog of a type. -/
def ofType (r : RegId) (it : Item) : Bool := it.reg = some r

/-- A type without live items. -/
theorem none_live (h : regLiveRefs e r = 0) : ∀ it ∈ live e.toStore, it.reg ≠ some r := by
  have hzero : ∀ q, fifoCountReg e q r = 0 → ∀ it ∈ e.q q, it.reg ≠ some r := by
    intro q hq it hit hreg
    have hpos : 0 < fifoCountReg e q r := countP_pos_iff.mpr ⟨it, hit, decide_eq_true hreg⟩
    omega
  unfold regLiveRefs at h
  intro it hit
  obtain ⟨q, hq, hm⟩ := mem_live.mp hit
  cases q
  case intake => exact hzero .intake (by omega) it hm
  case delayed => exact hzero .delayed (by omega) it hm
  case ready => exact hzero .ready (by omega) it hm
  case running => exact hzero .running (by omega) it hm
  case done => exact hzero .done (by omega) it hm
  case dead => exact absurd hq (by decide)

/-- A type is tombstoned and its work left to drain. -/
theorem tombstone_drain_acts (ha : d.announced = []) (hold : (d.e.reg r).removed = false)
    (hs : (d.e.reg r).service = true → regLiveRefs d.e r = 0) :
    Acts w d { d with e := tombstone d.e r false, dropped := d.dropped ++ [] } := by
  rw [append_nil]
  refine .single (.tombstone ha hold ?_ ?_)
  · intro h
    cases h
  · exact fun hserv => .inr (none_live (hs hserv))

/-- Tombstoning a type and detaching its backlog can be exchanged. -/
theorem tombstone_backlog (e : Engine) (r : RegId) : fifoDetachReg .delayed r
    (intakeForget (fifoDetachReg .intake r (tombstone e r true, [])).1,
      (fifoDetachReg .intake r (tombstone e r true, [])).2) =
    (tombstone (detachBacklog (ofType r) (e, [])).1 r true, (detachBacklog (ofType r) (e, [])).2) :=
  (tombstone_outside r true).detachBacklog (ofType r) e []

/-- The removal of a type from a MANUAL engine is a sequence of acts. -/
theorem unregisterManual_acts (hd : DeskInv d) (ha : d.announced = []) (hp : d.picked = [])
    (hs : d.stale = false) (hold : (d.e.reg r).removed = false)
    (h : unregisterManual d.e r mode = .ok (e', l)) :
    Acts w d { d with e := e', dropped := d.dropped ++ l } := by
  unfold unregisterManual at h
  have hcom := tombstone_outside r true
  split_ifs at h with hmode hbusy hrefs
  · simp only [tombstone_backlog, hcom.fifoDetachRegAdmitted, hcom.indexDropList] at h
    cases h
    obtain ⟨hacts, hbl⟩ := detachBacklog_spec hd (ofType r)
    rw [hp] at hacts hbl
    obtain ⟨hready, hr⟩ := fifoDetachRegAdmitted_spec (acts_inv hd hacts) (.inl rfl) r
    obtain ⟨hdone, hf⟩ := fifoDetachRegAdmitted_spec (acts_inv hd (hacts.trans hready)) (.inr rfl) r
    refine restored hp hs (tombstone_acts ha ((hacts.trans hready).trans hdone) ?_ hold ?_)
    · exact (hf.reg.trans hr.reg).trans hbl.reg
    · intro x hx
      have hgone : ofType r x = false := by
        refine hbl.gone x ?_
        have hi : _ = (detachBacklog (ofType r) (d.e, [])).1.q .intake :=
          (hf.others .intake (by decide)).trans (hr.others .intake (by decide))
        have hdl : _ = (detachBacklog (ofType r) (d.e, [])).1.q .delayed :=
          (hf.others .delayed (by decide)).trans (hr.others .delayed (by decide))
        rw [← hi, ← hdl]
        exact hx
      exact of_decide_eq_false hgone
  · cases h
    exact tombstone_drain_acts ha hold fun _ => Decidable.not_not.mp hrefs

/-- The removal of a type from a THREADED engine is a sequence of acts. -/
theorem unregisterThreaded_acts (hd : DeskInv d) (ha : d.announced = []) (hp : d.picked = [])
    (hs : d.stale = false) (hold : (d.e.reg r).removed = false)
    (hmode : (d.e.reg r).service = true → mode ≠ .drain)
    (h : unregisterThreaded d.e r mode reentrant = .ok (e', l)) :
    Acts w d { d with e := e', dropped := d.dropped ++ l } := by
  unfold unregisterThreaded at h
  by_cases hcancel : mode = .cancel
  · simp only [if_pos hcancel] at h
    split_ifs at h
    simp only [tombstone_backlog, (tombstone_outside r true).indexDropList] at h
    cases h
    obtain ⟨hacts, hbl⟩ := detachBacklog_spec hd (ofType r)
    rw [hp] at hacts hbl
    have hgone := fun x hx => of_decide_eq_false (hbl.gone x hx)
    have htomb := restored hp hs (tombstone_acts ha hacts hbl.reg hold hgone)
    have hf : Retouch .running fun it => { it with cancel := true } :=
      ⟨fun _ => rfl, fun _ => rfl, fun _ => rfl, fun hq => by cases hq⟩
    exact htomb.tail (touch_of hf (fun _ => ite_eq_or_eq ..) fun _ => .inl rfl)
  · simp only [if_neg hcancel] at h
    split_ifs at h with hbusy
    cases h
    refine tombstone_drain_acts ha hold ?_
    intro hserv
    have hreject : mode = .rejectIfBusy := by
      cases mode
      case rejectIfBusy => rfl
      case drain => exact absurd rfl (hmode hserv)
      case cancel => exact absurd rfl hcancel
    exact Decidable.not_not.mp fun hne => hbusy ⟨hreject, hne⟩

/-- What the first critical section of an unregister went through when it is answered. -/
structure Removing (e : Engine) (tid : ℕ) (name : Name) (mode : RemoveMode) (reentrant : Bool)
    (e' : Engine) (r : RegId) (l : List Item) : Prop where
  /-- The engine takes changes to its registry. -/
  unsealed : boundedSealed e = false
  /-- It is not shutting down. -/
  up : e.stopping = false
  /-- The type is found by its name. -/
  found : registryFind e tid name = some r
  /-- Its registration is complete. -/
  settled : (e.reg r).settling = false
  /-- The branch of the engine's mode was taken. -/
  taken : (e.manual = true ∧ unregisterManual e r (removeMode e r mode) = .ok (e', l)) ∨
    (e.manual = false ∧ unregisterThreaded e r (removeMode e r mode) reentrant = .ok (e', l))

/-- The checks of an unregister. -/
theorem unregisterBegin_ok (h : unregisterBegin e tid name mode reentrant = .ok (e', r, l)) :
    Removing e tid name mode reentrant e' r l := by
  unfold unregisterBegin at h
  split at h
  · cases h
  rename_i hseal
  split at h
  · cases h
  split at h
  · cases h
  rename_i hst
  split at h
  · cases h
  · rename_i k hfind
    split at h
    · cases h
    rename_i hset
    have hmap : ∀ {res : Except Status (Engine × List Item)},
        (res.map fun x => (x.1, k, x.2)) = .ok (e', r, l) → k = r ∧ res = .ok (e', l) := by
      intro res hres
      cases res with
      | error => cases hres
      | ok x =>
        cases hres
        exact ⟨rfl, rfl⟩
    obtain ⟨rfl, hok⟩ := hmap h
    refine ⟨Bool.eq_false_iff.mpr hseal, Bool.eq_false_iff.mpr hst, hfind, Bool.eq_false_iff.mpr hset, ?_⟩
    split_ifs at hok with hman
    · exact .inl ⟨hman, hok⟩
    · exact .inr ⟨Bool.eq_false_iff.mpr hman, hok⟩

/-- The first critical section of an unregister is a sequence of acts. -/
theorem unregisterBegin_acts (hd : DeskInv d) (ha : d.announced = []) (hp : d.picked = [])
    (hs : d.stale = false) (h : unregisterBegin d.e tid name mode reentrant = .ok (e', r, l)) :
    Acts w d { d with e := e', dropped := d.dropped ++ l } := by
  have hok := unregisterBegin_ok h
  have hold := (registryFind_spec hok.found).2
  have hmode : (d.e.reg r).service = true → removeMode d.e r mode ≠ .drain := by
    intro hserv
    unfold removeMode
    split_ifs with hdrain
    · decide
    · exact fun hm => hdrain ⟨hserv, hm⟩
  rcases hok.taken with ⟨-, hres⟩ | ⟨-, hres⟩
  · exact unregisterManual_acts hd ha hp hs hold hres
  · exact unregisterThreaded_acts hd ha hp hs hold hmode hres

end Unregister

section Shutdown

variable {d : Desk} {q : QId} {acc : Engine × List Item}

/-- Stopping the service instances of an admitted queue. -/
theorem stopServices_act (e : Engine) (hq : q = .ready ∨ q = .running ∨ q = .done) :
    Act w d { d with e := mapQueue d.e q (stopService e) } :=
  stopSome_act hq fun _ => ite_eq_or_eq ..

/-- The service instances of a rewritten queue are stopped. -/
theorem stopService_cancelled {l : List Item} {it : Item} (hit : it ∈ l.map (stopService e))
    (hserv : isService e it.toCore = true) : it.cancelled = true := by
  obtain ⟨x, -, rfl⟩ := mem_map.mp hit
  by_cases hx : isService e x.toCore = true
  · rw [stopService, if_pos hx]
    rfl
  · rw [stopService, if_neg hx] at hserv
    exact absurd hserv hx

/-- The engine with every admitted service instance stopped. -/
def stopAdmitted (e : Engine) : Engine :=
  mapQueue (mapQueue (mapQueue e .running (stopService e)) .ready (stopService e)) .done (stopService e)

/-- Detaching items leaves the task types alone. -/
theorem detachItems_reg (q : QId) (P : Item → Bool) (acc : Engine × List Item) :
    (detachItems q P acc).1.reg = acc.1.reg := by
  unfold detachItems
  generalize acc.1.q q = k
  induction k generalizing acc with
  | nil => rfl
  | cons it k ih =>
    rw [foldl_cons, ih]
    unfold detachOne
    split_ifs <;> rfl

/-- Which items are service instances is a matter of the task types. -/
theorem fifoDetachServices_eq (q : QId) (h : acc.1.reg = e.reg) :
    fifoDetachServices q acc = detachItems q (fun it => isService e it.toCore) acc := by
  have hsame : (fun it : Item => isService acc.1 it.toCore) = fun it => isService e it.toCore := by
    funext it
    rw [isService, isService, regOf, regOf, h]
  rw [fifoDetachServices, hsame]

/-- `stop_services` in terms of the backlog. -/
theorem stopServices_eq (e : Engine) : stopServices e =
    (indexDropList (detachBacklog (fun it => isService e it.toCore) (stopAdmitted e, [])).1
        (detachBacklog (fun it => isService e it.toCore) (stopAdmitted e, [])).2,
      (detachBacklog (fun it => isService e it.toCore) (stopAdmitted e, [])).2) := by
  have hintake : fifoDetachServices .intake (stopAdmitted e, []) =
      detachItems .intake (fun it => isService e it.toCore) (stopAdmitted e, []) :=
    fifoDetachServices_eq .intake rfl
  unfold stopServices
  simp only
  rw [← stopAdmitted, hintake, fifoDetachServices_eq (e := e) .delayed (detachItems_reg _ _ _)]
  rfl

/-- The admitted queues once the service instances are stopped. -/
theorem stopAdmitted_q (hq : q = .ready ∨ q = .running ∨ q = .done) :
    (stopAdmitted e).q q = (e.q q).map (stopService e) := by
  rcases hq with rfl | rfl | rfl
  · rfl
  · rfl
  · rfl

/-- The beginning of the shutdown in terms of the backlog. -/
theorem shutdownBegin_eq (e : Engine) (now : ℕ) : ∃ t, shutdownBegin e now =
    ({ indexDropList (detachBacklog (fun it => isService e it.toCore) (stopAdmitted e, [])).1
        (detachBacklog (fun it => isService e it.toCore) (stopAdmitted e, [])).2 with
      stopping := true, stopDeadlineMs := t },
      (detachBacklog (fun it => isService e it.toCore) (stopAdmitted e, [])).2) := by
  refine ⟨if e.shutdownGraceMs ≠ 0 then now + e.shutdownGraceMs else 0, ?_⟩
  have hcom := halt_outside (if e.shutdownGraceMs ≠ 0 then now + e.shutdownGraceMs else 0)
  have hback := hcom.detachBacklog (fun it => isService e it.toCore) (stopAdmitted e) []
  have hdrop := hcom.indexDropList
    (detachBacklog (fun it => isService e it.toCore) (stopAdmitted e, [])).1
    (detachBacklog (fun it => isService e it.toCore) (stopAdmitted e, [])).2
  rw [shutdownBegin, stopServices_eq, ← hdrop]
  exact congrArg (fun acc : Engine × List Item => (indexDropList acc.1 acc.2, acc.2)) hback

/-- The beginning of the shutdown is a sequence of acts. -/
theorem shutdownBegin_acts (now : ℕ) (hd : DeskInv d) (ha : d.announced = []) (hp : d.picked = [])
    (hs : d.stale = false) :
    Acts w d { d with
      e := (shutdownBegin d.e now).1, dropped := d.dropped ++ (shutdownBegin d.e now).2 } := by
  have hstop : Acts w d { d with e := stopAdmitted d.e } :=
    ((Relation.ReflTransGen.single (stopServices_act d.e (.inr (.inl rfl)))).tail
      (stopServices_act d.e (.inl rfl))).tail (stopServices_act d.e (.inr (.inr rfl)))
  obtain ⟨hacts, hbl⟩ := detachBacklog_spec (acts_inv hd hstop) fun it => isService d.e it.toCore
  simp only [hp] at hstop hacts hbl
  obtain ⟨t, heq⟩ := shutdownBegin_eq d.e now
  rw [heq]
  generalize detachBacklog (fun it => isService d.e it.toCore) (stopAdmitted d.e, []) = acc at hacts hbl ⊢
  have hkept := indexDropList_kept acc.1 acc.2
  have hreg : (indexDropList acc.1 acc.2).reg = d.e.reg :=
    ((congrArg Engine.reg hkept.rest).trans rfl).trans hbl.reg
  have hserv : ∀ c, isService (indexDropList acc.1 acc.2) c = isService d.e c := by
    intro c
    rw [isService, isService, regOf, regOf, hreg]
  refine restored hp hs ((hstop.trans (unindex_acts hacts)).tail (.halt ha ?_ ?_))
  · intro it hit
    rw [hserv]
    rw [hkept.queues] at hit
    exact hbl.gone it hit
  · intro it hit hsv
    rw [hserv] at hsv
    rw [hkept.queues, hbl.others .ready (by decide) (by decide),
      hbl.others .running (by decide) (by decide), hbl.others .done (by decide) (by decide)] at hit
    simp only [mem_append] at hit
    rcases hit with (hit | hit) | hit
    · exact stopService_cancelled (stopAdmitted_q (.inl rfl) ▸ hit) hsv
    · exact stopService_cancelled (stopAdmitted_q (.inr (.inl rfl)) ▸ hit) hsv
    · exact stopService_cancelled (stopAdmitted_q (.inr (.inr rfl)) ▸ hit) hsv

/-- Emptying a queue into a local list is a sequence of acts. -/
theorem takeAll_acts (hq : q = .delayed ∨ q = .intake ∨ q = .ready ∨ q = .done) (fuel : ℕ) (d : Desk) :
    ∃ b, Acts true d (accDesk d (takeAll q fuel (d.e, d.picked)) b) ∧
      (q ≠ .intake → b = d.stale) := by
  induction fuel generalizing d with
  | zero => exact ⟨d.stale, .refl, fun _ => rfl⟩
  | succ fuel ih =>
    rw [takeAll]
    simp only
    cases hpop : fifoPop d.e q with
    | none => exact ⟨d.stale, .refl, fun _ => rfl⟩
    | some r =>
      obtain ⟨b, hacts, hb⟩ := ih { d with
        e := r.2, picked := d.picked ++ [r.1], stale := d.stale || q = .intake }
      refine ⟨b, .head (.collect hpop hq rfl) hacts, ?_⟩
      intro hne
      rw [hb hne, decide_eq_false hne, Bool.or_false]

/-- Emptying a queue leaves nothing in it and the others as they are. -/
theorem takeAll_q (fuel : ℕ) (acc : Engine × List Item) (hf : (acc.1.q q).length ≤ fuel) :
    (takeAll q fuel acc).1.q = update acc.1.q q [] := by
  induction fuel generalizing acc with
  | zero =>
    have hnil : acc.1.q q = [] := length_eq_zero_iff.mp (Nat.le_zero.mp hf)
    rw [takeAll, ← hnil, update_eq_self]
  | succ fuel ih =>
    rw [takeAll]
    cases hpop : fifoPop acc.1 q with
    | none =>
      rw [← fifoPop_none hpop]
      exact (update_eq_self _ _).symm
    | some r =>
      obtain ⟨rest, hcons, hrest⟩ := fifoPop_q hpop
      have hlen : (r.2.q q).length ≤ fuel := by
        rw [hrest, update_self]
        rw [hcons, length_cons] at hf
        omega
      rw [ih (r.2, acc.2 ++ [r.1]) hlen, hrest, update_idem]

/-- A queue that is empty already gives nothing. -/
theorem emptyQueue_nil (h : acc.1.q q = []) : emptyQueue q acc = acc := by
  rw [emptyQueue, h]
  rfl

/-- What the final collection leaves in the queues. -/
theorem shutdownCollect_q (e : Engine) : (shutdownCollect e).1.q =
    update (update (update (update (update e.q .intake []) .delayed []) .ready []) .done [])
      .running [] := by
  have hempty : ∀ q (acc : Engine × List Item), (emptyQueue q acc).1.q = update acc.1.q q [] :=
    fun q acc => takeAll_q _ acc le_rfl
  unfold shutdownCollect
  simp only
  rw [(indexDropList_kept _ _).queues, hempty, hempty, hempty, hempty]
  exact congrArg (fun f => update (update (update (update f _ _) _ _) _ _) _ _) (hempty .intake (e, []))

/-- Emptying one queue more. -/
theorem emptyQueue_acts (hq : q = .delayed ∨ q = .ready ∨ q = .done)
    (h : Acts true d (accDesk d acc false)) : Acts true d (accDesk d (emptyQueue q acc) false) := by
  have hne : q ≠ .intake := by rcases hq with rfl | rfl | rfl <;> decide
  obtain ⟨b, hacts, hb⟩ := takeAll_acts (hq.imp id .inr) (acc.1.q q).length (accDesk d acc false)
  rw [hb hne] at hacts
  exact h.trans hacts

/-- The final collection, with nothing running, is a sequence of acts. -/
theorem shutdownCollect_acts (hr : d.e.q .running = []) (hp : d.picked = []) (hs : d.stale = false) :
    Acts true d { d with
      e := (shutdownCollect d.e).1, dropped := d.dropped ++ (shutdownCollect d.e).2 } := by
  obtain ⟨b, hintake, -⟩ := takeAll_acts (.inr (.inl rfl)) (d.e.q .intake).length d
  rw [hp] at hintake
  have hforget : Acts true d (accDesk d (intakeForget (emptyQueue .intake (d.e, [])).1,
      (emptyQueue .intake (d.e, [])).2) false) := hintake.tail .forget
  have hall := emptyQueue_acts (.inr (.inr rfl)) (emptyQueue_acts (.inr (.inl rfl))
    (emptyQueue_acts (.inl rfl) hforget))
  have hrun : (emptyQueue .done (emptyQueue .ready (emptyQueue .delayed
      (intakeForget (emptyQueue .intake (d.e, [])).1,
        (emptyQueue .intake (d.e, [])).2)))).1.q .running = [] := by
    have hempty : ∀ q ≠ QId.running, ∀ acc : Engine × List Item,
        (emptyQueue q acc).1.q .running = acc.1.q .running := by
      intro q hq acc
      have hq' := congrFun (takeAll_q (q := q) _ acc le_rfl) .running
      rwa [update_of_ne (Ne.symm hq)] at hq'
    rw [hempty .done (by decide), hempty .ready (by decide), hempty .delayed (by decide)]
    exact (hempty .intake (by decide) (d.e, [])).trans hr
  have hfinal := restored hp hs (unindex_acts hall)
  unfold shutdownCollect
  simp only
  rw [emptyQueue_nil hrun]
  exact hfinal

end Shutdown

section DeadLetters

/-- Taking the retained list is a sequence of acts. -/
theorem deadLetterTake_acts (nameOk : Ptr → Bool) (named : Bool) (fuel : ℕ) (d : Desk) :
    Acts w d { d with
      e := (deadLetterTake nameOk named fuel (d.e, d.handed)).1
      handed := (deadLetterTake nameOk named fuel (d.e, d.handed)).2 } := by
  induction fuel generalizing d with
  | zero => exact .refl
  | succ fuel ih =>
    rw [deadLetterTake]
    simp only
    cases hpop : fifoPop d.e .dead with
    | none => exact .refl
    | some r =>
      simp only
      split_ifs with hname hn
      · have hcore : r.1.toCore = { r.1.toCore with reg := r.1.reg } := rfl
        exact .head (.hand hpop rfl hcore (.inl rfl)) (ih _)
      · have hkey : key (itemOwnName d.e r.1) = key r.1 := rfl
        have hcore : (itemOwnName d.e r.1).toCore = { r.1.toCore with reg := none } := rfl
        exact .head (.hand hpop hkey hcore (.inr rfl)) (ih _)
      · exact .refl

/-- A fuller list is taken behind what is in hand already. -/
theorem deadLetterTake_append (nameOk : Ptr → Bool) (named : Bool) (fuel : ℕ) (e : Engine)
    (l k : List Item) : deadLetterTake nameOk named fuel (e, l ++ k) =
      ((deadLetterTake nameOk named fuel (e, k)).1, l ++ (deadLetterTake nameOk named fuel (e, k)).2) := by
  induction fuel generalizing e k with
  | zero => rfl
  | succ fuel ih =>
    rw [deadLetterTake, deadLetterTake]
    simp only
    cases fifoPop e .dead with
    | none => rfl
    | some r =>
      simp only
      split_ifs
      · rw [append_assoc, ih]
      · rw [append_assoc, ih]
      · rfl

/-- A drain taking the retained list is a sequence of acts. -/
theorem deadLetterDrain_acts (cb : Bool) (nameOk : Ptr → Bool) (d : Desk) :
    Acts w d { d with
      e := (deadLetterDrain d.e cb nameOk).1, handed := d.handed ++ (deadLetterDrain d.e cb nameOk).2 } := by
  have hacts := deadLetterTake_acts (w := w) nameOk (!cb || boundedSealed d.e) (d.e.q .dead).length d
  have happ := deadLetterTake_append nameOk (!cb || boundedSealed d.e) (d.e.q .dead).length d.e
    d.handed []
  rw [append_nil] at happ
  rw [happ] at hacts
  exact hacts

/-- A drain frees the items it has handed over. -/
theorem handOver_acts (l k : List Item) (d : Desk) (h : d.handed = l ++ k) :
    Acts w d { d with e := l.foldl (fun e it => itemFree e it.ptr) d.e, handed := k } := by
  induction l generalizing d with
  | nil =>
    have hsame : ({ d with handed := k } : Desk) = d := by
      rw [nil_append] at h
      rw [← h]
    rw [foldl_nil, hsame]
    exact .refl
  | cons it l ih =>
    exact .head (.handOver h) (ih { d with
      e := itemFree d.e it.ptr, handed := l ++ k } rfl)

/-- Dead letters are made to own their names. -/
theorem ownDeadLetters_act (d : Desk) (r : RegId) (nameOk : Ptr → Bool) :
    Act w d { d with e := mapQueue d.e .dead (ownDeadLetter d.e r nameOk) } := by
  have hf : Retouch .dead (itemOwnName d.e) :=
    ⟨fun _ => rfl, fun _ => rfl, fun _ => rfl, fun h => by cases h⟩
  exact touch_of hf (fun _ => ite_eq_or_eq ..) fun it => .inr (.orphan it.toCore)

/-- Emptying the retained list is a sequence of acts. -/
theorem takeDead_acts (fuel : ℕ) (d : Desk) : Acts w d { d with
    e := (takeAll .dead fuel (d.e, d.handed)).1, handed := (takeAll .dead fuel (d.e, d.handed)).2 } := by
  induction fuel generalizing d with
  | zero => exact .refl
  | succ fuel ih =>
    rw [takeAll]
    simp only
    cases hpop : fifoPop d.e .dead with
    | none => exact .refl
    | some r =>
      have hcore : r.1.toCore = { r.1.toCore with reg := r.1.reg } := rfl
      have hact := Act.hand (w := w) (n := r.2.deadLetterCount) hpop rfl hcore (.inl rfl)
      exact .head hact (ih { d with e := r.2, handed := d.handed ++ [r.1] })

end DeadLetters

section Configure

variable {d : Desk} {e' : Engine} {e : Engine}

/-- A change of settings that rewrites no type's kind. -/
theorem reconfigured_reg {reg : RegId → Reg} (hk : ∀ r, SameKind (reg r) (e.reg r)) :
    Reconfigured e { e with reg := reg } :=
  { store := rfl, mem := rfl, running := rfl, resources := ⟨0, (append_nil _).symm⟩
    kinds := fun r _ => hk r, more := le_rfl, added := fun _ h h' => absurd h (not_lt_of_ge h')
    stopping := rfl, manual := rfl, registry := fun h => h }

/-- Rewriting one type without touching its kind. -/
theorem updReg_reconfigured (e : Engine) (r : RegId) (f : Reg → Reg) (hf : ∀ g, SameKind (f g) g) :
    Reconfigured e (updReg e r f) := by
  refine reconfigured_reg ?_
  intro k
  by_cases hk : k = r
  · subst hk
    rw [update_self]
    exact hf _
  · rw [update_of_ne hk]
    exact ⟨rfl, rfl, rfl, rfl⟩

/-- A change that keeps the task types and what is reserved. -/
theorem reconfigured_same (hstore : e'.toStore = e.toStore) (hmem : e'.reservedMem = e.reservedMem)
    (hrun : e'.running = e.running) (hres : e'.resources.map (·.reserved) = e.resources.map (·.reserved))
    (hreg : e'.reg = e.reg) (hnext : e'.nextReg = e.nextReg) (hstop : e'.stopping = e.stopping)
    (hman : e'.manual = e.manual) (hlist : ∀ r ∈ e'.registry, r ∈ e.registry) : Reconfigured e e' :=
  { store := hstore, mem := hmem, running := hrun
    resources := ⟨0, by rw [hres, replicate_zero, append_nil]⟩
    kinds := fun r _ => by rw [hreg]; exact ⟨rfl, rfl, rfl, rfl⟩
    more := le_of_eq hnext.symm
    added := fun _ h h' => absurd (hnext ▸ h) (not_lt_of_ge h')
    stopping := hstop, manual := hman
    registry := fun h r hr => hnext ▸ h r (hlist r hr) }

/-- A new type is linked in. -/
theorem linkIn_reconfigured (e : Engine) {g : Reg} (hg : g.cancelling = false) :
    Reconfigured e { e with
      reg := update e.reg e.nextReg g, nextReg := e.nextReg + 1
      registry := e.nextReg :: e.registry } := by
  refine { store := rfl, mem := rfl, running := rfl, resources := ⟨0, (append_nil _).symm⟩
           kinds := ?_, more := Nat.le_succ _, added := ?_, stopping := rfl, manual := rfl
           registry := ?_ }
  · intro k hk
    simp only [update_of_ne (ne_of_lt hk)]
    exact ⟨rfl, rfl, rfl, rfl⟩
  · intro k hk hle
    have heq : k = e.nextReg := le_antisymm (Nat.le_of_lt_succ hk) hle
    simp only [heq, update_self, hg]
  · intro hreg k hk
    rcases mem_cons.mp hk with rfl | hk
    · exact Nat.lt_succ_self _
    · exact Nat.lt_succ_of_lt (hreg k hk)

/-- A registration links its type in. -/
theorem registerTask_reconfigured {tid : ℕ} {t : TaskDef} {r : RegId}
    (h : registerTask e tid t = .ok (e', r)) : Reconfigured e e' := by
  unfold registerTask at h
  iterate 5
    split at h
    · cases h
  cases h
  exact linkIn_reconfigured e rfl

/-- A registration is taken back. -/
theorem registerTaskUndo_reconfigured (e : Engine) (r : RegId) :
    Reconfigured e (registerTaskUndo e r) :=
  reconfigured_same rfl rfl rfl rfl rfl rfl rfl rfl fun _ h => (mem_filter.mp h).1

/-- A resource gets another budget. -/
theorem resRebudget_reconfigured (e : Engine) (name : Name) (budget : UInt64) :
    Reconfigured e (resRebudget e name budget) := by
  refine reconfigured_same rfl rfl rfl ?_ rfl rfl rfl rfl fun _ h => h
  simp only [resRebudget, map_map]
  refine map_congr_left ?_
  intro x _
  simp only [Function.comp_apply]
  split_ifs <;> rfl

/-- A resource is published. -/
theorem publishResource_reconfigured (e : Engine) (name : Name) (budget : UInt64) :
    Reconfigured e (publishResource e name budget) := by
  refine { store := rfl, mem := rfl, running := rfl, resources := ⟨1, ?_⟩, kinds := ?_
           more := le_rfl, added := fun _ h h' => absurd h (not_lt_of_ge h'), stopping := rfl
           manual := rfl, registry := fun h => h }
  · simp only [publishResource, map_append]
    rfl
  · intro r _
    simp only [publishResource]
    split_ifs <;> exact ⟨rfl, rfl, rfl, rfl⟩

/-- A definition is published. -/
theorem defineResource_reconfigured {name : Name} {budget : UInt64}
    (h : defineResource e name budget = .ok e') : Reconfigured e e' := by
  unfold defineResource at h
  split_ifs at h
  · cases h
    exact resRebudget_reconfigured e name budget
  · cases h
    exact publishResource_reconfigured e name budget

/-- A cost is written. -/
theorem setCost_reconfigured (e : Engine) (r : RegId) (i : ℕ) (amount : UInt64) :
    Reconfigured e (setCost e r i amount) := updReg_reconfigured e r _ fun _ => ⟨rfl, rfl, rfl, rfl⟩

/-- A setting is applied. -/
theorem applySetting_reconfigured (e : Engine) (x : Setting) : Reconfigured e (applySetting e x) := by
  cases x with
  | budget i v =>
    refine reconfigured_same rfl rfl rfl ?_ rfl rfl rfl rfl fun _ h => h
    simp only [applySetting]
    induction e.resources generalizing i with
    | nil => simp
    | cons x xs ih =>
      cases i with
      | zero => rfl
      | succ i => simpa using ih i
  | resCost r i v => exact setCost_reconfigured e r i v
  | policy r p =>
    exact updReg_reconfigured e r (fun g => { g with defaultPolicy := p }) fun _ => ⟨rfl, rfl, rfl, rfl⟩
  | mem r v =>
    exact updReg_reconfigured e r (fun g => { g with defaultMem := v }) fun _ => ⟨rfl, rfl, rfl, rfl⟩
  | priority r v =>
    exact updReg_reconfigured e r (fun g => { g with priority := v }) fun _ => ⟨rfl, rfl, rfl, rfl⟩
  | enabled r v =>
    exact updReg_reconfigured e r (fun g => { g with enabled := v }) fun _ => ⟨rfl, rfl, rfl, rfl⟩
  | _ => exact reconfigured_same rfl rfl rfl rfl rfl rfl rfl rfl fun _ h => h

/-- A cost is set by name. -/
theorem setTaskResourceCost_acts (tid : ℕ) (task resource : Name) (amount : UInt64) :
    Acts w d { d with e := (setTaskResourceCost d.e tid task resource amount).1 } := by
  unfold setTaskResourceCost
  split
  · exact .refl
  · split
    · exact .refl
    · exact .single (.configure (setCost_reconfigured _ _ _ _))

/-- The last critical section of an unregister is a sequence of acts. -/
theorem unregisterEnd_acts (r : RegId) (nameOk : Ptr → Bool) :
    Acts w d { d with e := unregisterEnd d.e r nameOk } := by
  refine (Relation.ReflTransGen.single (ownDeadLetters_act d r nameOk)).tail (.configure ?_)
  unfold unregisterEnd
  simp only
  split_ifs
  · exact reconfigured_same rfl rfl rfl rfl rfl rfl rfl rfl fun _ h => (mem_filter.mp h).1
  · exact reconfigured_same rfl rfl rfl rfl rfl rfl rfl rfl fun _ h => (mem_filter.mp h).1

/-- Freeing types changes nothing but which of them are freed. -/
theorem regDestroy_foldl (l : List RegId) (e : Engine) :
    l.foldl regDestroy e = { e with freed := (l.foldl regDestroy e).freed } := by
  induction l generalizing e with
  | nil => rfl
  | cons r l ih =>
    rw [foldl_cons, ih]
    rfl

/-- Freeing items leaves the queues alone. -/
theorem itemFree_foldl_q (l : List Item) (e : Engine) :
    (l.foldl (fun e it => itemFree e it.ptr) e).q = e.q := by
  induction l generalizing e with
  | nil => rfl
  | cons it l ih => rw [foldl_cons, ih, (itemFree_kept e it.ptr).queues]

/-- The end of the shutdown leaves no dead letter. -/
theorem shutdownFree_q (e : Engine) : (shutdownFree e).q = update e.q .dead [] := by
  unfold shutdownFree
  simp only
  rw [regDestroy_foldl]
  exact (itemFree_foldl_q _ _).trans (takeAll_q _ (e, []) le_rfl)

/-- The end of the shutdown is a sequence of acts. -/
theorem shutdownFree_acts (hh : d.handed = []) : Acts w d { d with e := shutdownFree d.e } := by
  have htake := takeDead_acts (w := w) (d.e.q .dead).length d
  rw [hh] at htake
  have hfree := handOver_acts (w := w) (takeAll .dead (d.e.q .dead).length (d.e, [])).2 [] { d with
    e := (takeAll .dead (d.e.q .dead).length (d.e, [])).1
    handed := (takeAll .dead (d.e.q .dead).length (d.e, [])).2 } (append_nil _).symm
  have hends := htake.trans hfree
  have hsame : ({ d with
      e := (takeAll .dead (d.e.q .dead).length (d.e, [])).2.foldl (fun e it => itemFree e it.ptr)
        (takeAll .dead (d.e.q .dead).length (d.e, [])).1
      handed := [] } : Desk) = { d with
      e := (takeAll .dead (d.e.q .dead).length (d.e, [])).2.foldl (fun e it => itemFree e it.ptr)
        (takeAll .dead (d.e.q .dead).length (d.e, [])).1 } := by
    rw [← hh]
  rw [hsame] at hends
  refine hends.tail (.configure ?_)
  unfold shutdownFree
  simp only
  rw [regDestroy_foldl]
  exact reconfigured_same rfl rfl rfl rfl rfl rfl rfl rfl (forall_mem_nil _)

end Configure

end Gptps.ApiDesk
