import Gptps.ItemLife

/-!
# What the events of an item add up to

Consequences of the balance between closing events and debts, along whole
sequences of steps: a closed handle is never attempted again, a stopped item
reports nothing but the end of its attempt and its cancellation, and as many
attempts of an item started as ended, but for the one under way.
-/

namespace Gptps.ItemHistory

open EngineState ItemLife List

variable {L L' : Life} {q p : Place} {h : Handle} {c : Core} {x : Place × Core}
  {rest : Multiset (Place × Core)}

/-- Events are never taken back. -/
theorem notes_le (h : Step L L') : L.notes ≤ L'.notes := by
  cases h with
  | move => exact Multiset.le_add_left _ _
  | submit => exact Multiset.le_cons_self _ _
  | start | tombstone | halt | retype => exact le_refl _

/-- Accepted submits stay accepted. -/
theorem accepted_le (h : Step L L') : L.accepted ≤ L'.accepted := by
  cases h with
  | submit => exact Multiset.le_cons_self _ _
  | _ => exact le_refl _

/-- A type keeps telling whether its instances are always up. -/
theorem upType_eq (h : Step L L') {r : RegId} (hr : r < L.nextReg) :
    upType L'.reg r = upType L.reg r := by
  cases h with
  | tombstone t k =>
    obtain ⟨hs, ho⟩ := tombstoned_kind L.reg t r k
    rw [upType, upType, hs, ho]
  | retype reg n hk =>
    obtain ⟨hs, ho, -⟩ := hk r hr
    rw [upType, upType, hs, ho]
  | move | start | submit | halt => rfl

/-- Where an item comes from in a step. -/
inductive Origin (L L' : Life) (x : Place × Core) : Prop
  /-- It was there. -/
  | stayed (hx : x ∈ L.items)
  /-- It made a transition. -/
  | moved {p : Place} {c : Core} {ns : List (EvKind × Status)} (hmem : (p, c) ∈ L.items)
      (hm : Move L.reg L.stopping p c (some x.1) x.2 ns) (hreg : L'.reg = L.reg)
      (hstop : L'.stopping = L.stopping)
  /-- An attempt of it started. -/
  | started {c : Core} (hmem : (.queue .ready, c) ∈ L.items) (hs : unstartable L.reg c = false)
      (hx : x = (.queue .running, { c with started := true, phase := .begun }))
  /-- It was submitted. -/
  | entered (hx : x.1 = .queue .intake) (hh : x.2.handle = L.next)

theorem step_origin (h : Step L L') (hx : x ∈ L'.items) : Origin L L' x := by
  cases h with
  | move rest p c p' c' ns hi hm =>
    rcases mem_settle.mp hx with ⟨q, rfl, rfl⟩ | hx
    · exact .moved (hi ▸ Multiset.mem_cons_self _ _) hm rfl rfl
    · exact .stayed (hi ▸ Multiset.mem_cons_of_mem hx)
  | start rest c hi hs =>
    rcases Multiset.mem_cons.mp hx with rfl | hx
    · exact .started (hi ▸ Multiset.mem_cons_self _ _) hs rfl
    · exact .stayed (hi ▸ Multiset.mem_cons_of_mem hx)
  | submit c r hst hh =>
    rcases Multiset.mem_cons.mp hx with rfl | hx
    · exact .entered rfl hh
    · exact .stayed hx
  | tombstone | halt | retype => exact .stayed hx

/-- Handles are not given out again, and a shutdown is not taken back. -/
theorem step_onward (h : Step L L') :
    L.next ≤ L'.next ∧ (L.stopping = true → L'.stopping = true) := by
  cases h with
  | submit => exact ⟨Nat.le_succ _, id⟩
  | halt => exact ⟨le_refl _, fun _ => rfl⟩
  | move | start | tombstone | retype => exact ⟨le_refl _, id⟩

/-- No attempt starts of an item that is not admitted or must not be started. -/
theorem step_starts (hstep : Step L L')
    (h : ∀ c, (Place.queue .ready, c) ∈ L.items → c.handle = a → unstartable L.reg c = true) :
    L'.starts.count a = L.starts.count a := by
  cases hstep with
  | start rest c hi hs =>
    refine Multiset.count_cons_of_ne (fun he => ?_) _
    rw [h c (hi ▸ Multiset.mem_cons_self _ _) he.symm] at hs
    cases hs
  | _ => rfl

/-- What was said stays said. -/
theorem steps_notes_le (h : Relation.ReflTransGen Step L L') : L.notes ≤ L'.notes := by
  induction h with
  | refl => exact le_refl _
  | tail _ hstep ih => exact ih.trans (notes_le hstep)

/-- An accepted submit stays accepted, and its type of its kind. -/
theorem accepted_forever (h : Inv L) (hsteps : Relation.ReflTransGen Step L L')
    {a : Handle × RegId} (ha : a ∈ L.accepted) :
    a ∈ L'.accepted ∧ upType L'.reg a.2 = upType L.reg a.2 := by
  induction hsteps with
  | refl => exact ⟨ha, rfl⟩
  | tail hs hstep ih =>
    have hlt := ((steps_inv hs h).known a ih.1).2
    exact ⟨Multiset.mem_of_le (accepted_le hstep) ih.1, (upType_eq hstep hlt).trans ih.2⟩

/-- A closing event leaves no debt. -/
theorem no_debt (h : Inv L) {a : Handle × RegId} (ha : a ∈ L.accepted)
    (hc : 0 < closings (upType L.reg a.2) L.notes a.1) (hx : x ∈ L.items) (hh : x.2.handle = a.1) :
    owing L.reg x.1 x.2 = false := by
  have hbal := h.balance a ha
  cases ho : owing L.reg x.1 x.2 with
  | false => rfl
  | true =>
    have hpos : 0 < L.debts a.1 := Multiset.countP_pos.mpr ⟨x, hx, hh, ho⟩
    omega

/-- No attempt of a closed handle starts. -/
theorem closed_starts (h : Inv L) (hstep : Step L L') {a : Handle × RegId} (ha : a ∈ L.accepted)
    (hc : 0 < closings (upType L.reg a.2) L.notes a.1) :
    L'.starts.count a.1 = L.starts.count a.1 := by
  refine step_starts hstep fun c hmem hh => ?_
  have hdebt := no_debt h ha hc hmem hh
  cases hdebt

/-- A closed handle stays closed, and no attempt of it starts any more. -/
theorem closed_forever (h : Inv L) (hsteps : Relation.ReflTransGen Step L L')
    {a : Handle × RegId} (ha : a ∈ L.accepted)
    (hc : 0 < closings (upType L.reg a.2) L.notes a.1) :
    L'.starts.count a.1 = L.starts.count a.1 ∧ a ∈ L'.accepted ∧
      0 < closings (upType L'.reg a.2) L'.notes a.1 := by
  induction hsteps with
  | refl => exact ⟨rfl, ha, hc⟩
  | tail hs hstep ih =>
    obtain ⟨hcount, hacc, hpos⟩ := ih
    have hinv := steps_inv hs h
    refine ⟨(closed_starts hinv hstep hacc hpos).trans hcount,
      Multiset.mem_of_le (accepted_le hstep) hacc, ?_⟩
    rw [upType_eq hstep (hinv.known a hacc).2]
    exact lt_of_lt_of_le hpos (Multiset.countP_le_of_le _ (notes_le hstep))

/-- An event about an attempt, or a failure: not a decision about further attempts, a
dead letter or a drop. -/
def quiet : EvKind → Bool
  | .started => true
  | .finished => true
  | .failed => true
  | .sample => true
  | _ => false

/-- A stop was requested of the item with this handle, or it is past its attempts. -/
structure Silenced (L : Life) (h : Handle) : Prop where
  /-- The handle was given out. -/
  given : h < L.next
  /-- Its item does not wait, and if it is admitted it is to stop. -/
  items : ∀ x ∈ L.items, x.2.handle = h →
    x.1.waiting = false ∧ (x.1.admitted = true → x.2.cancelled = true)

section Moves

variable {reg : RegId → Reg} {stopping : Bool} {p : Place} {c c' : Core} {p' : Option Place}
  {ns : List (EvKind × Status)}

/-- The event a discarded item owes is a failure. -/
theorem owed_quiet : ∀ n ∈ owed reg c, quiet n.1 = true := by
  intro n hn
  unfold owed at hn
  split_ifs at hn
  · exact absurd hn not_mem_nil
  · rw [mem_singleton.mp hn]
    rfl

/-- A transition of an item that is to stop reports at most the end of its attempt and
its cancellation. -/
theorem move_quiet (h : Move reg stopping p c p' c' ns) (hw : p.waiting = false)
    (hc : p.admitted = true → c.cancelled = true) : ∀ n ∈ ns, quiet n.1 = true := by
  cases h with
  | close | drained => exact owed_quiet
  | retry _ hun | discard _ hun | giveUp _ _ hun =>
    have hno := hun.2.1
    rw [hc rfl] at hno
    cases hno
  | graceDrop _ q hq | graceDead _ q hq | cancelWaiting _ q hq =>
    rcases hq with rfl | rfl <;> cases hw
  | refuse => cases hw
  | report _ st =>
    intro n hn
    rw [mem_singleton.mp hn]
    unfold endKind
    split_ifs <;> rfl
  | begin | sample =>
    intro n hn
    rw [mem_singleton.mp hn]
    rfl
  | _ =>
    exact forall_mem_nil _

/-- An item that is to stop does not wait again. -/
theorem move_stays (h : Move reg stopping p c p' c' ns) (hw : p.waiting = false)
    (hc : p.admitted = true → c.cancelled = true) (hq : p' = some q) :
    q.waiting = false ∧ (q.admitted = true → c'.cancelled = true) := by
  cases h with
  | restart _ ho hu hcan =>
    rw [hc rfl] at hcan
    cases hcan
  | retry _ hun | requeue _ hun | giveUp _ _ hun =>
    have hno := hun.2.1
    rw [hc rfl] at hno
    cases hno
  | promote | park | defer | admission | refuse => cases hw
  | graceDead _ k hk => rcases hk with rfl | rfl <;> cases hw
  | orphan | hand | unindex | detach =>
    cases hq
    exact ⟨rfl, fun ha => by cases ha⟩
  | skip | begin | sample | ended | report | post =>
    cases hq
    exact ⟨rfl, fun _ => hc rfl⟩
  | stop _ k hk =>
    cases hq
    exact ⟨hw, fun _ => rfl⟩
  | _ => cases hq

end Moves

/-- How many decisions other than attempt reports and failures a handle got. -/
def decisions (notes : Multiset Note) (h : Handle) : ℕ :=
  notes.countP fun n => n.handle = h ∧ (!quiet n.kind) = true

/-- An item that is to stop is so after a step, and no attempt of it starts. -/
theorem silenced_item (hs : Silenced L h) (hstep : Step L L') :
    Silenced L' h ∧ L'.starts.count h = L.starts.count h := by
  have hready : ∀ c, (Place.queue .ready, c) ∈ L.items → c.handle = h →
      unstartable L.reg c = true := by
    intro c hmem hh
    rw [unstartable, (hs.items _ hmem hh).2 rfl, Bool.true_or]
  refine ⟨⟨lt_of_lt_of_le hs.given (step_onward hstep).1, fun x hx hh => ?_⟩,
    step_starts hstep hready⟩
  cases step_origin hstep hx with
  | stayed hx => exact hs.items x hx hh
  | moved hmem hm =>
    obtain ⟨hw, hc⟩ := hs.items _ hmem (hm.handle_eq ▸ hh)
    exact move_stays hm hw hc rfl
  | started hmem hst hx =>
    subst hx
    rw [hready _ hmem hh] at hst
    cases hst
  | entered hx hc => exact absurd (hh.symm.trans hc) (ne_of_lt hs.given)

/-- A step leaves an item that is to stop so: no attempt of it starts, and no retry, dead
letter or drop is decided. -/
theorem silenced_step (hs : Silenced L h) (hstep : Step L L') :
    Silenced L' h ∧ L'.starts.count h = L.starts.count h ∧ decisions L'.notes h = decisions L.notes h := by
  obtain ⟨hitem, hcount⟩ := silenced_item hs hstep
  refine ⟨hitem, hcount, ?_⟩
  cases hstep with
  | move rest p c p' c' ns hi hm =>
    rw [decisions, Multiset.countP_add, count_noteAll c.handle h ns fun k _ => !quiet k]
    split_ifs with hh
    · obtain ⟨hw, hc⟩ := hs.items _ (hi ▸ Multiset.mem_cons_self _ _) hh
      have hzero : ns.countP (fun n => !quiet n.1) = 0 := by
        rw [countP_eq_zero]
        intro n hn
        rw [move_quiet hm hw hc n hn]
        exact Bool.false_ne_true
      rw [hzero, zero_add]
      rfl
    · exact zero_add _
  | submit c r hst hc =>
    rw [decisions, Multiset.countP_cons_of_neg _ fun hx => absurd (hx.1.symm.trans hc)
      (ne_of_lt hs.given)]
    rfl
  | start | tombstone | halt | retype => rfl

/-- The same along any sequence of steps. -/
theorem silenced_forever (hs : Silenced L h) (hsteps : Relation.ReflTransGen Step L L') :
    Silenced L' h ∧ L'.starts.count h = L.starts.count h ∧ decisions L'.notes h = decisions L.notes h := by
  induction hsteps with
  | refl => exact ⟨hs, rfl, rfl⟩
  | tail _ hstep ih =>
    obtain ⟨hs', hcount, hdec⟩ := silenced_step ih.1 hstep
    exact ⟨hs', hcount.trans ih.2.1, hdec.trans ih.2.2⟩

/-- No further attempt of the service instance with this handle can start. -/
structure Doomed (L : Life) (h : Handle) : Prop where
  /-- The handle was given out. -/
  given : h < L.next
  /-- Its item is an instance of a service, unless it is retained. -/
  service : ∀ x ∈ L.items, x.2.handle = h → x.1.live = true → service L.reg x.2 = true
  /-- It does not wait. -/
  waiting : ∀ x ∈ L.items, x.2.handle = h → x.1.waiting = false
  /-- If it is admitted it must not be started. -/
  ready : ∀ x ∈ L.items, x.2.handle = h → x.1 = .queue .ready → unstartable L.reg x.2 = true
  /-- If it has run, it will not run again. -/
  ran : ∀ x ∈ L.items, x.2.handle = h → x.1.admitted = true →
    x.2.cancelled = true ∨ removed L.reg x.2 = true ∨ L.stopping = true

/-- What `Doomed` says of the item. -/
structure DoomedItem (reg : RegId → Reg) (stopping : Bool) (p : Place) (c : Core) : Prop where
  /-- It is an instance of a service, unless it is retained. -/
  service : p.live = true → ItemLife.service reg c = true
  /-- It does not wait. -/
  waiting : p.waiting = false
  /-- If it is admitted it must not be started. -/
  ready : p = .queue .ready → unstartable reg c = true
  /-- If it has run, it will not run again. -/
  ran : p.admitted = true → c.cancelled = true ∨ removed reg c = true ∨ stopping = true

theorem Doomed.item (hd : Doomed L h) (hx : x ∈ L.items) (hh : x.2.handle = h) :
    DoomedItem L.reg L.stopping x.1 x.2 :=
  ⟨hd.service x hx hh, hd.waiting x hx hh, hd.ready x hx hh, hd.ran x hx hh⟩

/-- What a transition of a service instance that will not run again leads to. -/
theorem move_doomed {reg : RegId → Reg} {stopping : Bool} {c' : Core} {p' : Option Place}
    {ns : List (EvKind × Status)} (h : Move reg stopping p c p' c' ns) (hok : ItemOk reg stopping p c)
    (hd : DoomedItem reg stopping p c) (hq : p' = some q) : DoomedItem reg stopping q c' := by
  have hw := hd.waiting
  cases h with
  | restart _ ho hu hcan hrem hst =>
    rcases hd.ran rfl with hx | hx | hx
    · rw [hcan] at hx
      cases hx
    · rw [hrem] at hx
      cases hx
    · rw [hst] at hx
      cases hx
  | retry _ hun hrem ha =>
    have hno := hok.no_retry rfl ha
    rw [hd.service rfl] at hno
    cases hno
  | requeue _ hun hrem hst =>
    rcases hd.ran rfl with hx | hx | hx
    · rw [hun.2.1] at hx
      cases hx
    · rw [hrem] at hx
      cases hx
    · rw [hst] at hx
      cases hx
  | promote | park | defer | admission | refuse => cases hw
  | graceDead _ k hk => rcases hk with rfl | rfl <;> cases hw
  | giveUp | orphan | hand | unindex | detach =>
    cases hq
    exact ⟨(fun hl => by cases hl), rfl, (fun hx => by cases hx), fun ha => by cases ha⟩
  | skip | begin | sample | ended | report | post =>
    cases hq
    exact ⟨fun _ => hd.service rfl, rfl, (fun hx => by cases hx), fun _ => hd.ran rfl⟩
  | stop _ k hk =>
    cases hq
    have hl : (Place.queue k).live = true := by rcases hk with rfl | rfl | rfl <;> rfl
    refine ⟨fun _ => hd.service hl, hw, fun _ => rfl, fun _ => .inl rfl⟩
  | _ => cases hq

/-- A type that only gains its tombstone keeps its instances from starting. -/
theorem unstartable_mono {reg reg' : RegId → Reg} (hrem : removed reg c = true → removed reg' c = true)
    (hcan : cancelling reg c = true → cancelling reg' c = true) (h : unstartable reg c = true) :
    unstartable reg' c = true := by
  unfold unstartable at h ⊢
  rw [Bool.or_eq_true, Bool.and_eq_true] at h ⊢
  rcases h with h | ⟨hr, hc⟩
  · exact .inl h
  · exact .inr ⟨hrem hr, hcan hc⟩

/-- Removals are not taken back. -/
theorem removed_mono (hi : Inv L) (h : Step L L') (hx : x ∈ L.items) :
    (removed L.reg x.2 = true → removed L'.reg x.2 = true) ∧
      (cancelling L.reg x.2 = true → cancelling L'.reg x.2 = true) ∧
      service L'.reg x.2 = service L.reg x.2 := by
  cases hr : x.2.reg with
  | none => simp [removed, cancelling, service, hr]
  | some r =>
    have hlt := hi.reg_lt hx hr
    cases h with
    | tombstone t k =>
      have hkind := (tombstoned_kind L.reg t r k).1
      by_cases hrt : r = t
      · subst hrt
        have hcan : (L.reg r).cancelling = true → ((L.reg r).cancelling || k) = true := by
          intro hc
          rw [hc, Bool.true_or]
        simpa [removed, cancelling, service, hr, tombstoned] using hcan
      · simp [removed, cancelling, service, hr, tombstoned, Function.update_of_ne hrt]
    | retype reg n hk =>
      obtain ⟨hs, -, hrm, hcn⟩ := hk r hlt
      simp [removed, cancelling, service, hr, hs, hrm, hcn]
    | move | start | submit | halt => exact ⟨id, id, rfl⟩

/-- A step leaves a service instance that will not run again so. -/
theorem doomed_step (hi : Inv L) (hd : Doomed L h) (hstep : Step L L') :
    Doomed L' h ∧ L'.starts.count h = L.starts.count h := by
  obtain ⟨hnext, hstop⟩ := step_onward hstep
  have hitem : ∀ x ∈ L'.items, x.2.handle = h → DoomedItem L'.reg L'.stopping x.1 x.2 := by
    intro x hx hh
    cases step_origin hstep hx with
    | stayed hx =>
      obtain ⟨hrem, hcan, hserv⟩ := removed_mono hi hstep hx
      have hold := hd.item hx hh
      exact ⟨fun hl => hserv.trans (hold.service hl), hold.waiting,
        fun hp => unstartable_mono hrem hcan (hold.ready hp),
        fun ha => (hold.ran ha).imp_right (Or.imp hrem hstop)⟩
    | moved hmem hm hreg hstop =>
      rw [hreg, hstop]
      exact move_doomed hm (hi.items _ hmem) (hd.item hmem (hm.handle_eq ▸ hh)) rfl
    | started hmem hst hx =>
      subst hx
      rw [hd.ready _ hmem hh rfl] at hst
      cases hst
    | entered hx hc => exact absurd (hh.symm.trans hc) (ne_of_lt hd.given)
  exact ⟨⟨lt_of_lt_of_le hd.given hnext, fun x hx hh => (hitem x hx hh).service,
    fun x hx hh => (hitem x hx hh).waiting, fun x hx hh => (hitem x hx hh).ready,
    fun x hx hh => (hitem x hx hh).ran⟩, step_starts hstep fun c hmem hh => hd.ready _ hmem hh rfl⟩

/-- The same along any sequence of steps. -/
theorem doomed_forever (hi : Inv L) (hd : Doomed L h) (hsteps : Relation.ReflTransGen Step L L') :
    Doomed L' h ∧ L'.starts.count h = L.starts.count h := by
  induction hsteps with
  | refl => exact ⟨hd, rfl⟩
  | tail hs hstep ih =>
    obtain ⟨hd', hcount⟩ := doomed_step (steps_inv hs hi) ih.1 hstep
    exact ⟨hd', hcount.trans ih.2⟩

/-- The type of a live item of an accepted handle. -/
theorem reg_of_accepted (hi : Inv L) {a : Handle × RegId} (ha : a ∈ L.accepted) (hx : x ∈ L.items)
    (hh : x.2.handle = a.1) (hb : x.1.buried = false) : x.2.reg = some a.2 := by
  obtain ⟨r, hr⟩ := Option.isSome_iff_exists.mp ((hi.items x hx).typed hb)
  have hsame := hi.one_type ha (hi.typed x hx r hr) hh.symm
  rw [hr, hsame]

/-- A live item is not retained. -/
theorem not_buried_of_live (h : p.live = true) : p.buried = false := by
  cases p with
  | queue q => cases q <;> first | rfl | cases h
  | _ => first | rfl | cases h

/-- An item that still owes its closing event is not retained. -/
theorem not_buried_of_owing {reg : RegId → Reg} (h : owing reg p c = true) : p.buried = false := by
  cases p with
  | queue q => cases q <;> first | rfl | cases h
  | _ => first | rfl | cases h

/-- Once its type is tombstoned or the shutdown has begun, a service instance will not
run again. -/
theorem doomed_of_stop (hi : Inv L) {a : Handle × RegId} (ha : a ∈ L.accepted)
    (hs : (L.reg a.2).service = true) (hstop : (L.reg a.2).removed = true ∨ L.stopping = true) :
    Doomed L a.1 := by
  have hserv : ∀ x ∈ L.items, x.2.handle = a.1 → x.1.live = true → service L.reg x.2 = true := by
    intro x hx hh hl
    simp [service, reg_of_accepted hi ha hx hh (not_buried_of_live hl), hs]
  have hrem : ∀ x ∈ L.items, x.2.handle = a.1 → x.1.live = true →
      removed L.reg x.2 = (L.reg a.2).removed := by
    intro x hx hh hl
    simp [removed, reg_of_accepted hi ha hx hh (not_buried_of_live hl)]
  have hlive : ∀ {p : Place}, p.admitted = true → p.live = true := by
    intro p hp
    rw [Place.live, hp, Bool.or_true]
  refine ⟨(hi.known a ha).1, hserv, ?_, ?_, ?_⟩
  · intro x hx hh
    have hok := hi.items x hx
    cases hw : x.1.waiting with
    | false => rfl
    | true =>
      have hl : x.1.live = true := by rw [Place.live, hw, Bool.true_or]
      rcases hstop with hr | hst
      · have hxr := (hrem x hx hh hl).trans hr
        have hno := hok.discarded hw hxr
        rw [hok.removal hl (hserv x hx hh hl) hxr] at hno
        cases hno
      · have hst' := hok.halted hst (hserv x hx hh hl)
        rw [stopped, hw] at hst'
        cases hst'
  · intro x hx hh hp
    have hok := hi.items x hx
    have hadm : x.1.admitted = true := by rw [hp]; rfl
    have hl := hlive hadm
    rcases hstop with hr | hst
    · have hxr := (hrem x hx hh hl).trans hr
      rw [unstartable, hxr, hok.removal hl (hserv x hx hh hl) hxr]
      simp
    · have hst' := hok.halted hst (hserv x hx hh hl)
      rw [stopped, hadm, Bool.not_true, Bool.false_or, Bool.and_eq_true] at hst'
      rw [unstartable, hst'.2, Bool.true_or]
  · intro x hx hh hadm
    rcases hstop with hr | hst
    · exact .inr (.inl ((hrem x hx hh (hlive hadm)).trans hr))
    · exact .inr (.inr hst)

/-- An event that ends an attempt without closing an always-up handle. -/
def plainEnd (kind : EvKind) (status : Status) : Bool :=
  match kind with
  | .finished => true
  | .failed => status ≠ .cancelled
  | _ => false

/-- How many attempts of a handle were reported to end without being cancelled. -/
def ends (notes : Multiset Note) (h : Handle) : ℕ :=
  notes.countP fun n => n.handle = h ∧ plainEnd n.kind n.status = true

/-- An attempt of the item is under way, or was cancelled. -/
def attempting (p : Place) (c : Core) : Bool :=
  match p with
  | .queue .running =>
    match c.phase with
    | .reported st => st = .cancelled
    | _ => true
  | .queue .done => c.started && c.outcome = .cancelled
  | .picked => c.started && c.outcome = .cancelled
  | .dropped => c.started && c.outcome = .cancelled
  | _ => false

/-- An event that retains or discards an item. -/
def burial (kind : EvKind) (_ : Status) : Bool :=
  match kind with
  | .deadLettered => true
  | .dropped => true
  | _ => false

/-- How often a handle was retained or discarded. -/
def burials (notes : Multiset Note) (h : Handle) : ℕ :=
  notes.countP fun n => n.handle = h ∧ burial n.kind n.status = true

/-- Retaining or discarding an item is a decision about it. -/
theorem burials_eq {notes notes' : Multiset Note} (hle : notes ≤ notes')
    (hd : decisions notes' h = decisions notes h) : burials notes' h = burials notes h := by
  obtain ⟨more, rfl⟩ := Multiset.le_iff_exists_add.mp hle
  have hnone : decisions more h = 0 := by
    rw [decisions, Multiset.countP_add] at hd
    exact Nat.left_eq_add.mp hd.symm
  rw [decisions, Multiset.countP_eq_zero] at hnone
  have hmore : burials more h = 0 := by
    rw [burials, Multiset.countP_eq_zero]
    rintro n hn ⟨hh, hb⟩
    refine hnone n hn ⟨hh, ?_⟩
    cases hk : n.kind with
    | deadLettered | dropped => rfl
    | _ =>
      rw [hk] at hb
      cases hb
  rw [burials, Multiset.countP_add]
  exact (congrArg _ hmore).trans (add_zero _)

/-- What the events of every handle add up to. -/
structure History (L : Life) : Prop where
  /-- An item that is not retained was not reported to be, nor discarded. -/
  unburied : ∀ x ∈ L.items, x.1.buried = false → burials L.notes x.2.handle = 0
  /-- An always-up instance is retained only by admission, and never discarded. -/
  refused : ∀ a ∈ L.accepted, upType L.reg a.2 = true → ∀ n ∈ L.notes, n.handle = a.1 →
    burial n.kind n.status = true →
      n.kind = .deadLettered ∧ (n.status = .budget ∨ n.status = .denied)
  /-- Attempts start as often as they end, but for the last. -/
  bounded : ∀ h, ends L.notes h ≤ L.starts.count h ∧ L.starts.count h ≤ ends L.notes h + 1
  /-- While there is an item, it tells whether the last attempt is still to end. -/
  exact : ∀ x ∈ L.items, x.1.buried = false →
    L.starts.count x.2.handle = ends L.notes x.2.handle + (attempting x.1 x.2).toNat

section Moves

variable {reg : RegId → Reg} {stopping : Bool} {p : Place} {c c' : Core} {p' : Option Place}
  {ns : List (EvKind × Status)}

/-- The event a discarded item owes ends no attempt and buries nothing. -/
theorem owed_plain : (owed reg c).countP (fun n => plainEnd n.1 n.2) = 0 ∧
    ∀ n ∈ owed reg c, burial n.1 n.2 = false := by
  unfold owed
  split_ifs
  · exact ⟨rfl, forall_mem_nil _⟩
  · refine ⟨rfl, fun n hn => ?_⟩
    rw [mem_singleton.mp hn]
    rfl

/-- An item whose handle is not closed has no cancelled attempt behind it. -/
theorem not_cancelled_of_open (h : terminal reg c = false) :
    (c.started && decide (c.outcome = .cancelled)) = false := by
  unfold terminal finalStatus at h
  cases hs : c.started with
  | false => rfl
  | true =>
    rw [hs, Bool.true_and, Bool.or_eq_false_iff] at h
    exact h.1

/-- A transition ends at most the attempt under way, and one that leaves the item among
the unretained ones keeps account of it. -/
theorem move_attempts (h : Move reg stopping p c p' c' ns) (hok : ItemOk reg stopping p c) :
    (∀ q, p' = some q → q.buried = false → (attempting p c).toNat =
      (attempting q c').toNat + ns.countP fun n => plainEnd n.1 n.2) ∧
    ((∀ q, p' = some q → q.buried = true) → ns.countP (fun n => plainEnd n.1 n.2) = 0) := by
  cases h with
  | close | drained => exact ⟨fun q hq => (by cases hq), fun _ => owed_plain.1⟩
  | restart _ ho =>
    refine ⟨fun q hq _ => ?_, fun _ => rfl⟩
    cases hq
    simp [attempting, ho]
  | retry _ hun | requeue _ hun =>
    refine ⟨fun q hq _ => ?_, fun _ => rfl⟩
    cases hq
    have hopen : terminal reg c = false := hun.not_terminal
    have hno := not_cancelled_of_open hopen
    simp only [attempting, hno]
    rfl
  | skip =>
    refine ⟨fun q hq _ => ?_, fun _ => rfl⟩
    cases hq
    simp [attempting, hok.fresh (.inr rfl)]
  | begin _ hp | ended _ _ _ hp =>
    refine ⟨fun q hq _ => ?_, fun _ => rfl⟩
    cases hq
    simp [attempting, hp, plainEnd]
  | sample =>
    refine ⟨fun q hq _ => ?_, fun _ => rfl⟩
    cases hq
    rfl
  | report _ st _ hp =>
    refine ⟨fun q hq _ => ?_, fun hq => ?_⟩
    · cases hq
      by_cases hst : st = .cancelled
      · subst hst
        simp only [attempting, hp]
        rfl
      · have hplain : plainEnd (endKind st) st = true := by
          unfold endKind
          split_ifs
          · rfl
          · simp [plainEnd, hst]
        simp [attempting, hp, hst, hplain]
    · cases hq _ rfl
  | post _ st hp =>
    refine ⟨fun q hq _ => ?_, fun _ => rfl⟩
    cases hq
    simp [attempting, hp, hok.ran rfl]
  | stop _ k hk =>
    refine ⟨fun q hq _ => ?_, fun _ => rfl⟩
    cases hq
    rcases hk with rfl | rfl | rfl <;> rfl
  | detach _ k _ hk =>
    refine ⟨fun q hq _ => ?_, fun _ => rfl⟩
    cases hq
    rcases hk with rfl | rfl | rfl | rfl
    · have hno := not_cancelled_of_open (hok.paused (.inl rfl))
      simp only [attempting, hno]
      rfl
    · simp [attempting, hok.fresh (.inl rfl)]
    · simp [attempting, hok.fresh (.inr rfl)]
    · rfl
  | promote | park | defer | admission | unindex =>
    refine ⟨fun q hq _ => ?_, fun _ => rfl⟩
    cases hq
    rfl
  | giveUp | orphan | hand | refuse =>
    refine ⟨fun q hq hb => ?_, fun _ => rfl⟩
    cases hq
    cases hb
  | graceDead =>
    refine ⟨fun q hq hb => ?_, fun _ => rfl⟩
    cases hq
    cases hb
  | _ =>
    exact ⟨fun q hq => (by cases hq), fun _ => rfl⟩

/-- A retained item stays so, or is freed. -/
theorem move_stays_buried (h : Move reg stopping p c p' c' ns) (hb : p.buried = true) (hq : p' = some q) :
    q.buried = true := by
  cases h with
  | orphan | hand =>
    cases hq
    rfl
  | evict | handOver | graceDrop | cancelWaiting => cases hq
  | stop _ k hk => rcases hk with rfl | rfl | rfl <;> cases hb
  | detach _ k _ hk => rcases hk with rfl | rfl | rfl | rfl <;> cases hb
  | graceDead _ k hk => rcases hk with rfl | rfl <;> cases hb
  | _ => cases hb

/-- A transition that does not retain or free the item buries nothing. -/
theorem move_unburied (h : Move reg stopping p c p' c' ns) (hq : p' = some q) (hb : q.buried = false) :
    ∀ n ∈ ns, burial n.1 n.2 = false := by
  cases h with
  | giveUp | orphan | hand | refuse | graceDead =>
    cases hq
    cases hb
  | report _ st =>
    intro n hn
    rw [mem_singleton.mp hn]
    unfold endKind
    split_ifs <;> rfl
  | retry | begin | sample =>
    intro n hn
    rw [mem_singleton.mp hn]
    rfl
  | restart | requeue | promote | park | defer | admission | skip | ended | post | stop | detach
  | unindex =>
    exact forall_mem_nil _
  | _ => cases hq

/-- An always-up instance is retained by admission alone, and never discarded. -/
theorem move_refused (h : Move reg stopping p c p' c' ns) (hok : ItemOk reg stopping p c)
    (hs : service reg c = true) : ∀ n ∈ ns, burial n.1 n.2 = true →
      n.1 = .deadLettered ∧ (n.2 = .budget ∨ n.2 = .denied) := by
  intro n hn hbury
  cases h with
  | close | drained =>
    rw [owed_plain.2 n hn] at hbury
    cases hbury
  | discard _ hun hp =>
    rw [(hok.policy rfl hs).1] at hp
    cases hp
  | giveUp _ st hun hp =>
    rcases hp with ⟨hrem, hcan⟩ | hp | hst
    · rw [hok.removal rfl hs hrem] at hcan
      cases hcan
    · rw [(hok.policy rfl hs).1] at hp
      cases hp
    · have hstop := hok.halted hst hs
      rw [stopped, hun.2.1] at hstop
      cases hstop
  | graceDrop _ q hq hst | graceDead _ q hq hst =>
    have hstop := hok.halted hst hs
    rcases hq with rfl | rfl <;> cases hstop
  | refuse _ st hst =>
    rw [mem_singleton.mp hn]
    exact ⟨rfl, hst⟩
  | report _ st =>
    rw [mem_singleton.mp hn] at hbury
    unfold endKind at hbury
    split_ifs at hbury <;> cases hbury
  | retry | begin | sample | cancelWaiting =>
    rw [mem_singleton.mp hn] at hbury
    cases hbury
  | _ => exact absurd hn not_mem_nil

end Moves

/-- Counting the events of a transition together with the earlier ones. -/
theorem count_add (f : EvKind → Status → Bool) (c : Core) (ns : List (EvKind × Status))
    (notes : Multiset Note) (h : Handle) :
    (noteAll c.handle ns + notes).countP (fun n => n.handle = h ∧ f n.kind n.status = true) =
      (if c.handle = h then ns.countP fun n => f n.1 n.2 else 0) +
        notes.countP fun n => n.handle = h ∧ f n.kind n.status = true := by
  rw [Multiset.countP_add, count_noteAll]

/-- Items other than a given one have other handles. -/
theorem handle_ne (hi : Inv L) (hitems : L.items = (p, c) ::ₘ rest) (hx : x ∈ rest) :
    c.handle ≠ x.2.handle := by
  have hn := hi.uniq
  rw [hitems, Multiset.map_cons, Multiset.nodup_cons] at hn
  exact fun he => hn.1 (Multiset.mem_map.mpr ⟨x, hx, he.symm⟩)

section Moved

variable {c' : Core} {p' : Option Place} {ns : List (EvKind × Status)} (hi : Inv L) (hh : History L)
  (hitems : L.items = (p, c) ::ₘ rest) (hm : Move L.reg L.stopping p c p' c' ns)

include hm in
/-- What is not retained after a transition was not before it. -/
theorem unburied_before (hq : p' = some q) (hqb : q.buried = false) : p.buried = false := by
  cases hp : p.buried with
  | false => rfl
  | true =>
    rw [move_stays_buried hm hp hq] at hqb
    cases hqb

include hi hh hitems hm

/-- After a transition an item that is not retained was still not reported to be. -/
theorem moved_unburied (hx : x ∈ settle p' c' + rest) (hb : x.1.buried = false) :
    burials (noteAll c.handle ns + L.notes) x.2.handle = 0 := by
  have hadd := count_add burial c ns L.notes x.2.handle
  rcases mem_settle.mp hx with ⟨q, hq, rfl⟩ | hx
  · have hzero : ns.countP (fun n => burial n.1 n.2) = 0 := by
      rw [countP_eq_zero]
      intro n hn
      rw [move_unburied hm hq hb n hn]
      exact Bool.false_ne_true
    have hold := hh.unburied _ (hitems ▸ Multiset.mem_cons_self _ _) (unburied_before hm hq hb)
    simp only [hm.handle_eq, if_true] at hadd ⊢
    rw [burials, hadd, hzero, zero_add]
    exact hold
  · rw [burials, hadd, if_neg (handle_ne hi hitems hx), zero_add]
    exact hh.unburied x (hitems ▸ Multiset.mem_cons_of_mem hx) hb

/-- A transition retains an always-up instance only by admission. -/
theorem moved_refused {a : Handle × RegId} (ha : a ∈ L.accepted) (hup : upType L.reg a.2 = true)
    {n : Note} (hn : n ∈ noteAll c.handle ns + L.notes) (hna : n.handle = a.1)
    (hbury : burial n.kind n.status = true) :
    n.kind = .deadLettered ∧ (n.status = .budget ∨ n.status = .denied) := by
  have hmem : (p, c) ∈ L.items := hitems ▸ Multiset.mem_cons_self _ _
  rcases Multiset.mem_add.mp hn with hn | hn
  · obtain ⟨hnc, hns⟩ := mem_noteAll.mp hn
    have hb : p.buried = false := by
      cases hp : p.buried with
      | false => rfl
      | true =>
        rw [hm.buried_silent hp] at hns
        exact absurd hns not_mem_nil
    have hreg : c.reg = some a.2 := reg_of_accepted hi ha hmem (hnc.symm.trans hna) hb
    have hserv : service L.reg c = true := by
      rw [upType, Bool.and_eq_true] at hup
      simp [service, hreg, hup.1]
    exact move_refused hm (hi.items _ hmem) hserv _ hns hbury
  · exact hh.refused a ha hup n hn hna hbury

/-- An attempt that a transition reports to end was under way. -/
theorem moved_account (hq : p' = some q) (hqb : q.buried = false) :
    L.starts.count c.handle = (ns.countP fun n => plainEnd n.1 n.2) + ends L.notes c.handle +
      (attempting q c').toNat := by
  have hmem : (p, c) ∈ L.items := hitems ▸ Multiset.mem_cons_self _ _
  have hold : L.starts.count c.handle = ends L.notes c.handle + (attempting p c).toNat :=
    hh.exact _ hmem (unburied_before hm hq hqb)
  have hnew := (move_attempts hm (hi.items _ hmem)).1 q hq hqb
  omega

/-- After a transition attempts still started as often as they ended, but for the last. -/
theorem moved_bounded : ends (noteAll c.handle ns + L.notes) h ≤ L.starts.count h ∧
    L.starts.count h ≤ ends (noteAll c.handle ns + L.notes) h + 1 := by
  have hold := hh.bounded h
  rw [ends, count_add]
  split_ifs with hch
  · subst hch
    by_cases hq : ∃ q, p' = some q ∧ q.buried = false
    · obtain ⟨q, hq, hqb⟩ := hq
      have hx := moved_account hi hh hitems hm hq hqb
      have hle : (attempting q c').toNat ≤ 1 := Bool.toNat_le _
      unfold ends at hx
      omega
    · have hgone : ∀ q, p' = some q → q.buried = true := fun q hpq => by
        cases hqb : q.buried with
        | true => rfl
        | false => exact absurd ⟨q, hpq, hqb⟩ hq
      rw [(move_attempts hm (hi.items _ (hitems ▸ Multiset.mem_cons_self _ _))).2 hgone, zero_add]
      exact hold
  · rw [zero_add]
    exact hold

/-- After a transition an item still tells whether its last attempt is to end. -/
theorem moved_exact (hx : x ∈ settle p' c' + rest) (hb : x.1.buried = false) :
    L.starts.count x.2.handle =
      ends (noteAll c.handle ns + L.notes) x.2.handle + (attempting x.1 x.2).toNat := by
  rw [ends, count_add]
  rcases mem_settle.mp hx with ⟨q, hq, rfl⟩ | hx
  · simp only [hm.handle_eq, if_true]
    exact moved_account hi hh hitems hm hq hb
  · rw [if_neg (handle_ne hi hitems hx), zero_add]
    exact hh.exact x (hitems ▸ Multiset.mem_cons_of_mem hx) hb

/-- A transition keeps the account of events. -/
theorem move_history :
    History { L with items := settle p' c' + rest, notes := noteAll c.handle ns + L.notes } where
  unburied := fun _ hx hb => moved_unburied hi hh hitems hm hx hb
  refused := fun _ ha hup _ hn hna hbury => moved_refused hi hh hitems hm ha hup hn hna hbury
  bounded := fun _ => moved_bounded hi hh hitems hm
  exact := fun _ hx hb => moved_exact hi hh hitems hm hx hb

end Moved

/-- Every step keeps the account of events. -/
theorem step_history (hi : Inv L) (hh : History L) (h : Step L L') : History L' := by
  have hkind := fun a (ha : a ∈ L.accepted) => upType_eq h (hi.known a ha).2
  cases h with
  | move rest p c p' c' ns hitems hm => exact move_history hi hh hitems hm
  | start rest c hitems hs =>
    have hmem : (Place.queue .ready, c) ∈ L.items := hitems ▸ Multiset.mem_cons_self _ _
    have hrest : ∀ x ∈ rest, x ∈ L.items := fun x hx => hitems ▸ Multiset.mem_cons_of_mem hx
    have hself : L.starts.count c.handle = ends L.notes c.handle := hh.exact _ hmem rfl
    refine ⟨?_, hh.refused, ?_, ?_⟩
    · intro x hx hb
      rcases Multiset.mem_cons.mp hx with rfl | hx
      · have hold := hh.unburied _ hmem rfl
        exact hold
      · exact hh.unburied x (hrest x hx) hb
    · intro h
      have hold := hh.bounded h
      simp only [Multiset.count_cons]
      split_ifs with hc
      · subst hc
        omega
      · exact hold
    · intro x hx hb
      rcases Multiset.mem_cons.mp hx with rfl | hx
      · simp only [Multiset.count_cons_self, hself]
        rfl
      · simp only [Multiset.count_cons_of_ne (handle_ne hi hitems hx).symm]
        exact hh.exact x (hrest x hx) hb
  | submit c r hst hc =>
    have hfresh : ∀ f : EvKind → Status → Bool,
        L.notes.countP (fun n => n.handle = c.handle ∧ f n.kind n.status = true) = 0 := fun f =>
      Multiset.countP_eq_zero.mpr fun n hn hx => not_next hc (hi.noted n hn) hx.1
    have hstarts : L.starts.count c.handle = 0 :=
      Multiset.count_eq_zero.mpr fun hx => not_next hc (hi.begun _ hx) rfl
    have hends : ∀ h, ends (⟨c.handle, .queued, .ok⟩ ::ₘ L.notes) h = ends L.notes h := by
      intro h
      rw [ends, Multiset.countP_cons_of_neg _ (by simp [plainEnd])]
      rfl
    have hburials : ∀ h, burials (⟨c.handle, .queued, .ok⟩ ::ₘ L.notes) h = burials L.notes h := by
      intro h
      rw [burials, Multiset.countP_cons_of_neg _ (by simp [burial])]
      rfl
    refine ⟨?_, ?_, ?_, ?_⟩
    · intro x hx hb
      rw [hburials]
      rcases Multiset.mem_cons.mp hx with rfl | hx
      · exact hfresh burial
      · exact hh.unburied x hx hb
    · intro a ha hup n hn hna hbury
      rcases Multiset.mem_cons.mp hn with rfl | hn
      · cases hbury
      · rcases Multiset.mem_cons.mp ha with rfl | ha
        · exact absurd hna (not_next hc (hi.noted n hn))
        · exact hh.refused a ha hup n hn hna hbury
    · intro h
      rw [hends]
      exact hh.bounded h
    · intro x hx hb
      rw [hends]
      rcases Multiset.mem_cons.mp hx with rfl | hx
      · have hzero : ends L.notes c.handle = 0 := hfresh plainEnd
        simp only [hstarts, hzero]
        rfl
      · exact hh.exact x hx hb
  | halt | tombstone | retype =>
    exact ⟨hh.unburied, fun a ha hup => hh.refused a ha ((hkind a ha).symm.trans hup), hh.bounded,
      hh.exact⟩

/-- Every sequence of steps keeps the account of events. -/
theorem steps_history (hi : Inv L) (hh : History L) (h : Relation.ReflTransGen Step L L') :
    History L' := by
  induction h with
  | refl => exact hh
  | tail hs hstep ih => exact step_history (steps_inv hs hi) ih hstep

end Gptps.ItemHistory
