import Gptps.PassOrigins
import Gptps.RetryOrder

/-!
# A removed type winds down

From the moment an unregister tombstones a type its items can only run out. None is accepted, none is tried
again, and each live one starts one more attempt at most, or none if the removal discards work. The number
of live items never grows, and only a hook's deferral makes one of them wait again.
-/

namespace Gptps.TypeRemoval

open Function EngineState EngineStore EnginePass EngineApi EngineSystem ItemLife DeskStore DeskLife EngineDesk
  List
open ApiDesk PassDesk PassStages SystemDesk SystemInvariant CallsCalm ItemOrigins PassOrigins
open EngineFrames HandleEvents RetryOrder ItemHistory StoreInvariant

section Lives

variable {p' : Option Place} {rest : Multiset (Place × Core)}

/-- A type that was tombstoned. -/
structure Tombstoned (L : Life) (r : RegId) : Prop where
  /-- It was registered. -/
  known : r < L.nextReg
  /-- It is hidden. -/
  removed : (L.reg r).removed = true

/-- An attempt may start from here without another decision. -/
def startable : Place → Bool
  | .queue .ready => true
  | p => p.waiting

/-- The items with this handle that may still start. -/
def ahead (L : Life) (h : Handle) : ℕ := L.items.countP fun x => x.2.handle = h ∧ startable x.1 = true

/-- The live items of a type. -/
def liveOf (L : Life) (r : RegId) : ℕ := L.items.countP fun x => x.2.reg = some r ∧ x.1.live = true

/-- The retries announced for a handle. -/
def retries (L : Life) (h : Handle) : ℕ :=
  L.notes.countP fun n => n.handle = h ∧ decide (n.kind = .retried) = true

/-- What happens to the items of a tombstoned type. -/
structure Winding (r : RegId) (L L' : Life) : Prop where
  /-- The tombstone stays. -/
  tomb : Tombstoned L' r
  /-- So does the way of the removal. -/
  cancelling : (L'.reg r).cancelling = (L.reg r).cancelling
  /-- No submit is accepted. -/
  accepted : ∀ h, (h, r) ∈ L'.accepted ↔ (h, r) ∈ L.accepted
  /-- The live items do not become more. -/
  live : liveOf L' r ≤ liveOf L r
  /-- A waiting item was waiting before. -/
  waiting : ∀ x ∈ L'.items, x.2.reg = some r → x.1.waiting = true →
    ∃ y ∈ L.items, y.2.handle = x.2.handle ∧ y.2.reg = some r ∧ y.1.waiting = true
  /-- No retry is announced. -/
  retried : ∀ h, (h, r) ∈ L.accepted → retries L' h = retries L h
  /-- An attempt uses up the chance to start one. -/
  starts : ∀ h, (h, r) ∈ L.accepted → ahead L' h + L'.starts.count h ≤ ahead L h + L.starts.count h
  /-- A removal that discards work lets none start. -/
  barred : (L.reg r).cancelling = true → ∀ h, (h, r) ∈ L.accepted → L'.starts.count h = L.starts.count h

variable {r : RegId} {L L' L'' : Life}

theorem Winding.refl (h : Tombstoned L r) : Winding r L L where
  tomb := h
  cancelling := rfl
  accepted _ := .rfl
  live := le_rfl
  waiting x hx hr hw := ⟨x, hx, rfl, hr, hw⟩
  retried _ _ := rfl
  starts _ _ := le_rfl
  barred _ _ _ := rfl

theorem Winding.trans (h : Winding r L L') (h' : Winding r L' L'') : Winding r L L'' where
  tomb := h'.tomb
  cancelling := h'.cancelling.trans h.cancelling
  accepted k := (h'.accepted k).trans (h.accepted k)
  live := le_trans h'.live h.live
  waiting x hx hr hw := by
    obtain ⟨y, hy, hyh, hyr, hyw⟩ := h'.waiting x hx hr hw
    obtain ⟨z, hz, hzh, hzr, hzw⟩ := h.waiting y hy hyr hyw
    exact ⟨z, hz, hzh.trans hyh, hzr, hzw⟩
  retried k hk := (h'.retried k ((h.accepted k).mpr hk)).trans (h.retried k hk)
  starts k hk := le_trans (h'.starts k ((h.accepted k).mpr hk)) (h.starts k hk)
  barred hc k hk :=
    (h'.barred (h.cancelling.trans hc) k ((h.accepted k).mpr hk)).trans (h.barred hc k hk)

/-- Nothing happens to any item. -/
theorem Winding.of_items (h : Tombstoned L' r) (hc : (L'.reg r).cancelling = (L.reg r).cancelling)
    (hi : L'.items = L.items) (hn : L'.notes = L.notes) (hs : L'.starts = L.starts)
    (ha : L'.accepted = L.accepted) : Winding r L L' where
  tomb := h
  cancelling := hc
  accepted _ := by rw [ha]
  live := by
    unfold liveOf
    rw [hi]
  waiting x hx hr hw := ⟨x, hi ▸ hx, rfl, hr, hw⟩
  retried _ _ := by
    unfold retries
    rw [hn]
  starts _ _ := by
    unfold ahead
    rw [hi, hs]
  barred _ _ _ := by rw [hs]

section Moves

variable {reg : RegId → Reg} {stopping : Bool} {p q : Place} {c c' : Core} {ns : List (EvKind × Status)}

/-- No transition of a removed type leads back to waiting. -/
theorem move_forward (h : Move reg stopping p c (some q) c' ns)
    (hr : p = .queue .done → removed reg c = true) :
    (q.waiting = true → p.waiting = true) ∧ (startable q = true → startable p = true) ∧
      (q.live = true → p.live = true) := by
  have hno : ∀ {a : Prop}, p = .queue .done → removed reg c = false → a := fun hp hnot => by
    rw [hr hp] at hnot
    cases hnot
  cases h with
  | restart _ _ _ hrem | retry | requeue => exact hno rfl ‹_›
  | graceDead _ k hk => exact ⟨nofun, nofun, nofun⟩
  | stop _ k hk => exact ⟨id, id, id⟩
  | detach => exact ⟨nofun, nofun, nofun⟩
  | _ => exact ⟨by decide, by decide, by decide⟩

/-- Nor is a retry announced. -/
theorem move_unretried (h : Move reg stopping p c p' c' ns)
    (hr : p = .queue .done → removed reg c = true) :
    ns.countP (fun n => decide (n.1 = .retried)) = 0 := by
  have hend : ∀ st, endKind st ≠ .retried := fun st => by
    unfold endKind
    split_ifs <;> decide
  have howed : (owed reg c).countP (fun n => decide (n.1 = .retried)) = 0 := by
    unfold owed
    split_ifs <;> rfl
  cases h with
  | retry _ _ hrem =>
    rw [hr rfl] at hrem
    cases hrem
  | close | drained => exact howed
  | report _ st =>
    rw [countP_eq_zero]
    intro n hn
    rw [mem_singleton.mp hn]
    exact fun hk => hend st (of_decide_eq_true hk)
  | _ => rfl

end Moves

/-- The item of a handle the removed type was submitted with is of the type while it is live. -/
theorem removed_of_accepted (hi : Inv L) (ht : Tombstoned L r) {h : Handle} (ha : (h, r) ∈ L.accepted)
    {x : Place × Core} (hx : x ∈ L.items) (hh : x.2.handle = h) (hb : x.1.buried = false) :
    x.2.reg = some r ∧ ItemLife.removed L.reg x.2 = true := by
  have hreg : x.2.reg = some r := reg_of_accepted hi ha hx hh hb
  refine ⟨hreg, ?_⟩
  unfold ItemLife.removed
  rw [hreg]
  exact ht.removed

/-- What an item comes to counts at most as much as the item. -/
theorem countP_settle {P : Place × Core → Prop} [DecidablePred P] {p : Place} {c c' : Core}
    (h : ∀ q, p' = some q → P (q, c') → P (p, c)) :
    (settle p' c' + rest).countP P ≤ ((p, c) ::ₘ rest).countP P := by
  rw [Multiset.countP_add, Multiset.countP_cons, add_comm]
  refine Nat.add_le_add_left ?_ _
  cases p' with
  | none => exact Nat.zero_le _
  | some q =>
    simp only [settle, Option.toList_some, map_cons, map_nil, Multiset.coe_countP, countP_singleton]
    split_ifs with hafter hbefore
    · exact le_rfl
    · exact absurd (h q rfl (of_decide_eq_true hafter)) hbefore
    · exact Nat.zero_le _
    · exact Nat.zero_le _

/-- One item makes a transition. -/
theorem move_winding {p : Place} {c c' : Core} {ns : List (EvKind × Status)} (hi : Inv L)
    (ht : Tombstoned L r) (hitems : L.items = (p, c) ::ₘ rest) (hm : Move L.reg L.stopping p c p' c' ns) :
    Winding r L { L with items := settle p' c' + rest, notes := noteAll c.handle ns + L.notes } := by
  have hmem : (p, c) ∈ L.items := hitems ▸ Multiset.mem_cons_self _ _
  have hmine : ∀ h, (h, r) ∈ L.accepted → c.handle = h → p = .queue .done →
      ItemLife.removed L.reg c = true := by
    rintro h ha hh rfl
    exact (removed_of_accepted hi ht ha hmem hh rfl).2
  have hours : c.reg = some r → p = .queue .done → ItemLife.removed L.reg c = true := by
    intro hreg _
    unfold ItemLife.removed
    rw [hreg]
    exact ht.removed
  have hreg' : c'.reg = some r → c.reg = some r := by
    intro h
    rcases hm.reg_eq with heq | ⟨hnone, -⟩
    · exact heq ▸ h
    · rw [hnone] at h
      cases h
  refine ⟨⟨ht.known, ht.removed⟩, rfl, fun _ => .rfl, ?_, ?_, ?_, ?_, fun _ _ _ => rfl⟩
  · unfold liveOf
    rw [hitems]
    refine countP_settle fun q hq hafter => ?_
    have hcr := hreg' hafter.1
    exact ⟨hcr, (move_forward (hq ▸ hm) (hours hcr)).2.2 hafter.2⟩
  · intro x hx hr hw
    rcases mem_settle.mp hx with ⟨q, rfl, rfl⟩ | hx
    · have hcr := hreg' hr
      exact ⟨(p, c), hmem, hm.handle_eq.symm, hcr, (move_forward hm (hours hcr)).1 hw⟩
    · exact ⟨x, hitems ▸ Multiset.mem_cons_of_mem hx, rfl, hr, hw⟩
  · intro h ha
    unfold retries
    rw [Multiset.countP_add, count_noteAll c.handle h ns fun k _ => decide (k = .retried)]
    split_ifs with hh
    · rw [move_unretried hm (hmine h ha hh), zero_add]
    · exact zero_add _
  · intro h ha
    refine Nat.add_le_add_right ?_ _
    unfold ahead
    rw [hitems]
    refine countP_settle fun q hq hafter => ?_
    have hh : c.handle = h := hm.handle_eq ▸ hafter.1
    exact ⟨hh, (move_forward (hq ▸ hm) (hmine h ha hh)).2.1 hafter.2⟩

/-- An attempt starts. -/
theorem start_winding {c : Core} (hi : Inv L) (ht : Tombstoned L r)
    (hitems : L.items = (.queue .ready, c) ::ₘ rest) (hs : unstartable L.reg c = false) :
    Winding r L { L with
      items := (.queue .running, { c with started := true, phase := .begun }) ::ₘ rest
      starts := c.handle ::ₘ L.starts } := by
  have hmem : (Place.queue .ready, c) ∈ L.items := hitems ▸ Multiset.mem_cons_self _ _
  refine ⟨⟨ht.known, ht.removed⟩, rfl, fun _ => .rfl, ?_, ?_, fun _ _ => rfl, ?_, ?_⟩
  · unfold liveOf
    rw [hitems, Multiset.countP_cons, Multiset.countP_cons]
    exact le_rfl
  · intro x hx hr hw
    rcases Multiset.mem_cons.mp hx with rfl | hx
    · cases hw
    · exact ⟨x, hitems ▸ Multiset.mem_cons_of_mem hx, rfl, hr, hw⟩
  · intro h ha
    unfold ahead
    rw [hitems, Multiset.countP_cons, Multiset.countP_cons, Multiset.count_cons]
    by_cases hh : c.handle = h
    · rw [if_neg (fun hno => nomatch hno.2), if_pos hh.symm, if_pos ⟨hh, rfl⟩]
      omega
    · refine le_of_eq ?_
      rw [if_neg (fun hno => hh hno.1), if_neg (Ne.symm hh), if_neg (fun hno => hh hno.1), add_zero,
        add_zero]
  · intro hc h ha
    rw [Multiset.count_cons_of_ne]
    rintro rfl
    obtain ⟨hreg, hrem⟩ := removed_of_accepted hi ht ha hmem rfl rfl
    have hcan : ItemLife.cancelling L.reg c = true := by
      unfold ItemLife.cancelling
      rw [hreg]
      exact hc
    have hrem : ItemLife.removed L.reg c = true := hrem
    rw [unstartable, hrem, hcan, Bool.and_true, Bool.or_true] at hs
    cases hs

/-- A submit of another type is accepted. -/
theorem submit_winding {c : Core} {r' : RegId} (hi : Inv L) (ht : Tombstoned L r) (hh : c.handle = L.next)
    (hr : c.reg = some r') (hrem : (L.reg r').removed = false) :
    Winding r L { L with
      items := (.queue .intake, c) ::ₘ L.items
      notes := ⟨c.handle, .queued, .ok⟩ ::ₘ L.notes
      accepted := (c.handle, r') ::ₘ L.accepted
      next := L.next + 1 } := by
  have hne : r' ≠ r := by
    rintro rfl
    rw [ht.removed] at hrem
    cases hrem
  have hold : ∀ h, (h, r) ∈ L.accepted → c.handle ≠ h := by
    intro h ha heq
    exact absurd (hi.known _ ha).1 (by rw [← heq, hh]; exact lt_irrefl _)
  have hother : c.reg ≠ some r := by
    rw [hr]
    exact fun h => hne (Option.some.inj h)
  refine ⟨⟨ht.known, ht.removed⟩, rfl, ?_, ?_, ?_, ?_, ?_, fun _ _ _ => rfl⟩
  · intro h
    refine ⟨fun hm => ?_, fun hm => Multiset.mem_cons_of_mem hm⟩
    rcases Multiset.mem_cons.mp hm with heq | hm
    · exact absurd (congrArg Prod.snd heq).symm hne
    · exact hm
  · unfold liveOf
    rw [Multiset.countP_cons, if_neg (fun hno => hother hno.1), add_zero]
  · intro x hx hr hw
    rcases Multiset.mem_cons.mp hx with rfl | hx
    · exact absurd hr hother
    · exact ⟨x, hx, rfl, hr, hw⟩
  · intro h _
    unfold retries
    rw [Multiset.countP_cons, if_neg (fun hno => nomatch hno.2), add_zero]
  · intro h ha
    unfold ahead
    rw [Multiset.countP_cons, if_neg (fun hno => hold h ha hno.1), add_zero]

/-- Every step winds a tombstoned type down. -/
theorem step_winding (hi : Inv L) (ht : Tombstoned L r) (h : Step L L') : Winding r L L' := by
  cases h with
  | move rest p c p' c' ns hitems hm => exact move_winding hi ht hitems hm
  | start rest c hitems hs => exact start_winding hi ht hitems hs
  | submit c r' hst hh hr hlt hrem hnew => exact submit_winding hi ht hh hr hrem
  | tombstone r' k hw hs hold =>
    have hne : r ≠ r' := by
      rintro rfl
      rw [ht.removed] at hold
      cases hold
    have hsame : tombstoned L.reg r' k r = L.reg r := update_of_ne hne _ _
    refine .of_items ⟨ht.known, ?_⟩ ?_ rfl rfl rfl rfl
    · show (tombstoned L.reg r' k r).removed = true
      rw [hsame]
      exact ht.removed
    · show (tombstoned L.reg r' k r).cancelling = _
      rw [hsame]
  | halt hs => exact .of_items ⟨ht.known, ht.removed⟩ rfl rfl rfl rfl rfl
  | retype reg n hr hn hnew =>
    obtain ⟨-, -, hrem, hcan⟩ := hr r ht.known
    exact .of_items ⟨lt_of_lt_of_le ht.known hn, hrem.trans ht.removed⟩ hcan rfl rfl rfl rfl

/-- So does every sequence of steps. -/
theorem steps_winding (hi : Inv L) (ht : Tombstoned L r) (h : Steps L L') : Winding r L L' := by
  induction h with
  | refl => exact .refl ht
  | tail hs hstep ih => exact ih.trans (step_winding (steps_inv hs hi) ih.tomb hstep)

end Lives

section Systems

variable {s s' : Sys} {r : RegId} {x : Item} {ls : List Label} {e' : Engine} {dropped : List Item}

/-- The retries announced for a handle. -/
def retriedEvents (evs : List Ev) (h : Handle) : ℕ :=
  evs.countP fun ev => ev.handle = h ∧ decide (ev.kind = .retried) = true

/-- The live items of a type are those its removal waits for. -/
theorem liveOf_desk (s : Sys) (r : RegId) : liveOf (life (desk s)) r = regLiveRefs s.e r := by
  have hqueue : ∀ q : QId, (Place.queue q).live = true → ((s.e.q q).map (located (.queue q))).countP
      (fun x => decide (x.2.reg = some r ∧ x.1.live = true)) = fifoCountReg s.e q r := by
    intro q hq
    rw [countP_map, fifoCountReg]
    refine countP_congr fun it _ => ?_
    show decide (it.reg = some r ∧ (Place.queue q).live = true) = true ↔ decide (it.reg = some r) = true
    rw [decide_eq_true_iff, decide_eq_true_iff, and_iff_left hq]
  have hdead : ((s.e.q .dead).map (located (.queue .dead))).countP
      (fun x => decide (x.2.reg = some r ∧ x.1.live = true)) = 0 := by
    rw [countP_eq_zero]
    rintro x hx
    obtain ⟨it, -, rfl⟩ := mem_map.mp hx
    simp [located, Place.live, Place.waiting, Place.admitted]
  have haside : (aside (desk s)).countP (fun x => x.2.reg = some r ∧ x.1.live = true) = 0 := by
    rw [Multiset.countP_eq_zero]
    rintro x hx ⟨-, hlive⟩
    simp only [aside, desk, Multiset.mem_add, mem_group] at hx
    rcases hx with ((⟨it, hit, -⟩ | ⟨it, hit, -⟩) | ⟨it, -, rfl⟩) | ⟨it, -, rfl⟩
    · exact absurd hit not_mem_nil
    · exact absurd hit not_mem_nil
    · cases hlive
    · cases hlive
  unfold liveOf life
  rw [Multiset.countP_add, haside, add_zero, queued, Multiset.coe_countP]
  simp only [allQueues, flatMap_cons, flatMap_nil, countP_append, countP_nil]
  rw [regLiveRefs]
  have he : (desk s).e = s.e := rfl
  simp only [he, hqueue .intake rfl, hqueue .delayed rfl, hqueue .ready rfl, hqueue .running rfl,
    hqueue .done rfl, hdead]
  omega

/-- What is waiting. -/
theorem waiting_desk {c : Core} {p : Place} (hx : (p, c) ∈ (life (desk s)).items) (hw : p.waiting = true) :
    ∃ q, (q = .intake ∨ q = .delayed) ∧ ∃ it ∈ s.e.q q, it.toCore = c := by
  obtain ⟨it, hit, hcore⟩ := waiting_item rfl hx hw
  rcases mem_append.mp hit with hit | hit
  · exact ⟨.intake, .inl rfl, it, hit, hcore.symm⟩
  · exact ⟨.delayed, .inr rfl, it, hit, hcore.symm⟩

/-- A handle has at most one item. -/
theorem ahead_le_one {L : Life} (hi : ItemLife.Inv L) (h : Handle) : ahead L h ≤ 1 := by
  have hle : ahead L h ≤ (L.items.map fun x => x.2.handle).count h := by
    unfold ahead
    rw [Multiset.count_map, Multiset.countP_eq_card_filter]
    exact Multiset.card_le_card (Multiset.monotone_filter_right _ fun x hx => hx.1.symm)
  exact le_trans hle (Multiset.nodup_iff_count_le_one.mp hi.uniq h)

/-- A hook deferred an item in the pass. -/
def Deferred (inp : PassIn) (e : Engine) (x : Item) : Prop :=
  ∃ ps it after, Visits inp (passScored inp e) ps ∧ scanIntake ps.e (ps.e.q .intake) = .best it ∧
    it.handle = x.handle ∧ runConstraints ps.e (inp.hook ps.asked) = .defer after

/-- Where a delayed item comes from before admission. -/
def Parked (e : Engine) : QId → Item → Prop
  | .delayed, x => ∃ y, (y ∈ e.q .delayed ∨ y ∈ e.q .done) ∧ y.handle = x.handle
  | .done, x => ∃ y ∈ e.q .done, y.handle = x.handle
  | _, _ => True

/-- The ways of items lead there. -/
theorem parked_carries (e : Engine) : Carries (Parked e) where
  kin := by
    intro q x y hk h
    cases q with
    | delayed | done =>
      obtain ⟨z, hz, hzx⟩ := h
      exact ⟨z, hz, hzx.trans hk.handle.symm⟩
    | _ => trivial
  again := by
    rintro x ⟨y, hy, hyx⟩
    exact ⟨y, .inr hy, hyx⟩
  due _ _ := trivial

/-- What is delayed after a pass was delayed or finished before, or a hook deferred it. -/
theorem pass_parked {inp : PassIn} {e : Engine} (hx : x ∈ (enginePass inp e).e.q .delayed) :
    (∃ y, (y ∈ e.q .delayed ∨ y ∈ e.q .done) ∧ y.handle = x.handle) ∨ Deferred inp e x := by
  have hsettled : Every (Parked e) (passSettle inp e) := by
    refine settle_every (parked_carries e) inp fun q hq y hy => ?_
    cases q with
    | delayed => exact ⟨y, .inl hy, rfl⟩
    | done => exact ⟨y, hy, rfl⟩
    | _ => trivial
  have hvisited : ∀ ps, Visits inp (passScored inp e) ps → ∀ y ∈ ps.e.q .delayed,
      Parked e .delayed y ∨ Deferred inp e y := by
    intro ps hvisits
    induction hvisits with
    | here =>
      intro y hy
      refine .inl (hsettled.queues .delayed (by decide) y ?_)
      unfold passScored at hy
      rwa [rescore_queues inp _ (by decide)] at hy
    | next hvisits hat hgo ih =>
      intro y hy
      cases round_brings hgo .delayed (by decide) y hy with
      | stay hy => exact ih y hy
      | defer hit hscan hhook => exact .inr ⟨_, _, _, hvisits, hscan, rfl, hhook⟩
  obtain ⟨ps, hvisits, hq⟩ := pass_visits inp e
  rw [hq .delayed (by decide)] at hx
  exact hvisited ps hvisits x hx

/-- What a step does with a type that is being removed. -/
theorem step_parked {l : Label} (hs : Reachable s) (hstep : step s l = some s')
    (hwind : Winding r (life (desk s)) (life (desk s'))) (hx : x ∈ s'.e.q .delayed) (hr : x.reg = some r) :
    (∃ y ∈ s.e.q .delayed, y.handle = x.handle) ∨ ∃ inp, l = .pass inp ∧ Deferred inp s.e x := by
  cases hl : isPass l with
  | false =>
    rcases step_older hs hl hstep .delayed (by decide) x hx with ⟨q, -, y, hy, hlead, hh, -⟩ | ⟨hq, -⟩
    · cases hlead.waiting (.inl rfl)
      exact .inl ⟨y, hy, hh.symm⟩
    · cases hq
  | true =>
    cases l with
    | pass inp =>
      rw [(step_passes hstep).queues] at hx
      rcases pass_parked hx with ⟨y, hy | hy, hh⟩ | hdef
      · exact .inl ⟨y, hy, hh⟩
      · -- A finished item of the type cannot wait again: what waits now was waiting before.
        rw [← (step_passes hstep).queues] at hx
        obtain ⟨z, hz, hzh, -, hzw⟩ := hwind.waiting _ (located_mem hx) hr rfl
        obtain ⟨q, hq, w, hw, hcore⟩ := waiting_desk hz hzw
        have hsame : w.handle = y.handle := by
          rw [hh, hcore]
          exact hzh
        obtain ⟨hplace, -⟩ := same_place (reachable_life hs).2.1 hw hy hsame
        rcases hq with rfl | rfl <;> cases hplace
      · exact .inr ⟨inp, rfl, hdef⟩
    | _ => cases hl

/-- A run winds a tombstoned type down. -/
theorem run_winding (hs : Reachable s) (ht : Tombstoned (life (desk s)) r) (hrun : run s ls = some s') :
    Winding r (life (desk s)) (life (desk s')) := by
  obtain ⟨hinv, hi, -⟩ := reachable_life hs
  exact steps_winding hi ht (run_life hinv hrun).1

/-- The events of a state by handle. -/
theorem retries_events (s : Sys) (h : Handle) : (life (desk s)).notes.countP
    (fun n => n.handle = h ∧ decide (n.kind = .retried) = true) = retriedEvents (decided s) h :=
  countP_notes (decided s) h fun k _ => decide (k = .retried)

section Calls

variable {tid : ℕ} {name : Name} {mode : RemoveMode} {reentrant : Bool}

/-- An unregister that goes on tombstones its type. -/
theorem unregister_tombstones (hs : Reachable s)
    (hbegin : unregisterBegin s.e tid name mode reentrant = .ok (e', r, dropped))
    (hstep : step s (.unregister tid name mode reentrant) = some s') :
    Tombstoned (life (desk s')) r ∧
      (removeMode s.e r mode = .cancel → ((life (desk s')).reg r).cancelling = true) := by
  have he : s'.e = e' := by
    unfold step at hstep
    split_ifs at hstep
    dsimp only at hstep
    unfold stepUnregister at hstep
    split_ifs at hstep
    rw [hbegin] at hstep
    cases hstep
    rfl
  have hrest := (unregisterBegin_apart _ hbegin).rest
  have hreg : e'.reg = (tombstone s.e r (removeMode s.e r mode = .cancel)).reg := by rw [hrest]
  have hnext : e'.nextReg = s.e.nextReg := by
    rw [hrest]
    rfl
  have hknown : r < s.e.nextReg :=
    (reachable_inv hs).desk.registry r (registryFind_spec (unregisterBegin_ok hbegin).found).1
  have hself : ∀ k, ((tombstone s.e r k).reg r).removed = true ∧
      ((tombstone s.e r k).reg r).cancelling = ((s.e.reg r).cancelling || k) := by
    intro k
    unfold tombstone updReg
    dsimp only
    rw [update_self]
    exact ⟨rfl, rfl⟩
  refine ⟨⟨?_, ?_⟩, fun hc => ?_⟩
  · show r < s'.e.nextReg
    rw [he, hnext]
    exact hknown
  · show (s'.e.reg r).removed = true
    rw [he, hreg]
    exact (hself _).1
  · show (s'.e.reg r).cancelling = true
    rw [he, hreg, (hself _).2, decide_eq_true hc, Bool.or_true]

/-- An unregister that answers BUSY changes nothing. -/
theorem unregister_busy (hbusy : unregisterBegin s.e tid name mode reentrant = .error .busy)
    (hstep : step s (.unregister tid name mode reentrant) = some s') : s' = s := by
  unfold step at hstep
  split_ifs at hstep
  dsimp only at hstep
  unfold stepUnregister at hstep
  split_ifs at hstep
  rw [hbusy] at hstep
  cases hstep
  rfl

end Calls

/-- A type that an unregister has tombstoned only winds down. From any later state on no submit of it is
accepted, whatever its name is registered as meanwhile; a live item starts one more attempt at most, and none
if the removal discards work; no retry is announced, and what waits was waiting; the live items do not become
more, and only a hook's deferral delays one. A call that answers BUSY changes nothing. -/
theorem removed_type_winds_down {s₁ s₂ s₃ : Sys} {tid : ℕ} {name : Name} {mode : RemoveMode}
    {reentrant : Bool} {e' : Engine} {dropped : List Item} {ls ks : List Label} (hs : Reachable s)
    (hbegin : unregisterBegin s.e tid name mode reentrant = .ok (e', r, dropped))
    (hstep : step s (.unregister tid name mode reentrant) = some s₁) (hrun : run s₁ ls = some s₂)
    (hlater : run s₂ ks = some s₃) :
    (s₂.e.reg r).removed = true ∧
    (∀ h, (h, r) ∈ s₃.accepted → (h, r) ∈ s₂.accepted) ∧
    (∀ q ≠ QId.dead, ∀ x ∈ s₂.e.q q, x.reg = some r →
      s₃.starts.count x.handle ≤ s₂.starts.count x.handle + 1 ∧
      (removeMode s.e r mode = .cancel → s₃.starts.count x.handle = s₂.starts.count x.handle) ∧
      retriedEvents (decided s₃) x.handle = retriedEvents (decided s₂) x.handle) ∧
    (∀ q, q = .intake ∨ q = .delayed → ∀ x ∈ s₃.e.q q, x.reg = some r →
      ∃ q', (q' = .intake ∨ q' = .delayed) ∧ ∃ y ∈ s₂.e.q q', y.handle = x.handle) ∧
    regLiveRefs s₃.e r ≤ regLiveRefs s₂.e r ∧
    (∀ l s', step s₂ l = some s' → ∀ x ∈ s'.e.q .delayed, x.reg = some r →
      (∃ y ∈ s₂.e.q .delayed, y.handle = x.handle) ∨ ∃ inp, l = .pass inp ∧ Deferred inp s₂.e x) ∧
    ∀ (t t' : Sys) (tid : ℕ) (name : Name) (mode : RemoveMode) (reentrant : Bool),
      unregisterBegin t.e tid name mode reentrant = .error .busy →
      step t (.unregister tid name mode reentrant) = some t' → t' = t := by
  obtain ⟨ht, hcan⟩ := unregister_tombstones hs hbegin hstep
  have hs₁ := reachable_step hs hstep
  have hs₂ := reachable_run hs₁ hrun
  have hwind := run_winding hs₁ ht hrun
  have hwind' := run_winding hs₂ hwind.tomb hlater
  have hi₂ := (reachable_life hs₂).2.1
  refine ⟨hwind.tomb.removed, fun h hh => ?_, fun q hq x hx hr => ?_, fun q hq x hx hr => ?_, ?_,
    fun l s' hl x hx hr => ?_, fun t t' tid name mode reentrant hbusy hbusyStep => ?_⟩
  · exact Multiset.mem_coe.mp ((hwind'.accepted h).mp (Multiset.mem_coe.mpr hh))
  · have hacc : (x.handle, r) ∈ (life (desk s₂)).accepted := hi₂.typed _ (located_mem hx) r hr
    have hle := hwind'.starts x.handle hacc
    have hone := ahead_le_one hi₂ x.handle
    have hcounts : ∀ t : Sys, (life (desk t)).starts.count x.handle = t.starts.count x.handle := fun t =>
      Multiset.coe_count _ _
    rw [hcounts, hcounts] at hle
    refine ⟨by omega, fun hc => ?_, ?_⟩
    · have hbarred := hwind'.barred (hwind.cancelling.trans (hcan hc)) x.handle hacc
      rwa [hcounts, hcounts] at hbarred
    · have hretried := hwind'.retried x.handle hacc
      unfold retries at hretried
      rwa [retries_events, retries_events] at hretried
  · obtain ⟨y, hy, hyh, -, hyw⟩ := hwind'.waiting _ (located_mem hx) hr (by rcases hq with rfl | rfl <;> rfl)
    obtain ⟨q', hq', it, hit, hcore⟩ := waiting_desk hy hyw
    refine ⟨q', hq', it, hit, ?_⟩
    rw [hcore]
    exact hyh
  · have hlive := hwind'.live
    rwa [liveOf_desk, liveOf_desk] at hlive
  · have hone : run s₂ [l] = some s' := by
      rw [run, hl]
      rfl
    exact step_parked hs₂ hl (run_winding hs₂ hwind.tomb hone) hx hr
  · exact unregister_busy hbusy hbusyStep

/-- A handle that may be retried is running when its type is removed. -/
def removalRun : List Label :=
  retryBefore ++ [.submitCommit 7 retrySubmit, .pass (samplePass 10), .take 11, .execStarted 7]

/-- Its attempt fails then, and a pass decides. -/
def removedRun : List Label := [.execReturn 7 .timeout 12, .execReport 7, .execPost 7, .pass (samplePass 13)]

/-- The failed attempt is not retried. -/
theorem removed_type_winds_down_drain :
    regLiveRefs (sampled (removalRun ++ [.unregister 1 [97] .drain false])).e 0 = 1 ∧
      (sampled
        (removalRun ++ [.unregister 1 [97] .drain false] ++ removedRun)).starts.count 1 ≤ 2 ∧
      retriedEvents (decided (sampled
        (removalRun ++ [.unregister 1 [97] .drain false] ++ removedRun))) 1 = 0 := by
  have hs : Reachable (sampled removalRun) := reachable_ranTo (by decide +kernel)
  have hstep : step (sampled removalRun) (.unregister 1 [97] .drain false) = some _ :=
    step_from_ranTo (by decide +kernel)
  have hlater : run (sampled (removalRun ++ [.unregister 1 [97] .drain false]))
      removedRun = some _ := run_from_ranTo (by decide +kernel)
  have htaken : ((unregisterBegin (sampled removalRun).e 1 [97] .drain
      false).toOption.map fun x => x.2.1) = some 0 := by decide +kernel
  obtain ⟨⟨e', r, dropped⟩, hopt, hzero⟩ := Option.map_eq_some_iff.mp htaken
  cases hzero
  have hbegin : unregisterBegin (sampled removalRun).e 1 [97] .drain false =
      .ok (e', 0, dropped) := by
    generalize unregisterBegin (sampled removalRun).e 1 [97] .drain false = res
      at hopt ⊢
    cases res with
    | error st => cases hopt
    | ok x =>
      cases hopt
      rfl
  obtain ⟨-, -, hitems, -⟩ := removed_type_winds_down hs hbegin hstep (by rfl : run _ [] = some _) hlater
  have hmine : ∃ x ∈ (sampled
      (removalRun ++ [.unregister 1 [97] .drain false])).e.q .running, x.reg = some 0 ∧ x.handle = 1 := by
    decide +kernel
  obtain ⟨x, hx, hr, hh⟩ := hmine
  obtain ⟨hstarts, -, hretried⟩ := hitems .running (by decide) x hx hr
  rw [hh] at hstarts hretried
  refine ⟨by decide +kernel, le_trans hstarts (by decide +kernel), hretried.trans (by decide +kernel)⟩

end Systems

end Gptps.TypeRemoval
