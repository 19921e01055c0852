import Gptps.ChargeLedger
import Gptps.SystemInvariant
import Mathlib.Data.UInt

/-!
# The ledger of memory, slots and named resources

Admission reserves an item's memory, one slot and a snapshot of what its type
costs of each named resource; whoever takes an admitted item out of the engine
releases exactly those amounts. So the counters always are the sums over the
admitted items, in machine words, until the shutdown of a MANUAL engine collects
admitted items that no step will get to.
-/

namespace Gptps.EngineLedger

open Function ChargeLedger EngineState EngineStore EnginePass EngineApi EngineSystem ItemLife List
open IntakeOrder StoreInvariant EngineDesk DeskStore DeskLife ApiDesk SystemDesk SystemInvariant
open scoped UInt64.CommRing

/-- The items that hold a slot and a budget. -/
def admittedItems (e : Engine) : List Item := e.q .ready ++ e.q .running ++ e.q .done

/-- What an admitted item holds: its memory, and the snapshot of its resource costs. -/
def charge (it : Item) : UInt64 × List UInt64 := (it.costMem, it.resReserved.getD [])

/-- The charges of the items in the queues. -/
def charges (f : QId → List Item) : Multiset (UInt64 × List UInt64) :=
  ↑((f .ready).map charge) + ↑((f .running).map charge) + ↑((f .done).map charge)

/-- Items outside the admitted queues hold nothing. -/
def Bare (f : QId → List Item) : Prop :=
  ∀ q, (Place.queue q).admitted = false → ∀ it ∈ f q, it.resReserved = none

/-- The counters are the sums over the charges of the admitted items. -/
def Books (e : Engine) : Prop :=
  Balances e.running e.reservedMem (e.resources.map (·.reserved)) (charges e.q)

/-- The counters are right, and no waiting or retained item holds anything. -/
structure Ledger (d : Desk) : Prop where
  /-- The counters. -/
  books : Books d.e
  /-- The waiting and the retained items. -/
  bare : Bare d.e.q
  /-- The retries of the pass. -/
  announced : ∀ it ∈ d.announced, it.resReserved = none

section Charges

variable {f g : QId → List Item} {q : QId} {l : List Item} {it : Item}

/-- Only the queues of admitted items matter. -/
theorem charges_congr (h : ∀ q, (Place.queue q).admitted = true → g q = f q) : charges g = charges f := by
  unfold charges
  rw [h .ready rfl, h .running rfl, h .done rfl]

/-- Another queue changes. -/
theorem charges_other (h : (Place.queue q).admitted = false) : charges (update f q l) = charges f := by
  refine charges_congr ?_
  intro q' hq'
  refine update_of_ne ?_ _ _
  intro he
  rw [he, h] at hq'
  cases hq'

/-- The charges after the content of one admitted queue changed. -/
theorem charges_update (h : (Place.queue q).admitted = true) (f : QId → List Item) (l : List Item) :
    ∃ rest, charges f = ↑((f q).map charge) + rest ∧
      charges (update f q l) = ↑(l.map charge) + rest := by
  unfold charges
  cases q
  case ready =>
    refine ⟨↑((f .running).map charge) + ↑((f .done).map charge), ?_, ?_⟩
    · rw [add_assoc]
    · rw [update_self, update_of_ne (by decide), update_of_ne (by decide), add_assoc]
  case running =>
    refine ⟨↑((f .ready).map charge) + ↑((f .done).map charge), ?_, ?_⟩
    · rw [add_assoc, add_left_comm]
    · rw [update_self, update_of_ne (by decide), update_of_ne (by decide), add_assoc,
        add_left_comm]
  case done =>
    refine ⟨↑((f .ready).map charge) + ↑((f .running).map charge), ?_, ?_⟩
    · rw [add_comm]
    · rw [update_self, update_of_ne (by decide), update_of_ne (by decide), add_comm]
  all_goals cases h

/-- A queue is rewritten or rearranged without changing what its items hold. -/
theorem charges_same (h : (l.map charge).Perm ((f q).map charge)) :
    charges (update f q l) = charges f := by
  cases ha : (Place.queue q).admitted with
  | false => exact charges_other ha
  | true =>
    obtain ⟨rest, hold, hnew⟩ := charges_update ha f l
    rw [hold, hnew, Multiset.coe_eq_coe.mpr h]

/-- One item more in an admitted queue. -/
theorem charges_cons (ha : (Place.queue q).admitted = true) (h : l.Perm (it :: f q)) :
    charges (update f q l) = charge it ::ₘ charges f := by
  obtain ⟨rest, hold, hnew⟩ := charges_update ha f l
  rw [hold, hnew, Multiset.coe_eq_coe.mpr (h.map charge), map_cons, ← Multiset.cons_coe,
    Multiset.cons_add]

/-- An item leaves an admitted queue. -/
theorem charges_leaves {d : Desk} {e₁ : Engine} {b : Bool} (hd : DeskInv d)
    (ha : (Place.queue q).admitted = true) (h : Leaves d q it e₁ b) :
    charges d.e.q = charge it ::ₘ charges e₁.q := by
  have hm := (leaves_eq hd h).1
  obtain ⟨k₁, k₂, hl, -, herase⟩ := hd.store.around hm
  rw [leaves_q hd h, herase]
  obtain ⟨rest, hold, hnew⟩ := charges_update ha d.e.q (k₁ ++ k₂)
  have hperm : (d.e.q q).Perm (it :: (k₁ ++ k₂)) := hl ▸ perm_middle
  rw [hold, hnew, Multiset.coe_eq_coe.mpr (hperm.map charge), map_cons, ← Multiset.cons_coe,
    Multiset.cons_add]

end Charges

section Frames

variable {e e' : Engine} {f : QId → List Item} {q : QId} {l : List Item} {d d' : Desk} {it : Item}
  {p' : Option Place}

/-- One queue changes. -/
theorem Bare.update (h : Bare f)
    (hl : (Place.queue q).admitted = false → ∀ it ∈ l, it.resReserved = none) :
    Bare (update f q l) := by
  intro q' hq' it hit
  by_cases he : q' = q
  · subst he
    rw [update_self] at hit
    exact hl hq' it hit
  · rw [update_of_ne he] at hit
    exact h q' hq' it hit

/-- The same counters and the same charges. -/
theorem Books.congr (h : Books e) (hrun : e'.running = e.running)
    (hmem : e'.reservedMem = e.reservedMem) (hres : e'.resources = e.resources)
    (hc : charges e'.q = charges e.q) : Books e' := by
  unfold Books
  rw [hrun, hmem, hres, hc]
  exact h

/-- The counters and charges when only the index and the dead letters change. -/
theorem kept_charges (hk : KeptLive e e') : e'.running = e.running ∧
    e'.reservedMem = e.reservedMem ∧ e'.resources = e.resources ∧ charges e'.q = charges e.q := by
  refine ⟨(congrArg Engine.running hk.rest).trans rfl,
    (congrArg Engine.reservedMem hk.rest).trans rfl,
    (congrArg Engine.resources hk.rest).trans rfl, charges_congr ?_⟩
  intro q hq
  refine hk.q q ?_
  intro hdead
  rw [hdead] at hq
  cases hq

/-- Then the counters stay right. -/
theorem Books.kept (h : Books e) (hk : KeptLive e e') : Books e' := by
  obtain ⟨hrun, hmem, hres, hc⟩ := kept_charges hk
  exact h.congr hrun hmem hres hc

/-- Where an item lands it is charged if that is an admitted place; the counters stay. -/
theorem lands_charges (h : Lands d it p' d') :
    d'.e.running = d.e.running ∧ d'.e.reservedMem = d.e.reservedMem ∧
      d'.e.resources = d.e.resources ∧
      charges d'.e.q = if p'.any Place.admitted then charge it ::ₘ charges d.e.q
        else charges d.e.q := by
  cases h with
  | push q hq hi =>
    refine ⟨rfl, rfl, rfl, ?_⟩
    split_ifs with ha
    · exact charges_cons ha (perm_append_singleton _ _)
    · exact charges_other (Bool.eq_false_of_not_eq_true ha)
  | entry => exact ⟨rfl, rfl, rfl, charges_other rfl⟩
  | bury => exact kept_charges (deadLetterPush_kept d.e it)
  | drop => exact kept_charges (itemDrop_kept d.e it).toKeptLive
  | announce | pick => exact ⟨rfl, rfl, rfl, rfl⟩

/-- An item that holds nothing, or lands in an admitted place, leaves the others bare. -/
theorem lands_bare (h : Lands d it p' d') (hs : Sorted d.e d.stale) (hb : Bare d.e.q)
    (ha : ∀ x ∈ d.announced, x.resReserved = none)
    (hit : p'.any Place.admitted = false → it.resReserved = none) :
    Bare d'.e.q ∧ ∀ x ∈ d'.announced, x.resReserved = none := by
  cases h with
  | push q hq hi =>
    refine ⟨hb.update ?_, ha⟩
    intro hq' x hx
    rcases mem_append.mp hx with hx | hx
    · exact hb q hq' x hx
    · rw [mem_singleton.mp hx]
      exact hit hq'
  | entry hst =>
    rw [hst] at hs
    obtain ⟨l₁, l₂, hl, -, -, heq⟩ := intakeInsert_eq hs.ok it
    refine ⟨?_, ha⟩
    rw [heq]
    refine hb.update ?_
    intro hq' x hx
    rcases mem_append.mp hx with hx | hx
    · exact hb .intake rfl x (hl ▸ mem_append_left _ hx)
    · rcases mem_cons.mp hx with rfl | hx
      · exact hit rfl
      · exact hb .intake rfl x (hl ▸ mem_append_right _ hx)
  | bury =>
    obtain ⟨k, hk⟩ := deadLetterPush_q d.e it
    refine ⟨?_, ha⟩
    simp only [hk]
    refine hb.update ?_
    intro hq' x hx
    rcases mem_append.mp hx with hx | hx
    · exact hb .dead rfl x (mem_of_mem_drop hx)
    · rw [mem_singleton.mp hx]
      exact hit rfl
  | drop =>
    refine ⟨?_, ha⟩
    simp only [(itemDrop_kept d.e it).queues]
    exact hb
  | announce =>
    refine ⟨hb, ?_⟩
    intro x hx
    rcases mem_append.mp hx with hx | hx
    · exact ha x hx
    · rw [mem_singleton.mp hx]
      exact hit rfl
  | pick => exact ⟨hb, ha⟩

end Frames

section Acts

variable {d d' : Desk} {it it' : Item} {q : QId} {e₁ : Engine} {b : Bool} {now : ℕ}
  {snap : Option (List UInt64)} {top : Item}

/-- Reserving a snapshot adds its amounts. -/
theorem reserveRes_reserved (rs : List Resource) (snap : List UInt64) :
    (reserveRes rs snap).map (·.reserved) = addEach (rs.map (·.reserved)) snap := by
  induction rs generalizing snap with
  | nil => rfl
  | cons r rs ih =>
    cases snap with
    | nil => rfl
    | cons s ss => exact congrArg (cons _) (ih ss)

/-- Releasing it takes them off. -/
theorem releaseRes_reserved (rs : List Resource) (snap : List UInt64) :
    (releaseRes rs snap).map (·.reserved) = subEach (rs.map (·.reserved)) snap := by
  induction rs generalizing snap with
  | nil => rfl
  | cons r rs ih =>
    cases snap with
    | nil => rfl
    | cons s ss => exact congrArg (cons _) (ih ss)

/-- An item leaves a queue of the engine and the rest stays bare. -/
theorem leaves_bare (hd : DeskInv d) (h : Leaves d q it e₁ b) (hb : Bare d.e.q) : Bare e₁.q := by
  rw [leaves_q hd h]
  refine hb.update ?_
  intro hq x hx
  exact hb q hq x (mem_of_mem_eraseP hx)

/-- An item moves: what it held is released exactly when it is not admitted any more. -/
theorem move_ledger {e₂ : Engine} {p' : Option Place} {evs : List Ev} (hd : DeskInv d) (h : Ledger d)
    (hl : Leaves d q it e₁ b)
    (hc : Charge e₁ it.toCore (Place.queue q).admitted (p'.any Place.admitted) e₂ it'.resReserved)
    (hmem : it'.costMem = it.costMem)
    (hland : Lands { d with e := e₂, evs := d.evs ++ evs, stale := b } it' p' d') : Ledger d' := by
  have hstore := charge_store hc
  have hq : e₂.q = e₁.q := congrArg Store.q hstore
  have hsorted : Sorted e₂ b := (leaves_sorted hd hl).congr
    (congrFun (congrArg Store.q hstore) _) (congrArg Store.runs hstore)
    (congrArg Store.intakeSeq hstore)
  have hbare : Bare e₂.q := by
    rw [hq]
    exact leaves_bare hd hl h.bare
  have hnone : p'.any Place.admitted = false → it'.resReserved = none := by
    intro hp
    generalize ha : (Place.queue q).admitted = a at hc
    rw [hp] at hc
    generalize it'.resReserved = held at hc
    cases hc with
    | keep => exact h.bare q ha it (leaves_eq hd hl).1
    | release => rfl
  obtain ⟨hb', ha'⟩ := lands_bare hland hsorted hbare h.announced hnone
  refine ⟨?_, hb', ha'⟩
  obtain ⟨hrun, hm, hres, hch⟩ := lands_charges hland
  unfold Books
  rw [hrun, hm, hres, hch]
  have hrest := leaves_rest hl
  have hbooks : Balances e₁.running e₁.reservedMem (e₁.resources.map (·.reserved))
      (charges d.e.q) := by
    rw [hrest]
    exact h.books
  generalize ha : (Place.queue q).admitted = a at hc
  generalize hp : p'.any Place.admitted = p at hc
  generalize hheld : it'.resReserved = held at hc
  cases hc with
  | keep =>
    cases a with
    | false =>
      rw [if_neg (by decide), leaves_q hd hl, charges_other ha]
      exact hbooks
    | true =>
      have hsame : charge it' = charge it := by rw [charge, charge, hmem, hheld]
      rw [if_pos rfl, hsame, ← charges_leaves hd ha hl]
      exact hbooks
  | release =>
    rw [charges_leaves hd ha hl] at hbooks
    have hrel := hbooks.release
    simp only [release, releaseRes_reserved]
    exact hrel

/-- Rewriting items in place changes no charge. -/
theorem touch_charges {f : Item → Item} (hf : Retouch q f) :
    charges (mapQueue d.e q f).q = charges d.e.q := by
  have hcharge : ∀ x, charge (f x) = charge x := fun x => by rw [charge, charge, hf.mem, hf.holds]
  refine charges_same ?_
  rw [map_map, show charge ∘ f = charge from funext hcharge]

/-- Queued items are rewritten in place. -/
theorem touch_ledger {f : Item → Item} (h : Ledger d) (hf : Retouch q f) :
    Ledger { d with e := mapQueue d.e q f } := by
  refine ⟨h.books.congr rfl rfl rfl (touch_charges hf), h.bare.update ?_, h.announced⟩
  intro hq x hx
  obtain ⟨y, hy, rfl⟩ := mem_map.mp hx
  rw [hf.holds]
  exact h.bare q hq y hy

/-- An item keeps its charge when its attempt starts. -/
theorem start_charges (hd : DeskInv d) (hpop : fifoPop d.e .ready = some (it, e₁)) :
    charges (fifoPush e₁ .running (startItem d.e now it)).q = charges d.e.q := by
  have hl : Leaves d .ready it e₁ (d.stale || QId.ready = .intake) := .head hpop
  have hcons : charges (fifoPush e₁ .running (startItem d.e now it)).q =
      charge (startItem d.e now it) ::ₘ charges e₁.q :=
    charges_cons rfl (perm_append_singleton _ _)
  have hcharge : charge (startItem d.e now it) = charge it := rfl
  rw [hcons, hcharge, charges_leaves hd rfl hl]

/-- An attempt starts. -/
theorem start_ledger (hd : DeskInv d) (h : Ledger d) (hpop : fifoPop d.e .ready = some (it, e₁))
    {starts : List Handle} :
    Ledger { d with e := fifoPush e₁ .running (startItem d.e now it), starts := starts } := by
  have hl : Leaves d .ready it e₁ (d.stale || QId.ready = .intake) := .head hpop
  have hrest := leaves_rest hl
  have hbare := leaves_bare hd hl h.bare
  refine ⟨h.books.congr ?_ ?_ ?_ (start_charges hd hpop),
    hbare.update (fun hq => absurd hq (by decide)), h.announced⟩
  · exact (congrArg Engine.running hrest).trans rfl
  · exact (congrArg Engine.reservedMem hrest).trans rfl
  · exact (congrArg Engine.resources hrest).trans rfl

/-- The retry of a pass begins its pause. -/
theorem park_ledger {rest : List Item} (h : Ledger d) (ha : d.announced = it :: rest) :
    Ledger { d with e := fifoPush d.e .delayed it, announced := rest } := by
  have hann := h.announced
  rw [ha] at hann
  refine ⟨h.books.congr rfl rfl rfl (charges_other rfl), h.bare.update ?_, ?_⟩
  · intro hq x hx
    rcases mem_append.mp hx with hx | hx
    · exact h.bare .delayed rfl x hx
    · rw [mem_singleton.mp hx]
      exact hann it mem_cons_self
  · exact fun x hx => hann x (mem_cons_of_mem _ hx)

/-- Only the index and the taken addresses change. -/
theorem kept_ledger {e' : Engine} (h : Ledger d) (hk : Kept d.e e') :
    Books e' ∧ Bare e'.q := by
  refine ⟨h.books.kept hk.toKeptLive, ?_⟩
  rw [hk.queues]
  exact h.bare

/-- What a snapshot reserves reaches no further than the resources there are. -/
theorem snapOf_length {e : Engine} {c : Core} (h : SnapOf e c snap) :
    (snap.getD []).length ≤ e.resources.length := by
  subst h
  cases costOf e c with
  | none => exact Nat.zero_le _
  | some cost =>
    simp only [Option.map_some, Option.getD_some, takeSnapshot, length_map, length_range]
    exact le_rfl

/-- Charging the skipped item leaves the ledger alone. -/
theorem charged_fields (e : Engine) (top it : Item) : (charged e top it).running = e.running ∧
    (charged e top it).reservedMem = e.reservedMem ∧
    (charged e top it).resources = e.resources ∧
    charges (charged e top it).q = charges e.q := by
  unfold charged
  split_ifs
  · exact ⟨rfl, rfl, rfl, rfl⟩
  · exact ⟨rfl, rfl, rfl, charges_other rfl⟩

/-- An admission adds one charge. -/
theorem admission_charges (hd : DeskInv d) (hs : d.stale = false) (hm : it ∈ d.e.q .intake) :
    charges (EngineDesk.admitted d.e top it snap).q =
      (it.costMem, snap.getD []) ::ₘ charges d.e.q := by
  obtain ⟨hd₀, hl⟩ := charged_leaves hd top hs hm
  have hunlink : charges (intakeUnlink (charged d.e top it) it).q = charges d.e.q := by
    rw [leaves_q hd₀ hl, ← (charged_fields d.e top it).2.2.2]
    exact charges_other rfl
  rw [← hunlink]
  exact charges_cons (q := .ready) rfl
    (perm_append_singleton { it with resReserved := snap } _)

/-- An item is admitted: its memory, a slot and its snapshot are reserved. -/
theorem admission_ledger {adm : List Admission} (hd : DeskInv d) (h : Ledger d) (hs : d.stale = false)
    (hm : it ∈ d.e.q .intake) (hsnap : SnapOf d.e it.toCore snap) :
    Ledger { d with e := EngineDesk.admitted d.e top it snap, admissions := adm } := by
  obtain ⟨hd₀, hl⟩ := charged_leaves hd top hs hm
  have h₀ : Bare (charged d.e top it).q := by
    unfold charged
    split_ifs
    · exact h.bare
    · exact (touch_ledger h (chargeSkip_retouch top.ptr)).bare
  have hbare := leaves_bare hd₀ hl h₀
  refine ⟨?_, hbare.update (fun hq => absurd hq (by decide)), h.announced⟩
  obtain ⟨hrun, hmem, hres, -⟩ := charged_fields d.e top it
  have hlen : (snap.getD []).length ≤ (d.e.resources.map (·.reserved)).length := by
    rw [length_map]
    exact snapOf_length hsnap
  have hreserve := h.books.reserve (c := (it.costMem, snap.getD [])) hlen
  have hvec : (EngineDesk.admitted d.e top it snap).resources.map (·.reserved) =
      addEach (d.e.resources.map (·.reserved)) (snap.getD []) := by
    rw [← hres]
    exact reserveRes_reserved _ _
  have hrun' : (EngineDesk.admitted d.e top it snap).running = d.e.running + 1 :=
    congrArg (· + 1) hrun
  have hmem' : (EngineDesk.admitted d.e top it snap).reservedMem = d.e.reservedMem + it.costMem :=
    congrArg (· + it.costMem) hmem
  unfold Books
  simp only
  rw [admission_charges hd hs hm, hvec, hrun', hmem']
  exact hreserve

/-- Intake is rescored and sorted again. -/
theorem rescore_ledger {f : Item → ℤ} (hd : DeskInv d) (h : Ledger d) : Ledger { d with
    e := intakeResort (mapQueue d.e .intake fun it => { it with schedScore := f it })
    stale := false } := by
  obtain ⟨m, a, k, heq, hperm⟩ := rescored_eq hd f
  simp only [heq]
  refine ⟨h.books.congr rfl rfl rfl (charges_other rfl), h.bare.update ?_, h.announced⟩
  intro _ x hx
  obtain ⟨y, hy, rfl⟩ := mem_map.mp (hperm.mem_iff.mp hx)
  exact h.bare .intake rfl y hy

/-- A submit is accepted. -/
theorem submit_ledger {p : Ptr} {args : SubmitArgs} {r : RegId} {mem : UInt64} (hd : DeskInv d)
    (h : Ledger d) (hs : d.stale = false) (hr : hidxReserve d.e args.indexOk = (e₁, true)) :
    Books (hidxPut (intakeInsert { e₁ with nextHandle := e₁.nextHandle + 1 }
        (newItem e₁ p args r mem)) (newItem e₁ p args r mem)) ∧
      Bare (hidxPut (intakeInsert { e₁ with nextHandle := e₁.nextHandle + 1 }
        (newItem e₁ p args r mem)) (newItem e₁ p args r mem)).q := by
  have hkept := hidxReserve_kept d.e args.indexOk
  rw [hr] at hkept
  have hsorted := hd.sorted
  rw [hs] at hsorted
  have hok : Sorted { e₁ with nextHandle := e₁.nextHandle + 1 } false :=
    (hsorted.kept hkept.toKeptLive).congr rfl rfl rfl
  obtain ⟨hbooks, hbare⟩ := kept_ledger h hkept
  have hland : Lands { d with e := { e₁ with nextHandle := e₁.nextHandle + 1 }, stale := false }
      (newItem e₁ p args r mem) (some (.queue .intake)) _ := .entry rfl
  have hput := hidxPut_kept (intakeInsert { e₁ with nextHandle := e₁.nextHandle + 1 }
    (newItem e₁ p args r mem)) (newItem e₁ p args r mem)
  refine ⟨?_, ?_⟩
  · refine Books.kept ?_ hput.toKeptLive
    exact hbooks.congr rfl rfl rfl (charges_other rfl)
  · rw [hput.queues]
    exact (lands_bare hland hok hbare h.announced fun _ => rfl).1

/-- Every act but the final collection keeps the ledger. -/
theorem act_ledger (hd : DeskInv d) (h : Ledger d) (hact : Act false d d') : Ledger d' := by
  have hkept : Kept d.e d'.e → d'.announced = d.announced → Ledger d' := by
    intro hk ha
    obtain ⟨hbooks, hbare⟩ := kept_ledger h hk
    exact ⟨hbooks, hbare, ha ▸ h.announced⟩
  cases hact with
  | move hq hl hc hk hmem hm hev hland => exact move_ledger hd h hl hc hmem hland
  | collect _ _ hw => cases hw
  | park ha => exact park_ledger h ha
  | unindex => exact hkept (indexDropList_kept d.e d.picked) rfl
  | drain | handOver | giveBack => exact hkept (itemFree_kept d.e _) rfl
  | hand hpop hkey hcore hr =>
    obtain ⟨rest, hold, hnew⟩ := fifoPop_q hpop
    have hbooks := h.books.kept (fifoPop_dead_kept d.e _ hpop)
    refine ⟨hbooks.congr rfl rfl rfl rfl, ?_, h.announced⟩
    simp only [hnew]
    refine h.bare.update ?_
    intro hq x hx
    exact h.bare .dead rfl x (hold ▸ mem_cons_of_mem _ hx)
  | touch hf => exact touch_ledger h hf
  | @attempt it f ns evs hm hf =>
    have ht := touch_ledger h (retouch_at hf it.ptr)
    exact ⟨ht.books, ht.bare, ht.announced⟩
  | start hpop => exact start_ledger hd h hpop
  | admission hs ht hb hr hsnap => exact admission_ledger hd h hs (scanIntake_mem hb) hsnap
  | rescore => exact rescore_ledger hd h
  | forget | tombstone | halt => exact ⟨h.books, h.bare, h.announced⟩
  | trim => exact hkept (hidxTrim_kept d.e _) rfl
  | grow => exact hkept (hidxReserve_kept d.e _) rfl
  | take => exact hkept (takeItem_kept d.e _) rfl
  | pool hs hp => exact hkept (poolTake_kept d.e _ hp) rfl
  | submit hf hs hc hr =>
    obtain ⟨hbooks, hbare⟩ := submit_ledger hd h hs hr
    exact ⟨hbooks, hbare, h.announced⟩
  | sealing hm hseal =>
    unfold boundedSeal at hseal
    split_ifs at hseal
    · cases hseal
      exact h
    · cases hseal
      exact ⟨h.books, h.bare, h.announced⟩
  | configure hre =>
    have hq := congrArg Store.q hre.store
    refine ⟨?_, ?_, h.announced⟩
    · obtain ⟨n, hres⟩ := hre.resources
      unfold Books
      simp only [hre.running, hre.mem, hres, hq]
      exact h.books.extend n
    · simp only [hq]
      exact h.bare
  | rearrange hre =>
    refine ⟨?_, ?_, ?_⟩
    · rw [hre.engine]
      exact h.books
    · rw [hre.engine]
      exact h.bare
    · exact fun x hx => h.announced x (hre.announced.mem_iff.mpr hx)

end Acts

section Runs

variable {s s' : Sys}

/-- Every sequence of acts without the final collection keeps the ledger. -/
theorem acts_ledger {d d' : Desk} (hd : DeskInv d) (h : Ledger d) (hacts : Acts false d d') :
    Ledger d' := by
  have hboth : DeskInv d' ∧ Ledger d' := by
    induction hacts with
    | refl => exact ⟨hd, h⟩
    | tail _ hact ih => exact ⟨act_inv ih.1 hact, act_ledger ih.1 ih.2 hact⟩
  exact hboth.2

/-- There is nothing to collect in a quiet engine. -/
theorem shutdownCollect_quiet {e : Engine} (h : Quiet e) : shutdownCollect e = (intakeForget e, []) := by
  have hempty : ∀ q ≠ QId.dead, ∀ acc : Engine × List Item, acc.1.q = e.q → emptyQueue q acc = acc := by
    intro q hq acc hacc
    refine emptyQueue_nil ?_
    rw [hacc]
    exact h.empty q hq
  unfold shutdownCollect
  simp only
  rw [hempty .intake (by decide) (e, []) rfl]
  simp only
  rw [hempty .delayed (by decide) (intakeForget e, []) rfl,
    hempty .ready (by decide) (intakeForget e, []) rfl,
    hempty .done (by decide) (intakeForget e, []) rfl,
    hempty .running (by decide) (intakeForget e, []) rfl]
  rfl

/-- The ledger is right: the shutdown of a MANUAL engine has not yet collected. -/
def Booked (s : Sys) : Prop := (s.e.manual = true → collected s.shut = false) → Ledger (desk s)

/-- Once collected, the shutdown only goes on. -/
theorem collected_mono {l : Label} (hstep : step s l = some s') (hc : collected s.shut = true) :
    collected s'.shut = true := by
  rcases step_shut hstep with hsame | hshut
  · rw [hsame]
    exact hc
  · unfold stepShutdown at hshut
    split at hshut
    · split_ifs at hshut with hup
      rw [hup] at hc
      cases hc
    · split at hshut
      · rename_i hold
        rw [hold] at hc
        cases hc
      · cases hshut
        rfl
      · cases hshut
    · split_ifs at hshut
      cases hshut
      rfl
    · split_ifs at hshut
      cases hshut
      rfl
    · cases hshut

/-- The final collection takes nothing out of a THREADED engine. -/
theorem collect_ledger (hs : SysInv s) (hman : s.e.manual = false) (h : Ledger (desk s))
    (hstep : stepShutdown s .shutdownCollect = some s') : Ledger (desk s') := by
  simp only [stepShutdown] at hstep
  split_ifs at hstep with hjoin
  have hex : s.pump = .exited := by
    have hj := hjoin.2
    have hthr := hs.mode
    rw [hman] at hthr
    simp only [joined, Bool.or_eq_true, Bool.and_eq_true, decide_eq_true_eq] at hj
    rcases hj with hj | hj
    · exact hj.1.1
    · rw [hj] at hthr
      cases hthr
  rw [shutdownCollect_quiet (hs.quiet (.inl hex))] at hstep
  cases hstep
  exact ⟨h.books, h.bare, h.announced⟩

/-- Every step keeps the ledger right. -/
theorem step_booked {l : Label} (hs : SysInv s) (h : Booked s) (hstep : step s l = some s') :
    Booked s' := by
  intro hc'
  have hman : s'.e.manual = s.e.manual := (hs.step_progress hstep).manual
  have hbefore : s.e.manual = true → collected s.shut = false := by
    intro hm
    cases hc : collected s.shut with
    | false => rfl
    | true => exact (collected_mono hstep hc).symm.trans (hc' (hman.trans hm))
  have hl := h hbefore
  have hacts := step_acts hs.desk hs.joined_running hstep
  cases hcol : collects l with
  | false =>
    rw [hcol] at hacts
    have hl' := acts_ledger hs.desk hl hacts
    exact ⟨hl'.books, hl'.bare, hl'.announced⟩
  | true =>
    cases l with
    | shutdownCollect =>
      have hshut : stepShutdown s .shutdownCollect = some s' := by
        unfold step at hstep
        split_ifs at hstep
        exact hstep
      refine collect_ledger hs ?_ hl hshut
      cases hm : s.e.manual with
      | false => rfl
      | true =>
        have hno := hc' (hman.trans hm)
        simp only [stepShutdown] at hshut
        split_ifs at hshut
        cases hshut
        cases hno
    | _ => cases hcol

/-- In every reachable state. -/
theorem reachable_booked (h : Reachable s) : Booked s := by
  refine reachable_invariant (fun a _ => ⟨Balances.empty, ?_, forall_mem_nil _⟩)
    (fun s l s' hs hb hstep => step_booked (reachable_inv hs) hb hstep) h
  exact fun q _ it hit => absurd hit not_mem_nil

end Runs

section Sums

/-- Summing machine words is summing their values modulo the word. -/
theorem toNat_sum (l : List UInt64) : l.sum.toNat = (l.map UInt64.toNat).sum % 2 ^ 64 := by
  induction l with
  | nil => rfl
  | cons x xs ih =>
    have hadd : (x + xs.sum).toNat = (x.toNat + xs.sum.toNat) % 2 ^ 64 := UInt64.toNat_add x xs.sum
    rw [sum_cons, map_cons, sum_cons, hadd, ih, Nat.add_mod_mod]

/-- The memory of a list of items. -/
def memSum (l : List Item) : ℕ := (l.map fun it => it.costMem.toNat).sum

/-- What an item's snapshot holds of resource `i`: nothing where it is shorter or absent. -/
def heldOf (i : ℕ) (it : Item) : UInt64 := (it.resReserved.getD []).getD i 0

/-- What a list of items holds of resource `i`. -/
def resSum (i : ℕ) (l : List Item) : ℕ := (l.map fun it => (heldOf i it).toNat).sum

variable {e : Engine}

/-- The charges are those of the admitted items. -/
theorem charges_admitted (e : Engine) : charges e.q = ↑((admittedItems e).map charge) := by
  simp only [charges, admittedItems, map_append, ← Multiset.coe_add]

/-- The memory counter. -/
theorem Books.memSum (h : Books e) : e.reservedMem.toNat = memSum (admittedItems e) % 2 ^ 64 := by
  have htotal := h.total
  rw [charges_admitted, Multiset.map_coe, Multiset.sum_coe, map_map] at htotal
  rw [htotal, toNat_sum, map_map]
  rfl

/-- The counter of a resource. -/
theorem Books.resSum (h : Books e) (i : ℕ) (r : Resource) (hr : e.resources[i]? = some r) :
    r.reserved.toNat = resSum i (admittedItems e) % 2 ^ 64 := by
  have heach := h.each i
  rw [charges_admitted, Multiset.map_coe, Multiset.sum_coe, map_map] at heach
  have hget : (e.resources.map (·.reserved)).getD i 0 = r.reserved := by
    rw [getD_eq_getElem?_getD, getElem?_map, hr]
    rfl
  rw [← hget, heach, toNat_sum, map_map]
  rfl

end Sums

/-- With the lock free, and unless the shutdown of a MANUAL engine has made its final
collection, the counters are the sums over the admitted items of their memory and of the
snapshots taken at their admission, and waiting and retained items hold no snapshot. -/
theorem ledger_exact {s : Sys} (h : Reachable s) (hc : s.e.manual = true → collected s.shut = false) :
    s.e.running = (admittedItems s.e).length ∧
      s.e.reservedMem.toNat = memSum (admittedItems s.e) % 2 ^ 64 ∧
      (∀ i r, s.e.resources[i]? = some r →
        r.reserved.toNat = resSum i (admittedItems s.e) % 2 ^ 64) ∧
      ∀ it ∈ s.e.q .intake ++ s.e.q .delayed ++ s.e.q .dead, it.resReserved = none := by
  have hl := reachable_booked h hc
  have hbooks : Books s.e := hl.books
  refine ⟨?_, hbooks.memSum, hbooks.resSum, ?_⟩
  · have hcount := hbooks.count
    rwa [charges_admitted, Multiset.coe_card, length_map] at hcount
  · intro it hit
    rcases mem_append.mp hit with hit | hit
    · rcases mem_append.mp hit with hit | hit
      · exact hl.bare .intake rfl it hit
      · exact hl.bare .delayed rfl it hit
    · exact hl.bare .dead rfl it hit

/-- While one item of 600 bytes runs, the counters say so. -/
theorem ledger_exact_sample :
    (sampled (sampleStart false 600 ++ sampleBegin)).e.running = 1 := by
  have hexact := ledger_exact
    (s := sampled (sampleStart false 600 ++ sampleBegin))
    (reachable_ranTo (by decide +kernel)) (by decide +kernel)
  decide +kernel

/-- A MANUAL engine that is shut down with an item in `ready` still counts it after the
final collection has taken it out. -/
theorem ledger_leaks_at_collection :
    ∃ s, Reachable s ∧ s.e.running = 1 ∧ (admittedItems s.e).length = 0 := by
  refine ⟨ranTo (sampleOpen true 1000) (sampleStart false 600 ++
    [.submitTake 8 0, .submitCommit 8 sampleSubmit, .stepBegin, .pass (samplePass 10), .stepNext,
      .take 11, .execStarted 7, .execReturn 7 .ok 12, .execReport 7, .execPost 7, .stepDry,
      .pass (samplePass 13), .stepNext, .shutdownBegin 20, .shutdownCollect]),
    reachable_ranTo (by decide +kernel), ?_⟩
  decide +kernel

end Gptps.EngineLedger
