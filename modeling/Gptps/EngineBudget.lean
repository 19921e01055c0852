import Gptps.EngineLedger

/-!
# Budgets at admission

Admission compares what is reserved plus what an item costs with the budget, in
machine words. As long as those sums do not pass the end of a word, the compared
values are the mathematical sums over the admitted items, and no admission takes
them past the budget in force. Nothing in the engine keeps the sums inside a word:
with budgets near its end an admission can wrap them and is let through.
-/

namespace Gptps.EngineBudget

open Function ChargeLedger EngineState EngineStore EnginePass EngineApi EngineSystem ItemLife List
open IntakeOrder StoreInvariant EngineDesk DeskStore DeskLife ApiDesk SystemDesk SystemInvariant
open EngineLedger

/-- What an admitted item costs of resource `i` when it is admitted. -/
def costsOf (a : Admission) (i : ℕ) : UInt64 := ((costOf a.before a.best.toCore).getD []).getD i 0

/-- The sums the admission compares stay inside a machine word. -/
def Unwrapped (a : Admission) : Prop :=
  a.before.reservedMem.toNat + a.best.costMem.toNat < 2 ^ 64 ∧
    ∀ i r, a.before.resources[i]? = some r → r.reserved.toNat + (costsOf a i).toNat < 2 ^ 64

/-- The mathematical sums over the admitted items, the new one included, are within the
budgets in force. -/
def WithinBudget (a : Admission) : Prop :=
  memSum (admittedItems a.before) + a.best.costMem.toNat ≤ a.before.maxMemoryBytes.toNat ∧
    ∀ i r, a.before.resources[i]? = some r → costsOf a i ≠ 0 →
      resSum i (admittedItems a.before) + (costsOf a i).toNat ≤ r.budget.toNat

/-- The memory of a collection of charges. -/
def memOf (cs : Multiset (UInt64 × List UInt64)) : ℕ := (cs.map fun c => c.1.toNat).sum

/-- What a collection of charges holds of resource `i`. -/
def resOf (i : ℕ) (cs : Multiset (UInt64 × List UInt64)) : ℕ :=
  (cs.map fun c => (c.2.getD i 0).toNat).sum

/-- The mathematical sums over the admitted items stay inside a machine word. -/
def Inside (e : Engine) : Prop :=
  memOf (charges e.q) < 2 ^ 64 ∧ ∀ i, resOf i (charges e.q) < 2 ^ 64

section Sums

variable {e : Engine} {cs cs' : Multiset (UInt64 × List UInt64)}

/-- Fewer charges, less memory. -/
theorem memOf_mono (h : cs ≤ cs') : memOf cs ≤ memOf cs' := by
  obtain ⟨u, rfl⟩ := Multiset.le_iff_exists_add.mp h
  unfold memOf
  rw [Multiset.map_add, Multiset.sum_add]
  exact Nat.le_add_right _ _

/-- Fewer charges, less of each resource. -/
theorem resOf_mono (i : ℕ) (h : cs ≤ cs') : resOf i cs ≤ resOf i cs' := by
  obtain ⟨u, rfl⟩ := Multiset.le_iff_exists_add.mp h
  unfold resOf
  rw [Multiset.map_add, Multiset.sum_add]
  exact Nat.le_add_right _ _

/-- The memory of the admitted items. -/
theorem memOf_charges (e : Engine) : memOf (charges e.q) = memSum (admittedItems e) := by
  rw [memOf, charges_admitted, Multiset.map_coe, Multiset.sum_coe, map_map]
  rfl

/-- What the admitted items hold of a resource. -/
theorem resOf_charges (i : ℕ) (e : Engine) : resOf i (charges e.q) = resSum i (admittedItems e) := by
  rw [resOf, charges_admitted, Multiset.map_coe, Multiset.sum_coe, map_map]
  rfl

/-- Inside a word the memory counter is the mathematical sum. -/
theorem reservedMem_eq (h : Books e) (hin : Inside e) :
    e.reservedMem.toNat = memSum (admittedItems e) := by
  have hlt := hin.1
  rw [memOf_charges] at hlt
  rw [h.memSum, Nat.mod_eq_of_lt hlt]

/-- So is the counter of each resource. -/
theorem reserved_eq (h : Books e) (hin : Inside e) {i : ℕ} {r : Resource}
    (hr : e.resources[i]? = some r) : r.reserved.toNat = resSum i (admittedItems e) := by
  have hlt := hin.2 i
  rw [resOf_charges] at hlt
  rw [h.resSum i r hr, Nat.mod_eq_of_lt hlt]

/-- Every resource an item costs something of has that much left. -/
theorem fitsAll_getD {rs : List Resource} {cost : List UInt64} (h : fitsAll rs cost = true) {i : ℕ}
    {r : Resource} (hr : rs[i]? = some r) (hc : cost.getD i 0 ≠ 0) :
    r.reserved + cost.getD i 0 ≤ r.budget := by
  induction rs generalizing cost i with
  | nil => cases hr
  | cons x xs ih =>
    cases cost with
    | nil => exact absurd rfl hc
    | cons c cs =>
      simp only [fitsAll, Bool.and_eq_true, Bool.or_eq_true, decide_eq_true_eq] at h
      cases i with
      | zero =>
        cases hr
        rcases h.1 with hz | hle
        · exact absurd hz hc
        · exact hle
      | succ i => exact ih h.2 hr hc

/-- An amount that fits in machine words, the sum not wrapping, fits. -/
theorem fits_toNat {a b c : UInt64} (h : a + b ≤ c) (hno : a.toNat + b.toNat < 2 ^ 64) :
    a.toNat + b.toNat ≤ c.toNat := by
  have hle := UInt64.le_iff_toNat_le.mp h
  rwa [UInt64.toNat_add, Nat.mod_eq_of_lt hno] at hle

/-- An admission whose sums do not wrap keeps within the budgets. -/
theorem admission_within {top it : Item} (h : Books e) (hin : Inside e)
    (hfits : fitsNow e it.toCore = true) (hun : Unwrapped ⟨e, top, it⟩) :
    WithinBudget ⟨e, top, it⟩ := by
  simp only [fitsNow, Bool.and_eq_true, decide_eq_true_eq] at hfits
  refine ⟨?_, ?_⟩
  · have hmem := fits_toNat hfits.1 hun.1
    rwa [reservedMem_eq h hin] at hmem
  · intro i r hr hcost
    have hno := hun.2 i r hr
    have hres := hfits.2
    unfold resFits at hres
    unfold costsOf at hcost hno ⊢
    simp only at hr hcost hno ⊢
    cases hco : costOf e it.toCore with
    | none =>
      rw [hco] at hcost
      exact absurd rfl hcost
    | some cost =>
      rw [hco] at hcost hres hno
      have hle := fits_toNat (fitsAll_getD hres hr hcost) hno
      rw [reserved_eq h hin hr] at hle
      exact hle

end Sums

section Acts

variable {w : Bool} {d d' : Desk} {it : Item}

/-- What the walk over intake finds fits. -/
theorem scanIntake_fits {e : Engine} {l : List Item} (h : scanIntake e l = .best it) :
    fitsNow e it.toCore = true := by
  induction l with
  | nil => cases h
  | cons x xs ih =>
    unfold scanIntake at h
    split_ifs at h with hnever hfits
    · cases h
      exact hfits
    · exact ih h

/-- An item that leaves a queue adds no charge. -/
theorem leaves_charges_le {q : QId} {e₁ : Engine} {b : Bool} (hd : DeskInv d) (h : Leaves d q it e₁ b) :
    charges e₁.q ≤ charges d.e.q := by
  cases ha : (Place.queue q).admitted with
  | false => rw [leaves_q hd h, charges_other ha]
  | true =>
    rw [charges_leaves hd ha h]
    exact Multiset.le_cons_self _ _

/-- An item that moves adds no charge: it is admitted after only if it was before. -/
theorem move_charges_le {q : QId} {it' : Item} {e₁ e₂ : Engine} {b : Bool} {p' : Option Place}
    {evs : List Ev} (hd : DeskInv d) (hl : Leaves d q it e₁ b)
    (hc : Charge e₁ it.toCore (Place.queue q).admitted (p'.any Place.admitted) e₂ it'.resReserved)
    (hmem : it'.costMem = it.costMem)
    (hland : Lands { d with e := e₂, evs := d.evs ++ evs, stale := b } it' p' d') :
    charges d'.e.q ≤ charges d.e.q := by
  have hq : e₂.q = e₁.q := congrArg Store.q (charge_store hc)
  have hle := leaves_charges_le hd hl
  rw [(lands_charges hland).2.2.2, hq]
  split_ifs with hp
  · rw [hp] at hc
    generalize ha : (Place.queue q).admitted = a at hc
    generalize hheld : it'.resReserved = held at hc
    cases hc with
    | keep =>
      have hsame : charge it' = charge it := by rw [charge, charge, hmem, hheld]
      rw [hsame, charges_leaves hd ha hl]
  · exact hle

/-- Where an item lands does not matter to the admissions. -/
theorem lands_admissions {p' : Option Place} (h : Lands d it p' d') : d'.admissions = d.admissions := by
  cases h <;> rfl

/-- No act but an admission adds a charge. -/
theorem act_charges (hd : DeskInv d) (h : Act w d d') :
    charges d'.e.q ≤ charges d.e.q ∧ d'.admissions = d.admissions ∨
      ∃ top it snap, d.stale = false ∧ it ∈ d.e.q .intake ∧ fitsNow d.e it.toCore = true ∧
        SnapOf d.e it.toCore snap ∧ d'.e = EngineDesk.admitted d.e top it snap ∧
        d'.admissions = d.admissions ++ [⟨d.e, top, it⟩] := by
  have hkept : KeptLive d.e d'.e → d'.admissions = d.admissions →
      charges d'.e.q ≤ charges d.e.q ∧ d'.admissions = d.admissions :=
    fun hk ha => ⟨le_of_eq (kept_charges hk).2.2.2, ha⟩
  cases h with
  | @move _ q it it' e₁ e₂ b p' ns evs hq hl hc hk hmem hm hev hland =>
    exact .inl ⟨move_charges_le hd hl hc hmem hland, (lands_admissions hland).trans rfl⟩
  | collect hpop => exact .inl ⟨leaves_charges_le hd (.head hpop), rfl⟩
  | park => exact .inl ⟨le_of_eq (charges_other rfl), rfl⟩
  | unindex => exact .inl (hkept (indexDropList_kept _ _).toKeptLive rfl)
  | drain | handOver | giveBack => exact .inl (hkept (itemFree_kept _ _).toKeptLive rfl)
  | hand hpop => exact .inl ⟨le_of_eq (kept_charges (fifoPop_dead_kept d.e _ hpop)).2.2.2, rfl⟩
  | touch hf => exact .inl ⟨le_of_eq (touch_charges hf), rfl⟩
  | @attempt it f ns evs hm hf => exact .inl ⟨le_of_eq (touch_charges (retouch_at hf it.ptr)), rfl⟩
  | start hpop => exact .inl ⟨le_of_eq (start_charges hd hpop), rfl⟩
  | @admission top it rest snap hs ht hb hr hsnap =>
    exact .inr ⟨top, it, snap, hs, scanIntake_mem hb, scanIntake_fits hb, hsnap, rfl, rfl⟩
  | @rescore f =>
    obtain ⟨m, a, k, heq, -⟩ := rescored_eq hd f
    refine .inl ⟨le_of_eq ?_, rfl⟩
    simp only
    rw [heq]
    exact charges_other rfl
  | forget | tombstone | halt => exact .inl ⟨le_rfl, rfl⟩
  | trim => exact .inl (hkept (hidxTrim_kept _ _).toKeptLive rfl)
  | grow => exact .inl (hkept (hidxReserve_kept _ _).toKeptLive rfl)
  | take => exact .inl (hkept (takeItem_kept _ _).toKeptLive rfl)
  | pool hs hp => exact .inl (hkept (poolTake_kept _ _ hp).toKeptLive rfl)
  | @submit p rest args r mem e₁ ev hf hs hc hr =>
    have hres := (kept_charges (hidxReserve_kept d.e args.indexOk).toKeptLive).2.2.2
    rw [hr] at hres
    refine .inl ⟨le_of_eq ?_, rfl⟩
    rw [(kept_charges (hidxPut_kept _ _).toKeptLive).2.2.2, ← hres]
    exact charges_other rfl
  | sealing hm hseal =>
    unfold boundedSeal at hseal
    split_ifs at hseal <;> cases hseal <;> exact .inl ⟨le_rfl, rfl⟩
  | configure hre =>
    have hq := congrArg Store.q hre.store
    exact .inl ⟨le_of_eq (congrArg charges hq), rfl⟩
  | rearrange hre => exact .inl ⟨le_of_eq (by rw [hre.engine]), hre.admissions⟩

/-- What the snapshot of an admission holds of a resource is what the item costs of it. -/
theorem snapOf_getD {e : Engine} {top : Item} {snap : Option (List UInt64)} (h : SnapOf e it.toCore snap)
    {i : ℕ} {r : Resource} (hr : e.resources[i]? = some r) :
    (snap.getD []).getD i 0 = costsOf ⟨e, top, it⟩ i := by
  subst h
  unfold costsOf
  cases costOf e it.toCore with
  | none => rfl
  | some cost =>
    have hi : i < e.resources.length := (List.getElem?_eq_some_iff.mp hr).1
    simp only [Option.map_some, Option.getD_some, takeSnapshot]
    rw [getD_eq_getElem?_getD, getElem?_map, getElem?_range hi]
    rfl

/-- After an admission whose sums do not wrap, the mathematical sums are inside a word. -/
theorem admission_inside {top : Item} {snap : Option (List UInt64)} (hd : DeskInv d) (hl : Ledger d)
    (hin : Inside d.e) (hs : d.stale = false) (hm : it ∈ d.e.q .intake)
    (hsnap : SnapOf d.e it.toCore snap) (hun : Unwrapped ⟨d.e, top, it⟩) :
    Inside (EngineDesk.admitted d.e top it snap) := by
  unfold Inside
  rw [admission_charges hd hs hm]
  refine ⟨?_, ?_⟩
  · have hsum := hun.1
    simp only [reservedMem_eq hl.books hin, ← memOf_charges] at hsum
    rw [memOf, Multiset.map_cons, Multiset.sum_cons, add_comm]
    exact hsum
  · intro i
    rw [resOf, Multiset.map_cons, Multiset.sum_cons]
    cases hr : d.e.resources[i]? with
    | none =>
      have hlen := (snapOf_length hsnap).trans (List.getElem?_eq_none_iff.mp hr)
      have hzero : (snap.getD []).getD i 0 = 0 := getD_eq_default _ _ hlen
      simp only [hzero, UInt64.toNat_zero, zero_add]
      exact hin.2 i
    | some r =>
      have hsum := hun.2 i r hr
      rw [reserved_eq hl.books hin hr, ← resOf_charges] at hsum
      have hcost : (snap.getD []).getD i 0 = costsOf ⟨d.e, top, it⟩ i := snapOf_getD hsnap hr
      simp only [hcost]
      rw [add_comm]
      exact hsum

/-- What an act does to the budgets: if the sums of its admissions do not wrap, they keep
within the budgets, and the sums stay inside a word. -/
theorem act_budget (hd : DeskInv d) (hl : Ledger d) (hin : Inside d.e) (h : Act w d d') :
    ∃ new, d'.admissions = d.admissions ++ new ∧
      ((∀ a ∈ new, Unwrapped a) → Inside d'.e ∧ ∀ a ∈ new, WithinBudget a) := by
  rcases act_charges hd h with ⟨hle, hadm⟩ | ⟨top, it, snap, hs, hm, hfits, hsnap, he, hadm⟩
  · refine ⟨[], by rw [hadm, append_nil], fun _ => ⟨⟨?_, ?_⟩, ?_⟩⟩
    · exact lt_of_le_of_lt (memOf_mono hle) hin.1
    · exact fun i => lt_of_le_of_lt (resOf_mono i hle) (hin.2 i)
    · exact forall_mem_nil _
  · refine ⟨[⟨d.e, top, it⟩], hadm, fun hun => ?_⟩
    have hone := hun _ (mem_singleton.mpr rfl)
    refine ⟨?_, ?_⟩
    · rw [he]
      exact admission_inside hd hl hin hs hm hsnap hone
    · intro a ha
      rw [mem_singleton.mp ha]
      exact admission_within hl.books hin hfits hone

/-- Admissions are never forgotten. -/
theorem admissions_grow (hd : DeskInv d) (h : Act w d d') :
    ∃ more, d'.admissions = d.admissions ++ more := by
  rcases act_charges hd h with ⟨-, hadm⟩ | ⟨top, it, snap, -, -, -, -, -, hadm⟩
  · exact ⟨[], by rw [hadm, append_nil]⟩
  · exact ⟨_, hadm⟩

/-- The same for a sequence of acts. -/
theorem acts_budget (hd : DeskInv d) (hl : Ledger d) (hin : Inside d.e) (h : Acts false d d') :
    ∃ new, d'.admissions = d.admissions ++ new ∧
      ((∀ a ∈ new, Unwrapped a) → (Ledger d' ∧ Inside d'.e) ∧ ∀ a ∈ new, WithinBudget a) := by
  induction h with
  | refl =>
    refine ⟨[], (append_nil _).symm, fun _ => ⟨⟨hl, hin⟩, ?_⟩⟩
    exact forall_mem_nil _
  | tail hacts hact ih =>
    obtain ⟨new, hnew, hall⟩ := ih
    have hd' := acts_inv hd hacts
    have hl' := acts_ledger hd hl hacts
    by_cases hun : ∀ a ∈ new, Unwrapped a
    · obtain ⟨⟨-, hin'⟩, hwithin⟩ := hall hun
      obtain ⟨more, hmore, hrest⟩ := act_budget hd' hl' hin' hact
      refine ⟨new ++ more, by rw [hmore, hnew, append_assoc], fun hun' => ?_⟩
      obtain ⟨hinside, hwithin'⟩ := hrest fun a ha => hun' a (mem_append_right _ ha)
      refine ⟨⟨act_ledger hd' hl' hact, hinside⟩, ?_⟩
      intro a ha
      rcases mem_append.mp ha with ha | ha
      · exact hwithin a ha
      · exact hwithin' a ha
    · obtain ⟨more, hmore⟩ := admissions_grow hd' hact
      refine ⟨new ++ more, by rw [hmore, hnew, append_assoc], fun hun' => ?_⟩
      exact absurd (fun a ha => hun' a (mem_append_left _ ha)) hun

end Acts

section Runs

variable {s s' : Sys} {ls : List Label}

/-- The admissions of a run. -/
def runAdmissions (s : Sys) : List Label → List Admission
  | [] => []
  | l :: ls =>
    match step s l with
    | some s' => stepAdmissions s l ++ runAdmissions s' ls
    | none => []

/-- The ledger is right and its sums inside a word, or nothing will be admitted again. -/
def Solvent (s : Sys) : Prop := Ledger (desk s) ∧ Inside s.e ∨ Quiet s.e

/-- Nothing is admitted by a quiet engine. -/
theorem quiet_admissions {w : Bool} {d d' : Desk} (hd : DeskInv d) (hq : Quiet d.e)
    (ha : d.announced = []) (h : Acts w d d') : d'.admissions = d.admissions := by
  induction h with
  | refl => rfl
  | tail hacts hact ih =>
    have hq' := acts_quiet hd hacts hq ha
    rcases act_charges (acts_inv hd hacts) hact with ⟨-, hadm⟩ | ⟨top, it, snap, -, hm, -⟩
    · exact hadm.trans ih
    · rw [hq'.1.empty .intake (by decide)] at hm
      cases hm

/-- Every step whose admissions do not wrap keeps within the budgets. -/
theorem step_budget {l : Label} (hs : SysInv s) (h : Solvent s) (hstep : step s l = some s')
    (hun : ∀ a ∈ stepAdmissions s l, Unwrapped a) :
    Solvent s' ∧ ∀ a ∈ stepAdmissions s l, WithinBudget a := by
  have hacts := step_acts hs.desk hs.joined_running hstep
  rcases h with ⟨hl, hin⟩ | hq
  · cases hcol : collects l with
    | false =>
      rw [hcol] at hacts
      obtain ⟨new, hnew, hall⟩ := acts_budget hs.desk hl hin hacts
      have hsame : stepAdmissions s l = new := hnew
      rw [hsame] at hun ⊢
      obtain ⟨⟨hl', hin'⟩, hwithin⟩ := hall hun
      exact ⟨.inl ⟨⟨hl'.books, hl'.bare, hl'.announced⟩, hin'⟩, hwithin⟩
    | true =>
      cases l with
      | shutdownCollect =>
        refine ⟨.inr ?_, forall_mem_nil _⟩
        refine (hs.step hstep).quiet (.inr ?_)
        unfold step at hstep
        split_ifs at hstep
        simp only [stepShutdown] at hstep
        split_ifs at hstep
        cases hstep
        rfl
      | _ => cases hcol
  · have hnone : stepAdmissions s l = [] := quiet_admissions hs.desk hq rfl hacts
    rw [hnone]
    refine ⟨.inr (acts_quiet hs.desk hacts hq rfl).1, forall_mem_nil _⟩

/-- In a run no admission of which adds past the end of a machine word, every admission
keeps the mathematical sums over the admitted items, the new one included, within the
budgets in force. -/
theorem budgets_kept (hs : SysInv s) (h : Solvent s) (hrun : run s ls = some s')
    (hun : ∀ a ∈ runAdmissions s ls, Unwrapped a) : ∀ a ∈ runAdmissions s ls, WithinBudget a := by
  induction ls generalizing s with
  | nil => exact forall_mem_nil _
  | cons l ls ih =>
    obtain ⟨s₁, hstep, hrest⟩ := Option.bind_eq_some_iff.mp hrun
    simp only [runAdmissions, hstep, forall_mem_append] at hun ⊢
    obtain ⟨hsol, hwithin⟩ := step_budget hs h hstep hun.1
    exact ⟨hwithin, ih (hs.step hstep) hsol hrest hun.2⟩

/-- The same from the opening of an engine on. -/
theorem admissions_within_budget (a : OpenArgs) (hrun : run (init a) ls = some s)
    (hun : ∀ adm ∈ runAdmissions (init a) ls, Unwrapped adm) :
    ∀ adm ∈ runAdmissions (init a) ls, WithinBudget adm := by
  refine budgets_kept (init_inv a) (.inl ⟨?_, ?_⟩) hrun hun
  · exact reachable_booked ⟨a, [], rfl⟩ fun _ => rfl
  · have hnone : charges (init a).e.q = 0 := rfl
    unfold Inside
    exact ⟨Nat.two_pow_pos 64, fun _ => Nat.two_pow_pos 64⟩

/-- An engine that runs three items at a time. -/
def budgetOpen : OpenArgs := { sampleOpen false 1000 with maxConcurrentTasks := 3 }

/-- Three items of 300 bytes, each of which takes 400 of a resource of 1000. -/
def budgetRun : List Label :=
  sampleType false 300 ++ [.defineBegin [98] 1000 false, .definePublish [98] 1000 false true,
    .setCost 1 [97] [98] 400] ++ sampleAt 7 0 ++ sampleAt 8 0 ++ sampleAt 9 0 ++ [.pass (samplePass 10)]

/-- Two of them are admitted together, and the third would exceed the resource. -/
theorem admissions_within_budget_sample :
    (runAdmissions (init budgetOpen) budgetRun).map (fun adm => costsOf adm 0) = [400, 400] ∧
    ∀ adm ∈ runAdmissions (init budgetOpen) budgetRun, WithinBudget adm := by
  have hsums : ∀ adm ∈ runAdmissions (init budgetOpen) budgetRun,
      adm.before.reservedMem.toNat + adm.best.costMem.toNat < 2 ^ 64 ∧
        ∀ i : Fin adm.before.resources.length,
          (adm.before.resources.get i).reserved.toNat + (costsOf adm i).toNat < 2 ^ 64 := by
    decide +kernel
  refine ⟨by decide +kernel, admissions_within_budget budgetOpen (run_ranTo (by decide +kernel)) ?_⟩
  intro adm hadm
  refine ⟨(hsums adm hadm).1, fun i r hr => ?_⟩
  obtain ⟨hlt, rfl⟩ := List.getElem?_eq_some_iff.mp hr
  exact (hsums adm hadm).2 ⟨i, hlt⟩

/-- Two items of 2^63 bytes each are admitted together under a budget of 2^64 - 1: the
second sum wraps to zero. -/
theorem admission_wraps :
    ∃ ls, (run (init { sampleOpen false (2 ^ 64 - 1) with maxConcurrentTasks := 2 }) ls).isSome = true ∧
      ∃ adm ∈ runAdmissions (init { sampleOpen false (2 ^ 64 - 1) with maxConcurrentTasks := 2 }) ls,
        adm.before.maxMemoryBytes.toNat <
          memSum (admittedItems adm.before) + adm.best.costMem.toNat := by
  refine ⟨sampleStart false (2 ^ 63) ++ [.submitTake 8 0, .submitCommit 8 sampleSubmit,
    .pass (samplePass 10)], ?_⟩
  decide +kernel

end Runs

end Gptps.EngineBudget
