import Gptps.TransportStands

/-!
# Every request has one outcome

Every step of a call or of a reader is possible, so no record is touched that was released, and it keeps
what holds of the places of the records. At any time a call that has no outcome yet waits for a link
whose reader will still answer or fail it.
-/

namespace Gptps.TransportOutcomes

open Function Transport TransportStands Option
open List hiding count

variable {s : Sys} {stand : Addr → Stand} {c a : Addr} {k : Call} {i : ℕ} {L : Link} {st : Status}
  {r : Option Reply} {j : ℕ}

/-- A step is possible and what holds in every state holds after it. -/
def Goes (o : Option Sys) : Prop := ∃ s', o = some s' ∧ ∃ stand, Inv s' stand

section Calls

variable {x : Stand} {rc : Option Record} {n m : ℕ} {y : Xport}

/-- A call before its record is registered. -/
theorem Fits.early (h : Fits k x rc n m) (he : TransportStands.early k.phase) :
    x = .own ∧ n = 0 ∧ m = 0 ∧ ∃ r, rc = some r ∧ r.form = k.form ∧ r.done = false ∧ r.id = k.id := by
  have hno : ∀ i, ¬ onLink k i := by
    rintro i (hp | hp | ⟨hp, -⟩ | ⟨hp, -⟩) <;> rw [hp] at he <;> exact he
  cases h with
  | own hp hf hd hid hset => exact ⟨rfl, rfl, rfl, _, rfl, hf, hd, hid⟩
  | listed hp | done hb hp | handed ha hp | told ha hp | freed ha hp => exact absurd hp (hno _)
  | ended hp => rw [hp] at he; exact absurd he id

/-- A blocking call whose record is on a list has not returned. -/
theorem count_blocking (hp : onLink k i) (hb : k.form.isAsync = false) : count k = 0 := by
  rcases hp with hp | hp | ⟨hp, -⟩ | ⟨-, ha⟩
  · rw [count, Call.running, hp]; rfl
  · rw [count, Call.running, hp]; rfl
  · rw [count, Call.running, hp]; rfl
  · cases hb.symm.trans ha

/-- A call that has written, or tried to, goes on. -/
theorem Fits.advance {p : Phase} (h : Fits k x rc n m)
    (hph : k.phase = .writing i ∨ k.phase = .takingBack i) (hp : onLink { k with phase := p } i) :
    Fits { k with phase := p } x rc (count { k with phase := p }) m ∧ n = 0 := by
  have hcount : count k = 0 := by
    rcases hph with hph | hph <;> rw [count, Call.running, hph] <;> rfl
  have hlink : ∀ j, onLink k j → j = i := by
    intro j hj
    rcases hph with hph | hph <;> rcases hj with hq | hq | ⟨hq, -⟩ | ⟨hq, -⟩ <;> cases hph.symm.trans hq <;> rfl
  cases h with
  | own he => rcases hph with hph | hph <;> rw [hph] at he <;> exact absurd he id
  | listed hq hf hd hid hset => cases hlink _ hq; exact ⟨.listed hp hf hd hid hset, hcount⟩
  | done hb hq hf hd hid hset =>
    rw [count_blocking hp hb]
    exact ⟨.done hb hp hf hd hid hset, rfl⟩
  | handed ha hq hf hid hset => cases hlink _ hq; exact ⟨.handed ha hp hf hid hset, hcount⟩
  | told ha hq hf hid hset => cases hlink _ hq; exact ⟨.told ha hp hf hid hset, hcount⟩
  | freed ha hq hset => exact ⟨.freed ha hp hset, hcount⟩
  | ended hq => rcases hph with hph | hph <;> cases hph.symm.trans hq

/-- A call returns and its record is released. -/
theorem Inv.quit (h : Inv s stand) (hk : s.calls c = some k) (kin : Kin s.x y)
    (hlinks : ∀ i L, y.w[i]? = some L → LinkOk y.maxInFlight (update stand c .gone) i L) {p : Record}
    (hp : s.recs c = some p) (hret : returns c s.trace = 0) (hcb : callbacks c s.trace = 0)
    (hst : k.form.isAsync = true → st ≠ .ok) (hr : HonestAct s.trace (.returned c k.form k.id st r)) :
    Goes ({ s with x := y }.finish c k st r) := by
  have hnot : ¬ (k.form.isAsync = true ∧ st = .ok) := fun hb => hst hb.1 hb.2
  refine ⟨_, by rw [Sys.finish, if_neg hnot, hp, map_some], update stand c .gone, ?_⟩
  refine h.change rfl rfl (h.known hk) rfl
    (fun a ha => counts_returned_other ha) ?_ hlinks kin.len kin.alive nofun trivial
    (h.ids.same (c := c) rfl hk rfl kin.nextId) (fun a ha => ?_) nofun
    (fun i L r hL hr q hq => nomatch hq) fun i L a r _ => kin.calling i L a r
  · show Fits _ _ _ (returns c (s.trace ++ [_])) (callbacks c (s.trace ++ [_]))
    rw [counts_returned.1, counts_returned.2, hret, hcb]
    exact .ended rfl hst
  · cases mem_singleton.mp ha
    exact hr.append _

/-- An asynchronous call returns GPTPS_OK: its callback will tell. -/
theorem Inv.accept (h : Inv s stand) (hk : s.calls c = some k) (kin : Kin s.x y)
    (hlinks : ∀ i L, y.w[i]? = some L → LinkOk y.maxInFlight stand i L)
    (hph : k.phase = .writing i ∨ k.phase = .takingBack i) (ha : k.form.isAsync = true) :
    Goes ({ s with x := y }.finish c k .ok none) := by
  refine ⟨_, by rw [Sys.finish, if_pos ⟨ha, rfl⟩], stand, ?_⟩
  obtain ⟨hfits, hret⟩ := Fits.advance (h.fits c k hk) hph
    (p := .returned .ok) (.inr (.inr (.inr ⟨rfl, ha⟩)))
  refine h.phase hk rfl rfl rfl rfl kin hlinks (fun a ha => counts_returned_other ha) ?_ trivial
    fun a ha' => ?_
  · show Fits _ _ _ (returns c (s.trace ++ [_])) (callbacks c (s.trace ++ [_]))
    rw [counts_returned.1, counts_returned.2, hret]
    exact hfits
  · cases mem_singleton.mp ha'
    exact .inl ⟨rfl, .inl ⟨ha, rfl⟩⟩

/-- A link that was routed to exists. -/
theorem scanRr_lt {alive : List Bool} {cursor : ℕ} (h : (scanRr alive n j cursor).1 = some i) :
    i < alive.length := by
  induction j generalizing cursor with
  | zero => cases h
  | succ j ih =>
    rw [scanRr] at h
    split_ifs at h with halive
    · cases h
      exact (List.getElem?_eq_some_iff.mp halive).1
    · exact ih h

theorem nextRr_eq (x : Xport) : ∃ o cursor, nextRr x = (o, { x with cursor := cursor }) ∧
    ∀ i, o = some i → i < x.alive.length := by
  rw [nextRr]
  split_ifs with hn
  · exact ⟨none, x.cursor, rfl, nofun⟩
  · exact ⟨_, _, rfl, fun i hi => scanRr_lt hi⟩

variable (h : Inv s stand)

include h

/-- The record was with its call, so no link changes when it is released. -/
theorem Inv.links_gone (hlink : (stand c).link = none) (i : ℕ) (L : Link) (hL : s.x.w[i]? = some L) :
    LinkOk s.x.maxInFlight (update stand c .gone) i L :=
  (h.links i L hL).other (by rw [hlink]; nofun) nofun

/-- A call picks a link. -/
theorem Inv.route (hk : s.calls c = some k) (hph : k.phase = .routing) (written : Bool) :
    Goes (proceed s c k written) := by
  obtain ⟨hx, hret, hcb, p, hp, hf, hd, hid⟩ := Fits.early (h.fits c k hk) (by rw [hph]; trivial)
  obtain ⟨o, cursor, hnext, hlt⟩ := nextRr_eq s.x
  have kin : Kin s.x { s.x with cursor := cursor } := ⟨rfl, rfl, rfl, fun _ L _ _ hL hr => ⟨L, hL, hr⟩⟩
  rw [proceed, hph]
  cases o with
  | none =>
    simp only [hnext]
    exact Inv.quit h hk kin (Inv.links_gone h (by rw [hx]; rfl)) hp hret hcb nofun
      (.inr ⟨nofun, rfl⟩)
  | some i =>
    simp only [hnext]
    refine ⟨_, rfl, stand, h.phase hk rfl rfl rfl (append_nil _).symm kin h.links
      (fun _ _ => ⟨rfl, rfl⟩) ?_ ?_ nofun⟩
    · show Fits _ _ _ (returns c s.trace) (callbacks c s.trace)
      rw [hx, hp, hret, hcb]
      exact .own trivial hf hd hid nofun
    · exact h.alive ▸ hlt i rfl

/-- The link of a call that has one. -/
theorem Inv.link_of (hk : s.calls c = some k) (hph : routed s.x.w.length k.phase = (i < s.x.w.length)) :
    i < s.x.w.length ∧ ∃ L, s.x.w[i]? = some L ∧ LinkOk s.x.maxInFlight stand i L := by
  have hi : i < s.x.w.length := hph ▸ h.routed c k hk
  exact ⟨hi, s.x.w[i], getElem?_eq_getElem hi, h.links i _ (getElem?_eq_getElem hi)⟩

/-- Only one link was set, and no record moved. -/
theorem Inv.links_turn (hL : LinkOk s.x.maxInFlight stand i L) (j : ℕ) (M : Link)
    (hM : (s.x.w.set i L)[j]? = some M) : LinkOk s.x.maxInFlight stand j M := by
  rcases set_cases hM with ⟨rfl, rfl⟩ | ⟨-, hM⟩
  · exact hL
  · exact h.links j M hM

/-- A call gets an id. -/
theorem Inv.number (hk : s.calls c = some k) (hph : k.phase = .numbering i) (written : Bool) :
    Goes (proceed s c k written) := by
  obtain ⟨hx, hret, hcb, p, hp, hf, hd, hid⟩ := Fits.early (h.fits c k hk) (by rw [hph]; trivial)
  have hi := (Inv.link_of h hk (by rw [hph]; rfl)).1
  refine ⟨_, by rw [proceed, hph]; simp only [hp, map_some]; rfl, update stand c .own, ?_⟩
  refine h.change rfl rfl (h.known hk) (append_nil _).symm (fun _ _ => ⟨rfl, rfl⟩) ?_
    (fun j L hL => ?_) rfl rfl nofun hi (h.ids.fresh (c := c) rfl rfl rfl) nofun (fun q hq hqd => ?_)
    (fun j L r hL hr q hq => ?_) fun j L a r _ hL hr => ⟨L, hL, hr⟩
  · show Fits _ _ _ (returns c s.trace) (callbacks c s.trace)
    rw [hret, hcb]
    exact .own trivial hf hd rfl fun _ _ => Nat.succ_ne_zero _
  · exact (h.links j L hL).other (by rw [hx]; nofun) nofun
  · cases hq
    cases hd.symm.trans hqd
  · -- no reader has the record
    have hhand := ((h.links j L hL).hand c).mp (by rw [hr]; exact mem_cons_self)
    cases hx.symm.trans hhand

/-- A call registers its record. -/
theorem Inv.register (hk : s.calls c = some k) (hph : k.phase = .registering i) :
    Goes (Transport.register s c k i) := by
  have hearly := h.fits c k hk
  obtain ⟨hx, hret, hcb, p, hp, hf, hd, hid⟩ := Fits.early hearly (by rw [hph]; trivial)
  have hset : k.id ≠ 0 := by
    rw [hx, hp, hret, hcb] at hearly
    cases hearly with
    | own _ _ _ _ hset => exact hset i hph
  obtain ⟨hi, L, hL, hok⟩ := Inv.link_of h hk (i := i) (by rw [hph]; rfl)
  rw [Transport.register, hL, bind_some]
  split_ifs with hdead hfull
  · exact Inv.quit h hk (.refl s.x) (Inv.links_gone h (by rw [hx]; rfl)) hp hret hcb nofun
      (.inr ⟨nofun, rfl⟩)
  · exact Inv.quit h hk (.refl s.x) (Inv.links_gone h (by rw [hx]; rfl)) hp hret hcb nofun
      (.inr ⟨nofun, rfl⟩)
  · rw [hp, map_some]
    have kin := Kin.set (M := { L with pend := c :: L.pend, npend := L.npend + 1 }) hL fun a r hr => hr
    refine ⟨_, rfl, update stand c (.listed i), ?_⟩
    refine h.change rfl (update_eq_self c s.recs).symm (h.known hk) (append_nil _).symm
      (fun _ _ => ⟨rfl, rfl⟩) ?_ (fun j M hM => ?_) kin.len rfl (fun j hj => some.inj hj ▸ hi) hi
      (h.ids.same (c := c) rfl hk (show ({ k with phase := .writing i } : Call).id = k.id from rfl) rfl)
      nofun (h.honest.done c) (fun j M r hM hr q hq => ?_) fun j M a r _ hM hr => kin.calling j M a r hM hr
    · show Fits _ _ _ (returns c s.trace) (callbacks c s.trace)
      rw [hp, hret, hcb]
      exact .listed (.inl rfl) hf hd hid hset
    · rcases set_cases hM with ⟨rfl, rfl⟩ | ⟨hji, hM⟩
      · exact hok.register (by rw [hx]; nofun) (Bool.eq_false_iff.mpr hdead) (lt_of_not_ge hfull)
      · exact (h.links j M hM).other (by rw [hx]; nofun) fun heq => hji (some.inj heq).symm
    · obtain ⟨L₀, hL₀, hr₀⟩ := kin.calling j M c r hM hr
      exact h.honest.calling j L₀ c r hL₀ hr₀ q hq

/-- A call writes its frame. -/
theorem Inv.write (hk : s.calls c = some k) (hph : k.phase = .writing i) (written : Bool) :
    Goes (Transport.write s c k i written) := by
  obtain ⟨hi, L, hL, hok⟩ := Inv.link_of h hk (i := i) (by rw [hph]; rfl)
  have hfits := h.fits c k hk
  rw [Transport.write, hL, bind_some]
  split_ifs with hw hasync
  · exact Inv.accept h hk (.refl s.x) h.links (.inl hph) hasync
  · obtain ⟨hnew, hzero⟩ := Fits.advance hfits (.inl hph) (p := .waiting i)
      (.inr (.inr (.inl ⟨rfl, Bool.eq_false_iff.mpr hasync⟩)))
    exact ⟨_, rfl, stand, h.phase hk rfl rfl rfl (append_nil _).symm (.refl s.x) h.links
      (fun _ _ => ⟨rfl, rfl⟩) (hzero ▸ hnew) hi nofun⟩
  · obtain ⟨hnew, hzero⟩ := Fits.advance hfits (.inl hph) (p := .takingBack i) (.inr (.inl rfl))
    exact ⟨_, rfl, stand, h.phase hk rfl rfl rfl (append_nil _).symm (Kin.set hL fun a r hr => hr)
      (Inv.links_turn h (hok.turn L.reader true rfl rfl rfl)) (fun _ _ => ⟨rfl, rfl⟩) (hzero ▸ hnew) hi nofun⟩

/-- How a call and its record stand. -/
theorem Inv.fits_of (hk : s.calls a = some k) :
    ∃ x rc n m, stand a = x ∧ s.recs a = rc ∧ returns a s.trace = n ∧ callbacks a s.trace = m ∧
      Fits k x rc n m :=
  ⟨_, _, _, _, rfl, rfl, rfl, rfl, h.fits a k hk⟩

/-- A record that was not released has its call. -/
theorem Inv.call_of (hs : stand a = x) (hx : x ≠ .gone) :
    ∃ k rc n m, s.calls a = some k ∧ s.recs a = rc ∧ returns a s.trace = n ∧
      callbacks a s.trace = m ∧ Fits k x rc n m := by
  cases hk : s.calls a with
  | none => exact absurd (hs.symm.trans (h.later a hk).1) hx
  | some k => exact ⟨k, _, _, _, rfl, rfl, rfl, rfl, hs ▸ h.fits a k hk⟩

omit h

/-- A record on a list. -/
structure Pending (s : Sys) (i : ℕ) (a : Addr) (k : Call) (r : Record) : Prop where
  /-- Its call. -/
  call : s.calls a = some k
  /-- The record. -/
  recs : s.recs a = some r
  /-- The call knows its link. -/
  link : onLink k i
  /-- The form of the call. -/
  form : r.form = k.form
  /-- It was not completed. -/
  done : r.done = false
  /-- It has the id of the call. -/
  id : r.id = k.id
  /-- That was given. -/
  set : k.id ≠ 0
  /-- How often the call returned. -/
  returns : returns a s.trace = count k
  /-- It was not called back for. -/
  callbacks : callbacks a s.trace = 0

variable (h : Inv s stand)

include h

theorem Inv.pending (hs : stand a = .listed i) : ∃ k r, Pending s i a k r := by
  obtain ⟨k, rc, n, m, hk, hrc, hret, hcb, hfits⟩ := Inv.call_of h hs nofun
  cases hfits with
  | listed hp hf hd hid hset => exact ⟨k, _, hk, hrc, hp, hf, hd, hid, hset, hret, hcb⟩

/-- `pend_take` on a link. -/
theorem Inv.take (hok : LinkOk s.x.maxInFlight stand i L) (id : ℕ) :
    (L.take s.recs id = some (none, L) ∧
      ∀ a ∈ L.pend, ∀ k, s.calls a = some k → k.id ≠ id) ∨
      ∃ a k r, a ∈ L.pend ∧ Pending s i a k r ∧ k.id = id ∧
        L.take s.recs id =
          some (some a, { L with pend := L.pend.erase a, npend := L.npend - 1 }) := by
  have hall : ∀ a ∈ L.pend, ∃ r, s.recs a = some r := by
    intro a ha
    obtain ⟨k, r, hpend⟩ := Inv.pending h ((hok.pend a).mp ha)
    exact ⟨r, hpend.recs⟩
  rcases pendTake_cases id hall with ⟨htake, hno⟩ | ⟨a, ha, r, hr, hid, htake⟩
  · refine .inl ⟨by rw [Link.take, htake, map_some]; rfl, fun a ha k hk => ?_⟩
    obtain ⟨k', r, hpend⟩ := Inv.pending h ((hok.pend a).mp ha)
    cases hk.symm.trans hpend.call
    exact hpend.id ▸ hno a ha r hpend.recs
  · obtain ⟨k, r', hpend⟩ := Inv.pending h ((hok.pend a).mp ha)
    cases hr.symm.trans hpend.recs
    exact .inr ⟨a, k, r, ha, hpend, hpend.id.symm.trans hid,
      by rw [Link.take, htake, map_some]; rfl⟩

/-- The same links but one. -/
theorem Inv.links_set (hc : ∀ j, j ≠ i → (stand c).link ≠ some j) (hx : ∀ j, j ≠ i → x.link ≠ some j)
    (hL : LinkOk s.x.maxInFlight (update stand c x) i L) (j : ℕ) (M : Link)
    (hM : (s.x.w.set i L)[j]? = some M) : LinkOk s.x.maxInFlight (update stand c x) j M := by
  rcases set_cases hM with ⟨rfl, rfl⟩ | ⟨hji, hM⟩
  · exact hL
  · exact (h.links j M hM).other (hc j hji) (hx j hji)

/-- A call whose write failed takes its record back. -/
theorem Inv.takeBack (hk : s.calls c = some k) (hph : k.phase = .takingBack i) :
    Goes (Transport.takeBack s c k i) := by
  obtain ⟨hi, L, hL, hok⟩ := Inv.link_of h hk (i := i) (by rw [hph]; rfl)
  have hcount : count k = 0 := by rw [count, Call.running, hph]; rfl
  rw [Transport.takeBack, hL, bind_some]
  rcases Inv.take h hok k.id with ⟨htake, hno⟩ | ⟨a, k', r, ha, hpend, hid, htake⟩
  · rw [htake, bind_some]
    have hlist : c ∉ L.pend := fun hm => hno c hm k hk rfl
    by_cases hasync : k.form.isAsync = true
    · rw [if_neg (by simp [hasync])]
      exact Inv.accept h hk (Kin.set hL fun a r hr => hr) (Inv.links_turn h hok) (.inr hph) hasync
    · rw [if_pos (.inr (Bool.eq_false_iff.mpr hasync))]
      obtain ⟨x, rc, n, m, hx, hrc, hret, hcb, hfits⟩ := Inv.fits_of h hk
      cases hfits with
      | own hp => rw [hph] at hp; exact absurd hp id
      | @listed r j hp =>
        have hij : j = i := by
          rcases hp with hp | hp | ⟨hp, -⟩ | ⟨hp, -⟩ <;> cases hph.symm.trans hp
          rfl
        subst hij
        exact absurd ((hok.pend c).mpr hx) hlist
      | done hb hp hf hd hid hset =>
        exact Inv.quit h hk (Kin.set hL fun a r hr => hr)
          (Inv.links_set h (by rw [hx]; nofun) nofun (hok.other (by rw [hx]; nofun) nofun)) hrc hret hcb nofun
          (.inr ⟨nofun, rfl⟩)
      | handed ha | told ha | freed ha => exact absurd ha hasync
      | ended hp => cases hph.symm.trans hp
  · -- the record that has the id is the call's own
    have hac : a = c := h.ids.inj a k' c k hpend.call hk hid hpend.set
    subst hac
    cases hk.symm.trans hpend.call
    have hsa := (hok.pend a).mp ha
    have hlinks := Inv.links_set h (c := a) (x := .gone)
      (fun j hj => by rw [hsa]; exact fun heq => hj (some.inj heq).symm) nofun (hok.unlist ha nofun)
    have kin := Kin.set (M := { L with pend := L.pend.erase a, npend := L.npend - 1 }) hL fun a r hr => hr
    rw [htake, bind_some, if_pos (.inl rfl)]
    exact Inv.quit h hk kin hlinks hpend.recs (hpend.returns.trans hcount) hpend.callbacks nofun
      (.inr ⟨nofun, rfl⟩)

/-- A blocking call looks whether it was completed. -/
theorem Inv.await (hk : s.calls c = some k) (hph : k.phase = .waiting i) :
    Goes (Transport.await s c k) := by
  obtain ⟨x, rc, n, m, hx, hrc, hret, hcb, hfits⟩ := Inv.fits_of h hk
  have hblock : ∀ j, onLink k j → k.form.isAsync ≠ true := by
    rintro j (hp | hp | ⟨hp, hb⟩ | ⟨hp, -⟩)
    · cases hph.symm.trans hp
    · cases hph.symm.trans hp
    · rw [hb]; nofun
    · cases hph.symm.trans hp
  cases hfits with
  | own hp => rw [hph] at hp; exact absurd hp id
  | listed hp hf hd =>
    rw [Transport.await, hrc, bind_some, if_neg (by rw [hd]; nofun)]
    exact ⟨s, rfl, stand, h⟩
  | @done r j hb hp hf hd hid hset =>
    rw [Transport.await, hrc, bind_some, if_pos hd]
    have hquit : ∀ (st : Status) (rep : Option Reply),
        HonestAct s.trace (.returned c k.form k.id st rep) → Goes ({ s with x := s.x }.finish c k st rep) :=
      fun st rep hr => Inv.quit h hk (.refl s.x) (Inv.links_gone h (by rw [hx]; rfl)) hrc hret hcb
        (fun ha => absurd (hb.symm.trans ha) nofun) hr
    rcases h.honest.done c r hrc hd with ⟨hio, j, r₀, hframe, hreply⟩ | hio
    · rw [if_pos hio, hreply, map_some]
      exact hquit .ok _ (.inl ⟨rfl, .inr ⟨hb, j, r₀, hid ▸ hframe, rfl⟩⟩)
    · rw [if_neg (by rw [hio]; nofun)]
      exact hquit .io _ (.inr ⟨nofun, rfl⟩)
  | handed ha hp | told ha hp | freed ha hp => exact absurd ha (hblock _ hp)
  | ended hp => cases hph.symm.trans hp

/-- A call goes on. -/
theorem Inv.proceed (hk : s.calls c = some k) (hrun : k.running = true) (written : Bool) :
    Goes (Transport.proceed s c k written) := by
  cases hph : k.phase with
  | routing => exact Inv.route h hk hph written
  | numbering i => exact Inv.number h hk hph written
  | registering i => rw [Transport.proceed, hph]; exact Inv.register h hk hph
  | writing i => rw [Transport.proceed, hph]; exact Inv.write h hk hph written
  | takingBack i => rw [Transport.proceed, hph]; exact Inv.takeBack h hk hph
  | waiting i => rw [Transport.proceed, hph]; exact Inv.await h hk hph
  | returned st => rw [Call.running, hph] at hrun; cases hrun

omit h

end Calls

section Readers

variable {rd : Reader} {l : List Addr}

/-- A step of a reader about one record. -/
theorem Inv.handle (h : Inv s stand) (hk : s.calls a = some k) (hL : s.x.w[i]? = some L) {M : Link}
    {x : Stand} {rc : Option Record} {l : List Act} (ha : (stand a).link = some i)
    (hx : ∀ j, j ≠ i → x.link ≠ some j) (hM : LinkOk s.x.maxInFlight (update stand a x) i M)
    (hcounts : ∀ b, b ≠ a → returns b (s.trace ++ l) = returns b s.trace ∧
      callbacks b (s.trace ++ l) = callbacks b s.trace)
    (hfits : Fits k x rc (returns a (s.trace ++ l)) (callbacks a (s.trace ++ l)))
    (hnew : ∀ b ∈ l, HonestAct (s.trace ++ l) b)
    (hdone : ∀ p, rc = some p → p.done = true → Completed (s.trace ++ l) p)
    (hself : ∀ r, M.reader = .calling a r → ∀ p, rc = some p → Act.frame i p.id r ∈ s.trace ++ l)
    (hother : ∀ b r, b ≠ a → M.reader = .calling b r → L.reader = .calling b r) :
    ∃ stand', Inv { s.setLink i M with recs := update s.recs a rc, trace := s.trace ++ l } stand' := by
  have hi := h.placed a i ha
  have hfar : ∀ j, j ≠ i → (stand a).link ≠ some j := fun j hj heq =>
    hj (some.inj (ha.symm.trans heq)).symm
  have hcalls : s.calls = update s.calls a (some k) := by rw [← hk, update_eq_self]
  refine ⟨update stand a x, h.change hcalls rfl (h.known hk) rfl hcounts hfits
    (Inv.links_set h hfar hx hM) (length_set ..) rfl (fun j hj => ?_) (h.routed a k hk)
    (h.ids.same hcalls hk rfl rfl) hnew hdone (fun j N r hN hr p hp => ?_) fun j N b r hb hN hr => ?_⟩
  · by_cases hji : j = i
    · exact hji ▸ hi
    · exact absurd hj (hx j hji)
  · rcases set_cases hN with ⟨rfl, rfl⟩ | ⟨hji, hN⟩
    · exact hself r hr p hp
    · -- the record is with one link only
      have hhand := ((h.links j N hN).hand a).mp (by rw [hr]; exact mem_cons_self)
      exact absurd (by rw [hhand]; rfl) (hfar j hji)
  · rcases set_cases hN with ⟨rfl, rfl⟩ | ⟨-, hN⟩
    · exact ⟨L, hL, hother b r hb hr⟩
    · exact ⟨N, hN, hr⟩

/-- A reply arrives. -/
theorem Inv.arrive (h : Inv s stand) (hL : s.x.w[i]? = some L) (hr : L.reader = .reading) (id : ℕ)
    (r : Reply) : Goes (Transport.arrive s i L id r) := by
  have hok := h.links i L hL
  have hcounts : ∀ b, returns b (s.trace ++ [.frame i id r]) = returns b s.trace ∧
      callbacks b (s.trace ++ [.frame i id r]) = callbacks b s.trace := fun b => counts_frame i r
  have hnew : ∀ b ∈ [Act.frame i id r], HonestAct (s.trace ++ [.frame i id r]) b := fun b hb => by
    cases mem_singleton.mp hb
    trivial
  have hmem : Act.frame i id r ∈ s.trace ++ [.frame i id r] := mem_append_right _ mem_cons_self
  rw [Transport.arrive]
  rcases Inv.take h hok id with ⟨htake, -⟩ | ⟨a, k, p, ha, hpend, hid, htake⟩
  · rw [htake, bind_some]
    exact ⟨_, rfl, stand, h.idle rfl rfl rfl rfl (Kin.set hL fun a r hr => hr)
      (fun j M hM => Inv.links_turn h hok j M hM) hcounts hnew⟩
  · have hsa := (hok.pend a).mp ha
    have hpid : p.id = id := hpend.id.trans hid
    rw [htake, bind_some]
    simp only [hpend.recs, map_some]
    refine ⟨_, rfl, ?_⟩
    by_cases hasync : p.form.isAsync = true
    · rw [if_pos hasync]
      have hgo := Inv.handle h hpend.call hL (x := .handed i) (by rw [hsa]; rfl)
        (fun j hj heq => hj (some.inj heq).symm) (hok.answer ha r hr)
        (fun b _ => hcounts b)
        (by
          rw [(hcounts a).1, (hcounts a).2, hpend.returns, hpend.callbacks, hpend.recs]
          exact .handed (hpend.form ▸ hasync) hpend.link hpend.form hpend.id hpend.set)
        hnew (fun q hq hd => (h.honest.done a q hq hd).append _)
        (fun r' hr' q hq => by
          cases hr'
          cases hpend.recs.symm.trans hq
          exact hpid ▸ hmem)
        (fun b r' hb hr' => by cases hr'; exact absurd rfl hb)
      rwa [update_eq_self] at hgo
    · rw [if_neg hasync]
      have hb : k.form.isAsync = false := hpend.form ▸ Bool.eq_false_iff.mpr hasync
      refine Inv.handle h hpend.call hL (x := .done) (by rw [hsa]; rfl) nofun (hok.unlist ha nofun)
        (fun b _ => hcounts b) ?_ hnew (fun q hq _ => ?_) (fun r' hr' => ?_) (fun b r' _ hr' => hr')
      · rw [(hcounts a).1, (hcounts a).2, hpend.returns, hpend.callbacks, count_blocking hpend.link hb]
        exact .done hb hpend.link hpend.form rfl hpend.id hpend.set
      · cases hq
        exact .inl ⟨rfl, i, r, hpid ▸ hmem, rfl⟩
      · cases hr.symm.trans hr'

/-- A reader calls back for a record. -/
theorem Inv.callBack (h : Inv s stand) (hL : s.x.w[i]? = some L) (hhand : hand L.reader = a :: hand rd)
    (htold : told L.reader = []) (hnow : told rd = [a]) (hpast : past rd = past L.reader)
    (hst : (st = .ok ∧ ∃ r₀, r = some r₀ ∧ L.reader = .calling a r₀) ∨ st = .io ∧ r = none) :
    Goes (completeAsync s i L a st r rd) := by
  have hok := h.links i L hL
  have hsa : stand a = .handed i := (hok.hand a).mp (by rw [hhand]; exact mem_cons_self)
  obtain ⟨k, rc, n, m, hk, hrc, hret, hcb, hfits⟩ := Inv.call_of h hsa nofun
  cases hfits with
  | @handed p _ ha hp hf hid hset =>
    rw [completeAsync, hrc, map_some]
    refine ⟨_, rfl, ?_⟩
    have hnotcalling : ∀ b r', rd ≠ .calling b r' := fun b r' heq => by rw [heq] at hnow; cases hnow
    have hgo := Inv.handle h hk hL (x := .told i) (l := [.callback a p.form p.id st (r.map p.form.report)])
      (by rw [hsa]; rfl) (fun j hj heq => hj (some.inj heq).symm) (hok.call hhand htold hnow hpast)
      (fun b hb => counts_callback_other hb)
      (by
        rw [hrc, counts_callback.1, counts_callback.2, hret, hcb]
        exact .told ha hp hf hid hset)
      (fun b hb => by
        cases mem_singleton.mp hb
        rcases hst with ⟨rfl, r₀, rfl, hcall⟩ | ⟨rfl, rfl⟩
        · exact .inl ⟨rfl, i, r₀,
            mem_append_left _ (h.honest.calling i L a r₀ hL hcall p hrc), rfl⟩
        · exact .inr ⟨rfl, rfl⟩)
      (fun q hq hd => (h.honest.done a q hq hd).append _)
      (fun r' hr' => absurd hr' (hnotcalling a r')) (fun b r' _ hr' => absurd hr' (hnotcalling b r'))
    rwa [update_eq_self] at hgo

/-- A reader frees a record. -/
theorem Inv.release (h : Inv s stand) (hL : s.x.w[i]? = some L) (hhand : hand rd = hand L.reader)
    (htold : told L.reader = [a]) (hnow : told rd = []) (hpast : past rd = past L.reader)
    (hnotcalling : ∀ b r, rd ≠ .calling b r) : Goes (Transport.release s i L a rd) := by
  have hok := h.links i L hL
  have hsa : stand a = .told i := (hok.told a).mp (by rw [htold]; exact mem_cons_self)
  obtain ⟨k, rc, n, m, hk, hrc, hret, hcb, hfits⟩ := Inv.call_of h hsa nofun
  cases hfits with
  | told ha hp hf hid hset =>
    rw [Transport.release, hrc, map_some]
    refine ⟨_, rfl, ?_⟩
    have hgo : ∃ stand', Inv { s.setLink i { L with reader := rd } with
        recs := update s.recs a none, trace := s.trace ++ [] } stand' :=
      Inv.handle h hk hL (x := .gone) (by rw [hsa]; rfl) nofun (hok.release hhand htold hnow hpast)
        (fun b _ => by rw [append_nil]; exact ⟨rfl, rfl⟩)
        (by
          rw [append_nil, hret, hcb]
          exact .freed ha hp hset)
        nofun nofun nofun (fun b r _ hr => absurd hr (hnotcalling b r))
    rwa [append_nil] at hgo

/-- Where the records stand after `fail_all`. -/
def failStand (recs : Addr → Option Record) (stand : Addr → Stand) (i : ℕ) (l : List Addr) (a : Addr) :
    Stand :=
  if a ∈ l then if (recs a).any fun r => r.form.isAsync then .handed i else .done else stand a

theorem failStand_of_mem (ha : a ∈ l) {r : Record} (hr : s.recs a = some r) :
    failStand s.recs stand i l a = if r.form.isAsync then .handed i else .done := by
  rw [failStand, if_pos ha, hr, any_some]

theorem markDead_kept (x : Xport) (i : ℕ) : (markDead x i).alive.length = x.alive.length ∧
    (markDead x i).nextId = x.nextId ∧ (markDead x i).maxInFlight = x.maxInFlight := by
  rw [markDead]
  split_ifs
  · exact ⟨length_set .., rfl, rfl⟩
  · exact ⟨rfl, rfl, rfl⟩

/-- A record stands with the link after `fail_all` if it did before, for the other links. -/
theorem failStand_other (hl : ∀ a ∈ l, stand a = .listed i) (hji : j ≠ i) {y : Stand}
    (hy : y.link = some j) (b : Addr) : stand b = y ↔ failStand s.recs stand i l b = y := by
  rw [failStand]
  split_ifs with hb hasync
  · rw [hl b hb]
    exact ⟨fun h => absurd (h ▸ hy) (by simpa [Stand.link] using hji.symm),
      fun h => absurd (h ▸ hy) (by simpa [Stand.link] using hji.symm)⟩
  · rw [hl b hb]
    exact ⟨fun h => absurd (h ▸ hy) (by simpa [Stand.link] using hji.symm),
      fun h => absurd (h ▸ hy) nofun⟩
  · rfl

/-- A link after `fail_all`. -/
theorem Inv.failLink (h : Inv s stand) (hL : s.x.w[i]? = some L) (hr : L.reader = .broken)
    {kept : List Addr} (hnd : kept.Nodup)
    (hkept : ∀ a, a ∈ kept ↔ a ∈ L.pend ∧ ∃ r, s.recs a = some r ∧ r.form.isAsync = true) :
    LinkOk s.x.maxInFlight (failStand s.recs stand i L.pend) i
      { L with pend := [], npend := 0, dead := true, reader := .failing kept } := by
  have hok := h.links i L hL
  have hhand : ∀ b, stand b ≠ .handed i := fun b hb => by
    have := (hok.hand b).mpr hb
    rw [hr] at this
    cases this
  have htold : ∀ b, stand b ≠ .told i := fun b hb => by
    have := (hok.told b).mpr hb
    rw [hr] at this
    cases this
  have hcases : ∀ b, (b ∈ L.pend ∧ ∃ r, s.recs b = some r ∧
      failStand s.recs stand i L.pend b = if r.form.isAsync then .handed i else .done) ∨
      b ∉ L.pend ∧ failStand s.recs stand i L.pend b = stand b := by
    intro b
    by_cases hb : b ∈ L.pend
    · obtain ⟨k, r, hpend⟩ := Inv.pending h ((hok.pend b).mp hb)
      exact .inl ⟨hb, r, hpend.recs, failStand_of_mem hb hpend.recs⟩
    · exact .inr ⟨hb, if_neg hb⟩
  refine ⟨fun b => ⟨nofun, fun hb => ?_⟩, nodup_nil, rfl, Nat.zero_le _, fun b => ?_, hnd,
    fun b => ⟨nofun, fun hb => ?_⟩, fun _ => rfl, rfl⟩
  · rcases hcases b with ⟨-, r, -, hs⟩ | ⟨hnot, hs⟩
    · rw [hs] at hb
      split_ifs at hb
    · exact absurd ((hok.pend b).mpr (hs ▸ hb)) hnot
  · rw [show hand (Reader.failing kept) = kept from rfl, hkept b]
    rcases hcases b with ⟨hb, r, hrec, hs⟩ | ⟨hnot, hs⟩
    · rw [hs]
      constructor
      · rintro ⟨-, q, hq, hqa⟩
        cases hrec.symm.trans hq
        rw [if_pos hqa]
      · intro heq
        split_ifs at heq with hasync
        exact ⟨hb, r, hrec, hasync⟩
    · rw [hs]
      exact ⟨fun hb => absurd hb.1 hnot, fun hb => absurd hb (hhand b)⟩
  · rcases hcases b with ⟨-, r, -, hs⟩ | ⟨-, hs⟩
    · rw [hs] at hb
      split_ifs at hb
    · exact absurd (hs ▸ hb) (htold b)

/-- The reader of a link fails what is outstanding. -/
theorem Inv.failAll (h : Inv s stand) (hL : s.x.w[i]? = some L) (hr : L.reader = .broken) :
    Goes (Transport.failAll s i L) := by
  have hok := h.links i L hL
  have hi := (List.getElem?_eq_some_iff.mp hL).1
  have hlist : ∀ a ∈ L.pend, stand a = .listed i := fun a => (hok.pend a).mp
  have hall : ∀ a ∈ L.pend, ∃ r, s.recs a = some r := fun a ha => by
    obtain ⟨k, r, hpend⟩ := Inv.pending h (hlist a ha)
    exact ⟨r, hpend.recs⟩
  obtain ⟨recs', out, hsplit, hrecs, kept, hout, hnd, hkept⟩ := failSplit_some [] hok.nodup hall
  rw [append_nil] at hout
  subst hout
  obtain ⟨halive, hnext, hmax⟩ := markDead_kept s.x i
  rw [Transport.failAll, hsplit, map_some]
  refine ⟨_, rfl, failStand s.recs stand i L.pend, ?_⟩
  have hsame : ∀ a, a ∉ L.pend → recs' a = s.recs a ∧ failStand s.recs stand i L.pend a = stand a :=
    fun a ha => ⟨(hrecs a).trans (if_neg ha), if_neg ha⟩
  refine h.touch (T := (· ∈ L.pend)) (l := []) (fun a ha => ⟨rfl, hsame a ha⟩) (fun a ha => ?_)
    (fun a => ⟨fun hle => ⟨hle, fun ha => ?_⟩, And.left⟩) (append_nil _).symm (fun _ _ => ⟨rfl, rfl⟩)
    (fun j M hM => ?_) (length_set ..) halive ⟨h.ids.inj, fun a k hk => hnext ▸ h.ids.le a k hk⟩ nofun
    (fun a ha p hp hd => ?_) fun j M a r hM hr' p hp => ?_
  · obtain ⟨k, r, hpend⟩ := Inv.pending h (hlist a ha)
    refine ⟨k, hpend.call, ?_, h.routed a k hpend.call, fun j hj => ?_⟩
    · show Fits k _ (recs' a) (returns a s.trace) (callbacks a s.trace)
      rw [hrecs a, if_pos ha, hpend.recs, map_some, failStand_of_mem ha hpend.recs, failed,
        hpend.returns, hpend.callbacks]
      split_ifs with hasync
      · exact .handed (hpend.form ▸ hasync) hpend.link hpend.form hpend.id hpend.set
      · have hb : k.form.isAsync = false := hpend.form ▸ Bool.eq_false_iff.mpr hasync
        rw [count_blocking hpend.link hb]
        exact .done hb hpend.link hpend.form rfl hpend.id hpend.set
    · rw [failStand_of_mem ha hpend.recs] at hj
      split_ifs at hj
      · exact some.inj hj ▸ hi
      · cases hj
  · obtain ⟨k, r, hpend⟩ := Inv.pending h (hlist a ha)
    cases hpend.call.symm.trans ((h.made a).mpr hle)
  · show LinkOk (markDead s.x i).maxInFlight _ j M
    rw [hmax]
    rcases set_cases hM with ⟨rfl, rfl⟩ | ⟨hji, hM⟩
    · exact Inv.failLink h hL hr hnd hkept
    · exact (h.links j M hM).congr fun y hy => failStand_other hlist hji hy
  · obtain ⟨k, r, hpend⟩ := Inv.pending h (hlist a ha)
    have hp : recs' a = some p := hp
    rw [hrecs a, if_pos ha, hpend.recs, map_some, failed] at hp
    split_ifs at hp
    · cases hp
      cases hpend.done.symm.trans hd
    · cases hp
      exact .inr rfl
  · have hp : recs' a = some p := hp
    rcases set_cases hM with ⟨rfl, rfl⟩ | ⟨hji, hM⟩
    · cases hr'
    · -- the record is with another link
      have hhand := ((h.links j M hM).hand a).mp (by rw [hr']; exact mem_cons_self)
      have hm : a ∉ L.pend := fun hm => by cases (hlist a hm).symm.trans hhand
      rw [(hsame a hm).1] at hp
      exact h.honest.calling j M a r hM hr' p hp

/-- The reader of a link goes on. -/
theorem Inv.readerMain (h : Inv s stand) (hL : s.x.w[i]? = some L) (hreading : L.reader ≠ .reading)
    (hgone : L.reader ≠ .gone) : Goes (Transport.readerMain s i L) := by
  cases hr : L.reader with
  | reading => exact absurd hr hreading
  | calling a r =>
    rw [Transport.readerMain, hr]
    exact Inv.callBack h hL (by rw [hr]; rfl) (by rw [hr]; rfl) rfl (by rw [hr]; rfl)
      (.inl ⟨rfl, r, rfl, hr⟩)
  | called a =>
    rw [Transport.readerMain, hr]
    exact Inv.release h hL (by rw [hr]; rfl) (by rw [hr]; rfl) rfl (by rw [hr]; rfl) nofun
  | broken =>
    rw [Transport.readerMain, hr]
    exact Inv.failAll h hL hr
  | failing l =>
    rw [Transport.readerMain, hr]
    cases l with
    | nil =>
      refine ⟨_, rfl, stand, ?_⟩
      exact h.idle rfl rfl rfl (append_nil _).symm (Kin.set hL nofun)
        (Inv.links_turn h ((h.links i L hL).turn .gone L.eof (by rw [hr]; rfl) (by rw [hr]; rfl)
          (by rw [hr]; rfl))) (fun _ => ⟨rfl, rfl⟩) nofun
    | cons a l =>
      exact Inv.callBack h hL (by rw [hr]; rfl) (by rw [hr]; rfl) rfl (by rw [hr]; rfl)
        (.inr ⟨rfl, rfl⟩)
  | failCalled a l =>
    rw [Transport.readerMain, hr]
    exact Inv.release h hL (by rw [hr]; rfl) (by rw [hr]; rfl) rfl (by rw [hr]; rfl) nofun
  | gone => exact absurd hr hgone

end Readers

section Runs

/-- A call is made. -/
theorem Inv.enter (h : Inv s stand) {x : Stand} {rc : Option Record} {l : List Act} (hid : k.id = 0)
    (hx : x.link = none) (hrouted : routed s.x.w.length k.phase)
    (hcounts : ∀ b, b ≠ s.made → returns b (s.trace ++ l) = returns b s.trace ∧
      callbacks b (s.trace ++ l) = callbacks b s.trace)
    (hfits : Fits k x rc (returns s.made (s.trace ++ l)) (callbacks s.made (s.trace ++ l)))
    (hnew : ∀ b ∈ l, HonestAct (s.trace ++ l) b) (hdone : ∀ p, rc = some p → p.done = false) :
    Inv { s with calls := update s.calls s.made (some k), recs := update s.recs s.made rc,
                 made := s.made + 1, trace := s.trace ++ l } (update stand s.made x) := by
  have hfree : s.calls s.made = none := (h.made s.made).mpr le_rfl
  have hgone : (stand s.made).link = none := by rw [(h.later s.made hfree).1]; rfl
  have hold : ∀ a q, update s.calls s.made (some k) a = some q → q.id = 0 ∨ s.calls a = some q := by
    intro a q hq
    by_cases ha : a = s.made
    · rw [ha, update_self] at hq
      cases hq
      exact .inl hid
    · rw [update_of_ne ha] at hq
      exact .inr hq
  refine h.change rfl rfl (fun a => ?_) rfl hcounts hfits (fun i L hL => ?_) rfl rfl (by rw [hx]; nofun)
    hrouted ⟨fun a q a' q' ha ha' heq hne => ?_, fun a q ha => ?_⟩ hnew (fun p hp hd => ?_)
    (fun i L r hL hr => ?_) fun i L a r _ hL hr => ⟨L, hL, hr⟩
  · show s.made + 1 ≤ a ↔ _
    exact ⟨fun hle => ⟨Nat.le_of_succ_le hle, Nat.ne_of_gt hle⟩,
      fun ha => Nat.lt_of_le_of_ne ha.1 (Ne.symm ha.2)⟩
  · exact (h.links i L hL).other (by rw [hgone]; nofun) (by rw [hx]; nofun)
  · -- a call that was just made has no id
    exact h.ids.inj a q a' q' ((hold a q ha).resolve_left hne)
      ((hold a' q' ha').resolve_left (heq ▸ hne)) heq hne
  · rcases hold a q ha with hzero | hq
    · rw [hzero]
      exact Nat.zero_le _
    · exact h.ids.le a q hq
  · cases (hdone p hp).symm.trans hd
  · have hhand := ((h.links i L hL).hand s.made).mp (by rw [hr]; exact mem_cons_self)
    rw [hhand] at hgone
    cases hgone

/-- The checks of a call answer an error. -/
theorem refusal_error {x : Xport} {f : Form} {self : Option ℕ} {g : Args} {memory : Bool}
    (h : refusal x f self g memory = some st) : st ≠ .ok := by
  cases f <;> simp only [refusal] at h <;> split_ifs at h <;> cases h <;> nofun

/-- A call is made, and is refused or goes on. -/
theorem Inv.submit (h : Inv s stand) (f : Form) (self : Option ℕ) (g : Args) (memory : Bool) :
    ∃ stand', Inv (Transport.submit s f self g memory) stand' := by
  have hfree : s.calls s.made = none := (h.made s.made).mpr le_rfl
  obtain ⟨-, hrecs, hret, hcb⟩ := h.later s.made hfree
  rw [Transport.submit]
  cases href : refusal s.x f self g memory with
  | none =>
    have henter := Inv.enter (l := []) (x := .own) h (k := { form := f }) rfl rfl trivial
      (fun b _ => by rw [append_nil]; exact ⟨rfl, rfl⟩)
      (by
        rw [append_nil, hret, hcb]
        exact .own (r := { form := f }) trivial rfl rfl rfl nofun)
      nofun (fun p hp => by cases hp; rfl)
    rw [append_nil] at henter
    exact ⟨_, henter⟩
  | some st =>
    have hst := refusal_error href
    have henter := Inv.enter (x := .gone) (l := [.returned s.made f 0 st none]) h
      (k := { form := f, phase := .returned st }) rfl rfl trivial
      (fun b hb => counts_returned_other hb)
      (by
        rw [counts_returned.1, counts_returned.2, hret, hcb]
        exact .ended rfl fun _ => hst)
      (fun b hb => by
        cases mem_singleton.mp hb
        exact .inr ⟨hst, rfl⟩)
      (fun p (hp : none = some p) => nomatch hp)
    rw [← hrecs, update_eq_self] at henter
    exact ⟨_, henter⟩

/-- Every step that is allowed is possible and keeps what holds. -/
theorem Inv.act (h : Inv s stand) {l : Label} (hl : s.allowed l = true) : Goes (s.act l) := by
  -- the link of a label
  have hlink : ∀ {i : ℕ} {P : Link → Bool}, (s.x.w[i]?).any P = true →
      ∃ L, s.x.w[i]? = some L ∧ P L = true := fun hany => (Option.any_eq_true _ _).mp hany
  -- only the stream of a link or the way of its reader changes
  have hturn : ∀ {i : ℕ} {L : Link} (rd : Reader) (e : Bool), s.x.w[i]? = some L →
      hand rd = hand L.reader → told rd = told L.reader → past rd = past L.reader →
      (∀ a r, rd = .calling a r → L.reader = .calling a r) →
      Inv (s.setLink i { L with eof := e, reader := rd }) stand := by
    intro i L rd e hL hhand htold hpast hcalling
    exact h.idle rfl rfl rfl (append_nil _).symm (Kin.set hL hcalling)
      (Inv.links_turn h ((h.links i L hL).turn rd e hhand htold hpast)) (fun _ => ⟨rfl, rfl⟩) nofun
  cases l with
  | submit f self g memory =>
    obtain ⟨stand', hs⟩ := Inv.submit h f self g memory
    exact ⟨_, rfl, stand', hs⟩
  | proceed c written =>
    obtain ⟨k, hk, hrun⟩ := (Option.any_eq_true _ _).mp hl
    rw [Sys.act, hk, bind_some]
    exact Inv.proceed h hk hrun written
  | reply i id r =>
    obtain ⟨L, hL, hr⟩ := hlink hl
    rw [Sys.act, hL, bind_some]
    exact Inv.arrive h hL (of_decide_eq_true hr) id r
  | broken i =>
    obtain ⟨L, hL, hr⟩ := hlink hl
    have hr := of_decide_eq_true hr
    exact ⟨_, by rw [Sys.act, hL, map_some], stand,
      hturn .broken true hL (by rw [hr]; rfl) (by rw [hr]; rfl) (by rw [hr]; rfl) nofun⟩
  | reader i =>
    obtain ⟨L, hL, hr⟩ := hlink hl
    obtain ⟨hreading, hgone⟩ := Bool.and_eq_true_iff.mp hr
    rw [Sys.act, hL, bind_some]
    exact Inv.readerMain h hL (of_decide_eq_true hreading) (of_decide_eq_true hgone)
  | die i =>
    have hL := getElem?_eq_getElem (of_decide_eq_true hl)
    exact ⟨_, by rw [Sys.act, hL, map_some], stand, hturn _ true hL rfl rfl rfl fun _ _ hr => hr⟩

/-- A transport that was just opened. -/
theorem Inv.init (n maxInFlight : ℕ) : Inv (gptpsXportOpen n maxInFlight) fun _ => .gone := by
  have hlink : ∀ {i : ℕ} {L : Link}, (replicate n ({} : Link))[i]? = some L → L = {} := fun hL =>
    eq_of_mem_replicate (mem_of_getElem? hL)
  refine ⟨nofun, fun _ _ => ⟨rfl, rfl, rfl, rfl⟩, fun c => ⟨fun _ => Nat.zero_le c, fun _ => rfl⟩,
    fun i L hL => ?_, nofun, nofun, ⟨nofun, nofun⟩, ⟨nofun, nofun, fun i L a r _ _ p hp => nomatch hp⟩, ?_⟩
  · rw [hlink hL]
    exact ⟨fun _ => ⟨nofun, nofun⟩, nodup_nil, rfl, Nat.zero_le _, fun _ => ⟨nofun, nofun⟩,
      nodup_nil, fun _ => ⟨nofun, nofun⟩, nofun, rfl⟩
  · exact (length_replicate ..).trans (length_replicate ..).symm

/-- A whole run. -/
theorem Inv.run {ls : List Label} {s' : Sys} (h : Inv s stand) (hrun : s.run ls = some s') :
    ∃ stand', Inv s' stand' := by
  induction ls generalizing s stand with
  | nil =>
    cases hrun
    exact ⟨stand, h⟩
  | cons l ls ih =>
    obtain ⟨s₁, hstep, hrest⟩ := bind_eq_some_iff.mp hrun
    rw [Sys.step] at hstep
    split_ifs at hstep with hl
    obtain ⟨s₂, hact, stand₂, h₂⟩ := Inv.act h hl
    cases hact.symm.trans hstep
    exact ih h₂ hrest

end Runs

end Gptps.TransportOutcomes
