import Gptps.PassStages

/-!
# Where a pass takes items with their attempts

A pass decides retries while it drains `done`, moves what is due from `delayed` to intake, and only then
parks the retries it decided. So what it admits was waiting when it began, or begins a new cycle, and a
retry it decided is in `delayed` when it ends, with its RETRIED in the buffer.
-/

namespace Gptps.PassRetries

open Function EngineState EngineStore EnginePass EngineApi ItemLife DeskStore PassStages List

variable {ps' : PassState}

section Origins

variable {y : Item} {x z : Item}

/-- The same attempt of the same item. -/
structure Alike (x y : Item) : Prop where
  /-- The handle. -/
  handle : y.handle = x.handle
  /-- The attempt. -/
  attempt : y.attempt = x.attempt
  /-- The policy. -/
  policy : y.policy = x.policy

/-- The same attempt, as far as it has come. -/
structure Same (x y : Item) : Prop extends Alike x y where
  /-- How far it has come. -/
  phase : y.phase = x.phase
  /-- Whether it ran. -/
  started : y.started = x.started

theorem Alike.refl (x : Item) : Alike x x := ⟨rfl, rfl, rfl⟩

theorem Alike.trans (h : Alike x y) (h' : Alike y z) : Alike x z :=
  ⟨h'.handle.trans h.handle, h'.attempt.trans h.attempt, h'.policy.trans h.policy⟩

theorem Same.refl (x : Item) : Same x x := ⟨.refl x, rfl, rfl⟩

theorem Same.trans (h : Same x y) (h' : Same y z) : Same x z :=
  ⟨h.toAlike.trans h'.toAlike, h'.phase.trans h.phase, h'.started.trans h.started⟩

/-- The item waited when the pass began, or was finished and begins a new cycle. -/
def Old (e : Engine) (drained : List Item) (y : Item) : Prop :=
  (∃ x ∈ e.q .intake ++ e.q .ready ++ e.q .delayed, Alike x y) ∨
    ∃ x ∈ drained, Again e x ∧ y.handle = x.handle ∧ y.policy = x.policy ∧ y.attempt = 1

/-- The item was finished and is tried again, and that is announced. -/
def Retried (e : Engine) (drained : List Item) (pend : List Ev) (y : Item) : Prop :=
  ∃ x ∈ drained, Retry e x ∧ y.handle = x.handle ∧ y.policy = x.policy ∧
    y.attempt = x.attempt + 1 ∧ ∃ ev ∈ pend, Announces x ev

/-- The event is RETRIED. -/
def isRetried (ev : Ev) : Bool := ev.kind = .retried

/-- A pass under way: what it drained and where the items came from. -/
structure Passing (e : Engine) (ps : PassState) (drained : List Item) (parked : Bool) : Prop where
  /-- The task types are those of the engine. -/
  reg : ps.e.reg = e.reg
  /-- What is left of `done`. -/
  done : e.q .done = drained ++ ps.e.q .done
  /-- Running items. -/
  running : ∀ y ∈ ps.e.q .running, ∃ x ∈ e.q .running, Same x y
  /-- Intake and `ready`. -/
  front : ∀ y ∈ ps.e.q .intake ++ ps.e.q .ready, Old e drained y
  /-- Delayed items. -/
  delayed : ∀ y ∈ ps.e.q .delayed, Old e drained y ∨ parked = true ∧ Retried e drained ps.pend y
  /-- The retries decided. -/
  announced : ∀ y ∈ ps.announced, Retried e drained ps.pend y
  /-- The events buffered. -/
  quiet : ∀ ev ∈ ps.pend, ev.kind ≠ .started
  /-- A RETRIED is of an item drained. -/
  told : ∀ ev ∈ ps.pend, ev.kind = .retried → ∃ x ∈ drained, Retry e x ∧ Announces x ev
  /-- And of each once at most. -/
  once : ((ps.pend.filter isRetried).map (·.handle)).Sublist (drained.map (·.handle))
  /-- What was admitted had waited. -/
  admitted : ∀ a ∈ ps.admissions, Old e drained a.best

variable {e : Engine} {drained : List Item}

theorem Old.alike (h : Old e drained y) (hz : Alike y z) : Old e drained z := by
  rcases h with ⟨x, hx, hxy⟩ | ⟨x, hx, hagain, hh, hp, ha⟩
  · exact .inl ⟨x, hx, hxy.trans hz⟩
  · exact .inr ⟨x, hx, hagain, hz.handle.trans hh, hz.policy.trans hp, hz.attempt.trans ha⟩

theorem Old.mono {l : List Item} (h : Old e drained y) : Old e (drained ++ l) y := by
  rcases h with h | ⟨x, hx, h⟩
  · exact .inl h
  · exact .inr ⟨x, mem_append_left _ hx, h⟩

theorem Retried.mono {pend : List Ev} (h : Retried e drained pend y) (l : List Item) (evs : List Ev) :
    Retried e (drained ++ l) (pend ++ evs) y := by
  obtain ⟨x, hx, hretry, hh, hp, ha, ev, hev, hann⟩ := h
  exact ⟨x, mem_append_left _ hx, hretry, hh, hp, ha, ev, mem_append_left _ hev, hann⟩

end Origins

section Steps

variable {e : Engine} {ps ps' : PassState} {drained : List Item} {parked : Bool}

/-- What a step of a pass does to the queues: it leaves `done` alone, and everything in the other queues
was there before or is among `more`. -/
structure Shifts (ps ps' : PassState) (front delayed : List Item) : Prop where
  /-- The types. -/
  reg : ps'.e.reg = ps.e.reg
  /-- `done` -/
  done : ps'.e.q .done = ps.e.q .done
  /-- Running items. -/
  running : ∀ y ∈ ps'.e.q .running, ∃ x ∈ ps.e.q .running, Same x y
  /-- Intake and `ready`. -/
  front : ∀ y ∈ ps'.e.q .intake ++ ps'.e.q .ready,
    ∃ x ∈ ps.e.q .intake ++ ps.e.q .ready ++ front, Alike x y
  /-- Delayed items. -/
  delayed : ∀ y ∈ ps'.e.q .delayed, y ∈ ps.e.q .delayed ∨ ∃ x ∈ delayed, Alike x y
  /-- The retries decided. -/
  announced : ps'.announced = ps.announced
  /-- The events. -/
  pend : ∃ evs, ps'.pend = ps.pend ++ evs ∧ ∀ ev ∈ evs, Untold ev
  /-- The admissions. -/
  admissions : ∀ a ∈ ps'.admissions,
    a ∈ ps.admissions ∨ ∃ x ∈ ps.e.q .intake, Alike x a.best

/-- Such a step keeps what holds of a pass, if what it brings to the queues may be there. -/
theorem Passing.shift {front delayed : List Item} (h : Passing e ps drained parked)
    (hs : Shifts ps ps' front delayed) (hfront : ∀ y ∈ front, Old e drained y)
    (hdelayed : ∀ y ∈ delayed, Old e drained y) : Passing e ps' drained parked := by
  obtain ⟨evs, hpend, hplain⟩ := hs.pend
  have hmem : ∀ ev ∈ ps'.pend, ev ∈ ps.pend ∨ Untold ev := by
    intro ev hev
    rw [hpend] at hev
    exact (mem_append.mp hev).imp id (hplain ev)
  have hretried : ∀ y, Retried e drained ps.pend y → Retried e drained ps'.pend y := by
    rintro y ⟨x, hx, hretry, hh, hp, ha, ev, hev, hann⟩
    exact ⟨x, hx, hretry, hh, hp, ha, ev, by rw [hpend]; exact mem_append_left _ hev, hann⟩
  refine ⟨hs.reg.trans h.reg, by rw [hs.done]; exact h.done, fun y hy => ?_, fun y hy => ?_, fun y hy => ?_,
    fun y hy => ?_, fun ev hev => ?_, fun ev hev hkind => ?_, ?_, fun a ha => ?_⟩
  · obtain ⟨x, hx, hxy⟩ := hs.running y hy
    obtain ⟨z, hz, hzx⟩ := h.running x hx
    exact ⟨z, hz, hzx.trans hxy⟩
  · obtain ⟨x, hx, hxy⟩ := hs.front y hy
    rcases mem_append.mp hx with hx | hx
    · exact (h.front x hx).alike hxy
    · exact (hfront x hx).alike hxy
  · rcases hs.delayed y hy with hy | ⟨x, hx, hxy⟩
    · exact (h.delayed y hy).imp id fun hr => ⟨hr.1, hretried y hr.2⟩
    · exact .inl ((hdelayed x hx).alike hxy)
  · rw [hs.announced] at hy
    exact hretried y (h.announced y hy)
  · exact (hmem ev hev).elim (h.quiet ev) And.left
  · rcases hmem ev hev with hev | hev
    · exact h.told ev hev hkind
    · exact absurd hkind hev.2
  · have hnone : evs.filter isRetried = [] :=
      filter_eq_nil_iff.mpr fun ev hev => by simpa [isRetried] using (hplain ev hev).2
    rw [hpend, filter_append, hnone, append_nil]
    exact h.once
  · rcases hs.admissions a ha with ha | ⟨x, hx, hxa⟩
    · exact h.admitted a ha
    · exact (h.front x (mem_append_left _ hx)).alike hxa

/-- Nothing in the live queues changes. -/
theorem Shifts.of_kept (hk : KeptLive ps.e ps'.e) (hann : ps'.announced = ps.announced)
    (hpend : ∃ evs, ps'.pend = ps.pend ++ evs ∧ ∀ ev ∈ evs, Untold ev)
    (hadm : ps'.admissions = ps.admissions) : Shifts ps ps' [] [] := by
  refine ⟨by rw [hk.rest], hk.q .done nofun, fun y hy => ⟨y, by rwa [hk.q .running nofun] at hy, .refl y⟩,
    fun y hy => ⟨y, ?_, .refl y⟩, fun y hy => .inl (by rwa [hk.q .delayed nofun] at hy), hann, hpend,
    fun a ha => .inl (hadm ▸ ha)⟩
  rwa [append_nil, ← hk.q .intake nofun, ← hk.q .ready nofun]

end Steps

section Drain

variable {e : Engine} {ps : PassState} {drained : List Item} {it : Item} {e₁ : Engine} {now : ℕ}

/-- The first item of `done` is taken and what it held is released. -/
theorem Passing.take (h : Passing e ps drained false) (hpop : fifoPop ps.e .done = some (it, e₁)) :
    Passing e { ps with e := release e₁ it.toCore } (drained ++ [it]) false := by
  obtain ⟨rest, l, a, hq, rfl⟩ := fifoPop_some hpop
  refine ⟨h.reg, ?_, h.running, fun y hy => (h.front y hy).mono, fun y hy => ?_, fun y hy => ?_,
    h.quiet, fun ev hev hkind => ?_, ?_, fun a ha => (h.admitted a ha).mono⟩
  · rw [h.done, hq, append_assoc]
    simp [release]
  · rcases h.delayed y hy with hold | hr
    · exact .inl hold.mono
    · exact absurd hr.1 nofun
  · have := (h.announced y hy).mono [it] []
    rwa [append_nil] at this
  · obtain ⟨z, hz, hretry⟩ := h.told ev hev hkind
    exact ⟨z, mem_append_left _ hz, hretry⟩
  · rw [map_append]
    exact h.once.trans (sublist_append_left ..)

/-- An item is freed, with the event it owes or without. -/
theorem Passing.drop {parked : Bool} (h : Passing e ps drained parked) (he : KeptLive ps.e ps'.e)
    (hann : ps'.announced = ps.announced) (hadm : ps'.admissions = ps.admissions)
    (hpend : ∃ evs, ps'.pend = ps.pend ++ evs ∧ ∀ ev ∈ evs, Untold ev) :
    Passing e ps' drained parked := by
  have hs : Shifts ps ps' [] [] := .of_kept he hann hpend hadm
  exact h.shift hs (fun y hy => nomatch hy) fun y hy => nomatch hy

/-- A finished item begins a new cycle. -/
theorem Passing.again (h : Passing e ps (drained ++ [it]) false) (hagain : Again e it) :
    Passing e { ps with e := fifoPush ps.e .delayed (againItem now it) } (drained ++ [it]) false := by
  have hs : Shifts ps { ps with e := fifoPush ps.e .delayed (againItem now it) } [] [againItem now it] :=
    ⟨rfl, rfl, fun y hy => ⟨y, hy, .refl y⟩, fun y hy => ⟨y, by rwa [append_nil], .refl y⟩,
      fun y hy => (mem_append.mp hy).imp id fun hy => ⟨y, hy, .refl y⟩, rfl,
      ⟨[], (append_nil _).symm, nofun⟩, fun a ha => .inl ha⟩
  refine h.shift hs (fun y hy => nomatch hy) fun y hy => ?_
  cases mem_singleton.mp hy
  exact .inr ⟨it, mem_append_right _ mem_cons_self, hagain, rfl, rfl, rfl⟩

/-- A retry is decided and announced. -/
theorem Passing.retry {ev : Ev}
    (h : Passing e { ps with e := release e₁ it.toCore } (drained ++ [it]) false)
    (hfresh : ((ps.pend.filter isRetried).map (·.handle)).Sublist (drained.map (·.handle)))
    (hretry : Retry e it) (hev : Announces it ev) :
    Passing e { ps with
      pend := ps.pend ++ [ev], e := release e₁ it.toCore, announced := ps.announced ++ [retryItem now it] }
      (drained ++ [it]) false := by
  have hself : it ∈ drained ++ [it] := mem_append_right _ mem_cons_self
  refine ⟨h.reg, h.done, h.running, h.front, fun y hy => ?_, fun y hy => ?_, fun x hx => ?_,
    fun x hx hkind => ?_, ?_, h.admitted⟩
  · exact (h.delayed y hy).imp id fun hr => absurd hr.1 nofun
  · rcases mem_append.mp hy with hy | hy
    · have := (h.announced y hy).mono [] [ev]
      rwa [append_nil] at this
    · cases mem_singleton.mp hy
      exact ⟨it, hself, hretry, rfl, rfl, rfl, ev, mem_append_right _ mem_cons_self, hev⟩
  · rcases mem_append.mp hx with hx | hx
    · exact h.quiet x hx
    · cases mem_singleton.mp hx
      rw [hev.kind]
      nofun
  · rcases mem_append.mp hx with hx | hx
    · exact h.told x hx hkind
    · cases mem_singleton.mp hx
      exact ⟨it, hself, hretry, hev⟩
  · rw [filter_append, map_append, map_append]
    refine hfresh.append ?_
    rw [filter_cons_of_pos (by simp [isRetried, hev.kind])]
    simp [hev.handle]

/-- Deciding one finished item. -/
theorem Passing.decide (h : Passing e ps drained false) (hpop : fifoPop ps.e .done = some (it, e₁))
    (hd : Decides now { ps with e := e₁ } it ps') : Passing e ps' (drained ++ [it]) false := by
  have htake := h.take hpop
  have hreg : e₁.reg = e.reg := htake.reg
  have hremoved : isRemoved e₁ it.toCore = isRemoved e it.toCore := by
    rw [isRemoved, regOf, hreg, isRemoved, regOf]
  have hup : isAlwaysUp e₁ it.toCore = isAlwaysUp e it.toCore := by
    rw [isAlwaysUp, regOf, hreg, isAlwaysUp, regOf]
  cases hd with
  | again hagain =>
    refine htake.again ?_
    unfold Again at hagain ⊢
    rwa [hup, hremoved] at hagain
  | drop x evs hevs => exact htake.drop (itemDrop_kept _ x).toKeptLive rfl rfl ⟨evs, rfl, hevs⟩
  | bury x ev hev =>
    exact htake.drop (deadLetterPush_kept _ x) rfl rfl
      ⟨[ev], rfl, fun y hy => mem_singleton.mp hy ▸ hev⟩
  | retry hretry ev hev =>
    exact htake.retry h.once ⟨hretry.left, hretry.failed, hremoved ▸ hretry.kept⟩ hev

/-- Draining `done`. -/
theorem drainDone_passing (now fuel : ℕ) (ps : PassState) (drained : List Item)
    (h : Passing e ps drained false) : ∃ l, Passing e (drainDone now fuel ps) l false := by
  refine drainDone_decides (M := fun ps' => ∃ l, Passing e ps' l false) ?_ fuel ⟨drained, h⟩
  rintro ps₁ it e₁ ps' ⟨l, hl⟩ hpop hd
  exact ⟨l ++ [it], hl.decide hpop hd⟩

end Drain

section Settle

variable {e : Engine} {ps : PassState} {drained : List Item} {parked : Bool} {it : Item}

/-- Promoting one delayed item. -/
theorem promoteOne_shifts (now : ℕ) (ps : PassState) (it : Item) :
    Shifts ps (promoteOne now ps it) [it] [] := by
  unfold promoteOne
  split_ifs
  · refine ⟨rfl, rfl, fun y hy => ⟨y, hy, .refl y⟩, fun y hy => ?_, fun y hy => .inl ?_, rfl,
      ⟨[], (append_nil _).symm, nofun⟩, fun a ha => .inl ha⟩
    · rcases mem_append.mp hy with hy | hy
      · rcases mem_inserted hy with hy | ⟨-, rfl⟩
        · exact ⟨y, mem_append_left _ (mem_append_left _ hy), .refl y⟩
        · exact ⟨it, mem_append_right _ mem_cons_self, rfl, rfl, rfl⟩
      · exact ⟨y, mem_append_left _ (mem_append_right _ hy), .refl y⟩
    · exact mem_of_mem_eraseP hy
  · exact ⟨rfl, rfl, fun y hy => ⟨y, hy, .refl y⟩, fun y hy => ⟨y, mem_append_left _ hy, .refl y⟩,
      fun y hy => .inl hy, rfl, ⟨[], (append_nil _).symm, nofun⟩, fun a ha => .inl ha⟩

/-- Promoting what is due. -/
theorem promote_passing (now : ℕ) (l : List Item) (ps : PassState) (h : Passing e ps drained false)
    (hl : ∀ it ∈ l, Old e drained it) : Passing e (l.foldl (promoteOne now) ps) drained false := by
  induction l generalizing ps with
  | nil => exact h
  | cons it l ih =>
    refine ih _ (h.shift (promoteOne_shifts now ps it) (fun y hy => ?_) fun y hy => nomatch hy)
      fun x hx => hl x (mem_cons_of_mem _ hx)
    exact mem_singleton.mp hy ▸ hl it mem_cons_self

/-- Parking the retries decided. -/
theorem park_passing (now : ℕ) (l : List Item) (ps : PassState) (h : Passing e ps drained parked)
    (hl : ∀ it ∈ l, Retried e drained ps.pend it) :
    Passing e (l.foldl (parkOne now) ps) drained true := by
  have hpark : Passing e ps drained true :=
    { h with delayed := fun y hy => (h.delayed y hy).imp id fun hr => ⟨rfl, hr.2⟩ }
  clear h
  induction l generalizing ps with
  | nil => exact hpark
  | cons it l ih =>
    have hone : (parkOne now ps it).e = fifoPush ps.e .delayed it ∧
        (parkOne now ps it).pend = ps.pend ∧ (parkOne now ps it).announced = ps.announced ∧
        (parkOne now ps it).admissions = ps.admissions := by
      unfold parkOne
      split_ifs <;> exact ⟨rfl, rfl, rfl, rfl⟩
    obtain ⟨he, hpend, hann, hadm⟩ := hone
    have hit := hl it mem_cons_self
    refine ih (parkOne now ps it) (fun x hx => by rw [hpend]; exact hl x (mem_cons_of_mem _ hx)) ?_
    refine ⟨by rw [he]; exact hpark.reg, by rw [he]; exact hpark.done, by rw [he]; exact hpark.running,
      by rw [he]; exact hpark.front, fun y hy => ?_, by rw [hann, hpend]; exact hpark.announced,
      by rw [hpend]; exact hpark.quiet, by rw [hpend]; exact hpark.told, by rw [hpend]; exact hpark.once,
      by rw [hadm]; exact hpark.admitted⟩
    rw [he] at hy
    rw [hpend]
    rcases mem_append.mp hy with hy | hy
    · exact hpark.delayed y hy
    · exact .inr ⟨rfl, mem_singleton.mp hy ▸ hit⟩

/-- Running items are rewritten where they are. -/
theorem Passing.touch {f : Item → Item} (h : Passing e ps drained parked) (hf : ∀ x, Same x (f x))
    (he : ps'.e = mapQueue ps.e .running f) (hpend : ps'.pend = ps.pend)
    (hann : ps'.announced = ps.announced) (hadm : ps'.admissions = ps.admissions) :
    Passing e ps' drained parked := by
  have hs : Shifts ps ps' [] [] := by
    refine ⟨by rw [he]; rfl, by rw [he]; rfl, fun y hy => ?_, fun y hy => ⟨y, ?_, .refl y⟩,
      fun y hy => .inl (by rw [he] at hy; exact hy), hann, ⟨[], by rw [hpend, append_nil], nofun⟩,
      fun a ha => .inl (hadm ▸ ha)⟩
    · rw [he] at hy
      obtain ⟨x, hx, rfl⟩ := mem_map.mp hy
      exact ⟨x, hx, hf x⟩
    · rw [he] at hy
      rw [append_nil]
      exact hy
  exact h.shift hs (fun y hy => nomatch hy) fun y hy => nomatch hy

/-- The queues only lose items. -/
theorem Passing.shrink (h : Passing e ps drained parked) (hreg : ps'.e.reg = ps.e.reg)
    (hdone : ps'.e.q .done = ps.e.q .done) (hq : ∀ q ≠ .dead, ∀ y ∈ ps'.e.q q, y ∈ ps.e.q q)
    (hann : ps'.announced = ps.announced)
    (hpend : ∃ evs, ps'.pend = ps.pend ++ evs ∧ ∀ ev ∈ evs, Untold ev)
    (hadm : ps'.admissions = ps.admissions) : Passing e ps' drained parked := by
  have hs : Shifts ps ps' [] [] := by
    refine ⟨hreg, hdone, fun y hy => ⟨y, hq .running nofun y hy, .refl y⟩, fun y hy => ⟨y, ?_, .refl y⟩,
      fun y hy => .inl (hq .delayed nofun y hy), hann, hpend, fun a ha => .inl (hadm ▸ ha)⟩
    rw [append_nil]
    exact mem_append.mpr ((mem_append.mp hy).imp (hq .intake nofun y) (hq .ready nofun y))
  exact h.shift hs (fun y hy => nomatch hy) fun y hy => nomatch hy

/-- A waiting item is ended. -/
theorem endWaiting_passing {q : QId} {e₁ : Engine} (h : Passing e ps drained parked) (hq : q ≠ .done)
    (hpop : fifoPop ps.e q = some (it, e₁)) : Passing e (endWaiting { ps with
      e := e₁ } it) drained parked := by
  obtain ⟨rest, -, hrest⟩ := fifoPop_q hpop
  have hpopped : Passing e { ps with e := e₁ } drained parked :=
    h.shrink (by rw [fifoPop_rest hpop]) (by rw [hrest, update_of_ne hq.symm])
      (fun q' _ y hy => mem_popped hpop hy) rfl ⟨[], (append_nil _).symm, nofun⟩ rfl
  unfold endWaiting
  simp only
  split_ifs
  · exact hpopped.drop (itemDrop_kept _ _).toKeptLive rfl rfl
      ⟨[_], rfl, fun ev hev => by cases mem_singleton.mp hev; exact ⟨nofun, nofun⟩⟩
  · exact hpopped.drop (deadLetterPush_kept _ _) rfl rfl
      ⟨[_], rfl, fun ev hev => by cases mem_singleton.mp hev; exact ⟨nofun, nofun⟩⟩

/-- Ending waiting items past the grace. -/
theorem drainWaiting_passing (fuel : ℕ) (ps : PassState) (h : Passing e ps drained parked) :
    Passing e (drainWaiting fuel ps) drained parked := by
  refine drainWaiting_rule (M := fun ps' => Passing e ps' drained parked) ?_ fuel h
  rintro ps₁ q it e₁ hps (rfl | rfl) hpop
  · exact endWaiting_passing hps (by decide) hpop
  · exact endWaiting_passing hps (by decide) hpop

/-- Bounding the shutdown drain. -/
theorem boundDrain_passing (now : ℕ) (h : Passing e ps drained parked) :
    Passing e (boundDrain now ps) drained parked := by
  unfold boundDrain
  split_ifs
  · have hended := drainWaiting_passing ((ps.e.q .delayed).length + (ps.e.q .intake).length) ps h
    generalize drainWaiting ((ps.e.q .delayed).length + (ps.e.q .intake).length) ps = ps₁ at hended
    have hforgot : Passing e { ps₁ with e := intakeForget ps₁.e } drained parked :=
      hended.shrink rfl rfl (fun _ _ _ hy => hy) rfl ⟨[], (append_nil _).symm, nofun⟩ rfl
    exact hforgot.touch (f := stopItem) (fun x => ⟨⟨rfl, rfl, rfl⟩, rfl, rfl⟩) rfl rfl rfl rfl
  · exact h.shrink rfl rfl (fun _ _ _ hy => hy) rfl ⟨[], (append_nil _).symm, nofun⟩ rfl
  · exact h

/-- Enforcing deadlines. -/
theorem enforceDeadlines_passing (now : ℕ) (h : Passing e ps drained parked) :
    Passing e (enforceDeadlines now ps) drained parked := by
  refine h.touch (f := checkDeadline now) (fun x => ?_) rfl rfl rfl rfl
  unfold checkDeadline
  split_ifs
  · exact ⟨⟨rfl, rfl, rfl⟩, rfl, rfl⟩
  · exact .refl x

/-- As a pass begins. -/
theorem passStart_passing (e : Engine) : Passing e (passStart e) [] false where
  reg := rfl
  done := rfl
  running := fun y hy => ⟨y, hy, .refl y⟩
  front := fun y hy => .inl ⟨y, mem_append_left _ hy, .refl y⟩
  delayed := fun y hy => .inl (.inl ⟨y, mem_append_right _ hy, .refl y⟩)
  announced := forall_mem_nil _
  quiet := forall_mem_nil _
  told := forall_mem_nil _
  once := .slnil
  admitted := forall_mem_nil _

/-- Everything before admission. -/
theorem passSettle_passing (inp : PassIn) (e : Engine) :
    ∃ l, Passing e (passSettle inp e) l true := by
  obtain ⟨l, hdrained⟩ := drainDone_passing inp.now (e.q .done).length (passStart e) []
    (passStart_passing e)
  refine ⟨l, ?_⟩
  unfold passSettle
  dsimp only
  generalize drainDone inp.now (e.q .done).length (passStart e) = ps₁ at hdrained
  have hmore : Passing e { ps₁ with more := !(ps₁.e.q .done).isEmpty } l false :=
    hdrained.shrink rfl rfl (fun _ _ _ hy => hy) rfl ⟨[], (append_nil _).symm, nofun⟩ rfl
  have hpromoted := promote_passing inp.now (ps₁.e.q .delayed) _ hmore
    fun it hit => (hdrained.delayed it hit).resolve_right fun hr => absurd hr.1 nofun
  generalize (ps₁.e.q .delayed).foldl (promoteOne inp.now)
    { ps₁ with more := !(ps₁.e.q .done).isEmpty } = ps₂ at hpromoted ⊢
  have hclear : Passing e { ps₂ with announced := [] } l false :=
    { hpromoted with announced := forall_mem_nil _ }
  have hparked := park_passing inp.now ps₂.announced _ hclear hpromoted.announced
  exact boundDrain_passing _ (enforceDeadlines_passing _ hparked)

end Settle

section Admit

variable {e : Engine} {ps : PassState} {drained : List Item} {parked : Bool} {it : Item}

/-- A step of admission: what is in intake stays there, is admitted or is deferred. -/
theorem Passing.admission (h : Passing e ps drained parked) (hs : Shifts ps ps' [] (ps.e.q .intake)) :
    Passing e ps' drained parked :=
  h.shift hs (forall_mem_nil _) fun y hy => h.front y (mem_append_left _ hy)

/-- Sorting intake brings nothing in. -/
theorem intakeResort_members (e : Engine) : (intakeResort e).reg = e.reg ∧
    (∀ q ≠ .intake, (intakeResort e).q q = e.q q) ∧
      ∀ y ∈ (intakeResort e).q .intake, y ∈ e.q .intake := by
  unfold intakeResort
  split
  · exact ⟨rfl, fun _ _ => rfl, fun _ hy => hy⟩
  · refine ⟨rfl, fun q hq => update_of_ne hq _ _, fun y hy => ?_⟩
    obtain ⟨p, -, hfind⟩ := mem_filterMap.mp hy
    exact mem_of_find?_eq_some hfind

/-- Scoring intake anew changes no item's attempt. -/
theorem rescore_passing (inp : PassIn) (h : Passing e ps drained parked) :
    Passing e (rescore inp ps) drained parked := by
  unfold rescore
  split_ifs
  · exact h
  · obtain ⟨hreg, hq, hin⟩ :=
      intakeResort_members (mapQueue ps.e .intake fun it => { it with schedScore := inp.score it })
    have hothers : ∀ q ≠ .intake, (intakeResort
        (mapQueue ps.e .intake fun it => { it with schedScore := inp.score it })).q q = ps.e.q q :=
      fun q hne => (hq q hne).trans (update_of_ne hne _ _)
    refine h.admission ⟨hreg, hothers .done (by decide), fun y hy => ⟨y, ?_, .refl y⟩, fun y hy => ?_,
      fun y hy => .inl ?_, rfl, ⟨[], (append_nil _).symm,
        forall_mem_nil _⟩, fun a ha => .inl ha⟩
    · rwa [hothers .running (by decide)] at hy
    · rw [append_nil]
      rcases mem_append.mp hy with hy | hy
      · have hy := hin y hy
        obtain ⟨x, hx, rfl⟩ := mem_map.mp hy
        exact ⟨x, mem_append_left _ hx, rfl, rfl, rfl⟩
      · rw [hothers .ready (by decide)] at hy
        exact ⟨y, mem_append_right _ hy, .refl y⟩
    · rwa [hothers .delayed (by decide)] at hy

/-- A round that goes on. -/
theorem round_shifts {inp : PassIn} {top : Item} (h : Round inp ps top (ps', true)) :
    Shifts ps ps' [] (ps.e.q .intake) := by
  have hfixed := round_fixed h
  have hgoes := round_goes h
  have hbrings := round_brings h
  have hone : ∀ {ev : Ev}, ps.pend.length < pendingCap → Untold ev →
      ∃ evs, pushEv ps.pend ev = ps.pend ++ evs ∧ ∀ x ∈ evs, Untold x := fun hroom hev =>
    ⟨_, pushEv_room hroom _, fun x hx => mem_singleton.mp hx ▸ hev⟩
  have hnone : ∃ evs, ps.pend = ps.pend ++ evs ∧ ∀ ev ∈ evs, Untold ev :=
    ⟨[], (append_nil _).symm, nofun⟩
  have hrest : ps'.announced = ps.announced ∧
      (∃ evs, ps'.pend = ps.pend ++ evs ∧ ∀ ev ∈ evs, Untold ev) ∧
      ∀ a ∈ ps'.admissions, a ∈ ps.admissions ∨ ∃ x ∈ ps.e.q .intake, Alike x a.best := by
    cases h with
    | strand hscan hroom => exact ⟨rfl, hone hroom ⟨nofun, nofun⟩, fun a ha => .inl ha⟩
    | deny hscan hheld hturn hhook hroom => exact ⟨rfl, hone hroom ⟨nofun, nofun⟩, fun a ha => .inl ha⟩
    | defer => exact ⟨rfl, hnone, fun a ha => .inl ha⟩
    | admission hscan =>
      refine ⟨rfl, hnone, fun a ha => ?_⟩
      rcases mem_append.mp ha with ha | ha
      · exact .inl ha
      · cases mem_singleton.mp ha
        exact .inr ⟨_, scanIntake_mem hscan, .refl _⟩
  refine ⟨by rw [hfixed], hgoes.done, fun y hy => ⟨y, by rwa [hgoes.running] at hy, .refl y⟩, fun y hy => ?_,
    fun y hy => ?_, hrest.1, hrest.2.1, hrest.2.2⟩
  · rw [append_nil]
    rcases mem_append.mp hy with hy | hy
    · cases hbrings .intake (by decide) y hy with
      | stay hy => exact ⟨y, mem_append_left _ hy, .refl y⟩
      | charge hx =>
        refine ⟨_, mem_append_left _ hx, ?_⟩
        unfold chargeSkip
        split_ifs <;> exact ⟨rfl, rfl, rfl⟩
    · cases hbrings .ready (by decide) y hy with
      | stay hy => exact ⟨y, mem_append_right _ hy, .refl y⟩
      | admitted hit => exact ⟨_, mem_append_left _ hit, rfl, rfl, rfl⟩
  · cases hbrings .delayed (by decide) y hy with
    | stay hy => exact .inl hy
    | defer hit => exact .inr ⟨_, hit, rfl, rfl, rfl⟩

/-- Admission. -/
theorem admitLoop_passing (inp : PassIn) (fuel : ℕ) (ps : PassState) (h : Passing e ps drained parked) :
    Passing e (admitLoop inp fuel ps) drained parked := by
  refine admitLoop_rule (M := fun ps' => Passing e ps' drained parked) (fun ps₁ top hps _ => ?_) fuel h
  have hround := admitOnce_round inp ps₁ top
  generalize admitOnce inp ps₁ top = r at hround
  obtain ⟨ps', go⟩ := r
  cases go with
  | true => exact hps.admission (round_shifts hround)
  | false =>
    have hsame : ps'.announced = ps₁.announced ∧ ps'.pend = ps₁.pend := by
      cases hround <;> exact ⟨rfl, rfl⟩
    obtain ⟨he, hadm⟩ := round_ends hround
    exact hps.shrink (by rw [he]) (by rw [he]) (fun q _ y hy => by rwa [he] at hy) hsame.1
      ⟨[], by rw [hsame.2, append_nil], nofun⟩ hadm

/-- A whole pass. -/
theorem enginePass_passing (inp : PassIn) (e : Engine) : ∃ l, Passing e (enginePass inp e) l true := by
  obtain ⟨l, hsettled⟩ := passSettle_passing inp e
  refine ⟨l, ?_⟩
  have hloop := admitLoop_passing inp ((rescore inp (passSettle inp e)).e.q .intake).length _
    (rescore_passing inp hsettled)
  exact hloop.drop (hidxTrim_kept _ _).toKeptLive rfl rfl ⟨[], (append_nil _).symm, nofun⟩

end Admit

end Gptps.PassRetries
