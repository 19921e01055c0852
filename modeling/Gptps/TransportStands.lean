import Gptps.Transport

/-!
# Where the records of the transport stand

Which thread reports a request is settled by where its record stands: on the list of a link, with the
reader that took it off, or with the call that took it back. Each record stands in one place, and every
step of a call or of a reader moves it on.
-/

namespace Gptps.TransportStands

open Function Transport List Option

variable {stand' : Addr → Stand}

section Stands

/-- Where the record of a call stands. -/
inductive Stand
  /-- With its call, before it was registered. -/
  | own
  /-- On the list of a link. -/
  | listed (i : ℕ)
  /-- With its call, completed. -/
  | done
  /-- With a reader that will call back. -/
  | handed (i : ℕ)
  /-- With a reader that called back and will free it. -/
  | told (i : ℕ)
  /-- It was released. -/
  | gone
  deriving DecidableEq, Repr

/-- The link that has the record. -/
def Stand.link : Stand → Option ℕ
  | .listed i | .handed i | .told i => some i
  | _ => none

/-- The return of a call. -/
def isReturn (c : Addr) : Act → Bool
  | .returned c' .. => c' = c
  | _ => false

/-- The callback of a call. -/
def isCallback (c : Addr) : Act → Bool
  | .callback c' .. => c' = c
  | _ => false

/-- How often a call returned. -/
def returns (c : Addr) (t : List Act) : ℕ := t.countP (isReturn c)

/-- How often its callback ran. -/
def callbacks (c : Addr) (t : List Act) : ℕ := t.countP (isCallback c)

/-- The call has no link, or no record on it, yet. -/
def early : Phase → Prop
  | .routing | .numbering _ | .registering _ => True
  | _ => False

/-- The record of the call was registered on link `i`, as far as the call knows. -/
def onLink (k : Call) (i : ℕ) : Prop :=
  k.phase = .writing i ∨ k.phase = .takingBack i ∨
    (k.phase = .waiting i ∧ k.form.isAsync = false) ∨ (k.phase = .returned .ok ∧ k.form.isAsync = true)

/-- How often a call in its phase returned. -/
def count (k : Call) : ℕ := if k.running then 0 else 1

/-- A call, the place of its record, the record, and how often the call returned and called back. -/
inductive Fits : Call → Stand → Option Record → ℕ → ℕ → Prop
  /-- The record was not registered. -/
  | own {k : Call} {r : Record} (hp : early k.phase) (hf : r.form = k.form) (hd : r.done = false)
      (hid : r.id = k.id) (hset : ∀ i, k.phase = .registering i → k.id ≠ 0) : Fits k .own (some r) 0 0
  /-- The record is on a list. -/
  | listed {k : Call} {r : Record} {i : ℕ} (hp : onLink k i) (hf : r.form = k.form)
      (hd : r.done = false) (hid : r.id = k.id) (hset : k.id ≠ 0) :
      Fits k (.listed i) (some r) (count k) 0
  /-- The record of a blocking call was completed. -/
  | done {k : Call} {r : Record} {i : ℕ} (hb : k.form.isAsync = false) (hp : onLink k i)
      (hf : r.form = k.form) (hd : r.done = true) (hid : r.id = k.id) (hset : k.id ≠ 0) :
      Fits k .done (some r) 0 0
  /-- The record of an asynchronous call is with the reader. -/
  | handed {k : Call} {r : Record} {i : ℕ} (ha : k.form.isAsync = true) (hp : onLink k i)
      (hf : r.form = k.form) (hid : r.id = k.id) (hset : k.id ≠ 0) :
      Fits k (.handed i) (some r) (count k) 0
  /-- The callback ran. -/
  | told {k : Call} {r : Record} {i : ℕ} (ha : k.form.isAsync = true) (hp : onLink k i)
      (hf : r.form = k.form) (hid : r.id = k.id) (hset : k.id ≠ 0) :
      Fits k (.told i) (some r) (count k) 1
  /-- The callback ran and the reader freed the record. -/
  | freed {k : Call} {i : ℕ} (ha : k.form.isAsync = true) (hp : onLink k i) (hset : k.id ≠ 0) :
      Fits k .gone none (count k) 1
  /-- The call has its outcome and there is no callback. -/
  | ended {k : Call} {st : Status} (hp : k.phase = .returned st)
      (hst : k.form.isAsync = true → st ≠ .ok) : Fits k .gone none 1 0

/-- The records a reader will call back for. -/
def hand : Reader → List Addr
  | .calling a _ => [a]
  | .failing l => l
  | .failCalled _ l => l
  | _ => []

/-- The record whose callback runs. -/
def told : Reader → List Addr
  | .called a => [a]
  | .failCalled a _ => [a]
  | _ => []

/-- The reader failed what was outstanding. -/
def past : Reader → Bool
  | .failing _ | .failCalled .. | .gone => true
  | _ => false

/-- A link and the places of the records. -/
structure LinkOk (maxInFlight : ℕ) (stand : Addr → Stand) (i : ℕ) (L : Link) : Prop where
  /-- The list. -/
  pend : ∀ a, a ∈ L.pend ↔ stand a = .listed i
  /-- Each record is on it once. -/
  nodup : L.pend.Nodup
  /-- Its length. -/
  count : L.npend = L.pend.length
  /-- The limit. -/
  room : L.npend ≤ maxInFlight
  /-- What the reader will call back for. -/
  hand : ∀ a, a ∈ hand L.reader ↔ stand a = .handed i
  /-- Each record once. -/
  handNodup : (TransportStands.hand L.reader).Nodup
  /-- What the reader called back for. -/
  told : ∀ a, a ∈ told L.reader ↔ stand a = .told i
  /-- Nothing is outstanding on a link that is retired. -/
  empty : L.dead = true → L.pend = []
  /-- The link is retired when its reader failed what was outstanding. -/
  dead : L.dead = past L.reader

/-- The link a phase is about exists. -/
def routed (n : ℕ) : Phase → Prop
  | .numbering i | .registering i | .writing i | .takingBack i | .waiting i => i < n
  | _ => True

/-- No two requests have an id in common. -/
structure Ids (s : Sys) : Prop where
  /-- They are distinct. -/
  inj : ∀ c k c' k', s.calls c = some k → s.calls c' = some k' → k.id = k'.id → k.id ≠ 0 → c = c'
  /-- They were given. -/
  le : ∀ c k, s.calls c = some k → k.id ≤ s.x.nextId

/-- The reply of a request, as a form reports it, arrived before. -/
def Replied (t : List Act) (f : Form) (id : ℕ) (r : Option Reply) : Prop :=
  ∃ i r₀, Act.frame i id r₀ ∈ t ∧ r = some (f.report r₀)

/-- What happened is honest: a blocking call returns its reply or an error, and so does a callback. -/
def HonestAct (t : List Act) : Act → Prop
  | .returned _ f id st r =>
    (st = .ok ∧ (f.isAsync = true ∧ r = none ∨ f.isAsync = false ∧ Replied t f id r)) ∨
      st ≠ .ok ∧ r = none
  | .callback _ f id st r => (st = .ok ∧ Replied t f id r) ∨ st = .io ∧ r = none
  | .frame .. => True

/-- A record was completed with its reply or an error. -/
def Completed (t : List Act) (p : Record) : Prop :=
  (p.io = .ok ∧ ∃ i r, Act.frame i p.id r ∈ t ∧ p.reply = some r) ∨ p.io = .io

/-- What was reported is true. -/
structure Honest (s : Sys) : Prop where
  /-- To the callers. -/
  acts : ∀ a ∈ s.trace, HonestAct s.trace a
  /-- In the records. -/
  done : ∀ c p, s.recs c = some p → p.done = true → Completed s.trace p
  /-- A reader calls back with the reply of the record. -/
  calling : ∀ (i : ℕ) L a r, s.x.w[i]? = some L → L.reader = .calling a r →
    ∀ p, s.recs a = some p → Act.frame i p.id r ∈ s.trace

/-- What holds in every state. -/
structure Inv (s : Sys) (stand : Addr → Stand) : Prop where
  /-- The calls. -/
  fits : ∀ c k, s.calls c = some k →
    Fits k (stand c) (s.recs c) (returns c s.trace) (callbacks c s.trace)
  /-- The calls to come. -/
  later : ∀ c, s.calls c = none →
    stand c = .gone ∧ s.recs c = none ∧ returns c s.trace = 0 ∧ callbacks c s.trace = 0
  /-- The numbers of the calls. -/
  made : ∀ c, s.calls c = none ↔ s.made ≤ c
  /-- The links. -/
  links : ∀ i L, s.x.w[i]? = some L → LinkOk s.x.maxInFlight stand i L
  /-- The links the records stand on. -/
  placed : ∀ c i, (stand c).link = some i → i < s.x.w.length
  /-- The links of the calls. -/
  routed : ∀ c k, s.calls c = some k → routed s.x.w.length k.phase
  /-- The ids. -/
  ids : Ids s
  /-- The reports. -/
  honest : Honest s
  /-- The rotation knows all links. -/
  alive : s.x.alive.length = s.x.w.length

end Stands

section Counts

variable {c c' : Addr} {t : List Act} {f : Form} {id : ℕ} {st : Status} {r : Option Reply}

/-- The report of a return counts as one for its call. -/
theorem counts_returned : returns c (t ++ [.returned c f id st r]) = returns c t + 1 ∧
    callbacks c (t ++ [.returned c f id st r]) = callbacks c t := by
  simp [returns, callbacks, isReturn, isCallback]

/-- And for no other call. -/
theorem counts_returned_other (h : c' ≠ c) :
    returns c' (t ++ [.returned c f id st r]) = returns c' t ∧
      callbacks c' (t ++ [.returned c f id st r]) = callbacks c' t := by
  simp [returns, callbacks, isReturn, isCallback, h.symm]

/-- The same for a callback. -/
theorem counts_callback : returns c (t ++ [.callback c f id st r]) = returns c t ∧
    callbacks c (t ++ [.callback c f id st r]) = callbacks c t + 1 := by
  simp [returns, callbacks, isReturn, isCallback]

theorem counts_callback_other (h : c' ≠ c) :
    returns c' (t ++ [.callback c f id st r]) = returns c' t ∧
      callbacks c' (t ++ [.callback c f id st r]) = callbacks c' t := by
  simp [returns, callbacks, isReturn, isCallback, h.symm]

/-- A reply that arrives is no report to a caller. -/
theorem counts_frame (i : ℕ) (rep : Reply) : returns c (t ++ [.frame i id rep]) = returns c t ∧
    callbacks c (t ++ [.frame i id rep]) = callbacks c t := by
  simp [returns, callbacks, isReturn, isCallback]

/-- A reply that arrived has arrived. -/
theorem Replied.append (h : Replied t f id r) (l : List Act) : Replied (t ++ l) f id r := by
  obtain ⟨i, r₀, hm, heq⟩ := h
  exact ⟨i, r₀, mem_append_left _ hm, heq⟩

theorem HonestAct.append {a : Act} (h : HonestAct t a) (l : List Act) : HonestAct (t ++ l) a := by
  cases a with
  | returned c f id st r =>
    rcases h with ⟨hst, ha | ⟨hb, hr⟩⟩ | h
    · exact .inl ⟨hst, .inl ha⟩
    · exact .inl ⟨hst, .inr ⟨hb, hr.append l⟩⟩
    · exact .inr h
  | callback c f id st r =>
    rcases h with ⟨hst, hr⟩ | h
    · exact .inl ⟨hst, hr.append l⟩
    · exact .inr h
  | frame i id r => trivial

theorem Completed.append {p : Record} (h : Completed t p) (l : List Act) : Completed (t ++ l) p := by
  rcases h with ⟨hio, i, r, hm, hr⟩ | h
  · exact .inl ⟨hio, i, r, mem_append_left _ hm, hr⟩
  · exact .inr h

end Counts

section Change

variable {s s' : Sys} {stand : Addr → Stand} {c : Addr} {k k' : Call} {x : Stand}
  {rc : Option Record} {M : Link}

/-- The ids of the calls stay. -/
theorem Ids.same (h : Ids s) (hcalls : s'.calls = update s.calls c (some k')) (hk : s.calls c = some k)
    (hid : k'.id = k.id) (hnext : s'.x.nextId = s.x.nextId) : Ids s' := by
  have hold : ∀ a q, s'.calls a = some q → ∃ q₀, s.calls a = some q₀ ∧ q₀.id = q.id := by
    intro a q hq
    rw [hcalls] at hq
    by_cases hac : a = c
    · subst hac
      rw [update_self] at hq
      cases hq
      exact ⟨k, hk, hid.symm⟩
    · rw [update_of_ne hac] at hq
      exact ⟨q, hq, rfl⟩
  refine ⟨fun a q a' q' ha ha' heq hne => ?_, fun a q ha => ?_⟩
  · obtain ⟨q₀, hq₀, hid₀⟩ := hold a q ha
    obtain ⟨q₁, hq₁, hid₁⟩ := hold a' q' ha'
    exact h.inj a q₀ a' q₁ hq₀ hq₁ (hid₀.trans (heq.trans hid₁.symm)) (hid₀ ▸ hne)
  · obtain ⟨q₀, hq₀, hid₀⟩ := hold a q ha
    rw [hnext, ← hid₀]
    exact h.le a q₀ hq₀

/-- A call gets an id: it is larger than the others. -/
theorem Ids.fresh (h : Ids s) (hcalls : s'.calls = update s.calls c (some k'))
    (hid : k'.id = s.x.nextId + 1) (hnext : s'.x.nextId = s.x.nextId + 1) : Ids s' := by
  have hcases : ∀ a q, s'.calls a = some q →
      (a = c ∧ q.id = s.x.nextId + 1) ∨ s.calls a = some q ∧ q.id ≤ s.x.nextId := by
    intro a q hq
    rw [hcalls] at hq
    by_cases hac : a = c
    · subst hac
      rw [update_self] at hq
      cases hq
      exact .inl ⟨rfl, hid⟩
    · rw [update_of_ne hac] at hq
      exact .inr ⟨hq, h.le a q hq⟩
  refine ⟨fun a q a' q' ha ha' heq hne => ?_, fun a q ha => ?_⟩
  · rcases hcases a q ha with ⟨rfl, hq⟩ | ⟨ha, hq⟩ <;> rcases hcases a' q' ha' with ⟨rfl, hq'⟩ | ⟨ha', hq'⟩
    · rfl
    · omega
    · omega
    · exact h.inj a q a' q' ha ha' heq hne
  · rcases hcases a q ha with ⟨-, hq⟩ | ⟨-, hq⟩ <;> omega

/-- A step about the calls of `T`: what it must show of them, of the links and of the reports. -/
theorem Inv.touch {T : Addr → Prop} {l : List Act} (h : Inv s stand)
    (hsame : ∀ a, ¬ T a → s'.calls a = s.calls a ∧ s'.recs a = s.recs a ∧ stand' a = stand a)
    (hcall : ∀ a, T a → ∃ q, s'.calls a = some q ∧
      Fits q (stand' a) (s'.recs a) (returns a s'.trace) (callbacks a s'.trace) ∧
      TransportStands.routed s.x.w.length q.phase ∧ ∀ i, (stand' a).link = some i → i < s.x.w.length)
    (hmade : ∀ a, s'.made ≤ a ↔ s.made ≤ a ∧ ¬ T a) (htrace : s'.trace = s.trace ++ l)
    (hcounts : ∀ a, ¬ T a → returns a s'.trace = returns a s.trace ∧
      callbacks a s'.trace = callbacks a s.trace)
    (hlinks : ∀ i L, s'.x.w[i]? = some L → LinkOk s'.x.maxInFlight stand' i L)
    (hlen : s'.x.w.length = s.x.w.length) (halive : s'.x.alive.length = s.x.alive.length) (hids : Ids s')
    (hnew : ∀ a ∈ l, HonestAct s'.trace a)
    (hdone : ∀ a, T a → ∀ p, s'.recs a = some p → p.done = true → Completed s'.trace p)
    (hcalling : ∀ (i : ℕ) L a r, s'.x.w[i]? = some L → L.reader = .calling a r →
      ∀ p, s'.recs a = some p → Act.frame i p.id r ∈ s'.trace) :
    Inv s' stand' where
  fits := fun a q hq => by
    by_cases hT : T a
    · obtain ⟨q', hq', hfits, -⟩ := hcall a hT
      cases hq.symm.trans hq'
      exact hfits
    · obtain ⟨hcalls, hrecs, hstand⟩ := hsame a hT
      rw [hstand, hrecs, (hcounts a hT).1, (hcounts a hT).2]
      exact h.fits a q (hcalls ▸ hq)
  later := fun a ha => by
    have hT : ¬ T a := fun hT => by
      obtain ⟨q, hq, -⟩ := hcall a hT
      cases ha.symm.trans hq
    obtain ⟨hcalls, hrecs, hstand⟩ := hsame a hT
    rw [hstand, hrecs, (hcounts a hT).1, (hcounts a hT).2]
    exact h.later a (hcalls ▸ ha)
  made := fun a => by
    rw [hmade a, ← h.made a]
    by_cases hT : T a
    · obtain ⟨q, hq, -⟩ := hcall a hT
      rw [hq]
      exact ⟨nofun, fun hn => absurd hT hn.2⟩
    · rw [(hsame a hT).1]
      exact ⟨fun hn => ⟨hn, hT⟩, And.left⟩
  links := hlinks
  placed := fun a i ha => by
    rw [hlen]
    by_cases hT : T a
    · obtain ⟨-, -, -, -, hplaced⟩ := hcall a hT
      exact hplaced i ha
    · exact h.placed a i ((hsame a hT).2.2 ▸ ha)
  routed := fun a q hq => by
    rw [hlen]
    by_cases hT : T a
    · obtain ⟨q', hq', -, hrouted, -⟩ := hcall a hT
      cases hq.symm.trans hq'
      exact hrouted
    · exact h.routed a q ((hsame a hT).1 ▸ hq)
  ids := hids
  honest := by
    refine ⟨fun a ha => ?_, fun a p hp hd => ?_, hcalling⟩
    · rw [htrace] at ha
      rcases mem_append.mp ha with ha | ha
      · rw [htrace]
        exact (h.honest.acts a ha).append l
      · exact hnew a ha
    · by_cases hT : T a
      · exact hdone a hT p hp hd
      · rw [htrace]
        exact (h.honest.done a p ((hsame a hT).2.1 ▸ hp) hd).append l
  alive := by rw [halive, hlen, h.alive]

/-- The number of a call was given. -/
theorem Inv.known (h : Inv s stand) (hk : s.calls c = some k) (a : Addr) :
    s.made ≤ a ↔ s.made ≤ a ∧ ¬ a = c := by
  refine ⟨fun ha => ⟨ha, ?_⟩, And.left⟩
  rintro rfl
  cases hk.symm.trans ((h.made a).mpr ha)

/-- A step about one call. -/
theorem Inv.change {l : List Act} (h : Inv s stand) (hcalls : s'.calls = update s.calls c (some k'))
    (hrecs : s'.recs = update s.recs c rc) (hmade : ∀ a, s'.made ≤ a ↔ s.made ≤ a ∧ ¬ a = c)
    (htrace : s'.trace = s.trace ++ l)
    (hcounts : ∀ a, ¬ a = c → returns a s'.trace = returns a s.trace ∧
      callbacks a s'.trace = callbacks a s.trace)
    (hfits : Fits k' x rc (returns c s'.trace) (callbacks c s'.trace))
    (hlinks : ∀ i L, s'.x.w[i]? = some L → LinkOk s'.x.maxInFlight (update stand c x) i L)
    (hlen : s'.x.w.length = s.x.w.length) (halive : s'.x.alive.length = s.x.alive.length)
    (hplaced : ∀ i, x.link = some i → i < s.x.w.length)
    (hrouted : TransportStands.routed s.x.w.length k'.phase) (hids : Ids s')
    (hnew : ∀ a ∈ l, HonestAct s'.trace a)
    (hdone : ∀ p, rc = some p → p.done = true → Completed s'.trace p)
    (hself : ∀ (i : ℕ) L r, s'.x.w[i]? = some L → L.reader = .calling c r →
      ∀ p, rc = some p → Act.frame i p.id r ∈ s'.trace)
    (hother : ∀ (i : ℕ) L a r, a ≠ c → s'.x.w[i]? = some L → L.reader = .calling a r →
      ∃ L₀, s.x.w[i]? = some L₀ ∧ L₀.reader = .calling a r) : Inv s' (update stand c x) := by
  have hrc : s'.recs c = rc := by rw [hrecs, update_self]
  refine h.touch (T := (· = c)) (fun a ha => ?_) ?_ hmade htrace hcounts hlinks hlen halive hids hnew ?_
    fun i L a r hL hr p hp => ?_
  · exact ⟨by rw [hcalls, update_of_ne ha], by rw [hrecs, update_of_ne ha], update_of_ne ha ..⟩
  · rintro a rfl
    refine ⟨k', by rw [hcalls, update_self], ?_⟩
    rw [update_self, hrc]
    exact ⟨hfits, hrouted, hplaced⟩
  · rintro a rfl
    exact hrc ▸ hdone
  · by_cases hac : a = c
    · subst hac
      exact hself i L r hL hr p (hrc ▸ hp)
    · obtain ⟨L₀, hL₀, hr₀⟩ := hother i L a r hac hL hr
      rw [hrecs, update_of_ne hac] at hp
      rw [htrace]
      exact mem_append_left _ (h.honest.calling i L₀ a r hL₀ hr₀ p hp)

/-- The rotation, the ids and the readers that hold a reply are the same. -/
structure Kin (x x' : Xport) : Prop where
  /-- The links. -/
  len : x'.w.length = x.w.length
  /-- The rotation. -/
  alive : x'.alive.length = x.alive.length
  /-- The ids. -/
  nextId : x'.nextId = x.nextId
  /-- The readers. -/
  calling : ∀ (i : ℕ) L a r, x'.w[i]? = some L → L.reader = .calling a r →
    ∃ L₀, x.w[i]? = some L₀ ∧ L₀.reader = .calling a r

theorem Kin.refl (x : Xport) : Kin x x := ⟨rfl, rfl, rfl, fun _ L _ _ hL hr => ⟨L, hL, hr⟩⟩

/-- One link was set. -/
theorem set_cases {w : List Link} {i j : ℕ} {L : Link} (h : (w.set i L)[j]? = some M) :
    (j = i ∧ M = L) ∨ j ≠ i ∧ w[j]? = some M := by
  by_cases hij : i = j
  · subst hij
    by_cases hlt : i < w.length
    · rw [getElem?_set_self hlt] at h
      exact .inl ⟨rfl, (some.inj h).symm⟩
    · rw [getElem?_eq_none (by rw [length_set]; exact le_of_not_gt hlt)] at h
      cases h
  · rw [getElem?_set_ne hij] at h
    exact .inr ⟨fun heq => hij heq.symm, h⟩

/-- One link was set, and its reader does not come to hold a reply. -/
theorem Kin.set {y : Xport} {i : ℕ} {L : Link} (hL : y.w[i]? = some L)
    (hM : ∀ a r, M.reader = .calling a r → L.reader = .calling a r) :
    Kin y { y with w := y.w.set i M } :=
  ⟨length_set .., rfl, rfl, fun j N a r hN hr => by
    rcases set_cases hN with ⟨rfl, rfl⟩ | ⟨-, hN⟩
    · exact ⟨L, hL, hM a r hr⟩
    · exact ⟨N, hN, hr⟩⟩

/-- A reader that holds a reply held it before. -/
theorem Honest.calling_of (h : Honest s) {y : Xport} (kin : Kin s.x y) (l : List Act) (i : ℕ) (L : Link)
    (a : Addr) (r : Reply) (hL : y.w[i]? = some L) (hr : L.reader = .calling a r) (p : Record)
    (hp : s.recs a = some p) : Act.frame i p.id r ∈ s.trace ++ l := by
  obtain ⟨L₀, hL₀, hr₀⟩ := kin.calling i L a r hL hr
  exact mem_append_left _ (h.calling i L₀ a r hL₀ hr₀ p hp)

/-- No call and no record changes. -/
theorem Inv.idle (h : Inv s stand) {l : List Act} (hcalls : s'.calls = s.calls) (hrecs : s'.recs = s.recs)
    (hmade : s'.made = s.made) (htrace : s'.trace = s.trace ++ l) (kin : Kin s.x s'.x)
    (hlinks : ∀ i L, s'.x.w[i]? = some L → LinkOk s'.x.maxInFlight stand i L)
    (hl : ∀ a, returns a s'.trace = returns a s.trace ∧ callbacks a s'.trace = callbacks a s.trace)
    (hnew : ∀ a ∈ l, HonestAct s'.trace a) : Inv s' stand := by
  refine h.touch (T := fun _ => False) (fun a _ => ⟨by rw [hcalls], by rw [hrecs], rfl⟩) nofun
    (fun a => by rw [hmade, not_false_eq_true, and_true]) htrace (fun a _ => hl a) hlinks kin.len kin.alive ?_
    hnew nofun ?_
  · exact ⟨by rw [hcalls]; exact h.ids.inj, by rw [hcalls, kin.nextId]; exact h.ids.le⟩
  · rw [htrace, hrecs]
    exact h.honest.calling_of kin l

/-- A call goes to another phase and its record stays where it is. -/
theorem Inv.phase (h : Inv s stand) {l : List Act} {p : Phase} (hk : s.calls c = some k)
    (hcalls : s'.calls = update s.calls c (some { k with phase := p })) (hrecs : s'.recs = s.recs)
    (hmade : s'.made = s.made) (htrace : s'.trace = s.trace ++ l) (kin : Kin s.x s'.x)
    (hlinks : ∀ i L, s'.x.w[i]? = some L → LinkOk s'.x.maxInFlight stand i L)
    (hl : ∀ a, ¬ a = c → returns a s'.trace = returns a s.trace ∧
      callbacks a s'.trace = callbacks a s.trace)
    (hfits : Fits { k with phase := p } (stand c) (s.recs c) (returns c s'.trace) (callbacks c s'.trace))
    (hrouted : TransportStands.routed s.x.w.length p) (hnew : ∀ a ∈ l, HonestAct s'.trace a) :
    Inv s' stand := by
  refine h.touch (T := (· = c)) (fun a ha => ⟨by rw [hcalls, update_of_ne ha], by rw [hrecs], rfl⟩) ?_
    (hmade ▸ h.known hk) htrace hl hlinks kin.len kin.alive (h.ids.same hcalls hk rfl kin.nextId) hnew
    (fun a _ q hq hd => ?_) ?_
  · rintro a rfl
    exact ⟨_, by rw [hcalls, update_self], hrecs ▸ hfits, hrouted, h.placed a⟩
  · rw [htrace]
    exact (h.honest.done a q (hrecs ▸ hq) hd).append l
  · rw [htrace, hrecs]
    exact h.honest.calling_of kin l

end Change

section Links

variable {m i : ℕ} {stand : Addr → Stand} {L : Link} {a c : Addr} {x : Stand} {y : Stand}
  {rd : Reader}

/-- A record that neither was at a place nor comes to it. -/
theorem update_iff (hc : stand c ≠ y) (hx : x ≠ y) (b : Addr) :
    stand b = y ↔ update stand c x b = y := by
  by_cases hbc : b = c
  · subst hbc
    rw [update_self]
    exact ⟨fun hb => absurd hb hc, fun hb => absurd hb hx⟩
  · rw [update_of_ne hbc]

/-- A list of the records at a place, when one record comes or goes. -/
theorem mem_update {l l' : List Addr} (hl : ∀ b, b ∈ l ↔ stand b = y) (hself : a ∈ l' ↔ x = y)
    (hother : ∀ b ≠ a, (b ∈ l' ↔ b ∈ l)) (b : Addr) : b ∈ l' ↔ update stand a x b = y := by
  by_cases hba : b = a
  · subst hba
    rwa [update_self]
  · rw [update_of_ne hba, ← hl b]
    exact hother b hba

theorem ne_of_link (hx : x.link ≠ some i) (hy : y.link = some i) : x ≠ y :=
  fun h => hx (h ▸ hy)

variable (h : LinkOk m stand i L)

include h

/-- No record came to the link or left it. -/
theorem LinkOk.congr (hsame : ∀ y : Stand, y.link = some i → ∀ b, stand b = y ↔ stand' b = y) :
    LinkOk m stand' i L :=
  { h with
    pend := fun b => (h.pend b).trans (hsame _ rfl b)
    hand := fun b => (h.hand b).trans (hsame _ rfl b)
    told := fun b => (h.told b).trans (hsame _ rfl b) }

/-- A record that neither was with the link nor comes to it. -/
theorem LinkOk.other (hc : (stand c).link ≠ some i) (hx : x.link ≠ some i) :
    LinkOk m (update stand c x) i L :=
  h.congr fun _ hy => update_iff (ne_of_link hc hy) (ne_of_link hx hy)

/-- The stream of the link or the reader's way changes, but not what is with the reader. -/
theorem LinkOk.turn (rd : Reader) (e : Bool)
    (hhand : TransportStands.hand rd = TransportStands.hand L.reader)
    (htold : TransportStands.told rd = TransportStands.told L.reader) (hpast : past rd = past L.reader) :
    LinkOk m stand i { L with eof := e, reader := rd } :=
  ⟨h.pend, h.nodup, h.count, h.room, fun b => by rw [hhand]; exact h.hand b,
    by rw [hhand]; exact h.handNodup, fun b => by rw [htold]; exact h.told b, h.empty,
    h.dead.trans hpast.symm⟩

/-- A record is registered. -/
theorem LinkOk.register (hc : (stand c).link ≠ some i) (hdead : L.dead = false) (hroom : L.npend < m) :
    LinkOk m (update stand c (.listed i)) i { L with pend := c :: L.pend, npend := L.npend + 1 } := by
  have hnot : c ∉ L.pend := fun hm => ne_of_link hc rfl ((h.pend c).mp hm)
  exact ⟨mem_update h.pend (by simp) (fun b hb => by simp [hb]), nodup_cons.mpr ⟨hnot, h.nodup⟩,
    congrArg (· + 1) h.count, hroom,
    fun b => (h.hand b).trans (update_iff (ne_of_link hc rfl) (by simp) b), h.handNodup,
    fun b => (h.told b).trans (update_iff (ne_of_link hc rfl) (by simp) b),
    fun hd => absurd (hdead.symm.trans hd) nofun, h.dead⟩

/-- The list without one record. -/
theorem LinkOk.mem_erase (hx : x ≠ .listed i) :
    ∀ b, b ∈ L.pend.erase a ↔ update stand a x b = .listed i :=
  mem_update h.pend (by simp [h.nodup.mem_erase_iff, hx]) fun b hb => by
    simp [h.nodup.mem_erase_iff, hb]

theorem LinkOk.count_erase (ha : a ∈ L.pend) : L.npend - 1 = (L.pend.erase a).length := by
  rw [length_erase_of_mem ha, h.count]

/-- A record leaves the list and the link. -/
theorem LinkOk.unlist (ha : a ∈ L.pend) (hx : x.link ≠ some i) :
    LinkOk m (update stand a x) i { L with pend := L.pend.erase a, npend := L.npend - 1 } := by
  have hsa := (h.pend a).mp ha
  exact ⟨h.mem_erase (ne_of_link hx rfl), h.nodup.erase a, h.count_erase ha,
    le_trans (Nat.sub_le _ _) h.room,
    fun b => (h.hand b).trans (update_iff (by simp [hsa]) (ne_of_link hx rfl) b), h.handNodup,
    fun b => (h.told b).trans (update_iff (by simp [hsa]) (ne_of_link hx rfl) b),
    fun hd => by rw [h.empty hd]; rfl, h.dead⟩

/-- A reply arrives for an asynchronous record: its reader has it. -/
theorem LinkOk.answer (ha : a ∈ L.pend) (r : Reply) (hr : L.reader = .reading) :
    LinkOk m (update stand a (.handed i)) i
      { L with pend := L.pend.erase a, npend := L.npend - 1, reader := .calling a r } := by
  have hsa := (h.pend a).mp ha
  have hhand : ∀ b, b ∈ ([] : List Addr) ↔ stand b = .handed i := by
    have := h.hand
    rwa [hr] at this
  have htold : ∀ b, b ∈ ([] : List Addr) ↔ stand b = .told i := by
    have := h.told
    rwa [hr] at this
  exact ⟨h.mem_erase (by simp), h.nodup.erase a, h.count_erase ha, le_trans (Nat.sub_le _ _) h.room,
    mem_update hhand (by simp [TransportStands.hand]) (fun b hb => by simp [TransportStands.hand, hb]),
    pairwise_singleton _ a, fun b => (htold b).trans (update_iff (by simp [hsa]) (by simp) b),
    fun hd => by rw [h.empty hd]; rfl, h.dead.trans (by rw [hr]; rfl)⟩

/-- The reader calls back for a record. -/
theorem LinkOk.call (hhand : TransportStands.hand L.reader = a :: TransportStands.hand rd)
    (htold : TransportStands.told L.reader = []) (hnow : TransportStands.told rd = [a])
    (hpast : past rd = past L.reader) :
    LinkOk m (update stand a (.told i)) i { L with reader := rd } := by
  have hnd := h.handNodup
  rw [hhand] at hnd
  obtain ⟨hnot, hnd⟩ := nodup_cons.mp hnd
  have hsa : stand a = .handed i := (h.hand a).mp (by rw [hhand]; exact mem_cons_self)
  exact ⟨fun b => (h.pend b).trans (update_iff (by simp [hsa]) (by simp) b), h.nodup, h.count, h.room,
    mem_update h.hand (by simp [hnot]) (fun b hb => by simp [hhand, hb]), hnd,
    mem_update h.told (by simp [hnow]) (fun b hb => by simp [htold, hnow, hb]), h.empty,
    h.dead.trans hpast.symm⟩

/-- The reader frees a record. -/
theorem LinkOk.release (hhand : TransportStands.hand rd = TransportStands.hand L.reader)
    (htold : TransportStands.told L.reader = [a]) (hnow : TransportStands.told rd = [])
    (hpast : past rd = past L.reader) : LinkOk m (update stand a .gone) i { L with reader := rd } := by
  have hsa : stand a = .told i := (h.told a).mp (by rw [htold]; exact mem_cons_self)
  refine ⟨fun b => (h.pend b).trans (update_iff (by simp [hsa]) (by simp) b), h.nodup, h.count, h.room,
    fun b => ?_, by rw [hhand]; exact h.handNodup,
    mem_update h.told (by simp [hnow]) (fun b hb => by simp [htold, hnow, hb]), h.empty,
    h.dead.trans hpast.symm⟩
  show b ∈ TransportStands.hand rd ↔ _
  rw [hhand]
  exact (h.hand b).trans (update_iff (by simp [hsa]) (by simp) b)

omit h

end Links

section Lists

variable {recs : Addr → Option Record} {l : List Addr}

/-- `pend_take` finds the record with the id, or there is none. -/
theorem pendTake_cases (id : ℕ) (hall : ∀ a ∈ l, ∃ r, recs a = some r) :
    (pendTake recs id l = some (none, l) ∧ ∀ a ∈ l, ∀ r, recs a = some r → r.id ≠ id) ∨
      ∃ a ∈ l, ∃ r, recs a = some r ∧ r.id = id ∧ pendTake recs id l = some (some a, l.erase a) := by
  induction l with
  | nil => exact .inl ⟨rfl, nofun⟩
  | cons a l ih =>
    obtain ⟨r, hr⟩ := hall a mem_cons_self
    by_cases hid : r.id = id
    · refine .inr ⟨a, mem_cons_self, r, hr, hid, ?_⟩
      rw [pendTake, hr, bind_some, if_pos hid, erase_cons_head]
    · rcases ih fun b hb => hall b (mem_cons_of_mem a hb) with ⟨htake, hno⟩ | ⟨b, hb, q, hq, hqid, htake⟩
      · refine .inl ⟨?_, fun b hb q hq => ?_⟩
        · rw [pendTake, hr, bind_some, if_neg hid, htake, map_some]
        · rcases mem_cons.mp hb with rfl | hb
          · cases hr.symm.trans hq
            exact hid
          · exact hno b hb q hq
      · refine .inr ⟨b, mem_cons_of_mem a hb, q, hq, hqid, ?_⟩
        have hba : a ≠ b := fun heq => by
          subst heq
          cases hr.symm.trans hq
          exact hid hqid
        rw [pendTake, hr, bind_some, if_neg hid, htake, map_some,
          erase_cons_tail (by simpa using hba)]

/-- What the loop of `fail_all` leaves of a record. -/
def failed (r : Record) : Record := if r.form.isAsync then r else { r with io := .io, done := true }

/-- The loop of `fail_all` completes the blocking records of the list and keeps the others. -/
theorem failSplit_some (acc : List Addr) (hnd : l.Nodup) (hall : ∀ a ∈ l, ∃ r, recs a = some r) :
    ∃ recs' out, failSplit l recs acc = some (recs', out) ∧
      (∀ a, recs' a = if a ∈ l then (recs a).map failed else recs a) ∧
      ∃ kept, out = kept ++ acc ∧ kept.Nodup ∧
        ∀ a, a ∈ kept ↔ a ∈ l ∧ ∃ r, recs a = some r ∧ r.form.isAsync = true := by
  induction l generalizing recs acc with
  | nil =>
    exact ⟨recs, acc, rfl, fun a => (if_neg not_mem_nil).symm, [], rfl, nodup_nil,
      fun a => ⟨nofun, fun h => nomatch h.1⟩⟩
  | cons a l ih =>
    obtain ⟨hnot, hnd⟩ := nodup_cons.mp hnd
    obtain ⟨r, hr⟩ := hall a mem_cons_self
    by_cases hasync : r.form.isAsync = true
    · obtain ⟨recs', out, hsplit, hrecs, kept, hout, hkept, hmem⟩ :=
        ih (a :: acc) hnd fun b hb => hall b (mem_cons_of_mem a hb)
      refine ⟨recs', out, ?_, fun b => ?_, kept ++ [a], ?_, ?_, fun b => ?_⟩
      · rw [failSplit, hr, bind_some, if_pos hasync, hsplit]
      · rw [hrecs b]
        by_cases hba : b = a
        · subst hba
          rw [if_neg hnot, if_pos mem_cons_self, hr, map_some, failed, if_pos hasync]
        · simp only [mem_cons, hba, false_or]
      · rw [hout, append_assoc]
        rfl
      · refine nodup_append.mpr ⟨hkept, pairwise_singleton _ a, fun b hb d hd heq => ?_⟩
        rw [mem_singleton.mp hd] at heq
        exact hnot (heq ▸ ((hmem b).mp hb).1)
      · rw [mem_append, hmem b, mem_singleton, mem_cons]
        constructor
        · rintro (⟨hb, h⟩ | rfl)
          · exact ⟨.inr hb, h⟩
          · exact ⟨.inl rfl, r, hr, hasync⟩
        · rintro ⟨rfl | hb, h⟩
          · exact .inr rfl
          · exact .inl ⟨hb, h⟩
    · have hother : ∀ b ∈ l, b ≠ a := fun b hb heq => hnot (heq ▸ hb)
      have hall' : ∀ b ∈ l, ∃ q, update recs a (some { r with io := .io, done := true }) b = some q := by
        intro b hb
        rw [update_of_ne (hother b hb)]
        exact hall b (mem_cons_of_mem a hb)
      obtain ⟨recs', out, hsplit, hrecs, kept, hout, hkept, hmem⟩ := ih acc hnd hall'
      refine ⟨recs', out, ?_, fun b => ?_, kept, hout, hkept, fun b => ?_⟩
      · rw [failSplit, hr, bind_some, if_neg hasync, hsplit]
      · rw [hrecs b]
        by_cases hba : b = a
        · subst hba
          rw [if_neg hnot, if_pos mem_cons_self, update_self, hr, map_some, failed,
            if_neg hasync]
        · simp only [mem_cons, hba, false_or, update_of_ne hba]
      · rw [hmem b, mem_cons]
        constructor
        · rintro ⟨hb, h⟩
          rw [update_of_ne (hother b hb)] at h
          exact ⟨.inr hb, h⟩
        · rintro ⟨rfl | hb, q, hq, hqa⟩
          · cases hr.symm.trans hq
            exact absurd hqa hasync
          · rw [update_of_ne (hother b hb)]
            exact ⟨hb, q, hq, hqa⟩

end Lists

end Gptps.TransportStands
