import Gptps.Balancer

/-!
# The books of the load balancer

Every handle that was given out is in one place: in the queue, on a shard, with a call that owes its
last event, or in the events heard. Every function that runs under the lock keeps these books, and it
always ends.
-/

namespace Gptps.BalanceBooks

open Function ProbeMap ArrayHeap Balancer List Option
open EngineState hiding Item Engine

variable {i : ℕ} {b : Balance}

section Books

/-- An item on a shard. -/
structure Hand where
  /-- The shard. -/
  shard : ℕ
  /-- The handle the shard gave. -/
  eh : Handle
  /-- The item. -/
  bh : Handle
  deriving DecidableEq, Repr

/-- What the map of shard `i` holds. -/
def rows (i : ℕ) (out : List Hand) : List (Handle × Handle) :=
  (out.filter fun h => h.shard = i).map fun h => (h.eh, h.bh)

/-- The handle an act gives out. -/
def acceptedOf : Act → Option Handle
  | .accepted bh => some bh
  | _ => none

/-- The handle whose last event an act is. -/
def endOf : Act → Option Handle
  | .event bh k st => if lastEvent k st then some bh else none
  | _ => none

/-- The handles given out. -/
def accepted (t : List Act) : List Handle := t.filterMap acceptedOf

/-- The handles whose last event was heard, as often as it was. -/
def ended (t : List Act) : List Handle := t.filterMap endOf

/-- Entry `e` is the first live one of the queue, and shard `i` has the least load of those below their
caps. -/
structure Best (b : Balance) (e : Entry) (i : ℕ) : Prop where
  /-- It is live. -/
  live : e ∈ b.live
  /-- No live one goes before it. -/
  first : ∀ x ∈ b.live, before x e = false
  /-- The shard has room and the least load. -/
  least : ∃ s, b.sh[i]? = some s ∧ s.load < s.cap ∧ ∀ s' ∈ b.sh, s'.load < s'.cap → s.load ≤ s'.load

/-- A shard holds the items of `l`. -/
structure ShardBook (s : Shard) (l : List (Handle × Handle)) : Prop where
  /-- The map. -/
  maps : Maps s.byEh l
  /-- The load. -/
  load : s.load = l.length
  /-- It is within the cap. -/
  room : s.load ≤ s.cap

/-- The handles of entries. -/
def bhs (l : List Entry) : List Handle := l.map Entry.bh

/-- Where everything is: `taken` is on its way between the queue, a shard and a call, under the lock,
`out` is on the shards, calls will free the items `held` and owe the last events of `owing`, and the
events `flight` are on their way from the shards. -/
structure Books (w : World) (taken : List Handle) (out : List Hand) (held owing : List Handle)
    (flight : List (ℕ × Handle)) : Prop where
  /-- The queue is a heap. -/
  ordered : Ordered before w.b.q.a
  /-- No item is in two places. -/
  apart : (bhs w.b.q.a ++ taken ++ out.map Hand.bh ++ held).Nodup
  /-- The items of the queue. -/
  waiting : ∀ e ∈ w.b.q.a, ∃ it, w.b.items e.bh = some it ∧ it.state ≠ .dispatched
  /-- The items on the shards. -/
  onShard : ∀ h ∈ out, ∃ it, w.b.items h.bh = some it ∧ it.state = .dispatched ∧ it.shard = h.shard ∧
    it.eh = h.eh
  /-- The items with calls. -/
  withCall : ∀ bh ∈ taken ++ held, ∃ it, w.b.items bh = some it
  /-- `queued` counts the live items of the queue. -/
  queued : w.b.queued = w.b.live.length
  /-- Each shard holds its items. -/
  shards : ∀ i s, w.b.sh[i]? = some s → ShardBook s (rows i out)
  /-- The shards exist. -/
  range : ∀ h ∈ out, h.shard < w.b.sh.length
  /-- The map from handles. -/
  directory : Maps w.b.byBh ((bhs w.b.live ++ taken ++ out.map Hand.bh).map fun x => (x, x))
  /-- Every handle given out is in one place. -/
  ledger : (bhs w.b.live ++ taken ++ out.map Hand.bh ++ owing ++ ended w.trace).Perm
    (accepted w.trace)
  /-- No handle was given out twice. -/
  once : (accepted w.trace).Nodup
  /-- Handles given out. -/
  below : ∀ bh ∈ accepted w.trace, bh ≤ w.b.nextBh
  /-- Handles of the items. -/
  placed : ∀ bh ∈ bhs w.b.q.a ++ taken ++ out.map Hand.bh ++ held, bh ≤ w.b.nextBh
  /-- Handles of the shards. -/
  ehBelow : ∀ h ∈ out, h.eh ≤ (w.eng h.shard).last
  /-- The shards still owe an event of each of their items. -/
  reach : ∀ h ∈ out, h.eh ∈ (w.eng h.shard).live ∨ (h.shard, h.eh) ∈ flight
  /-- What was handed over was the first, to the shard of least load. -/
  best : ∀ b e i, Act.handed b e i ∈ w.trace → Best b e i

end Books

variable {w : World} {taken : List Handle} {out : List Hand} {held owing : List Handle}
  {flight : List (ℕ × Handle)}

section Order

variable {l : List Shard} {best : Option (ℕ × ℕ)} {n : ℕ}

/-- The order of the queue. -/
theorem before_weak : StrictWeak before := by
  refine ⟨fun x y hxy => ?_, fun x y z hxy hyz => ?_⟩
  · unfold before at hxy ⊢
    split_ifs at hxy ⊢ with h₁ h₂ h₂
    · have := of_decide_eq_true hxy
      exact decide_eq_false (by omega)
    · exact absurd h₁.symm (by simpa using h₂)
    · exact absurd h₂.symm (by simpa using h₁)
    · have := of_decide_eq_true hxy
      exact decide_eq_false (by omega)
  · unfold before at hxy hyz ⊢
    split_ifs at hxy hyz ⊢ <;> simp only [decide_eq_false_iff_not, ne_eq, not_not] at * <;> omega

/-- One shard of the scan. -/
theorem bestShard_cons (s : Shard) (rest : List Shard) (i : ℕ) (best : Option (ℕ × ℕ)) :
    bestShard (s :: rest) i best = bestShard rest (i + 1)
      (if s.load < s.cap ∧ best.all (s.load < ·.2) then some (i, s.load) else best) := by
  rcases best with _ | ⟨j, n⟩
  · simp only [bestShard, all_none, and_true]
    split_ifs <;> rfl
  · simp only [bestShard, all_some, decide_eq_true_eq]
    split_ifs <;> rfl

/-- No shard is chosen only if none has room. -/
theorem bestShard_none (h : bestShard l i best = none) : best = none ∧ ∀ s ∈ l, s.cap ≤ s.load := by
  induction l generalizing i best with
  | nil => exact ⟨h, fun s hs => nomatch hs⟩
  | cons s rest ih =>
    rw [bestShard_cons] at h
    obtain ⟨hbest, hrest⟩ := ih h
    split_ifs at hbest with hroom
    subst hbest
    exact ⟨rfl, forall_mem_cons.mpr ⟨le_of_not_gt fun hlt => hroom ⟨hlt, rfl⟩, hrest⟩⟩

/-- The shard that is chosen: the best before, or one of the list with room, and none of either has
room and less load. -/
theorem bestShard_some {j : ℕ} (h : bestShard l i best = some (j, n)) :
    (best = some (j, n) ∨ ∃ k s, j = i + k ∧ l[k]? = some s ∧ s.load = n ∧ s.load < s.cap) ∧
      (∀ s ∈ l, s.load < s.cap → n ≤ s.load) ∧ ∀ p, best = some p → n ≤ p.2 := by
  induction l generalizing i best with
  | nil =>
    cases h
    exact ⟨.inl rfl, fun s hs => (nomatch hs), fun p hp => by cases hp; exact le_rfl⟩
  | cons s rest ih =>
    rw [bestShard_cons] at h
    obtain ⟨hwho, hleast, hsome⟩ := ih h
    have hlater : (∃ k s', j = i + 1 + k ∧ rest[k]? = some s' ∧ s'.load = n ∧ s'.load < s'.cap) →
        ∃ k s', j = i + k ∧ (s :: rest)[k]? = some s' ∧ s'.load = n ∧ s'.load < s'.cap := by
      rintro ⟨k, s', hj, hrest⟩
      exact ⟨k + 1, s', by omega, hrest⟩
    split_ifs at hwho hsome with htake
    · have hle : n ≤ s.load := hsome _ rfl
      refine ⟨.inr ?_, forall_mem_cons.mpr ⟨fun _ => hle, hleast⟩, fun p hp => ?_⟩
      · rcases hwho with hsame | hlate
        · cases hsame
          exact ⟨0, s, rfl, rfl, rfl, htake.1⟩
        · exact hlater hlate
      · rw [hp] at htake
        exact le_trans hle (le_of_lt (of_decide_eq_true htake.2))
    · refine ⟨hwho.imp_right hlater, forall_mem_cons.mpr ⟨fun hcap => ?_, hleast⟩, hsome⟩
      cases best with
      | none => exact absurd ⟨hcap, rfl⟩ htake
      | some p =>
        -- the head has room, so the best before has no more load
        have hnot : ¬ s.load < p.2 := fun hlt => htake ⟨hcap, decide_eq_true hlt⟩
        exact le_trans (hsome p rfl) (le_of_not_gt hnot)

/-- The shard chosen from all shards. -/
theorem bestShard_least (h : bestShard l 0 none = some (i, n)) :
    ∃ s, l[i]? = some s ∧ s.load < s.cap ∧ ∀ s' ∈ l, s'.load < s'.cap → s.load ≤ s'.load := by
  obtain ⟨hwho, hleast, -⟩ := bestShard_some h
  rcases hwho with hno | ⟨k, s, hk, hget, rfl, hcap⟩
  · cases hno
  · rw [zero_add] at hk
    subst hk
    exact ⟨s, hget, hcap, hleast⟩

end Order

section Rows

variable {h : Hand} {i : ℕ}

theorem rows_perm {out' : List Hand} (hp : out.Perm out') (i : ℕ) :
    (rows i out).Perm (rows i out') := (hp.filter _).map _

theorem rows_cons_self (h : Hand) (out : List Hand) :
    rows h.shard (h :: out) = (h.eh, h.bh) :: rows h.shard out := by
  unfold rows
  rw [filter_cons_of_pos (by simp), map_cons]

theorem rows_cons_other (hi : h.shard ≠ i) (out : List Hand) : rows i (h :: out) = rows i out := by
  unfold rows
  rw [filter_cons_of_neg (by simpa using hi)]

theorem mem_rows {eh bh : Handle} (hm : (eh, bh) ∈ rows i out) : ⟨i, eh, bh⟩ ∈ out := by
  obtain ⟨h, hmem, heq⟩ := List.mem_map.mp hm
  rw [mem_filter, decide_eq_true_iff] at hmem
  obtain ⟨hout, rfl⟩ := hmem
  cases heq
  exact hout

theorem mem_rows_of {h : Hand} (hm : h ∈ out) : (h.eh, h.bh) ∈ rows h.shard out :=
  List.mem_map.mpr ⟨h, mem_filter.mpr ⟨hm, decide_eq_true rfl⟩, rfl⟩

end Rows

section Live

variable {b : Balance} {e : Entry} {it : Item} {items : Handle → Option Item}

theorem isQueued_iff : isQueued items e = true ↔ ∃ it, items e.bh = some it ∧ it.state = .queued := by
  unfold isQueued
  cases items e.bh with
  | none => simp
  | some it => simp

theorem isQueued_false (hit : items e.bh = some it) (hs : it.state ≠ .queued) :
    isQueued items e = false := by
  unfold isQueued
  rw [hit]
  exact decide_eq_false hs

theorem mem_live : e ∈ b.live ↔ e ∈ b.q.a ∧ ∃ it, b.items e.bh = some it ∧ it.state = .queued := by
  unfold Balance.live
  rw [mem_filter, isQueued_iff]

/-- What is live does not depend on the items of others. -/
theorem filter_update {l : List Entry} {bh : Handle} (x : Option Item) (hno : bh ∉ bhs l) :
    l.filter (isQueued (update items bh x)) = l.filter (isQueued items) := by
  refine filter_congr fun e he => ?_
  have hne : e.bh ≠ bh := fun heq => hno (heq ▸ List.mem_map_of_mem he)
  unfold isQueued
  rw [update_of_ne hne]

end Live

section Moves

variable {e : Entry} {a : List Entry} {it : Item} {bh eh : Handle} {h : Hand} {s : Shard} {i : ℕ}
  {m : Map Handle} {out' : List Hand}

/-- Which of the calls owes what does not matter. -/
theorem Books.perm (hb : Books w taken out held owing flight) {held' owing' : List Handle}
    (hh : held.Perm held') (ho : owing.Perm owing') : Books w taken out held' owing' flight :=
  { hb with
    apart := (Perm.append_left _ hh).nodup_iff.mp hb.apart
    withCall := fun bh hm => hb.withCall bh ((Perm.append_left _ hh).mem_iff.mpr hm)
    placed := fun bh hm => hb.placed bh ((Perm.append_left _ hh).mem_iff.mpr hm)
    ledger := ((Perm.append_left _ ho).append_right _).symm.trans hb.ledger }

/-- Which order the items on the shards are listed in does not matter. -/
theorem Books.out_perm (hb : Books w taken out held owing flight) (hp : out.Perm out') :
    Books w taken out' held owing flight :=
  { hb with
    apart := ((Perm.append_left _ (hp.map _)).append_right _).nodup_iff.mp hb.apart
    onShard := fun h hm => hb.onShard h (hp.mem_iff.mpr hm)
    shards := fun i s hs =>
      ⟨(hb.shards i s hs).maps.perm (rows_perm hp i),
        (hb.shards i s hs).load.trans (rows_perm hp i).length_eq, (hb.shards i s hs).room⟩
    range := fun h hm => hb.range h (hp.mem_iff.mpr hm)
    directory := hb.directory.perm ((Perm.append_left _ (hp.map _)).map _)
    placed := fun bh hm => hb.placed bh
      (((Perm.append_left _ (hp.map _)).append_right _).mem_iff.mpr hm)
    ledger := (((Perm.append_left _ (hp.map _)).append_right _).append_right _).symm.trans
      hb.ledger
    ehBelow := fun h hm => hb.ehBelow h (hp.mem_iff.mpr hm)
    reach := fun h hm => hb.reach h (hp.mem_iff.mpr hm) }

/-- The places of the items with the head of the queue first. -/
theorem places_pop (hp : w.b.q.a.Perm (e :: a)) (taken : List Handle) (out : List Hand)
    (held : List Handle) : (bhs w.b.q.a ++ taken ++ out.map Hand.bh ++ held).Perm
      (e.bh :: (bhs a ++ taken ++ out.map Hand.bh ++ held)) :=
  (((hp.map Entry.bh).append_right _).append_right _).append_right _

/-- The head of the queue is in no other place. -/
theorem Books.head_apart (hb : Books w taken out held owing flight) (hp : w.b.q.a.Perm (e :: a)) :
    e.bh ∉ bhs a ∧ e.bh ∉ taken ∧ e.bh ∉ out.map Hand.bh ∧ e.bh ∉ held := by
  have hno := (nodup_cons.mp ((places_pop hp taken out held).nodup_iff.mp hb.apart)).1
  simp only [mem_append, not_or] at hno
  exact ⟨hno.1.1.1, hno.1.1.2, hno.1.2, hno.2⟩

/-- What is live once the head of the queue is gone. -/
theorem live_pop (hp : w.b.q.a.Perm (e :: a)) :
    w.b.live.Perm ((if isQueued w.b.items e then [e] else []) ++ a.filter (isQueued w.b.items)) := by
  refine (hp.filter _).trans ?_
  rw [filter_cons]
  split_ifs with hq
  · rfl
  · rfl

/-- An item that is neither in the queue nor on a shard changes. -/
theorem Books.item (hb : Books w taken out held owing flight) (hq : bh ∉ bhs w.b.q.a)
    (hout : bh ∉ out.map Hand.bh) {x : Option Item} (hx : bh ∈ taken ++ held → x ≠ none) :
    Books { w with b := { w.b with items := update w.b.items bh x } } taken out held owing flight := by
  have hlive : w.b.q.a.filter (isQueued (update w.b.items bh x)) = w.b.live := filter_update x hq
  refine { hb with
    waiting := fun e he => ?_
    onShard := fun h hm => ?_
    withCall := fun y hy => ?_
    queued := hb.queued.trans (congrArg length hlive.symm)
    directory := by
      unfold Balance.live
      rw [hlive]
      exact hb.directory
    ledger := by
      unfold Balance.live
      rw [hlive]
      exact hb.ledger }
  · have hne : e.bh ≠ bh := fun heq => hq (heq ▸ List.mem_map_of_mem he)
    dsimp only
    rw [update_of_ne hne]
    exact hb.waiting e he
  · have hne : h.bh ≠ bh := fun heq => hout (heq ▸ List.mem_map_of_mem hm)
    dsimp only
    rw [update_of_ne hne]
    exact hb.onShard h hm
  · dsimp only
    by_cases hyb : y = bh
    · subst hyb
      rw [update_self]
      exact ne_none_iff_exists'.mp (hx hy)
    · rw [update_of_ne hyb]
      exact hb.withCall y hy

/-- A cancelled item leaves the queue. -/
theorem Books.skip (hb : Books w taken out held owing flight) (hp : w.b.q.a.Perm (e :: a))
    (ho : Ordered before a) (hit : w.b.items e.bh = some it) (hs : it.state = .cancelled) :
    Books (World.itemFree { w with b := { w.b with q := { w.b.q with a := a } } } e.bh) taken out held
      owing flight := by
  obtain ⟨hna, hnt, hno, hnh⟩ := hb.head_apart hp
  have hlive : w.b.live.Perm (a.filter (isQueued w.b.items)) := by
    have hpop := live_pop hp
    rwa [isQueued_false hit (by rw [hs]; decide)] at hpop
  have hplaces := places_pop hp taken out held
  have hpopped : Books { w with b := { w.b with q := { w.b.q with a := a } } } taken out held owing
      flight := { hb with
    ordered := ho
    apart := (nodup_cons.mp (hplaces.nodup_iff.mp hb.apart)).2
    waiting := fun e' he => hb.waiting e' (hp.mem_iff.mpr (mem_cons_of_mem _ he))
    queued := hb.queued.trans hlive.length_eq
    directory := hb.directory.perm ((((hlive.map Entry.bh).append_right _).append_right _).map _)
    ledger := ((((hlive.map Entry.bh).append_right _).append_right _).append_right _).append_right
      _ |>.symm.trans hb.ledger
    placed := fun bh hm => hb.placed bh (hplaces.mem_iff.mpr (mem_cons_of_mem _ hm)) }
  exact hpopped.item hna hno fun hm => absurd hm (by simp [hnt, hnh])

/-- The first live item leaves the queue. -/
theorem Books.take (hb : Books w [] out held owing flight) (hp : w.b.q.a.Perm (e :: a))
    (ho : Ordered before a) (hit : w.b.items e.bh = some it) (hs : it.state = .queued) :
    Books { w with b := { w.b with q := { w.b.q with a := a }, queued := w.b.queued - 1 } } [e.bh] out
      held owing flight := by
  have hlive : w.b.live.Perm (e :: a.filter (isQueued w.b.items)) := by
    have hpop := live_pop hp
    rwa [isQueued_iff.mpr ⟨it, hit, hs⟩] at hpop
  have hbhs : (bhs w.b.live ++ []).Perm (bhs (a.filter (isQueued w.b.items)) ++ [e.bh]) := by
    rw [append_nil]
    exact (hlive.map Entry.bh).trans (perm_append_singleton _ _).symm
  have hap : (bhs w.b.q.a ++ []).Perm (bhs a ++ [e.bh]) := by
    rw [append_nil]
    exact (hp.map Entry.bh).trans (perm_append_singleton _ _).symm
  have hplaces := (hap.append_right (out.map Hand.bh)).append_right held
  refine { hb with
    ordered := ho
    apart := hplaces.nodup_iff.mp hb.apart
    waiting := fun e' he => hb.waiting e' (hp.mem_iff.mpr (mem_cons_of_mem _ he))
    withCall := fun bh hm => ?_
    queued := ?_
    directory := hb.directory.perm ((hbhs.append_right _).map _)
    ledger := (((hbhs.append_right _).append_right _).append_right _).symm.trans hb.ledger
    placed := fun bh hm => hb.placed bh (hplaces.mem_iff.mpr hm) }
  · rcases mem_cons.mp hm with rfl | hm
    · exact ⟨it, hit⟩
    · exact hb.withCall bh hm
  · show w.b.queued - 1 = (a.filter (isQueued w.b.items)).length
    rw [hb.queued, hlive.length_eq, length_cons, Nat.add_sub_cancel]

variable (hb : Books w taken out held owing flight)

include hb

/-- The engines gave more handles and owe more events. -/
theorem Books.engines {eng : ℕ → Engine} (hlast : ∀ i, (w.eng i).last ≤ (eng i).last)
    (hlive : ∀ i, ∀ x ∈ (w.eng i).live, x ∈ (eng i).live) :
    Books { w with eng := eng } taken out held owing flight :=
  { hb with
    ehBelow := fun h hm => le_trans (hb.ehBelow h hm) (hlast h.shard)
    reach := fun h hm => (hb.reach h hm).imp_left (hlive h.shard h.eh) }

/-- An act that is neither an item's first nor its last is noted. -/
theorem Books.note {x : Act} (hacc : acceptedOf x = none) (hend : endOf x = none)
    (hbest : ∀ b e i, x = .handed b e i → Best b e i) :
    Books { w with trace := w.trace ++ [x] } taken out held owing flight := by
  have hacc' : accepted (w.trace ++ [x]) = accepted w.trace := by
    unfold accepted
    rw [filterMap_append, filterMap_cons_none hacc, filterMap_nil, append_nil]
  have hend' : ended (w.trace ++ [x]) = ended w.trace := by
    unfold ended
    rw [filterMap_append, filterMap_cons_none hend, filterMap_nil, append_nil]
  refine { hb with
    ledger := by rw [hacc', hend']; exact hb.ledger
    once := by rw [hacc']; exact hb.once
    below := by rw [hacc']; exact hb.below
    best := fun b e i hm => ?_ }
  rcases mem_append.mp hm with hm | hm
  · exact hb.best b e i hm
  · exact hbest b e i (mem_singleton.mp hm).symm

theorem Books.call (i : ℕ) : Books (w.call i) taken out held owing flight :=
  hb.note rfl rfl fun _ _ _ h => nomatch h

/-- An event that is not the last of its item is heard. -/
theorem Books.tell {k : EvKind} {st : Status} (hk : lastEvent k st = false) (bh : Handle) :
    Books (w.emitAs bh k st) taken out held owing flight :=
  hb.note rfl (by rw [endOf, hk]; rfl) fun _ _ _ h => nomatch h

omit hb

/-- The last event of an item is heard. -/
theorem Books.emit (hb : Books w taken out held (bh :: owing) flight) {k : EvKind} {st : Status}
    (hk : lastEvent k st = true) : Books (w.emitAs bh k st) taken out held owing flight := by
  have hacc : accepted (w.emitAs bh k st).trace = accepted w.trace := by
    show accepted (w.trace ++ [_]) = _
    unfold accepted
    rw [filterMap_append, filterMap_cons_none rfl, filterMap_nil, append_nil]
  have hend : ended (w.emitAs bh k st).trace = ended w.trace ++ [bh] := by
    show ended (w.trace ++ [_]) = _
    unfold ended
    rw [filterMap_append, filterMap_cons_some (by rw [endOf, if_pos hk]), filterMap_nil]
  refine { hb with
    ledger := ?_
    once := by rw [hacc]; exact hb.once
    below := by rw [hacc]; exact hb.below
    best := fun b e i hm => ?_ }
  · rw [hacc, hend]
    refine Perm.trans ?_ hb.ledger
    simp only [append_assoc]
    refine ((((Perm.append_left _ ?_).append_left _).append_left _))
    show (owing ++ (ended w.trace ++ [bh])).Perm (bh :: (owing ++ ended w.trace))
    rw [← append_assoc]
    exact perm_append_singleton _ _
  · rcases mem_append.mp hm with hm | hm
    · exact hb.best b e i hm
    · cases mem_singleton.mp hm

/-- The item of a call is in no other place. -/
theorem Books.held_apart (hb : Books w taken out (bh :: held) owing flight) :
    bh ∉ bhs w.b.q.a ∧ bh ∉ out.map Hand.bh ∧ bh ∉ taken ++ held ∧
      (bhs w.b.q.a ++ taken ++ out.map Hand.bh ++ held).Nodup := by
  obtain ⟨hno, hrest⟩ := nodup_cons.mp (perm_middle.nodup_iff.mp hb.apart)
  simp only [mem_append, not_or] at hno ⊢
  exact ⟨hno.1.1.1, hno.1.2, ⟨hno.1.1.2, hno.2⟩, hrest⟩

/-- A call frees its item. -/
theorem Books.free (hb : Books w taken out (bh :: held) owing flight) :
    Books (w.itemFree bh) taken out held owing flight := by
  obtain ⟨hnq, hnout, hno, hrest⟩ := hb.held_apart
  have hlet : Books w taken out held owing flight := { hb with
    apart := hrest
    withCall := fun x hx => hb.withCall x
      (mem_append.mpr ((mem_append.mp hx).imp_right (mem_cons_of_mem _)))
    placed := fun x hx => hb.placed x (perm_middle.mem_iff.mpr (mem_cons_of_mem _ hx)) }
  exact hlet.item hnq hnout fun hm => absurd hm hno

/-- An item with a call may change as long as it is allocated. -/
theorem Books.touch (hb : Books w taken out (bh :: held) owing flight) (it : Item) :
    Books { w with b := { w.b with items := update w.b.items bh (some it) } } taken out (bh :: held)
      owing flight :=
  hb.item hb.held_apart.1 hb.held_apart.2.1 fun _ => nofun

/-- The directory forgets an item that a call will end. -/
theorem Books.unlist (hb : Books w (bh :: taken) out held owing flight) :
    ∃ m, del w.b.byBh bh = some m ∧
      Books { w with b := { w.b with byBh := m } } taken out (bh :: held) (bh :: owing) flight := by
  have hdir : ((bhs w.b.live ++ bh :: taken ++ out.map Hand.bh).map fun x => (x, x)).Perm
      ((bh, bh) :: (bhs w.b.live ++ taken ++ out.map Hand.bh).map fun x => (x, x)) := by
    rw [append_assoc, append_assoc]
    exact perm_middle.map _
  have hplaces : (bhs w.b.q.a ++ bh :: taken ++ out.map Hand.bh ++ held).Perm
      (bhs w.b.q.a ++ taken ++ out.map Hand.bh ++ bh :: held) := by
    refine Perm.trans ?_ perm_middle.symm
    simp only [append_assoc]
    exact perm_middle
  obtain ⟨m, hm, hmaps⟩ := (hb.directory.perm hdir).del
  refine ⟨m, hm, { hb with
    apart := hplaces.nodup_iff.mp hb.apart
    withCall := fun x hx => hb.withCall x (perm_middle.mem_iff.mp hx)
    directory := hmaps
    ledger := ?_
    placed := fun x hx => hb.placed x (hplaces.mem_iff.mpr hx) }⟩
  refine Perm.trans ?_ hb.ledger
  simp only [append_assoc]
  refine Perm.append_left _ ?_
  rw [← append_assoc taken]
  refine perm_middle.trans ?_
  rw [append_assoc]
  rfl

/-- More events may be on their way. -/
theorem Books.flight_mono (hb : Books w taken out held owing flight) {flight' : List (ℕ × Handle)}
    (hsub : ∀ x ∈ flight, x ∈ flight') : Books w taken out held owing flight' :=
  { hb with reach := fun h hm => (hb.reach h hm).imp_right (hsub _) }

/-- An engine delivers the last event of a handle. -/
theorem Books.depart (hb : Books w taken out held owing flight) (i : ℕ) (eh : Handle) :
    Books { w with eng := update w.eng i ((w.eng i).ended eh) } taken out held owing
      ((i, eh) :: flight) := by
  refine { hb with ehBelow := fun h hm => ?_, reach := fun h hm => ?_ }
  · have hle := hb.ehBelow h hm
    by_cases hi : h.shard = i
    · subst hi
      dsimp only
      rwa [update_self]
    · dsimp only
      rwa [update_of_ne hi]
  · rcases hb.reach h hm with hlive | hfl
    · by_cases hi : h.shard = i
      · subst hi
        by_cases heh : h.eh = eh
        · subst heh
          exact .inr mem_cons_self
        · refine .inl ?_
          dsimp only
          rw [update_self]
          exact mem_filter.mpr ⟨hlive, decide_eq_true heh⟩
      · refine .inl ?_
        dsimp only
        rwa [update_of_ne hi]
    · exact .inr (mem_cons_of_mem _ hfl)

/-- The event of an item the shard does not hold for the router arrives. -/
theorem Books.land (hb : Books w taken out held owing ((i, eh) :: flight))
    (hno : ∀ h ∈ out, (h.shard, h.eh) ≠ (i, eh)) : Books w taken out held owing flight :=
  { hb with
    reach := fun h hm => (hb.reach h hm).imp_right fun hfl =>
      (mem_cons.mp hfl).resolve_left (hno h hm) }

/-- The shards after one of them changed. -/
theorem shards_set {s s' : Shard} {out : List Hand} (hs : b.sh[i]? = some s)
    (hold : ∀ j t, b.sh[j]? = some t → ShardBook t (rows j out)) (hnew : ShardBook s' (rows i out'))
    (hother : ∀ j, j ≠ i → rows j out' = rows j out) :
    ∀ j t, (b.sh.set i s')[j]? = some t → ShardBook t (rows j out') := by
  intro j t ht
  have hlt := (List.getElem?_eq_some_iff.mp hs).1
  rw [get_set hlt] at ht
  by_cases hij : i = j
  · subst hij
    rw [if_pos rfl] at ht
    cases ht
    exact hnew
  · rw [if_neg hij] at ht
    rw [hother j (Ne.symm hij)]
    exact hold j t ht

/-- An item leaves its shard. -/
theorem Books.untrack (hb : Books w [] (h :: out) held owing flight)
    (hs : w.b.sh[h.shard]? = some s) :
    ∃ m, del s.byEh h.eh = some m ∧
      Books { w with b := { w.b with
        sh := w.b.sh.set h.shard { s with load := s.load - 1, byEh := m } } } [h.bh] out held owing
        flight := by
  have hbook := hb.shards _ s hs
  rw [rows_cons_self] at hbook
  obtain ⟨m, hm, hmaps⟩ := hbook.maps.del
  have hload := hbook.load
  rw [length_cons] at hload
  have hroom := hbook.room
  refine ⟨m, hm, { hb with
    apart := ?_
    onShard := fun h' hm' => hb.onShard h' (mem_cons_of_mem _ hm')
    withCall := fun x hx => ?_
    shards := shards_set hs hb.shards ⟨hmaps, by dsimp only; omega, by dsimp only; omega⟩
      fun j hj => (rows_cons_other (Ne.symm hj) out).symm
    range := fun h' hm' => by
      rw [length_set]
      exact hb.range h' (mem_cons_of_mem _ hm')
    directory := ?_
    ledger := ?_
    placed := fun x hx => hb.placed x ?_
    ehBelow := fun h' hm' => hb.ehBelow h' (mem_cons_of_mem _ hm')
    reach := fun h' hm' => hb.reach h' (mem_cons_of_mem _ hm') }⟩
  · have hap := hb.apart
    rwa [append_nil, map_cons, append_cons] at hap
  · rcases mem_cons.mp hx with rfl | hx
    · obtain ⟨it, hit, -⟩ := hb.onShard h mem_cons_self
      exact ⟨it, hit⟩
    · exact hb.withCall x hx
  · have hdir := hb.directory
    rwa [append_nil, map_cons, append_cons] at hdir
  · have hled := hb.ledger
    rwa [append_nil, map_cons, append_cons] at hled
  · rwa [append_nil, map_cons, append_cons]

/-- An item that left the queue is on a shard. -/
theorem Books.tracked (hb : Books w [bh] out held owing flight) (hs : w.b.sh[i]? = some s)
    (hroom : s.load < s.cap) (hm : Maps m ((eh, bh) :: rows i out)) (hlast : eh ≤ (w.eng i).last)
    (hlive : eh ∈ (w.eng i).live) (it : Item) :
    Books { w with b := track w.b bh it i s eh m } [] (⟨i, eh, bh⟩ :: out) held owing flight := by
  have hbook := hb.shards i s hs
  have hap := hb.apart
  rw [append_assoc, append_assoc, singleton_append] at hap
  have hno := (nodup_cons.mp (perm_middle.nodup_iff.mp hap)).1
  simp only [mem_append, not_or] at hno
  have hb' := hb.item hno.1 hno.2.1
    (x := some { it with state := .dispatched, shard := i, eh := eh, payload := [] }) fun _ => nofun
  refine { hb' with
    apart := ?_
    onShard := forall_mem_cons.mpr ⟨⟨_, update_self _ _ _, rfl, rfl, rfl⟩, hb'.onShard⟩
    withCall := fun x hx => hb'.withCall x (mem_append_right _ hx)
    shards := shards_set hs hb.shards ⟨?_, ?_, hroom⟩ fun j hj => rows_cons_other (Ne.symm hj) out
    range := ?_
    directory := ?_
    ledger := ?_
    placed := fun x hx => hb.placed x ?_
    ehBelow := forall_mem_cons.mpr ⟨hlast, hb.ehBelow⟩
    reach := forall_mem_cons.mpr ⟨.inl hlive, hb.reach⟩ }
  · rw [append_nil, map_cons, append_cons]
    exact hb'.apart
  · rw [rows_cons_self ⟨i, eh, bh⟩ out]
    exact hm
  · rw [rows_cons_self ⟨i, eh, bh⟩ out, length_cons, ← hbook.load]
  · rw [track, length_set]
    exact forall_mem_cons.mpr ⟨(List.getElem?_eq_some_iff.mp hs).1, hb.range⟩
  · rw [append_nil, map_cons, append_cons]
    exact hb'.directory
  · rw [append_nil, map_cons, append_cons]
    exact hb'.ledger
  · rwa [append_nil, map_cons, append_cons] at hx

end Moves

section HandOver

variable {it : Item} {bh : Handle} {s : Shard} {i : ℕ}

/-- The caps of the shards. -/
def caps (b : Balance) : List ℕ := b.sh.map Shard.cap

/-- The caps and the phases of the engines stay, and an engine that was freed does not change. -/
structure Steady (w w' : World) : Prop where
  /-- The caps. -/
  caps : caps w'.b = caps w.b
  /-- The phases. -/
  phases : ∀ i, (w'.eng i).phase = (w.eng i).phase
  /-- The engines that were freed. -/
  dead : ∀ i, (w.eng i).phase = .freed → w'.eng i = w.eng i

/-- What the engines notice of work that is handed over: a call goes to a shard with a cap, while
something waits. -/
structure Quiet (w w' : World) : Prop extends Steady w w' where
  /-- Nothing enters the queue. -/
  queued : w'.b.queued ≤ w.b.queued
  /-- The calls into the engines. -/
  calls : ∀ i x, Act.called i x ∈ w'.trace → Act.called i x ∈ w.trace ∨
    w.b.queued ≠ 0 ∧ (∃ n, (BalanceBooks.caps w.b)[i]? = some n ∧ 0 < n) ∧
      x = decide ((w.eng i).phase = .freed)

/-- Nothing happened that an engine notices. -/
theorem Quiet.of_eq {w w' : World} (hcaps : BalanceBooks.caps w'.b = BalanceBooks.caps w.b)
    (heng : w'.eng = w.eng) (hq : w'.b.queued ≤ w.b.queued)
    (hcalls : ∀ i x, Act.called i x ∈ w'.trace → Act.called i x ∈ w.trace) : Quiet w w' :=
  ⟨⟨hcaps, fun _ => by rw [heng], fun _ _ => by rw [heng]⟩, hq, fun i x h => .inl (hcalls i x h)⟩

theorem Quiet.refl (w : World) : Quiet w w := .of_eq rfl rfl le_rfl fun _ _ h => h

theorem Quiet.trans {w₁ w₂ w₃ : World} (h : Quiet w₁ w₂) (h' : Quiet w₂ w₃) : Quiet w₁ w₃ := by
  refine ⟨⟨h'.caps.trans h.caps, fun i => (h'.phases i).trans (h.phases i), fun i hi => ?_⟩,
    le_trans h'.queued h.queued, fun i x hx => ?_⟩
  · exact (h'.dead i (by rwa [h.phases])).trans (h.dead i hi)
  · rcases h'.calls i x hx with hx | ⟨hq, hc, hx⟩
    · exact h.calls i x hx
    · have hle := h.queued
      rw [h.caps] at hc
      rw [h.phases] at hx
      exact .inr ⟨by omega, hc, hx⟩

theorem caps_set {s : Shard} (hs : b.sh[i]? = some s) (s' : Shard) (hcap : s'.cap = s.cap) :
    (b.sh.set i s').map Shard.cap = caps b := by
  obtain ⟨hlt, hget⟩ := List.getElem?_eq_some_iff.mp hs
  rw [map_set, hcap, ← hget]
  have hlt' : i < (b.sh.map Shard.cap).length := by rwa [length_map]
  have hself := set_getElem_self hlt'
  rwa [getElem_map] at hself

/-- An engine gives a handle it never gave. -/
theorem last_lt_handle (g : Engine) (x : Answer) : g.last < g.handle x :=
  Nat.lt_succ_of_le (Nat.le_add_right _ _)

theorem answered_phase (g : Engine) (x : Answer) : (g.answered x).phase = g.phase := by
  unfold Engine.answered
  split_ifs
  · rfl
  · rfl

/-- Only an engine that runs takes work. -/
theorem answered_stopped {g : Engine} (hg : g.phase ≠ .running) (x : Answer) : g.answered x = g := by
  have hst : g.status x ≠ .ok := by
    unfold Engine.status
    rw [if_neg hg]
    split_ifs with hx
    · decide
    · exact hx
  unfold Engine.answered
  rw [if_neg hst]

/-- One engine is replaced by another in its phase. -/
theorem steady_update {w w' : World} {g : Engine} (hcaps : caps w'.b = caps w.b)
    (heng : w'.eng = update w.eng i g) (hphase : g.phase = (w.eng i).phase)
    (hdead : (w.eng i).phase = .freed → g = w.eng i) : Steady w w' := by
  refine ⟨hcaps, fun j => ?_, fun j hj => ?_⟩
  · rw [heng, update_apply]
    split_ifs with hji
    · rw [hphase, hji]
    · rfl
  · rw [heng, update_apply]
    split_ifs with hji
    · rw [hji]
      exact hdead (hji ▸ hj)
    · rfl

/-- An engine that answers. -/
theorem steady_answered {w w' : World} (x : Answer) (hcaps : caps w'.b = caps w.b)
    (heng : w'.eng = update w.eng i ((w.eng i).answered x)) : Steady w w' :=
  steady_update hcaps heng (answered_phase _ x)
    fun hdead => answered_stopped (by rw [hdead]; decide) x

/-- A submit to the engine of a shard with a cap. -/
theorem quiet_submit {w : World} (x : Answer) (hcaps : caps b = caps w.b) (hle : b.queued ≤ w.b.queued)
    (hq : w.b.queued ≠ 0) (hcap : ∃ n, (caps w.b)[i]? = some n ∧ 0 < n) :
    Quiet w { w.call i with b := b, eng := update w.eng i ((w.eng i).answered x) } := by
  refine ⟨steady_answered x hcaps rfl, hle, fun j y hy => ?_⟩
  rcases mem_append.mp hy with hy | hy
  · exact .inl hy
  · cases mem_singleton.mp hy
    exact .inr ⟨hq, hcap, rfl⟩

/-- The handle an engine gives is new to the shard's map. -/
theorem Books.handle_new (hb : Books w taken out held owing flight) (i : ℕ) (x : Answer) :
    (w.eng i).handle x ∉ (rows i out).map Prod.fst := by
  intro hmem
  obtain ⟨⟨eh, bh⟩, hrow, heq⟩ := List.mem_map.mp hmem
  have hle : eh ≤ (w.eng i).last := hb.ehBelow _ (mem_rows hrow)
  have hlt : (w.eng i).last < eh := by
    rw [show eh = (w.eng i).handle x from heq]
    exact last_lt_handle _ x
  exact Nat.not_le.mpr hlt hle

/-- The books once an engine answered. -/
theorem Books.answered (hb : Books w taken out held owing flight) (i : ℕ) (x : Answer) :
    Books { w with eng := update w.eng i ((w.eng i).answered x) } taken out held owing flight := by
  refine hb.engines (fun j => ?_) fun j y hy => ?_
  · by_cases hj : j = i
    · subst hj
      rw [update_self]
      unfold Engine.answered
      split_ifs
      · exact le_of_lt (last_lt_handle _ x)
      · exact le_rfl
    · exact le_of_eq (by rw [update_of_ne hj])
  · by_cases hj : j = i
    · subst hj
      rw [update_self]
      unfold Engine.answered
      split_ifs
      · exact mem_cons_of_mem _ hy
      · exact hy
    · rwa [update_of_ne hj]

/-- An item that was not handed over goes to the call. -/
theorem Books.strike (hb : Books w [bh] out held owing flight) (hs : w.b.sh[i]? = some s) (it : Item)
    (eh : Handle) (fail : Status) :
    ∃ b, Balancer.strike w.b bh it i s eh fail = some b ∧ b.sh = w.b.sh ∧ b.queued = w.b.queued ∧
      b.q = w.b.q ∧ Books { w with b := b } [] out (bh :: held) (bh :: owing) flight := by
  obtain ⟨m, hm, hb'⟩ := hb.unlist
  have hsame : w.b.sh.set i { s with load := s.load + 1 - 1 } = w.b.sh := by
    obtain ⟨hlt, hget⟩ := List.getElem?_eq_some_iff.mp hs
    subst hget
    exact set_getElem_self hlt
  have htouch := hb'.touch { it with state := .dispatched, shard := i, eh := eh, fail := fail }
  refine ⟨{ w.b with
    byBh := m
    items := update w.b.items bh
      (some { it with state := .dispatched, shard := i, eh := eh, fail := fail }) },
    ?_, rfl, rfl, rfl, htouch⟩
  rw [Balancer.strike, hm, map_some, hsame]

/-- An item that left the queue goes to a shard or to the call. -/
theorem Books.handOver
    (hb : Books { w with b := { w.b with queued := w.b.queued - 1 } } [bh] out held owing flight)
    (hq : w.b.queued ≠ 0) (hs : w.b.sh[i]? = some s) (hroom : s.load < s.cap) (it : Item) (x : Answer) :
    (∃ w' h, handOver w bh it i x = some (w', true) ∧ w'.b.q = w.b.q ∧ Quiet w w' ∧
      Books w' [] (h :: out) held owing flight) ∨
    ∃ w', handOver w bh it i x = some (w', false) ∧ w'.b.q = w.b.q ∧ Quiet w w' ∧
      Books w' [] out (bh :: held) (bh :: owing) flight := by
  have hnew := hb.handle_new i x
  have hcalled := (hb.call i).answered i x
  have hcap : ∃ n, (caps w.b)[i]? = some n ∧ 0 < n := by
    unfold caps
    rw [getElem?_map, hs]
    exact ⟨s.cap, rfl, lt_of_le_of_lt (Nat.zero_le _) hroom⟩
  unfold Balancer.handOver
  rw [hs, bind_some]
  -- the item is with the call again
  have hstruck : ∀ eh fail, ∃ b,
      Balancer.strike { w.b with queued := w.b.queued - 1 } bh it i s eh fail = some b ∧ b.q = w.b.q ∧
        Quiet w { w.call i with b := b, eng := update w.eng i ((w.eng i).answered x) } ∧
        Books { w.call i with b := b, eng := update w.eng i ((w.eng i).answered x) } [] out
          (bh :: held) (bh :: owing) flight := by
    intro eh fail
    obtain ⟨b, hstrike, hsh, hqueued, hqa, hbooks⟩ := hcalled.strike hs it eh fail
    have hcaps : caps b = caps w.b := congrArg (map Shard.cap) hsh
    exact ⟨b, hstrike, hqa, quiet_submit x hcaps (hqueued ▸ Nat.sub_le _ _) hq hcap, hbooks⟩
  by_cases hok : (w.eng i).status x = .ok
  · rw [if_pos hok]
    rcases (hb.shards i s hs).maps.put hnew bh x.memory with ⟨m, hput, hmaps⟩ | ⟨-, hput⟩
    · left
      refine ⟨{ w.call i with
        b := track { w.b with queued := w.b.queued - 1 } bh it i s ((w.eng i).handle x) m
        eng := update w.eng i ((w.eng i).answered x) }, ⟨i, (w.eng i).handle x, bh⟩, ?_, rfl, ?_, ?_⟩
      · rw [hput, bind_some]
        rfl
      · exact quiet_submit x (caps_set hs { s with load := s.load + 1, byEh := m } rfl)
          (Nat.sub_le _ _) hq hcap
      · refine hcalled.tracked hs hroom hmaps ?_ ?_ it
        · show (w.eng i).handle x ≤ (update w.eng i ((w.eng i).answered x) i).last
          exact le_of_eq (by rw [update_self, Engine.answered, if_pos hok])
        · show (w.eng i).handle x ∈ (update w.eng i ((w.eng i).answered x) i).live
          rw [update_self, Engine.answered, if_pos hok]
          exact mem_cons_self
    · right
      obtain ⟨b, hstrike, hqa, hquiet, hbooks⟩ := hstruck ((w.eng i).handle x) .nomem
      refine ⟨_, ?_, hqa, hquiet, hbooks⟩
      rw [hput, bind_some, if_neg Bool.false_ne_true, hstrike, map_some]
  · rw [if_neg hok]
    right
    obtain ⟨b, hstrike, hqa, hquiet, hbooks⟩ := hstruck 0 ((w.eng i).status x)
    refine ⟨_, ?_, hqa, hquiet, hbooks⟩
    rw [hstrike, map_some]

end HandOver

section Dispatch

variable {e : Entry} {a : List Entry} {fails : List Handle}

/-- Nothing waits that a shard has room for. -/
def Settled (b : Balance) : Prop := b.queued = 0 ∨ ∀ s ∈ b.sh, s.cap ≤ s.load

/-- Which item comes off the queue: one that was cancelled, or the first of the live ones. -/
theorem Books.pop (hb : Books w [] out held owing flight) (hq : w.b.queued ≠ 0) :
    ∃ e a it, ArrayHeap.pop before w.b.q.a = some (some (e, a)) ∧ w.b.q.a.Perm (e :: a) ∧
      Ordered before a ∧ w.b.items e.bh = some it ∧
      (it.state = .cancelled ∨
        it.state = .queued ∧ e ∈ w.b.live ∧ ∀ x ∈ w.b.live, before x e = false) := by
  rcases pop_some before_weak hb.ordered with ⟨hnil, -⟩ | ⟨e, a, hpop, ho, hp, hfirst⟩
  · have hlive : w.b.live = [] := by rw [Balance.live, hnil]; rfl
    exact absurd (hb.queued.trans (congrArg length hlive)) hq
  · have he : e ∈ w.b.q.a := hp.mem_iff.mpr mem_cons_self
    obtain ⟨it, hit, hst⟩ := hb.waiting e he
    refine ⟨e, a, it, hpop, hp, ho, hit, ?_⟩
    cases hs : it.state with
    | dispatched => exact absurd hs hst
    | cancelled => exact .inl rfl
    | queued =>
      exact .inr ⟨rfl, mem_live.mpr ⟨he, it, hit, hs⟩, fun x hx => hfirst x (mem_live.mp hx).1⟩

/-- What handing work over leaves: every item is on a shard or with the call, and nothing waits that
a shard has room for. -/
structure Dispatched (w w' : World) (held owing : List Handle) (flight : List (ℕ × Handle))
    (fails : List Handle) : Prop where
  /-- The books. -/
  books : ∃ out, Books w' [] out (fails ++ held) (fails ++ owing) flight
  /-- Nothing waits that a shard has room for. -/
  settled : Settled w'.b
  /-- What the engines notice. -/
  quiet : Quiet w w'

/-- The loop ends, since each pass takes an entry off the queue. -/
theorem Books.dispatchLocked (ask : Handle → Answer) {fuel : ℕ} (hf : w.b.q.a.length < fuel)
    (hb : Books w [] out (fails ++ held) (fails ++ owing) flight) :
    ∃ w' fails', Balancer.dispatchLocked ask fuel w fails = some (w', fails') ∧
      Dispatched w w' held owing flight fails' := by
  induction fuel generalizing w out fails with
  | zero => exact absurd hf (Nat.not_lt_zero _)
  | succ fuel ih =>
    unfold Balancer.dispatchLocked
    by_cases hq : w.b.queued = 0
    · rw [if_pos hq]
      exact ⟨w, fails, rfl, ⟨out, hb⟩, .inl hq, .refl w⟩
    · rw [if_neg hq]
      cases hbest : bestShard w.b.sh 0 none with
      | none => exact ⟨w, fails, rfl, ⟨out, hb⟩, .inr (bestShard_none hbest).2, .refl w⟩
      | some p =>
        obtain ⟨i, n⟩ := p
        obtain ⟨s, hs, hroom, hleast⟩ := bestShard_least hbest
        obtain ⟨e, a, it, hpop, hp, ho, hit, hstate⟩ := hb.pop hq
        have hlen : a.length < fuel := by
          have hl := hp.length_eq
          rw [length_cons] at hl
          omega
        rw [hpop]
        dsimp only
        rw [hit]
        dsimp only
        rcases hstate with hcan | ⟨hst, hlive, hfirst⟩
        · rw [if_pos hcan]
          obtain ⟨w', fails', hrun, hd⟩ := ih hlen (hb.skip hp ho hit hcan)
          have hquiet : Quiet w (World.itemFree { w with b := { w.b with q := ⟨a, w.b.q.cap⟩ } } e.bh) :=
            .of_eq rfl rfl le_rfl fun _ _ h => h
          exact ⟨w', fails', hrun, hd.books, hd.settled, hquiet.trans hd.quiet⟩
        · rw [if_neg (by rw [hst]; decide)]
          have htaken := (hb.take hp ho hit hst).note (x := .handed w.b e i) rfl rfl
            fun b e' j heq => by cases heq; exact ⟨hlive, hfirst, s, hs, hroom, hleast⟩
          have hquiet : Quiet w { w with
              b := { w.b with q := { w.b.q with a := a } }
              trace := w.trace ++ [.handed w.b e i] } := by
            refine .of_eq rfl rfl le_rfl fun j x hx => ?_
            rcases mem_append.mp hx with hx | hx
            · exact hx
            · cases mem_singleton.mp hx
          -- the item is on the shard, or with the call
          rcases htaken.handOver (w := { w with
              b := { w.b with q := { w.b.q with a := a } }
              trace := w.trace ++ [.handed w.b e i] }) hq hs hroom it (ask e.bh) with
            ⟨w₁, h, hover, hq₁, hquiet₁, hbooks⟩ | ⟨w₁, hover, hq₁, hquiet₁, hbooks⟩
          · rw [hover]
            obtain ⟨w', fails', hrun, hd⟩ := ih (w := w₁) (by rw [hq₁]; exact hlen) hbooks
            exact ⟨w', fails', hrun, hd.books, hd.settled, (hquiet.trans hquiet₁).trans hd.quiet⟩
          · rw [hover]
            have hbooks' : Books w₁ [] out ((e.bh :: fails) ++ held) ((e.bh :: fails) ++ owing) flight :=
              hbooks
            obtain ⟨w', fails', hrun, hd⟩ := ih (w := w₁) (by rw [hq₁]; exact hlen) hbooks'
            exact ⟨w', fails', hrun, hd.books, hd.settled, (hquiet.trans hquiet₁).trans hd.quiet⟩

theorem Books.dispatch (hb : Books w [] out held owing flight) (ask : Handle → Answer) :
    ∃ w' fails, Balancer.dispatch w ask = some (w', fails) ∧ Dispatched w w' held owing flight fails :=
  Books.dispatchLocked ask (Nat.lt_succ_self _) (show Books w [] out ([] ++ held) ([] ++ owing) flight
    from hb)

end Dispatch

section Calls

variable {i : ℕ} {eh bh : Handle} {s : Shard} {k : EvKind} {st : Status}

/-- An event of work the router does not know of. -/
theorem Books.observe_unknown (hb : Books w [] out held owing flight) (hs : w.b.sh[i]? = some s)
    (hno : eh ∉ (rows i out).map Prod.fst) (k : EvKind) (st : Status) (ask : Handle → Answer) :
    observe w i eh k st ask = some (w, none) := by
  unfold observe
  rw [hs, bind_some, (hb.shards i s hs).maps.get_absent hno, bind_some]

/-- An event that is not the last of an item of the router. -/
theorem Books.observe_known (hb : Books w [] out held owing flight) (hs : w.b.sh[i]? = some s)
    (hm : (eh, bh) ∈ rows i out) (hk : lastEvent k st = false) (ask : Handle → Answer) :
    observe w i eh k st ask = some (w, some (bh, [])) := by
  obtain ⟨it, hit, -⟩ := hb.onShard _ (mem_rows hm)
  have hit' : w.b.items bh = some it := hit
  unfold observe
  rw [hs, bind_some, (hb.shards i s hs).maps.get_held hm, bind_some]
  dsimp only
  rw [hit', bind_some, if_neg (by rw [hk]; decide)]

/-- The last event of an item of the router: it is with the call, and what now has room is handed
over. -/
theorem Books.observe_last (hb : Books w [] out held owing ((i, eh) :: flight))
    (hs : w.b.sh[i]? = some s) (hm : (eh, bh) ∈ rows i out) (hk : lastEvent k st = true)
    (ask : Handle → Answer) :
    ∃ w' fails, observe w i eh k st ask = some (w', some (bh, fails)) ∧
      (∃ out', Books w' [] out' (fails ++ bh :: held) (fails ++ bh :: owing) flight) ∧ Settled w'.b ∧
      Quiet w w' := by
  obtain ⟨l₁, l₂, hl⟩ := append_of_mem (mem_rows hm)
  have hp : out.Perm (⟨i, eh, bh⟩ :: (l₁ ++ l₂)) := by
    rw [hl]
    exact perm_middle
  have hb' := hb.out_perm hp
  obtain ⟨it, hit, -⟩ := hb.onShard _ (mem_rows hm)
  have hit' : w.b.items bh = some it := hit
  obtain ⟨m, hdel, huntrack⟩ := hb'.untrack hs
  -- the map of the shard knows no other item by this handle
  have hkeys := (hb'.shards i s hs).maps.keys
  rw [rows_cons_self ⟨i, eh, bh⟩, map_cons, nodup_cons] at hkeys
  have hother : ∀ h ∈ l₁ ++ l₂, (h.shard, h.eh) ≠ (i, eh) := by
    intro h hmem heq
    obtain ⟨hshard, heh⟩ := Prod.mk.inj heq
    have hrow := mem_rows_of hmem
    rw [hshard, heh] at hrow
    exact hkeys.1 (List.mem_map.mpr ⟨_, hrow, rfl⟩)
  obtain ⟨m', hdel', hunlist⟩ := (huntrack.land hother).unlist
  obtain ⟨w', fails, hrun, hd⟩ := hunlist.dispatch ask
  have hdel₁ : del s.byEh eh = some m := hdel
  have hdel₂ : del w.b.byBh bh = some m' := hdel'
  refine ⟨w', fails, ?_, hd.books, hd.settled, Quiet.trans ?_ hd.quiet⟩
  · unfold observe
    rw [hs, bind_some, (hb.shards i s hs).maps.get_held hm, bind_some]
    dsimp only
    rw [hit', bind_some, if_pos hk, hdel₁, bind_some, hdel₂, bind_some]
    have hrun' : Balancer.dispatch { w with b := { w.b with
        sh := w.b.sh.set i { s with load := s.load - 1, byEh := m }
        byBh := m' } } ask = some (w', fails) := hrun
    rw [hrun', map_some]
  · exact .of_eq (caps_set hs { s with load := s.load - 1, byEh := m } rfl) rfl le_rfl
      fun _ _ h => h

/-- Adding an entry ends, and there was memory for it or nothing changed. -/
theorem heapPush_some {h : Heap} (ho : Ordered before h.a) (e : Entry) (alloc : Bool) :
    (∃ h', heapPush h e alloc = some (h', true) ∧ Ordered before h'.a ∧ h'.a.Perm (e :: h.a)) ∨
      heapPush h e alloc = some (h, false) := by
  obtain ⟨l, hl, hord, hperm⟩ := push_some before_weak ho e
  unfold heapPush
  rw [hl, map_some, map_some]
  by_cases hfull : h.a.length = h.cap
  · rw [if_pos hfull]
    cases alloc with
    | true => exact .inl ⟨_, rfl, hord, hperm⟩
    | false => exact .inr rfl
  · rw [if_neg hfull]
    exact .inl ⟨_, rfl, hord, hperm⟩

variable (hb : Books w [] out held owing flight)

include hb

/-- Every item in a place is older than the next handle. -/
theorem Books.next_new :
    w.b.nextBh + 1 ∉ bhs w.b.q.a ++ out.map Hand.bh ++ held ∧
      w.b.nextBh + 1 ∉ accepted w.trace := by
  refine ⟨fun hmem => ?_, fun hmem => ?_⟩
  · have hle := hb.placed (w.b.nextBh + 1) (by rwa [append_nil])
    exact absurd hle (Nat.not_succ_le_self _)
  · exact absurd (hb.below _ hmem) (Nat.not_succ_le_self _)

/-- A handle that no item has is not in the directory. -/
theorem Books.next_unlisted :
    w.b.nextBh + 1 ∉ ((bhs w.b.live ++ [] ++ out.map Hand.bh).map fun x => (x, x)).map Prod.fst := by
  intro hmem
  rw [List.map_map, append_nil] at hmem
  obtain ⟨x, hx, heq⟩ := List.mem_map.mp hmem
  have heq' : x = w.b.nextBh + 1 := heq
  subst heq'
  refine hb.next_new.1 (mem_append_left _ ?_)
  rcases mem_append.mp hx with hx | hx
  · obtain ⟨e, he, hbh⟩ := List.mem_map.mp hx
    exact mem_append_left _ (List.mem_map.mpr ⟨e, (mem_live.mp he).1, hbh⟩)
  · exact mem_append_right _ hx

/-- An item enters the queue. -/
theorem Books.entered {q : Heap} {m : Map Handle} {e : Entry} (he : e.bh = w.b.nextBh + 1)
    (ho : Ordered before q.a) (hp : q.a.Perm (e :: w.b.q.a))
    (hm : Maps m ((e.bh, e.bh) :: ((bhs w.b.live ++ [] ++ out.map Hand.bh).map fun x => (x, x))))
    {it : Item} (hit : it.state = .queued) (n : ℕ) :
    Books { w with
      b := { w.b with
        nextBh := w.b.nextBh + 1
        nextSeq := n
        q := q
        queued := w.b.queued + 1
        byBh := m
        items := update w.b.items e.bh (some it) }
      trace := w.trace ++ [.accepted e.bh] } [] out held owing flight := by
  obtain ⟨hnew, hfresh⟩ := hb.next_new
  rw [← he] at hnew hfresh
  simp only [mem_append, not_or] at hnew
  obtain ⟨⟨hnq, hnout⟩, hnh⟩ := hnew
  have hlive : (q.a.filter (isQueued (update w.b.items e.bh (some it)))).Perm (e :: w.b.live) := by
    refine (hp.filter _).trans ?_
    rw [filter_cons_of_pos (isQueued_iff.mpr ⟨it, update_self _ _ _, hit⟩), filter_update _ hnq]
    rfl
  have hplaces : (bhs q.a ++ [] ++ out.map Hand.bh ++ held).Perm
      (e.bh :: (bhs w.b.q.a ++ [] ++ out.map Hand.bh ++ held)) :=
    (((hp.map Entry.bh).append_right _).append_right _).append_right _
  have hacc : accepted (w.trace ++ [.accepted e.bh]) = accepted w.trace ++ [e.bh] := by
    unfold accepted
    rw [filterMap_append]
    rfl
  have hend : ended (w.trace ++ [.accepted e.bh]) = ended w.trace := by
    unfold ended
    rw [filterMap_append, filterMap_cons_none rfl, filterMap_nil, append_nil]
  have hb' := hb.item hnq hnout (x := some it) fun _ => nofun
  refine { hb' with
    ordered := ho
    apart := hplaces.nodup_iff.mpr (nodup_cons.mpr ⟨?_, hb.apart⟩)
    waiting := fun e' he' => ?_
    queued := ?_
    directory := hm.perm ?_
    ledger := ?_
    once := ?_
    below := fun x hx => ?_
    placed := fun x hx => ?_
    best := fun b e' i hmem => ?_ }
  · simp only [mem_append, not_or, not_mem_nil, not_false_eq_true, and_true]
    exact ⟨⟨hnq, hnout⟩, hnh⟩
  · rcases mem_cons.mp (hp.mem_iff.mp he') with rfl | he'
    · exact ⟨it, update_self _ _ _, by rw [hit]; decide⟩
    · exact hb'.waiting e' he'
  · show w.b.queued + 1 = (q.a.filter (isQueued (update w.b.items e.bh (some it)))).length
    rw [hlive.length_eq, length_cons, hb.queued]
  · exact ((((hlive.map Entry.bh).append_right []).append_right (out.map Hand.bh)).symm.map
      fun x => (x, x))
  · show (bhs (q.a.filter (isQueued (update w.b.items e.bh (some it)))) ++ [] ++ out.map Hand.bh ++
      owing ++ ended (w.trace ++ [Act.accepted e.bh])).Perm (accepted (w.trace ++ [Act.accepted e.bh]))
    rw [hacc, hend]
    refine (((((hlive.map Entry.bh).append_right _).append_right _).append_right _).append_right
      _).trans ?_
    exact (hb.ledger.cons e.bh).trans (perm_append_singleton _ _).symm
  · rw [hacc]
    exact (perm_append_singleton _ _).nodup_iff.mpr (nodup_cons.mpr ⟨hfresh, hb.once⟩)
  · rw [hacc] at hx
    rcases mem_append.mp hx with hx | hx
    · exact Nat.le_succ_of_le (hb.below x hx)
    · exact le_of_eq ((mem_singleton.mp hx).trans he)
  · rcases mem_cons.mp (hplaces.mem_iff.mp hx) with rfl | hx
    · exact le_of_eq he
    · exact Nat.le_succ_of_le (hb.placed x hx)
  · rcases mem_append.mp hmem with hmem | hmem
    · exact hb.best b e' i hmem
    · cases mem_singleton.mp hmem

/-- A submit that found no memory only used a handle up. -/
theorem Books.skipped {m : Map Handle} (n : ℕ)
    (hm : Maps m ((bhs w.b.live ++ [] ++ out.map Hand.bh).map fun x => (x, x))) :
    Books { w with b := { w.b with nextBh := w.b.nextBh + 1, nextSeq := n, byBh := m } } [] out held
      owing flight :=
  { hb with
    directory := hm
    below := fun x hx => Nat.le_succ_of_le (hb.below x hx)
    placed := fun x hx => Nat.le_succ_of_le (hb.placed x hx) }

/-- A submit enters its item, or finds no memory and leaves nothing. -/
theorem Books.enqueue (task : Name) (payload : List UInt8) (prio : ℤ) (mapMemory heapMemory : Bool) :
    (∃ w' bh, enqueue w task payload prio mapMemory heapMemory = some (w', some bh) ∧
      w'.eng = w.eng ∧ w'.b.sh = w.b.sh ∧ (∀ i x, Act.called i x ∈ w'.trace → Act.called i x ∈ w.trace) ∧
      Books w' [] out held owing flight) ∨
    ∃ w', enqueue w task payload prio mapMemory heapMemory = some (w', none) ∧ w'.eng = w.eng ∧
      w'.b.sh = w.b.sh ∧ w'.b.queued = w.b.queued ∧ w'.trace = w.trace ∧
      Books w' [] out held owing flight := by
  have hnew := hb.next_unlisted
  unfold Balancer.enqueue
  dsimp only
  rcases hb.directory.put hnew (w.b.nextBh + 1) mapMemory with ⟨m, hput, hmaps⟩ | ⟨-, hput⟩
  · rw [hput, bind_some, if_pos rfl]
    rcases heapPush_some hb.ordered ⟨w.b.nextBh + 1, prio, w.b.nextSeq + 1⟩ heapMemory with
      ⟨q, hpush, ho, hp⟩ | hpush
    · left
      rw [hpush, bind_some, if_pos rfl]
      refine ⟨_, _, rfl, rfl, rfl, fun i x hx => ?_, hb.entered rfl ho hp hmaps rfl _⟩
      rcases mem_append.mp hx with hx | hx
      · exact hx
      · cases mem_singleton.mp hx
    · right
      obtain ⟨m', hdel, hmaps'⟩ := hmaps.del
      rw [hpush, bind_some, if_neg Bool.false_ne_true, hdel, map_some]
      exact ⟨_, rfl, rfl, rfl, rfl, rfl, hb.skipped _ hmaps'⟩
  · right
    rw [hput, bind_some, if_neg Bool.false_ne_true, hb.directory.del_absent hnew, map_some]
    exact ⟨_, rfl, rfl, rfl, rfl, rfl, hb.skipped _ hb.directory⟩

omit hb

/-- What is live once an item of the queue is cancelled. -/
theorem live_cancel {e : Entry} {it it' : Item} (hno : (bhs b.q.a).Nodup) (he : e ∈ b.q.a)
    (hit : b.items e.bh = some it) (hs : it.state = .queued) (hs' : it'.state ≠ .queued) :
    b.live.Perm (e :: b.q.a.filter (isQueued (update b.items e.bh (some it')))) := by
  obtain ⟨l₁, l₂, hl⟩ := append_of_mem he
  have hp : b.q.a.Perm (e :: (l₁ ++ l₂)) := by
    rw [hl]
    exact perm_middle
  have hrest : e.bh ∉ bhs (l₁ ++ l₂) := (nodup_cons.mp ((hp.map Entry.bh).nodup_iff.mp hno)).1
  have hgone : isQueued (update b.items e.bh (some it')) e = false :=
    isQueued_false (update_self _ _ _) hs'
  have hnew : (b.q.a.filter (isQueued (update b.items e.bh (some it')))).Perm
      ((l₁ ++ l₂).filter (isQueued b.items)) := by
    refine (hp.filter _).trans ?_
    rw [filter_cons_of_neg (by rw [hgone]; decide), filter_update _ hrest]
  refine ((hp.filter _).trans ?_).trans (hnew.symm.cons e)
  rw [filter_cons_of_pos (isQueued_iff.mpr ⟨it, hit, hs⟩)]

/-- A queued item is cancelled: it stays in the queue, and the call owes its last event. -/
theorem Books.cancelled (hb : Books w [] out held owing flight) {e : Entry} {it : Item}
    (he : e ∈ w.b.q.a) (hit : w.b.items e.bh = some it) (hs : it.state = .queued) :
    ∃ m, del w.b.byBh e.bh = some m ∧
      Books { w with b := { w.b with
        queued := w.b.queued - 1
        byBh := m
        items := update w.b.items e.bh (some { it with state := .cancelled, task := none }) } } [] out
        held (e.bh :: owing) flight := by
  have hap := hb.apart
  simp only [append_assoc] at hap
  obtain ⟨hnq, -, hdis⟩ := nodup_append.mp hap
  have hmem : e.bh ∈ bhs w.b.q.a := List.mem_map_of_mem he
  have hrest : ∀ x ∈ [] ++ (out.map Hand.bh ++ held), x ≠ e.bh :=
    fun x hx heq => hdis e.bh hmem x hx heq.symm
  have hlive : w.b.live.Perm (e :: w.b.q.a.filter (isQueued (update w.b.items e.bh
      (some { it with state := .cancelled, task := none })))) :=
    live_cancel hnq he hit hs nofun
  have hdir := hb.directory.perm
    (((((hlive.map Entry.bh).append_right []).append_right (out.map Hand.bh)).map fun x => (x, x)))
  obtain ⟨m, hdel, hmaps⟩ := hdir.del
  refine ⟨m, hdel, { hb with
    waiting := fun e' he' => ?_
    onShard := fun h hm => ?_
    withCall := fun x hx => ?_
    queued := ?_
    directory := hmaps
    ledger := ?_ }⟩
  · by_cases heq : e'.bh = e.bh
    · exact ⟨{ it with state := .cancelled, task := none },
        by dsimp only; rw [heq]; exact update_self _ _ _, nofun⟩
    · dsimp only
      rw [update_of_ne heq]
      exact hb.waiting e' he'
  · have hne := hrest h.bh (mem_append_right _ (mem_append_left _ (List.mem_map_of_mem hm)))
    dsimp only
    rw [update_of_ne hne]
    exact hb.onShard h hm
  · have hne := hrest x (mem_append_right _ (mem_append_right _ hx))
    dsimp only
    rw [update_of_ne hne]
    exact hb.withCall x hx
  · have hlen := hlive.length_eq
    rw [← hb.queued, length_cons] at hlen
    rw [hlen]
    rfl
  · refine Perm.trans ?_ hb.ledger
    refine Perm.trans ?_ (((((hlive.map Entry.bh).append_right []).append_right
      (out.map Hand.bh)).append_right owing).append_right (ended w.trace)).symm
    exact (perm_middle.append_right _)

/-- A cancel finds nothing, cancels an item of the queue or finds the item on a shard. -/
theorem Books.cancelLocked (hb : Books w [] out held owing flight) (h : Handle) :
    Balancer.cancelLocked w h = some (w, .nothing) ∨
    (∃ w', Balancer.cancelLocked w h = some (w', .waiting) ∧ w'.eng = w.eng ∧ w'.b.sh = w.b.sh ∧
      w'.b.queued = w.b.queued - 1 ∧ w'.trace = w.trace ∧ Books w' [] out held (h :: owing) flight) ∨
    ∃ i eh, Balancer.cancelLocked w h = some (w, .onShard i eh) ∧ ⟨i, eh, h⟩ ∈ out := by
  unfold Balancer.cancelLocked
  rcases hb.directory.get_some h with ⟨v, hmem, hget⟩ | ⟨-, hget⟩
  · right
    obtain ⟨x, hx, heq⟩ := List.mem_map.mp hmem
    cases heq
    rw [hget, bind_some]
    dsimp only
    rw [append_nil] at hx
    rcases mem_append.mp hx with hx | hx
    · left
      obtain ⟨e, he, rfl⟩ := List.mem_map.mp hx
      obtain ⟨hq, it, hit, hs⟩ := mem_live.mp he
      obtain ⟨m, hdel, hbooks⟩ := hb.cancelled hq hit hs
      rw [hit, bind_some, if_pos hs, hdel, map_some]
      exact ⟨_, rfl, rfl, rfl, rfl, rfl, hbooks⟩
    · right
      obtain ⟨hand, hout, rfl⟩ := List.mem_map.mp hx
      obtain ⟨it, hit, hs, hshard, heh⟩ := hb.onShard hand hout
      rw [hit, bind_some, if_neg (by rw [hs]; decide), hshard, heh]
      exact ⟨_, _, rfl, hout⟩
  · left
    rw [hget, bind_some]

/-- With nothing live in the queue a pass of the close frees a cancelled item or ends. -/
theorem Books.closePass (hb : Books w [] out held owing flight) (hq : w.b.queued = 0) :
    closePass w = some (w, false) ∨
      ∃ w', closePass w = some (w', true) ∧ w'.b.sh = w.b.sh ∧ w'.b.queued = 0 ∧ w'.trace = w.trace ∧
        w'.eng = w.eng ∧ w'.b.q.a.length < w.b.q.a.length ∧ Books w' [] out held owing flight := by
  have hnone : w.b.live = [] := eq_nil_of_length_eq_zero (hb.queued.symm.trans hq)
  unfold Balancer.closePass
  rcases pop_some before_weak hb.ordered with ⟨-, hpop⟩ | ⟨e, a, hpop, ho, hp, -⟩
  · left
    rw [hpop]
    rw [← hq]
  · right
    have he : e ∈ w.b.q.a := hp.mem_iff.mpr mem_cons_self
    obtain ⟨it, hit, hst⟩ := hb.waiting e he
    have hcan : it.state = .cancelled := by
      cases hs : it.state with
      | dispatched => exact absurd hs hst
      | cancelled => rfl
      | queued =>
        have hlive : e ∈ w.b.live := mem_live.mpr ⟨he, it, hit, hs⟩
        rw [hnone] at hlive
        cases hlive
    rw [hpop]
    dsimp only
    rw [hit, map_some, if_pos hcan]
    refine ⟨_, rfl, rfl, hq, rfl, rfl, ?_, hb.skip hp ho hit hcan⟩
    have hlen := hp.length_eq
    rw [length_cons] at hlen
    show a.length < _
    omega

end Calls

end Gptps.BalanceBooks
