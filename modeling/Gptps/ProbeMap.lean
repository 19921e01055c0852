import Gptps.ProbeTable

/-!
# Maps kept at three quarters of an open-addressed table

A map from nonzero 64-bit keys, stored by linear probing. It doubles before a new key would fill
more than three quarters of the slots, so that every probe ends at an empty one; a deletion closes
its gap. What the map holds is a list of entries with distinct keys.
-/

namespace Gptps.ProbeMap

open Function ProbeTable List

variable {V : Type*}

/-- The table and the number of its entries. -/
structure Map (V : Type*) where
  /-- The slots. -/
  tab : Table ℕ V
  /-- How many are in use. -/
  n : ℕ

/-- A map without a table. -/
def Map.empty : Map V := ⟨.empty, 0⟩

/-- What is stored under a key, `none` if the probe does not end. -/
def get (m : Map V) (k : ℕ) : Option (Option V) :=
  if m.tab.size = 0 then some none
  else (stopSlot scatter m.tab k).map fun i =>
    ((m.tab.slot i).filter fun e => e.1 = k).map Prod.snd

/-- Twice as many slots. -/
def grow (m : Map V) : Option (Map V) :=
  (rebuild scatter m.tab (if m.tab.size = 0 then 64 else m.tab.size * 2)).map fun t =>
    { m with tab := t }

/-- Room for one key more, if a larger table is to be had where one is needed. -/
def reserve (m : Map V) (alloc : Bool) : Option (Map V × Bool) :=
  if (m.n + 1) * 4 > m.tab.size * 3 then
    if alloc then (grow m).map fun m' => (m', true) else some (m, false)
  else some (m, true)

/-- Store a value in the slot where the probe for its key stops; a new key is counted. -/
def store (m : Map V) (k : ℕ) (v : V) : Option (Map V) :=
  (stopSlot scatter m.tab k).map fun i =>
    { tab := { m.tab with slot := update m.tab.slot i (some (k, v)) }
      n := if (m.tab.slot i).isSome then m.n else m.n + 1 }

/-- Store a value under a key; the second answer tells whether there was memory for it. -/
def put (m : Map V) (k : ℕ) (v : V) (alloc : Bool) : Option (Map V × Bool) :=
  (reserve m alloc).bind fun p =>
    if p.2 then (store p.1 k v).map fun m' => (m', true) else some p

/-- Delete a key. -/
def del (m : Map V) (k : ℕ) : Option (Map V) :=
  if m.tab.size = 0 then some m
  else (stopSlot scatter m.tab k).bind fun i =>
    if (m.tab.slot i).isSome then
      (ProbeTable.del scatter m.tab k).map fun t => { tab := t, n := m.n - 1 }
    else some m

/-- Change what is stored under a key. -/
def modify (m : Map V) (k : ℕ) (f : V → V) : Map V :=
  { m with tab := ProbeTable.modify scatter m.tab k f }

/-- The map holds the entries of `l`. -/
structure Maps (m : Map V) (l : List (ℕ × V)) : Prop where
  /-- The table stores them. -/
  keeps : Keeps scatter m.tab l
  /-- They are counted. -/
  count : m.n = l.length
  /-- At most three slots in four are in use. -/
  load : l.length * 4 ≤ m.tab.size * 3
  /-- A table has 64 slots at the least. -/
  wide : m.tab.size = 0 ∨ 64 ≤ m.tab.size

variable {m : Map V} {l l' : List (ℕ × V)} {k : ℕ} {v : V}

theorem maps_empty : Maps (Map.empty : Map V) [] :=
  ⟨holds_empty.keeps, rfl, Nat.zero_le _, .inl rfl⟩

/-- What a map holds does not depend on the order it is listed in. -/
theorem Maps.perm (h : Maps m l) (hp : l.Perm l') : Maps m l' :=
  ⟨h.keeps.perm hp, h.count.trans hp.length_eq, hp.length_eq ▸ h.load, h.wide⟩

theorem Maps.keys (h : Maps m l) : (l.map Prod.fst).Nodup := h.keeps.keys

/-- A key that is held answers its value. -/
theorem Maps.get_held (h : Maps m l) (hk : (k, v) ∈ l) : get m k = some (some v) := by
  have hn := h.keeps.size_pos hk
  obtain ⟨s, -, hstop, hslot⟩ := h.keeps.stopSlot_stored scatter_lt hk
  unfold get
  rw [if_neg (by omega), show stopSlot scatter m.tab k = some s from hstop, Option.map_some, hslot]
  simp

/-- No entry has a key that is not held. -/
theorem key_ne (hk : k ∉ l.map Prod.fst) : ∀ d ∈ l, d.1 ≠ k :=
  fun _ hd heq => hk (heq ▸ mem_map_of_mem hd)

variable (h : Maps m l)

include h

/-- A key that is not held answers nothing. -/
theorem Maps.get_absent (hk : k ∉ l.map Prod.fst) : get m k = some none := by
  unfold get
  split_ifs with hz
  · rfl
  · obtain ⟨s, -, hs, hnone, -⟩ :=
      h.keeps.stopSlot_free scatter_lt (Nat.pos_of_ne_zero hz) (key_ne hk)
    rw [hs, Option.map_some, hnone]
    rfl

/-- Every lookup ends, and what it answers is held. -/
theorem Maps.get_some (k : ℕ) :
    (∃ v, (k, v) ∈ l ∧ get m k = some (some v)) ∨ k ∉ l.map Prod.fst ∧ get m k = some none := by
  by_cases hk : k ∈ l.map Prod.fst
  · obtain ⟨⟨k', v⟩, hmem, rfl⟩ := mem_map.mp hk
    exact .inl ⟨v, hmem, h.get_held hmem⟩
  · exact .inr ⟨hk, h.get_absent hk⟩

/-- Growing ends and leaves room for one key more. -/
theorem Maps.grow :
    ∃ m', ProbeMap.grow m = some m' ∧ Maps m' l ∧ (l.length + 1) * 4 ≤ m'.tab.size * 3 := by
  have hload := h.load
  have hwide := h.wide
  obtain ⟨u, hu, hsize, hkeeps⟩ := h.keeps.rebuild scatter_lt
    (show l = [] ∨ l.length < if m.tab.size = 0 then 64 else m.tab.size * 2 by
      split_ifs with hz
      · exact .inl (h.keeps.bare hz)
      · exact .inr (by omega))
  have hgrow : ProbeMap.grow m = some { m with tab := u } := by
    unfold ProbeMap.grow
    rw [hu]
    rfl
  refine ⟨_, hgrow, ⟨hkeeps, h.count, ?_, ?_⟩, ?_⟩
  all_goals
    rw [hsize]
    split_ifs <;> omega

/-- Reserving ends; where it is refused nothing changed. -/
theorem Maps.reserve (alloc : Bool) :
    (∃ m', ProbeMap.reserve m alloc = some (m', true) ∧ Maps m' l ∧
      (l.length + 1) * 4 ≤ m'.tab.size * 3) ∨
    alloc = false ∧ ProbeMap.reserve m alloc = some (m, false) := by
  have hcount := h.count
  unfold ProbeMap.reserve
  split_ifs with hfull ha
  · obtain ⟨m', hm', hmaps, hroom⟩ := h.grow
    exact .inl ⟨m', by rw [hm']; rfl, hmaps, hroom⟩
  · exact .inr ⟨by simpa using ha, rfl⟩
  · exact .inl ⟨m, rfl, h, by omega⟩

/-- A new key is stored where there is room. -/
theorem Maps.store (hk : k ∉ l.map Prod.fst) (hroom : (l.length + 1) * 4 ≤ m.tab.size * 3) :
    ∃ m', ProbeMap.store m k v = some m' ∧ Maps m' ((k, v) :: l) := by
  have hwide := h.wide
  have hn : 0 < m.tab.size := by omega
  have hnew : ∀ d ∈ l, d.1 ≠ (k, v).1 := key_ne hk
  obtain ⟨s, -, hstop, hnone, hput⟩ := h.keeps.stopSlot_absent scatter_lt hn hnew
  obtain ⟨u, hu, hsize, hkeeps⟩ := h.keeps.put scatter_lt hnew (by omega)
  rw [hput] at hu
  obtain rfl := Option.some.inj hu
  have hstore : ProbeMap.store m k v =
      some ⟨{ m.tab with slot := update m.tab.slot s (some (k, v)) }, m.n + 1⟩ := by
    unfold ProbeMap.store
    rw [show stopSlot scatter m.tab k = some s from hstop, Option.map_some, hnone]
    rfl
  refine ⟨_, hstore, hkeeps, ?_, ?_, h.wide⟩
  · show m.n + 1 = _
    rw [h.count, length_cons]
  · exact hroom

/-- A new key is stored, or there was no memory and nothing changed. -/
theorem Maps.put (hk : k ∉ l.map Prod.fst) (v : V) (alloc : Bool) :
    (∃ m', ProbeMap.put m k v alloc = some (m', true) ∧ Maps m' ((k, v) :: l)) ∨
    alloc = false ∧ ProbeMap.put m k v alloc = some (m, false) := by
  unfold ProbeMap.put
  rcases h.reserve alloc with ⟨m', hm', hmaps, hroom⟩ | ⟨hno, hsame⟩
  · obtain ⟨m'', hm'', hmaps'⟩ := hmaps.store hk hroom (v := v)
    rw [hm', Option.bind_some, if_pos rfl, hm'']
    exact .inl ⟨m'', rfl, hmaps'⟩
  · rw [hsame, Option.bind_some, if_neg Bool.false_ne_true]
    exact .inr ⟨hno, rfl⟩

omit h

/-- A key that is held is deleted, and nothing else. -/
theorem Maps.del (h : Maps m ((k, v) :: l)) : ∃ m', ProbeMap.del m k = some m' ∧ Maps m' l := by
  have hn := h.keeps.size_pos mem_cons_self
  have hload := h.load
  rw [length_cons] at hload
  obtain ⟨s, -, hstop, hslot⟩ := h.keeps.stopSlot_stored scatter_lt mem_cons_self
  obtain ⟨u, hu, hsize, hkeeps⟩ := h.keeps.del scatter_lt
  have hdel : ProbeMap.del m k = some ⟨u, m.n - 1⟩ := by
    unfold ProbeMap.del
    rw [if_neg (by omega), show stopSlot scatter m.tab k = some s from hstop, Option.bind_some, hslot,
      show ProbeTable.del scatter m.tab k = some u from hu]
    rfl
  refine ⟨_, hdel, hkeeps, ?_, ?_, ?_⟩
  · show m.n - 1 = _
    rw [h.count, length_cons, Nat.add_sub_cancel]
  · show _ ≤ u.size * 3
    omega
  · show u.size = 0 ∨ 64 ≤ u.size
    rw [hsize]
    exact h.wide

/-- Deleting a key that is not held changes nothing. -/
theorem Maps.del_absent (h : Maps m l) (hk : k ∉ l.map Prod.fst) : ProbeMap.del m k = some m := by
  unfold ProbeMap.del
  split_ifs with hz
  · rfl
  · obtain ⟨s, -, hs, hnone, -⟩ :=
      h.keeps.stopSlot_free scatter_lt (Nat.pos_of_ne_zero hz) (key_ne hk)
    rw [hs, Option.bind_some, hnone]
    rfl

/-- Changing a value changes its entry alone. -/
theorem Maps.modify (h : Maps m ((k, v) :: l)) (f : V → V) :
    Maps (ProbeMap.modify m k f) ((k, f v) :: l) := by
  obtain ⟨hsize, hkeeps⟩ := h.keeps.modify scatter_lt f
  refine ⟨hkeeps, h.count, ?_, ?_⟩
  · show _ ≤ (ProbeTable.modify scatter m.tab k f).size * 3
    rw [hsize]
    exact h.load
  · show (ProbeTable.modify scatter m.tab k f).size = 0 ∨ 64 ≤ (ProbeTable.modify scatter m.tab k f).size
    rw [hsize]
    exact h.wide

end Gptps.ProbeMap
