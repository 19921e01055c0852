import Gptps.ProbeTable

/-!
# Linear probing with tombstones

An open-addressing table whose deletions leave a mark: a probe for a key runs over the mark,
and a new entry may take its place. The table counts its entries and its marks, so that a load
of at most a half leaves an empty slot for every probe to stop at. Growing stores the entries
in a fresh table without marks.
-/

namespace Gptps.TombstoneTable

open Function ProbeTable List

variable {K V : Type*}

/-- The content of a slot: `none` is empty, `some none` a deleted entry. -/
abbrev Slots (K V : Type*) := ℕ → Option (Option (K × V))

/-- A table of `size` slots with the counts it keeps. -/
structure Table (K V : Type*) where
  /-- The number of slots. -/
  size : ℕ
  /-- The content of each slot. -/
  slot : Slots K V
  /-- The slots in use. -/
  live : ℕ
  /-- The slots with a deleted entry. -/
  dead : ℕ

/-- A table without slots. -/
def Table.empty : Table K V := ⟨0, fun _ => none, 0, 0⟩

/-- The entries in use, by slot. -/
def used (t : Slots K V) : ℕ → Option (K × V) := fun j => (t j).join

/-- The deleted slots, by slot. -/
def grave (t : Slots K V) : ℕ → Option (ℕ × Unit) := fun j =>
  match t j with
  | some none => some (j, ())
  | _ => none

/-- Probe for a key from slot `j`; runs over deleted slots and stops at the first empty one. -/
def findFrom [DecidableEq K] (t : Slots K V) (n : ℕ) (k : K) : ℕ → ℕ → Option ℕ
  | 0, _ => none
  | fuel + 1, j =>
    match t j with
    | none => none
    | some none => findFrom t n k fuel (next n j)
    | some (some e) => if e.1 = k then some j else findFrom t n k fuel (next n j)

/-- The slots store exactly the entries of `l`. -/
structure Stores (home : K → ℕ) (n : ℕ) (t : Slots K V) (l : List (K × V)) : Prop where
  /-- No empty slot lies between an entry and its home. -/
  reach : ∀ s < n, ∀ e, t s = some (some e) → ∀ p < n,
    dist n (home e.1) p < dist n (home e.1) s → t p ≠ none
  /-- The slots in use hold the entries of `l`, each once. -/
  perm : (entries (used t) n).Perm l
  /-- No key is stored twice. -/
  keys : (l.map Prod.fst).Nodup

section Slots

variable {t : Slots K V} {home : K → ℕ} {n fuel j s : ℕ} {l : List (K × V)} {e : K × V}

theorem used_some : used t s = some e ↔ t s = some (some e) := by
  unfold used
  rcases t s with _ | _ | d <;> simp

theorem used_update (t : Slots K V) (s : ℕ) (c : Option (Option (K × V))) :
    used (update t s c) = update (used t) s c.join := by
  funext j
  by_cases hj : j = s
  · subst hj
    simp only [used, update_self]
  · simp only [used, update_of_ne hj]

theorem Stores.slot_unique (h : Stores home n t l) {r : ℕ} {d : K × V} (hs : s < n) (hr : r < n)
    (he : t s = some (some e)) (hd : t r = some (some d)) (hk : e.1 = d.1) : s = r :=
  ProbeTable.slot_unique ((h.perm.map Prod.fst).nodup_iff.mpr h.keys) hs hr (used_some.mpr he)
    (used_some.mpr hd) hk

theorem Stores.slot_of_mem (h : Stores home n t l) (he : e ∈ l) :
    ∃ s < n, t s = some (some e) := by
  obtain ⟨s, hs, hslot⟩ := mem_entries.mp (h.perm.mem_iff.mpr he)
  exact ⟨s, hs, used_some.mp hslot⟩

theorem Stores.mem_of_slot (h : Stores home n t l) (hs : s < n) (he : t s = some (some e)) :
    e ∈ l :=
  h.perm.mem_iff.mp (mem_entries.mpr ⟨s, hs, used_some.mpr he⟩)

/-- What a probe for a key answers is a slot in use for it. -/
theorem findFrom_sound [DecidableEq K] {k : K} (hj : j < n)
    (h : findFrom t n k fuel j = some s) : s < n ∧ ∃ e, t s = some (some e) ∧ e.1 = k := by
  induction fuel generalizing j with
  | zero => cases h
  | succ fuel ih =>
    unfold findFrom at h
    rcases he : t j with _ | _ | e
    · rw [he] at h
      cases h
    · rw [he] at h
      exact ih (next_lt hj) h
    · rw [he] at h
      dsimp only at h
      split_ifs at h with hk
      · cases h
        exact ⟨hj, e, he, hk⟩
      · exact ih (next_lt hj) h

/-- A full-round probe finds the slot of every stored key. -/
theorem findFrom_stored [DecidableEq K] (h : Stores home n t l) (hh : home e.1 < n) (hs : s < n)
    (he : t s = some (some e)) : findFrom t n e.1 n (home e.1) = some s := by
  refine probe_round hh hs (fun fuel => ?_) fun fuel p hp hlt => ?_
  · simp only [findFrom, he, if_true]
  · rcases hd : t p with _ | _ | d
    · exact absurd hd (h.reach s hs e he p hp hlt)
    · simp only [findFrom, hd]
    · have hne : d.1 ≠ e.1 := by
        intro hk
        rw [h.slot_unique hp hs hd he hk] at hlt
        exact lt_irrefl _ hlt
      simp only [findFrom, hd, if_neg hne]

/-- Taking the first slot not in use after the home stores one entry more. -/
theorem stores_fill (h : Stores home n t l) (hnew : ∀ d ∈ l, d.1 ≠ e.1) (hs : s < n)
    (hfree : used t s = none)
    (hpast : ∀ p < n, dist n (home e.1) p < dist n (home e.1) s → used t p ≠ none) :
    Stores home n (update t s (some (some e))) (e :: l) := by
  refine ⟨?_, ?_, ?_⟩
  · intro r hr d hd p hp hlt
    refine update_kept _ ?_
    by_cases hrs : r = s
    · rw [hrs, update_self] at hd
      obtain rfl := Option.some.inj (Option.some.inj hd)
      rw [hrs] at hlt
      intro hnone
      exact hpast p hp hlt (by unfold used; rw [hnone]; rfl)
    · rw [update_of_ne hrs] at hd
      exact h.reach r hr d hd p hp hlt
  · rw [used_update]
    exact (entries_fill hs hfree).trans (h.perm.cons e)
  · rw [map_cons, nodup_cons]
    refine ⟨fun hmem => ?_, h.keys⟩
    obtain ⟨d, hd, hde⟩ := mem_map.mp hmem
    exact hnew d hd hde

/-- Marking an entry as deleted removes it alone. -/
theorem stores_bury (h : Stores home n t (e :: l)) (hs : s < n) (he : t s = some (some e)) :
    Stores home n (update t s (some none)) l := by
  refine ⟨?_, ?_, (nodup_cons.mp h.keys).2⟩
  · intro r hr d hd p hp hlt
    have hrs : r ≠ s := by
      rintro rfl
      rw [update_self] at hd
      cases hd
    rw [update_of_ne hrs] at hd
    exact update_kept _ (h.reach r hr d hd p hp hlt)
  · rw [used_update]
    have hdrop := entries_drop hs (used_some.mpr he)
    exact (hdrop.symm.trans h.perm).cons_inv

end Slots

section Counts

variable {t : Slots K V} {n s : ℕ} {e : K × V}

theorem grave_update_used (t : Slots K V) (s : ℕ) (e : K × V) :
    grave (update t s (some (some e))) = update (grave t) s none := by
  funext j
  by_cases hj : j = s
  · subst hj
    simp only [grave, update_self]
  · simp only [grave, update_of_ne hj]

theorem grave_update_dead (t : Slots K V) (s : ℕ) :
    grave (update t s (some none)) = update (grave t) s (some (s, ())) := by
  funext j
  by_cases hj : j = s
  · subst hj
    simp only [grave, update_self]
  · simp only [grave, update_of_ne hj]

/-- The slots that are not empty. -/
def taken (t : Slots K V) : ℕ → Option (ℕ × Unit) := fun j => (t j).map fun _ => (j, ())

/-- A slot that is not empty is in use or deleted. -/
theorem length_taken (t : Slots K V) (n : ℕ) :
    (entries (taken t) n).length = (entries (used t) n).length + (entries (grave t) n).length := by
  unfold entries
  induction range n with
  | nil => rfl
  | cons j js ih =>
    rcases hj : t j with _ | _ | e
    · rw [filterMap_cons_none (by simp [taken, hj]),
        filterMap_cons_none (by simp [used, hj]),
        filterMap_cons_none (by simp [grave, hj]), ih]
    · rw [filterMap_cons_some (b := (j, ())) (by simp [taken, hj]),
        filterMap_cons_none (by simp [used, hj]),
        filterMap_cons_some (b := (j, ())) (by simp [grave, hj]), length_cons,
        length_cons, ih]
      omega
    · rw [filterMap_cons_some (b := (j, ())) (by simp [taken, hj]),
        filterMap_cons_some (b := e) (by simp [used, hj]),
        filterMap_cons_none (by simp [grave, hj]), length_cons, length_cons, ih]
      omega

/-- A table that is not full has an empty slot. -/
theorem exists_empty (h : (entries (used t) n).length + (entries (grave t) n).length < n) :
    ∃ s < n, t s = none := by
  obtain ⟨s, hs, hfree⟩ := ProbeTable.exists_free (length_taken t n ▸ h)
  exact ⟨s, hs, Option.map_eq_none_iff.mp hfree⟩

/-- Taking a slot not in use removes its mark if it had one. -/
theorem length_grave_fill (hs : s < n) (hfree : used t s = none) :
    (entries (grave (update t s (some (some e)))) n).length =
      (entries (grave t) n).length - (if (t s).isSome then 1 else 0) := by
  rw [grave_update_used]
  rcases hc : t s with _ | _ | d
  · have hnone : grave t s = none := by simp only [grave, hc]
    rw [← hnone, update_eq_self]
    rfl
  · have hgrave : grave t s = some (s, ()) := by simp only [grave, hc]
    rw [(entries_drop hs hgrave).length_eq]
    rfl
  · rw [used_some.mpr hc] at hfree
    cases hfree

/-- Marking a slot in use adds one mark. -/
theorem length_grave_bury (hs : s < n) (he : t s = some (some e)) :
    (entries (grave (update t s (some none))) n).length = (entries (grave t) n).length + 1 := by
  have hnone : grave t s = none := by simp only [grave, he]
  rw [grave_update_dead, (entries_fill hs hnone).length_eq, length_cons]

end Counts

section Operations

variable (home : ℕ → K → ℕ)

/-- The slot in use for a key, if there is one. -/
def findSlot [DecidableEq K] (t : Table K V) (k : K) : Option ℕ :=
  if t.size = 0 then none else findFrom t.slot t.size k t.size (home t.size k)

/-- The value stored under a key. -/
def lookup [DecidableEq K] (t : Table K V) (k : K) : Option V :=
  (findSlot home t k).bind fun s => (used t.slot s).map Prod.snd

/-- Store an entry in the first slot not in use at or after its home. -/
def put (t : Table K V) (e : K × V) : Option (Table K V) :=
  (freeFrom (used t.slot) t.size t.size (home t.size e.1)).map fun s =>
    { size := t.size
      slot := update t.slot s (some (some e))
      live := t.live + 1
      dead := t.dead - (if (t.slot s).isSome then 1 else 0) }

/-- Mark the entry of a key as deleted. -/
def del [DecidableEq K] (t : Table K V) (k : K) : Table K V :=
  match findSlot home t k with
  | none => t
  | some s =>
    { t with slot := update t.slot s (some none), live := t.live - 1, dead := t.dead + 1 }

/-- Store every entry, slot by slot, in a fresh table of another size. -/
def rehash (t : Table K V) (n : ℕ) : Option (Table K V) :=
  (entries (used t.slot) t.size).foldlM (put home) ⟨n, fun _ => none, 0, 0⟩

/-- A table stores exactly the entries of `l`, counts right and is at most half full. -/
structure Holds (t : Table K V) (l : List (K × V)) : Prop where
  /-- The slots in use are counted. -/
  live : t.live = l.length
  /-- The deleted slots are counted. -/
  dead : t.dead = (entries (grave t.slot) t.size).length
  /-- At most every other slot is not empty. -/
  half : (t.live + t.dead) * 2 ≤ t.size
  /-- The slots store the entries. -/
  stores : Stores (home t.size) t.size t.slot l

variable {home} {t : Table K V} {l : List (K × V)} {e : K × V} {k : K}

theorem entries_none (n : ℕ) : entries (fun _ => (none : Option (K × V))) n = [] :=
  filterMap_eq_nil_iff.mpr fun _ _ => rfl

/-- A fresh table of any size holds nothing. -/
theorem holds_fresh (n : ℕ) : Holds home (⟨n, fun _ => none, 0, 0⟩ : Table K V) [] := by
  have hgrave : grave (fun _ => none : Slots K V) = fun _ => none := rfl
  have hused : used (fun _ => none : Slots K V) = fun _ => none := rfl
  refine ⟨rfl, ?_, Nat.zero_le n, ⟨?_, ?_, nodup_nil⟩⟩
  · rw [hgrave, entries_none]
    rfl
  · intro s _ e he
    cases he
  · rw [hused, entries_none]

/-- What a table holds does not depend on the order it is listed in. -/
theorem Holds.perm {l' : List (K × V)} (h : Holds home t l) (hp : l.Perm l') : Holds home t l' :=
  ⟨h.live.trans hp.length_eq, h.dead, h.half, h.stores.reach, h.stores.perm.trans hp,
    (hp.map Prod.fst).nodup_iff.mp h.stores.keys⟩

/-- Every probe of a table with slots meets an empty one. -/
theorem Holds.exists_empty (h : Holds home t l) (hn : 0 < t.size) : ∃ s < t.size, t.slot s = none := by
  refine TombstoneTable.exists_empty ?_
  have hhalf := h.half
  rw [h.stores.perm.length_eq, ← h.live, ← h.dead]
  omega

variable (hhome : ∀ n k, 0 < n → home n k < n)

include hhome

/-- A stored key is found in a slot in use for its entry. -/
theorem findSlot_stored [DecidableEq K] (h : Holds home t l) (he : e ∈ l) :
    ∃ s < t.size, findSlot home t e.1 = some s ∧ t.slot s = some (some e) := by
  obtain ⟨s, hs, hslot⟩ := h.stores.slot_of_mem he
  have hn : 0 < t.size := lt_of_le_of_lt (Nat.zero_le s) hs
  refine ⟨s, hs, ?_, hslot⟩
  rw [findSlot, if_neg (Nat.ne_of_gt hn)]
  exact findFrom_stored h.stores (hhome _ _ hn) hs hslot

/-- A slot found for a key holds an entry of the key. -/
theorem findSlot_sound [DecidableEq K] {s : ℕ} (h : Holds home t l) (hs : findSlot home t k = some s) :
    ∃ e ∈ l, e.1 = k ∧ s < t.size ∧ t.slot s = some (some e) := by
  unfold findSlot at hs
  split_ifs at hs with hz
  obtain ⟨hlt, e, he, hk⟩ := findFrom_sound (hhome _ _ (Nat.pos_of_ne_zero hz)) hs
  exact ⟨e, h.stores.mem_of_slot hlt he, hk, hlt, he⟩

/-- Looking a key up answers exactly the values stored under it. -/
theorem lookup_iff [DecidableEq K] (h : Holds home t l) (k : K) (v : V) :
    lookup home t k = some v ↔ (k, v) ∈ l := by
  constructor
  · intro hl
    obtain ⟨s, hs, hv⟩ := Option.bind_eq_some_iff.mp hl
    obtain ⟨e, he, hek, -, hslot⟩ := findSlot_sound hhome h hs
    rw [used_some.mpr hslot, Option.map_some, Option.some.injEq] at hv
    rwa [← hek, ← hv]
  · intro hmem
    obtain ⟨s, -, hs, hslot⟩ := findSlot_stored hhome h hmem
    rw [lookup, hs, Option.bind_some, used_some.mpr hslot]
    rfl

/-- Storing a new key terminates while a slot is not in use. -/
theorem put_holds (h : Holds home t l) (hnew : ∀ d ∈ l, d.1 ≠ e.1)
    (hroom : (t.live + t.dead + 1) * 2 ≤ t.size) :
    ∃ u, put home t e = some u ∧ u.size = t.size ∧ u.live = t.live + 1 ∧ u.dead ≤ t.dead ∧
      Holds home u (e :: l) := by
  have hn : 0 < t.size := by omega
  have hlen : (entries (used t.slot) t.size).length = t.live := by
    rw [h.stores.perm.length_eq, h.live]
  obtain ⟨s, hs, hfind, hfree, hpast⟩ := freeFrom_first (hhome t.size e.1 hn)
    (ProbeTable.exists_free (t := used t.slot) (n := t.size) (by omega))
  have hput : put home t e = some ⟨t.size, update t.slot s (some (some e)), t.live + 1,
      t.dead - (if (t.slot s).isSome then 1 else 0)⟩ := by rw [put, hfind, Option.map_some]
  refine ⟨_, hput, rfl, rfl, Nat.sub_le .., ?_, ?_, ?_, ?_⟩
  · rw [h.live, length_cons]
  · rw [length_grave_fill hs hfree, h.dead]
  · dsimp only
    have hle : t.dead - (if (t.slot s).isSome = true then 1 else 0) ≤ t.dead := Nat.sub_le ..
    omega
  · exact stores_fill h.stores hnew hs hfree hpast

/-- Deleting a stored key removes exactly its entry. -/
theorem del_holds [DecidableEq K] (h : Holds home t (e :: l)) :
    Holds home (del home t e.1) l ∧ (del home t e.1).size = t.size ∧
      (del home t e.1).live + 1 = t.live ∧ (del home t e.1).dead = t.dead + 1 := by
  obtain ⟨s, hs, hfind, hslot⟩ := findSlot_stored hhome h mem_cons_self
  have hlive := h.live
  rw [length_cons] at hlive
  have hhalf := h.half
  have heq : del home t e.1 = ⟨t.size, update t.slot s (some none), t.live - 1, t.dead + 1⟩ := by
    rw [del, hfind]
  rw [heq]
  refine ⟨⟨?_, ?_, ?_, ?_⟩, rfl, ?_, rfl⟩
  · dsimp only
    omega
  · rw [length_grave_bury hs hslot, h.dead]
  · dsimp only
    omega
  · exact stores_bury h.stores hs hslot
  · dsimp only
    omega

/-- Growing to a size of at most half load terminates, keeps the entries and drops the marks. -/
theorem rehash_holds {n : ℕ} (h : Holds home t l) (hroom : l.length * 2 ≤ n) :
    ∃ u, rehash home t n = some u ∧ u.size = n ∧ u.dead = 0 ∧ Holds home u l := by
  have hperm := h.stores.perm
  have hkeys : ((entries (used t.slot) t.size).map Prod.fst).Nodup :=
    (hperm.map Prod.fst).nodup_iff.mpr h.stores.keys
  obtain ⟨u, hu, hsize, hdead, hholds⟩ := foldlM_stores (m := n / 2)
    (P := fun u l => u.size = n ∧ u.dead = 0 ∧ Holds home u l) (f := put home)
    (fun u l e hu hnew hlt => by
      obtain ⟨hsize, hdead, hholds⟩ := hu
      have hlive := hholds.live
      obtain ⟨w, hw, hwsize, -, hwdead, hwholds⟩ := put_holds hhome hholds hnew (by omega)
      exact ⟨w, hw, hwsize.trans hsize, by omega, hwholds⟩)
    (u := ⟨n, fun _ => none, 0, 0⟩) ⟨rfl, rfl, holds_fresh n⟩ hkeys (by rw [hperm.length_eq]; omega)
  exact ⟨u, hu, hsize, hdead, hholds.perm ((reverse_perm _).trans hperm)⟩

end Operations

end Gptps.TombstoneTable
