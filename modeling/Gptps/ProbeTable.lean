import Mathlib.Algebra.Ring.Nat
import Mathlib.Data.List.Induction
import Mathlib.Data.List.Nodup
import Mathlib.Data.List.Perm.Basic
import Mathlib.Data.Nat.Find
import Mathlib.Logic.Function.Basic
import Mathlib.Tactic.SplitIfs

/-!
# Linear probing with backward-shift deletion

An open-addressing table: an entry is stored in the first empty slot at or
after its home slot, counting round the table. Deletion leaves no tombstone.
It closes the gap by moving back every later entry of the probe run whose home
does not lie between the gap and itself. Every loop is written with the fuel
of one round of the table and answers `none` when it met no stopping slot, so
that termination is a statement and not a convention.
-/

namespace Gptps.ProbeTable

open Function List

variable {K V : Type*}

/-- A table of `size` slots, each empty or holding one entry. -/
structure Table (K V : Type*) where
  /-- The number of slots. -/
  size : ℕ
  /-- The content of each slot. -/
  slot : ℕ → Option (K × V)

/-- A table without slots. -/
def Table.empty : Table K V := ⟨0, fun _ => none⟩

/-- The slot probed after `j`. -/
def next (n j : ℕ) : ℕ := (j + 1) % n

/-- How many steps the probe takes from slot `a` to slot `b`. -/
def dist (n a b : ℕ) : ℕ := if a ≤ b then b - a else b + n - a

/-- Whether the home slot `k` lies outside the half-open round interval from
`i` (excluded) to `j` (included), so that an entry at `j` may move to `i`. -/
def movable (i j k : ℕ) : Bool :=
  if j > i then k ≤ i || k > j else k ≤ i && k > j

/-- Probe for a key from slot `j`; stops at the first empty slot. -/
def findFrom [DecidableEq K] (t : ℕ → Option (K × V)) (n : ℕ) (k : K) : ℕ → ℕ → Option ℕ
  | 0, _ => none
  | fuel + 1, j =>
    match t j with
    | none => none
    | some e => if e.1 = k then some j else findFrom t n k fuel (next n j)

/-- Probe for an empty slot from slot `j`. -/
def freeFrom (t : ℕ → Option (K × V)) (n : ℕ) : ℕ → ℕ → Option ℕ
  | 0, _ => none
  | fuel + 1, j =>
    match t j with
    | none => some j
    | some _ => freeFrom t n fuel (next n j)

/-- Probe for a key from slot `j`; stops at the slot that holds it or at the first empty one. -/
def stopFrom [DecidableEq K] (t : ℕ → Option (K × V)) (n : ℕ) (k : K) : ℕ → ℕ → Option ℕ
  | 0, _ => none
  | fuel + 1, j =>
    match t j with
    | none => some j
    | some e => if e.1 = k then some j else stopFrom t n k fuel (next n j)

/-- Close the gap at `i`, scanning from `j` to the end of the probe run. -/
def shiftFrom (home : K → ℕ) (n : ℕ) :
    ℕ → (ℕ → Option (K × V)) → ℕ → ℕ → Option (ℕ → Option (K × V))
  | 0, _, _, _ => none
  | fuel + 1, t, i, j =>
    match t j with
    | none => some (update t i none)
    | some e =>
      if movable i j (home e.1) then
        shiftFrom home n fuel (update t i (some e)) j (next n j)
      else
        shiftFrom home n fuel t i (next n j)

/-- The entries of the first `n` slots. -/
def entries (t : ℕ → Option (K × V)) (n : ℕ) : List (K × V) := (range n).filterMap t

/-- Every entry is reachable from its home slot without meeting an empty one. -/
def Reachable (home : K → ℕ) (n : ℕ) (t : ℕ → Option (K × V)) : Prop :=
  ∀ s < n, ∀ e, t s = some e → ∀ p < n, dist n (home e.1) p < dist n (home e.1) s → t p ≠ none

/-- A slot map of size `n` stores exactly the entries of `l`, with room to spare. -/
structure Stores (home : K → ℕ) (n : ℕ) (t : ℕ → Option (K × V)) (l : List (K × V)) : Prop where
  /-- No hole lies inside a probe run. -/
  reach : Reachable home n t
  /-- The slots hold the entries of `l`, each once. -/
  perm : (entries t n).Perm l
  /-- No key is stored twice. -/
  keys : (l.map Prod.fst).Nodup
  /-- At least one slot is empty. -/
  room : l.length < n

section Probes

variable {home : K → ℕ} {n a b c i j r s fuel : ℕ} {t : ℕ → Option (K × V)} {l : List (K × V)}
  {e d : K × V} {k : K} {probe : ℕ → ℕ → Option ℕ}

/-- The next slot, without the remainder. -/
theorem next_eq (hj : j < n) : next n j = if j + 1 = n then 0 else j + 1 := by
  unfold next
  split_ifs with h
  · rw [h, Nat.mod_self]
  · exact Nat.mod_eq_of_lt (by omega)

/-- Probing stays inside the table. -/
theorem next_lt (hj : j < n) : next n j < n := Nat.mod_lt _ (by omega)

/-- One probe step is one unit of distance unless it closes the round. -/
theorem dist_next (ha : a < n) (hj : j < n) :
    next n j = a ∧ dist n a j = n - 1 ∨ dist n a (next n j) = dist n a j + 1 := by
  rw [next_eq hj]
  unfold dist
  split_ifs <;> omega

/-- Distances on a round are less than its size. -/
theorem dist_lt (ha : a < n) (hb : b < n) : dist n a b < n := by
  unfold dist
  split_ifs <;> omega

/-- A slot is determined by its distance. -/
theorem dist_inj (ha : a < n) (hb : b < n) (hc : c < n) (h : dist n a b = dist n a c) : b = c := by
  unfold dist at h
  split_ifs at h <;> omega

/-- Every slot is at distance zero from itself. -/
theorem dist_self (n a : ℕ) : dist n a a = 0 := by
  unfold dist
  rw [if_pos (le_refl a), Nat.sub_self]

/-- Moving back is allowed exactly when the home is at the gap or past the entry. -/
theorem movable_iff {k : ℕ} (hi : i < n) (hj : j < n) (hk : k < n) (hij : i ≠ j) :
    movable i j k = true ↔ dist n i k = 0 ∨ dist n i j < dist n i k := by
  unfold movable dist
  by_cases h : j > i
  · simp only [if_pos h, Bool.or_eq_true, decide_eq_true_eq]
    split_ifs <;> omega
  · simp only [if_neg h, Bool.and_eq_true, decide_eq_true_eq]
    split_ifs <;> omega

/-- Filling an empty slot adds one entry. -/
theorem entries_fill (hj : j < n) (h : t j = none) :
    (entries (update t j (some e)) n).Perm (e :: entries t n) := by
  obtain ⟨l₁, l₂, hl⟩ := append_of_mem (mem_range.mpr hj)
  have hnd := nodup_range (n := n)
  rw [hl, nodup_append, nodup_cons] at hnd
  have h₁ : l₁.filterMap (update t j (some e)) = l₁.filterMap t := by
    refine filterMap_congr fun x hx => update_of_ne ?_ _ _
    exact hnd.2.2 x hx j mem_cons_self
  have h₂ : l₂.filterMap (update t j (some e)) = l₂.filterMap t := by
    refine filterMap_congr fun x hx => update_of_ne ?_ _ _
    exact fun he => hnd.2.1.1 (he ▸ hx)
  unfold entries
  rw [hl, filterMap_append, filterMap_append, h₁,
    filterMap_cons_some (update_self j (some e) t), h₂, filterMap_cons_none h]
  exact perm_middle

/-- Emptying a slot removes one entry. -/
theorem entries_drop (hj : j < n) (h : t j = some e) :
    (entries t n).Perm (e :: entries (update t j none) n) := by
  have hfill := entries_fill (t := update t j none) (e := e) hj (update_self j none t)
  rwa [update_idem, ← h, update_eq_self] at hfill

/-- An entry is one of the entries exactly when some slot holds it. -/
theorem mem_entries : e ∈ entries t n ↔ ∃ s < n, t s = some e := by
  simp only [entries, mem_filterMap, mem_range]

/-- A table that is not full has an empty slot. -/
theorem exists_free (h : (entries t n).length < n) : ∃ s < n, t s = none := by
  by_contra hcon
  push Not at hcon
  have hall : ∀ (l : List ℕ), (∀ s ∈ l, t s ≠ none) → (l.filterMap t).length = l.length := by
    intro l
    induction l with
    | nil => intro _; rfl
    | cons x xs ih =>
      intro hx
      obtain ⟨e, he⟩ := Option.ne_none_iff_exists'.mp (hx x mem_cons_self)
      rw [filterMap_cons_some he, length_cons, length_cons,
        ih fun s hs => hx s (mem_cons_of_mem _ hs)]
  have hfull := hall (range n) fun s hs => hcon s (mem_range.mp hs)
  rw [length_range] at hfull
  unfold entries at h
  omega

/-- Distinct keys sit in one slot each. -/
theorem slot_unique (hk : ((entries t n).map Prod.fst).Nodup) (hs : s < n) (hr : r < n)
    (he : t s = some e) (hd : t r = some d) (h : e.1 = d.1) : s = r := by
  by_contra hne
  have h₁ := (entries_drop hs he).map Prod.fst
  have hr' : update t s none r = some d := by rw [update_of_ne (Ne.symm hne), hd]
  have hmem : d ∈ entries (update t s none) n := mem_entries.mpr ⟨r, hr, hr'⟩
  have hnd := h₁.nodup_iff.mp hk
  rw [map_cons, nodup_cons] at hnd
  exact hnd.1 (h ▸ mem_map_of_mem hmem)

/-- Distances from one slot, read off the distances from another. -/
theorem dist_base (hb : b < n) (ha : a < n) (hc : c < n) :
    dist n a c =
      if dist n b a ≤ dist n b c then dist n b c - dist n b a
      else dist n b c + n - dist n b a := by
  unfold dist
  split_ifs <;> omega

/-- Stored entries with one key sit in one slot. -/
theorem Stores.slot_unique (h : Stores home n t l) (hs : s < n) (hr : r < n) (he : t s = some e)
    (hd : t r = some d) (hk : e.1 = d.1) : s = r :=
  ProbeTable.slot_unique ((h.perm.map Prod.fst).nodup_iff.mpr h.keys) hs hr he hd hk

/-- Some slot of a table with room is empty. -/
theorem Stores.exists_free (h : Stores home n t l) : ∃ s < n, t s = none := by
  refine ProbeTable.exists_free ?_
  rw [h.perm.length_eq]
  exact h.room

/-- What a probe for a key answers is a slot holding that key. -/
theorem findFrom_sound [DecidableEq K] (hj : j < n) (h : findFrom t n k fuel j = some s) :
    s < n ∧ ∃ e, t s = some e ∧ e.1 = k := by
  induction fuel generalizing j with
  | zero => cases h
  | succ fuel ih =>
    unfold findFrom at h
    cases he : t j with
    | none => simp only [he] at h; cases h
    | some e =>
      simp only [he] at h
      split at h
      · cases h
        exact ⟨hj, e, he, by assumption⟩
      · exact ih (next_lt hj) h

/-- A slot that is not empty stays so when another is filled. -/
theorem update_kept {α : Type*} {u : ℕ → Option α} {p : ℕ} (v : α) (hp : u p ≠ none) :
    update u s (some v) p ≠ none := by
  rw [update_apply]
  split_ifs
  · exact Option.some_ne_none v
  · exact hp

/-- A probe that stops at a slot and passes every slot before it on its way reaches it. -/
theorem probe_reaches (hb : b < n) (hj : j < n) (hs : s < n)
    (hstop : ∀ fuel, probe (fuel + 1) s = some s)
    (hpass : ∀ fuel, ∀ p < n, dist n b p < dist n b s → probe (fuel + 1) p = probe fuel (next n p))
    (hle : dist n b j ≤ dist n b s) (hf : dist n b s < dist n b j + fuel) : probe fuel j = some s := by
  induction fuel generalizing j with
  | zero => omega
  | succ fuel ih =>
    by_cases heq : dist n b j = dist n b s
    · obtain rfl := dist_inj hb hj hs heq
      exact hstop fuel
    · have hbound := dist_lt hb hs
      have hstep : dist n b (next n j) = dist n b j + 1 := by
        rcases dist_next hb hj with hx | hx <;> omega
      rw [hpass fuel j hj (by omega)]
      exact ih (next_lt hj) (by omega) (by omega)

/-- A probe of one round from `b`. -/
theorem probe_round (hb : b < n) (hs : s < n) (hstop : ∀ fuel, probe (fuel + 1) s = some s)
    (hpass : ∀ fuel, ∀ p < n, dist n b p < dist n b s → probe (fuel + 1) p = probe fuel (next n p)) :
    probe n b = some s := by
  have hself := dist_self n b
  have hbound := dist_lt hb hs
  exact probe_reaches hb hb hs hstop hpass (by omega) (by omega)

/-- A full-round probe finds the slot of every stored key. -/
theorem findFrom_stored [DecidableEq K] (h : Stores home n t l) (hh : home e.1 < n) (hs : s < n)
    (he : t s = some e) : findFrom t n e.1 n (home e.1) = some s := by
  refine probe_round hh hs (fun fuel => ?_) fun fuel p hp hlt => ?_
  · simp only [findFrom, he, if_true]
  · obtain ⟨d, hd⟩ := Option.ne_none_iff_exists'.mp (h.reach s hs e he p hp hlt)
    have hne : d.1 ≠ e.1 := by
      intro hk
      rw [h.slot_unique hp hs hd he hk] at hlt
      exact lt_irrefl _ hlt
    simp only [findFrom, hd, if_neg hne]

/-- A probe has ended at the first empty slot: probing longer changes nothing. -/
theorem findFrom_ends [DecidableEq K] (k : K) (more : ℕ) (hj : j < n) (hr : r < n) (hfree : t r = none)
    (hf : dist n j r < fuel) : findFrom t n k (fuel + more) j = findFrom t n k fuel j := by
  induction fuel generalizing j with
  | zero => omega
  | succ fuel ih =>
    rw [Nat.add_right_comm]
    unfold findFrom
    cases he : t j with
    | none => rfl
    | some e =>
      have hne : j ≠ r := fun h => by rw [h, hfree] at he; cases he
      have hd : dist n (next n j) r < fuel := by
        rw [next_eq hj]
        unfold dist at hf ⊢
        split_ifs at hf ⊢ <;> omega
      simp only [ih (next_lt hj) hd]

/-- A full-round probe for an empty slot stops at the first one of the round. -/
theorem freeFrom_first (hb : b < n) (h : ∃ s < n, t s = none) :
    ∃ s < n, freeFrom t n n b = some s ∧ t s = none ∧
      ∀ p < n, dist n b p < dist n b s → t p ≠ none := by
  classical
  obtain ⟨r, hr, hfree⟩ := h
  have hfar : ∃ m, ∃ s < n, dist n b s = m ∧ t s = none := ⟨_, r, hr, rfl, hfree⟩
  obtain ⟨s, hs, hm, hnone⟩ := Nat.find_spec hfar
  have hpast : ∀ p < n, dist n b p < dist n b s → t p ≠ none :=
    fun p hp hlt hcon => Nat.find_min hfar (hm ▸ hlt) ⟨p, hp, rfl, hcon⟩
  refine ⟨s, hs, probe_round hb hs (fun fuel => ?_) fun fuel p hp hlt => ?_, hnone, hpast⟩
  · simp only [freeFrom, hnone]
  · obtain ⟨d, hd⟩ := Option.ne_none_iff_exists'.mp (hpast p hp hlt)
    simp only [freeFrom, hd]

/-- Storing one entry after another: a step that stores an entry with a new key while there is room
stores a list of them. -/
theorem foldlM_stores {T : Type*} {f : T → K × V → Option T} {P : T → List (K × V) → Prop} {m : ℕ}
    (hstep : ∀ u l e, P u l → (∀ d ∈ l, d.1 ≠ e.1) → l.length < m → ∃ w, f u e = some w ∧ P w (e :: l))
    {u : T} (h : P u []) (hkeys : (l.map Prod.fst).Nodup) (hroom : l.length ≤ m) :
    ∃ w, l.foldlM f u = some w ∧ P w l.reverse := by
  induction l using reverseRecOn with
  | nil => exact ⟨u, rfl, h⟩
  | append_singleton l e ih =>
    rw [map_append, nodup_append] at hkeys
    rw [length_append, length_singleton] at hroom
    obtain ⟨w, hw, hP⟩ := ih hkeys.1 (Nat.le_of_succ_le hroom)
    have hnew : ∀ d ∈ l.reverse, d.1 ≠ e.1 := fun d hd =>
      hkeys.2.2 d.1 (mem_map_of_mem (mem_reverse.mp hd)) e.1 mem_cons_self
    obtain ⟨x, hx, hP⟩ := hstep w l.reverse e hP hnew (by rwa [length_reverse])
    refine ⟨x, ?_, ?_⟩
    · rw [foldlM_append, hw, Option.bind_eq_bind, Option.bind_some, foldlM_cons, hx]
      rfl
    · rw [reverse_append]
      exact hP

/-- Filling the first empty slot after the home stores one entry more. -/
theorem stores_fill (h : Stores home n t l) (hnew : ∀ d ∈ l, d.1 ≠ e.1) (hroom : l.length + 1 < n)
    (hs : s < n) (hfree : t s = none)
    (hpast : ∀ p < n, dist n (home e.1) p < dist n (home e.1) s → t p ≠ none) :
    Stores home n (update t s (some e)) (e :: l) := by
  refine ⟨?_, (entries_fill hs hfree).trans (h.perm.cons e), ?_, hroom⟩
  · intro r hr d hd p hp hlt
    rw [update_apply] at hd
    split_ifs at hd with hrs
    · cases hd
      subst hrs
      exact update_kept e (hpast p hp hlt)
    · exact update_kept e (h.reach r hr d hd p hp hlt)
  · rw [map_cons, nodup_cons]
    refine ⟨?_, h.keys⟩
    intro hmem
    obtain ⟨d, hd, hde⟩ := mem_map.mp hmem
    exact hnew d hd hde

end Probes

/-- The state of a deletion that started at slot `b`, whose probe run ends before
the empty slot `f`: the gap is at `i` and the scan has come to `j`. -/
structure Shifting (home : K → ℕ) (n b f i j : ℕ) (t : ℕ → Option (K × V))
    (l : List (K × V)) : Prop where
  /-- The gap is in the table. -/
  gap_lt : i < n
  /-- The scan is in the table. -/
  scan_lt : j < n
  /-- The scan is past the gap. -/
  gap_scan : dist n b i < dist n b j
  /-- The scan has not passed the end of the run. -/
  scan_end : dist n b j ≤ dist n b f
  /-- The run ends in an empty slot. -/
  stop : t f = none
  /-- No slot of the run is empty, the gap's stale content included. -/
  run : ∀ p < n, dist n b p < dist n b f → t p ≠ none
  /-- Scanned entries past the gap have their home past the gap. -/
  scanned : ∀ s < n, dist n b i < dist n b s → dist n b s < dist n b j → ∀ e, t s = some e →
    dist n b i < dist n b (home e.1) ∧ dist n b (home e.1) ≤ dist n b s
  /-- An entry of the run has its home before it in the run, or in an occupied
  stretch that closes the round. -/
  inRun : ∀ s < n, s ≠ i → dist n b s < dist n b f → ∀ e, t s = some e →
    dist n b (home e.1) ≤ dist n b s ∨
      dist n b f < dist n b (home e.1) ∧ ∀ p < n, dist n b (home e.1) ≤ dist n b p → t p ≠ none
  /-- An entry past the run has its home past the run too. -/
  pastRun : ∀ s < n, dist n b f < dist n b s → ∀ e, t s = some e →
    dist n b f < dist n b (home e.1) ∧ dist n b (home e.1) ≤ dist n b s ∧
      ∀ p < n, dist n b (home e.1) ≤ dist n b p → dist n b p ≤ dist n b s → t p ≠ none
  /-- Without the gap the slots hold the remaining entries. -/
  perm : (entries (update t i none) n).Perm l

section Shift

variable {home : K → ℕ} {n b f i j s fuel : ℕ} {t : ℕ → Option (K × V)} {l : List (K × V)} {e : K × V}
  {k : K}

variable (h : Shifting home n b f i j t l)

include h

/-- Before the end of the run the next slot is one step further. -/
theorem Shifting.dist_next (hb : b < n) (hf : f < n) (hlt : dist n b j < dist n b f) :
    dist n b (next n j) = dist n b j + 1 := by
  have hbound := dist_lt hb hf
  rcases ProbeTable.dist_next hb h.scan_lt with hx | hx <;> omega

/-- A scanned entry whose home is past the gap stays where it is. -/
theorem Shifting.stay (hb : b < n) (hf : f < n) (hhome : ∀ k, home k < n) {e : K × V} (he : t j = some e)
    (hlt : dist n b j < dist n b f) (hm : ¬ movable i j (home e.1) = true) :
    Shifting home n b f i (next n j) t l := by
  have hnext := h.dist_next hb hf hlt
  have hgs := h.gap_scan
  have hij : i ≠ j := by
    rintro rfl
    omega
  refine ⟨h.gap_lt, next_lt h.scan_lt, by omega, by omega, h.stop, h.run, ?_, h.inRun,
    h.pastRun, h.perm⟩
  intro s hs his hsj d hd
  by_cases heq : dist n b s = dist n b j
  · have hsj' := dist_inj hb hs h.scan_lt heq
    subst hsj'
    rw [he] at hd
    cases hd
    rw [movable_iff h.gap_lt hs (hhome e.1) hij, dist_base hb h.gap_lt (hhome e.1),
      dist_base hb h.gap_lt hs] at hm
    have hbound := dist_lt hb hs
    split_ifs at hm <;> omega
  · exact h.scanned s hs his (by omega) d hd

/-- Moving a scanned entry into the gap opens the gap at its old slot. -/
theorem Shifting.move (hb : b < n) (hf : f < n) (hhome : ∀ k, home k < n) {e : K × V} (he : t j = some e)
    (hlt : dist n b j < dist n b f) (hm : movable i j (home e.1) = true) :
    Shifting home n b f j (next n j) (update t i (some e)) l := by
  have hnext := h.dist_next hb hf hlt
  have hgs := h.gap_scan
  have hij : i ≠ j := by
    rintro rfl
    omega
  have hfi : f ≠ i := by
    rintro rfl
    omega
  refine ⟨h.scan_lt, next_lt h.scan_lt, by omega, by omega, ?_, ?_, ?_, ?_, ?_, ?_⟩
  · rw [update_of_ne hfi]
    exact h.stop
  · exact fun p hp hpf => update_kept e (h.run p hp hpf)
  · intro s _ his hsj
    omega
  · intro s hs hsj hsf d hd
    by_cases hsi : s = i
    · subst hsi
      rw [update_self] at hd
      cases hd
      rw [movable_iff h.gap_lt h.scan_lt (hhome e.1) hij, dist_base hb h.gap_lt (hhome e.1),
        dist_base hb h.gap_lt h.scan_lt] at hm
      rcases h.inRun j h.scan_lt hij.symm hlt e he with hx | ⟨hx, hocc⟩
      · left
        split_ifs at hm <;> omega
      · exact .inr ⟨hx, fun p hp hy => update_kept e (hocc p hp hy)⟩
    · rw [update_of_ne hsi] at hd
      rcases h.inRun s hs hsi hsf d hd with hx | ⟨hx, hocc⟩
      · exact .inl hx
      · exact .inr ⟨hx, fun p hp hy => update_kept e (hocc p hp hy)⟩
  · intro s hs hsf d hd
    have hsi : s ≠ i := by
      rintro rfl
      omega
    rw [update_of_ne hsi] at hd
    obtain ⟨h₁, h₂, h₃⟩ := h.pastRun s hs hsf d hd
    exact ⟨h₁, h₂, fun p hp hy hz => update_kept e (h₃ p hp hy hz)⟩
  · have hu : update t i none j = some e := by rw [update_of_ne hij.symm, he]
    have hdrop := entries_drop h.scan_lt hu
    have hgap : update (update t i none) j none i = none := by
      rw [update_of_ne hij, update_self]
    have hfill := entries_fill (e := e) h.gap_lt hgap
    rw [update_comm hij.symm, update_idem] at hfill
    exact (hfill.trans hdrop.symm).trans h.perm

/-- When the scan meets the end of the run, emptying the gap leaves no hole. -/
theorem Shifting.finish (hb : b < n) (hf : f < n) (hhome : ∀ k, home k < n)
    (hj : dist n b j = dist n b f) : Reachable home n (update t i none) := by
  have hgs := h.gap_scan
  intro s hs e he p hp hlt
  have hsi : s ≠ i := by
    rintro rfl
    rw [update_self] at he
    cases he
  rw [update_of_ne hsi] at he
  have hk := dist_lt hb (hhome e.1)
  have hbp := dist_lt hb hp
  have hbs := dist_lt hb hs
  have hosi : dist n b s ≠ dist n b i := fun hx => hsi (dist_inj hb hs h.gap_lt hx)
  rw [dist_base hb (hhome e.1) hp, dist_base hb (hhome e.1) hs] at hlt
  have hout : dist n b p ≠ dist n b i → t p ≠ none → update t i none p ≠ none := by
    intro hpi hocc
    rwa [update_of_ne]
    rintro rfl
    exact hpi rfl
  rcases lt_trichotomy (dist n b s) (dist n b f) with hsf | hsf | hsf
  · rcases lt_or_ge (dist n b i) (dist n b s) with his | his
    · obtain ⟨h₁, h₂⟩ := h.scanned s hs his (by omega) e he
      split_ifs at hlt
      · exact hout (by omega) (h.run p hp (by omega))
      all_goals omega
    · rcases h.inRun s hs hsi hsf e he with hx | ⟨hx, hocc⟩
      · split_ifs at hlt
        · exact hout (by omega) (h.run p hp (by omega))
        all_goals omega
      · split_ifs at hlt with hy
        · omega
        · exact hout (by omega) (hocc p hp hy)
        · omega
        · exact hout (by omega) (h.run p hp (by omega))
  · rw [dist_inj hb hs hf hsf, h.stop] at he
    cases he
  · obtain ⟨h₁, h₂, h₃⟩ := h.pastRun s hs hsf e he
    split_ifs at hlt with hy
    · exact hout (by omega) (h₃ p hp hy (by omega))
    all_goals omega

omit h

/-- The scan ends within one round and leaves the remaining entries, without a hole. -/
theorem Shifting.shiftFrom_spec (fuel : ℕ) (h : Shifting home n b f i j t l) (hb : b < n)
    (hf : f < n) (hhome : ∀ k, home k < n) (hfuel : dist n b f < dist n b j + fuel) :
    ∃ u, shiftFrom home n fuel t i j = some u ∧ Reachable home n u ∧ (entries u n).Perm l := by
  induction fuel generalizing i j t with
  | zero =>
    have hse := h.scan_end
    omega
  | succ fuel ih =>
    have hse := h.scan_end
    unfold shiftFrom
    by_cases heq : dist n b j = dist n b f
    · rw [dist_inj hb h.scan_lt hf heq]
      simp only [h.stop]
      exact ⟨_, rfl, h.finish hb hf hhome heq, h.perm⟩
    · have hlt : dist n b j < dist n b f := by omega
      obtain ⟨e, he⟩ := Option.ne_none_iff_exists'.mp (h.run j h.scan_lt hlt)
      have hnext := h.dist_next hb hf hlt
      simp only [he]
      by_cases hm : movable i j (home e.1) = true
      · rw [if_pos hm]
        exact ih (h.move hb hf hhome he hlt hm) (by omega)
      · rw [if_neg hm]
        exact ih (h.stay hb hf hhome he hlt hm) (by omega)

/-- Deleting at the slot of a stored entry opens a gap the scan can start from. -/
theorem Stores.shifting (h : Stores home n t (e :: l)) (hhome : ∀ k, home k < n) (hb : b < n)
    (he : t b = some e) (hf : f < n) (hfree : t f = none)
    (hrun : ∀ p < n, dist n b p < dist n b f → t p ≠ none) : Shifting home n b f b (next n b) t l := by
  have hbf : b ≠ f := by
    rintro rfl
    rw [he] at hfree
    cases hfree
  have hself := dist_self n b
  have hfb : dist n b f ≠ 0 := fun hx => hbf (dist_inj hb hb hf (by omega))
  have hfn := dist_lt hb hf
  have hnext : dist n b (next n b) = 1 := by
    rcases dist_next hb hb with hx | hx <;> omega
  refine ⟨hb, next_lt hb, by omega, by omega, hfree, hrun, ?_, ?_, ?_, ?_⟩
  · intro s _ h₁ h₂
    omega
  · intro s hs _ hsf d hd
    have hreach := h.reach s hs d hd
    have hk := dist_lt hb (hhome d.1)
    rw [dist_base hb (hhome d.1) hs] at hreach
    by_cases hx : dist n b (home d.1) ≤ dist n b s
    · exact .inl hx
    · rw [if_neg hx] at hreach
      right
      refine ⟨?_, ?_⟩
      · by_contra hcon
        refine hreach f hf ?_ hfree
        rw [dist_base hb (hhome d.1) hf]
        split_ifs <;> omega
      · intro p hp hy
        refine hreach p hp ?_
        have hbp := dist_lt hb hp
        rw [dist_base hb (hhome d.1) hp, if_pos hy]
        omega
  · intro s hs hfs d hd
    have hreach := h.reach s hs d hd
    have hbs := dist_lt hb hs
    have hk := dist_lt hb (hhome d.1)
    rw [dist_base hb (hhome d.1) hs] at hreach
    have hends : dist n b f < dist n b (home d.1) ∧ dist n b (home d.1) ≤ dist n b s := by
      by_contra hcon
      refine hreach f hf ?_ hfree
      rw [dist_base hb (hhome d.1) hf]
      split_ifs <;> omega
    refine ⟨hends.1, hends.2, ?_⟩
    intro p hp h₁ h₂
    by_cases hps : dist n b p = dist n b s
    · rw [dist_inj hb hp hs hps, hd]
      exact Option.some_ne_none d
    · refine hreach p hp ?_
      rw [dist_base hb (hhome d.1) hp, if_pos h₁, if_pos hends.2]
      omega
  · exact ((entries_drop hb he).symm.trans h.perm).cons_inv

/-- Backward-shift deletion terminates and removes exactly the entry. -/
theorem shiftFrom_stores (h : Stores home n t (e :: l)) (hhome : ∀ k, home k < n) (hb : b < n)
    (he : t b = some e) : ∃ u, shiftFrom home n n t b (next n b) = some u ∧ Stores home n u l := by
  obtain ⟨f, hf, _, hfree, hrun⟩ := freeFrom_first hb h.exists_free
  have hshift := h.shifting hhome hb he hf hfree hrun
  have hself := dist_self n b
  have hgs := hshift.gap_scan
  have hfn := dist_lt hb hf
  obtain ⟨u, hu, hreach, hperm⟩ := hshift.shiftFrom_spec n hb hf hhome (by omega)
  have hkeys := h.keys
  rw [map_cons, nodup_cons] at hkeys
  have hroom := h.room
  rw [length_cons] at hroom
  exact ⟨u, hu, hreach, hperm, hkeys.2, by omega⟩

/-- Where a key is found the probe stops at it. -/
theorem stopFrom_found [DecidableEq K] (h : findFrom t n k fuel j = some s) :
    stopFrom t n k fuel j = some s := by
  induction fuel generalizing j with
  | zero => cases h
  | succ fuel ih =>
    rw [findFrom] at h
    rw [stopFrom]
    cases hj : t j with
    | none => rw [hj] at h; cases h
    | some e =>
      rw [hj] at h
      dsimp only at h ⊢
      split_ifs at h ⊢ with hk
      · exact h
      · exact ih h

/-- Where a key is nowhere the probe stops at the first empty slot. -/
theorem stopFrom_absent [DecidableEq K] (hj : j < n) (habs : ∀ s < n, ∀ e, t s = some e → e.1 ≠ k) :
    stopFrom t n k fuel j = freeFrom t n fuel j := by
  induction fuel generalizing j with
  | zero => rfl
  | succ fuel ih =>
    rw [stopFrom, freeFrom]
    cases hslot : t j with
    | none => rfl
    | some e =>
      dsimp only
      rw [if_neg (habs j hj e hslot)]
      exact ih (next_lt hj)

end Shift

section Operations

variable (home : ℕ → K → ℕ) {l' : List (K × V)}

/-- The slot that holds a key, if one does. -/
def findSlot [DecidableEq K] (t : Table K V) (k : K) : Option ℕ :=
  if t.size = 0 then none else findFrom t.slot t.size k t.size (home t.size k)

/-- The value stored under a key. -/
def lookup [DecidableEq K] (t : Table K V) (k : K) : Option V :=
  (findSlot home t k).bind fun s => (t.slot s).map Prod.snd

/-- Store an entry in the first empty slot at or after its home. -/
def put (t : Table K V) (e : K × V) : Option (Table K V) :=
  (freeFrom t.slot t.size t.size (home t.size e.1)).map fun s =>
    { t with slot := update t.slot s (some e) }

/-- The slot that holds a key, or the first empty one at or after its home. -/
def stopSlot [DecidableEq K] (t : Table K V) (k : K) : Option ℕ :=
  stopFrom t.slot t.size k t.size (home t.size k)

/-- Delete a key and close the gap it leaves. -/
def del [DecidableEq K] (t : Table K V) (k : K) : Option (Table K V) :=
  match findSlot home t k with
  | none => some t
  | some s =>
    (shiftFrom (home t.size) t.size t.size t.slot s (next t.size s)).map fun u =>
      { t with slot := u }

/-- Store every entry, slot by slot, in a fresh table of another size. -/
def rebuild (t : Table K V) (n : ℕ) : Option (Table K V) :=
  (entries t.slot t.size).foldlM (put home) ⟨n, fun _ => none⟩

/-- Change what is stored under a key. -/
def modify [DecidableEq K] (t : Table K V) (k : K) (f : V → V) : Table K V :=
  match findSlot home t k with
  | none => t
  | some s => { t with slot := update t.slot s ((t.slot s).map fun e => (e.1, f e.2)) }

/-- A table stores exactly the entries of `l` and has an empty slot if it has any. -/
structure Keeps (t : Table K V) (l : List (K × V)) : Prop where
  /-- A table without slots stores nothing. -/
  bare : t.size = 0 → l = []
  /-- The slots store the entries. -/
  stores : 0 < t.size → Stores (home t.size) t.size t.slot l

/-- A table stores exactly the entries of `l` at a load of at most a half. -/
structure Holds (t : Table K V) (l : List (K × V)) : Prop where
  /-- At most every other slot is in use. -/
  half : l.length * 2 ≤ t.size
  /-- The slots store the entries. -/
  stores : 0 < t.size → Stores (home t.size) t.size t.slot l

variable {home} {t : Table K V} {l : List (K × V)} {e : K × V} {k : K}

/-- A table at half its load has an empty slot. -/
theorem Holds.keeps (h : Holds home t l) : Keeps home t l :=
  ⟨fun hz => eq_nil_of_length_eq_zero (by have hhalf := h.half; omega), h.stores⟩

/-- A table without slots holds nothing. -/
theorem holds_empty : Holds home (Table.empty : Table K V) [] :=
  ⟨by simp [Table.empty], fun h => absurd h (lt_irrefl 0)⟩

/-- A fresh table of any size holds nothing. -/
theorem holds_fresh (n : ℕ) : Holds home (⟨n, fun _ => none⟩ : Table K V) [] := by
  refine ⟨Nat.zero_le n, fun hn => ⟨?_, ?_, nodup_nil, hn⟩⟩
  · intro s _ e he
    cases he
  · have hnone : entries (fun _ => (none : Option (K × V))) n = [] :=
      filterMap_eq_nil_iff.mpr fun _ _ => rfl
    rw [hnone]

/-- What a table stores does not depend on the order it is listed in. -/
theorem Keeps.perm (h : Keeps home t l) (hp : l.Perm l') : Keeps home t l' := by
  refine ⟨fun hz => ?_, fun hn => ?_⟩
  · have hnil := h.bare hz
    subst hnil
    exact nil_perm.mp hp
  · have hs := h.stores hn
    exact ⟨hs.reach, hs.perm.trans hp, (hp.map Prod.fst).nodup_iff.mp hs.keys, hp.length_eq ▸ hs.room⟩

/-- What a table holds does not depend on the order it is listed in. -/
theorem Holds.perm (h : Holds home t l) (hp : l.Perm l') : Holds home t l' :=
  ⟨hp.length_eq ▸ h.half, (h.keeps.perm hp).stores⟩

/-- Keys of a table are distinct. -/
theorem Keeps.keys (h : Keeps home t l) : (l.map Prod.fst).Nodup := by
  by_cases hn : 0 < t.size
  · exact (h.stores hn).keys
  · rw [h.bare (by omega)]
    exact nodup_nil

/-- A table that stores something has slots. -/
theorem Keeps.size_pos (h : Keeps home t l) (he : e ∈ l) : 0 < t.size := by
  refine Nat.pos_of_ne_zero fun hz => ?_
  rw [h.bare hz] at he
  cases he

variable (hhome : ∀ n k, 0 < n → home n k < n)

include hhome

/-- A stored key is found in a slot that holds its entry. -/
theorem Keeps.findSlot_stored [DecidableEq K] (h : Keeps home t l) (he : e ∈ l) :
    ∃ s < t.size, findSlot home t e.1 = some s ∧ t.slot s = some e := by
  have hn := h.size_pos he
  have hs := h.stores hn
  obtain ⟨s, hlt, hslot⟩ := mem_entries.mp (hs.perm.mem_iff.mpr he)
  refine ⟨s, hlt, ?_, hslot⟩
  unfold findSlot
  rw [if_neg (by omega)]
  exact findFrom_stored hs (hhome _ _ hn) hlt hslot

/-- Looking a key up answers exactly the values stored under it. -/
theorem Keeps.lookup_iff [DecidableEq K] (h : Keeps home t l) (k : K) (v : V) :
    lookup home t k = some v ↔ (k, v) ∈ l := by
  constructor
  · intro hl
    obtain ⟨s, hs, hv⟩ := Option.bind_eq_some_iff.mp hl
    obtain ⟨e, he, hev⟩ := Option.map_eq_some_iff.mp hv
    unfold findSlot at hs
    split_ifs at hs with hz
    have hn : 0 < t.size := by omega
    obtain ⟨hlt, d, hd, hdk⟩ := findFrom_sound (hhome _ _ hn) hs
    rw [he] at hd
    cases hd
    have hmem := (h.stores hn).perm.mem_iff.mp (mem_entries.mpr ⟨s, hlt, he⟩)
    rwa [← hdk, ← hev]
  · intro hmem
    obtain ⟨s, _, hs, hslot⟩ := h.findSlot_stored hhome hmem
    simp only [lookup, hs, Option.bind_some, hslot, Option.map_some]

/-- Looking a key up answers exactly the values held under it. -/
theorem lookup_iff [DecidableEq K] (h : Holds home t l) (k : K) (v : V) :
    lookup home t k = some v ↔ (k, v) ∈ l := h.keeps.lookup_iff hhome k v

/-- Storing a new key terminates while a slot stays empty. -/
theorem Keeps.put (h : Keeps home t l) (hnew : ∀ d ∈ l, d.1 ≠ e.1) (hroom : l.length + 1 < t.size) :
    ∃ u, put home t e = some u ∧ u.size = t.size ∧ Keeps home u (e :: l) := by
  have hn : 0 < t.size := by omega
  have hs := h.stores hn
  obtain ⟨s, hlt, hfree, hnone, hpast⟩ := freeFrom_first (hhome _ e.1 hn) hs.exists_free
  refine ⟨{ t with slot := update t.slot s (some e) }, ?_, rfl, fun hz => ?_, fun _ => ?_⟩
  · simp only [ProbeTable.put, hfree, Option.map_some]
  · exact absurd hz (Nat.ne_of_gt hn)
  · exact stores_fill hs hnew hroom hlt hnone hpast

/-- Storing a new key terminates while the load stays at most a half. -/
theorem put_holds (h : Holds home t l) (hnew : ∀ d ∈ l, d.1 ≠ e.1) (hroom : (l.length + 1) * 2 ≤ t.size) :
    ∃ u, put home t e = some u ∧ u.size = t.size ∧ Holds home u (e :: l) := by
  obtain ⟨u, hu, hsize, hkeeps⟩ := h.keeps.put hhome hnew (by omega)
  refine ⟨u, hu, hsize, ?_, hkeeps.stores⟩
  rw [hsize]
  exact hroom

/-- The probe for a stored key stops at it. -/
theorem Keeps.stopSlot_stored [DecidableEq K] (h : Keeps home t l) (he : e ∈ l) :
    ∃ s < t.size, stopSlot home t e.1 = some s ∧ t.slot s = some e := by
  obtain ⟨s, hlt, hfind, hslot⟩ := h.findSlot_stored hhome he
  refine ⟨s, hlt, stopFrom_found ?_, hslot⟩
  unfold findSlot at hfind
  split_ifs at hfind
  exact hfind

/-- The probe for another key stops at the first empty slot. -/
theorem Keeps.stopSlot_free [DecidableEq K] (h : Keeps home t l) (hn : 0 < t.size)
    (hnew : ∀ d ∈ l, d.1 ≠ k) :
    ∃ s < t.size, stopSlot home t k = some s ∧ t.slot s = none ∧
      freeFrom t.slot t.size t.size (home t.size k) = some s := by
  have hs := h.stores hn
  obtain ⟨s, hlt, hfree, hnone, -⟩ := freeFrom_first (hhome _ k hn) hs.exists_free
  refine ⟨s, hlt, (stopFrom_absent (hhome _ k hn) fun j hj d hd => ?_).trans hfree, hnone, hfree⟩
  exact hnew d (hs.perm.mem_iff.mp (mem_entries.mpr ⟨j, hj, hd⟩))

/-- The probe for another key stops where it may be stored. -/
theorem Keeps.stopSlot_absent [DecidableEq K] (h : Keeps home t l) (hn : 0 < t.size)
    (hnew : ∀ d ∈ l, d.1 ≠ e.1) :
    ∃ s < t.size, stopSlot home t e.1 = some s ∧ t.slot s = none ∧
      ProbeTable.put home t e = some { t with slot := update t.slot s (some e) } := by
  obtain ⟨s, hlt, hstop, hnone, hfree⟩ := h.stopSlot_free hhome hn hnew
  refine ⟨s, hlt, hstop, hnone, ?_⟩
  unfold ProbeTable.put
  rw [hfree, Option.map_some]

/-- Deleting a stored key terminates and removes exactly its entry. -/
theorem Keeps.del [DecidableEq K] (h : Keeps home t (e :: l)) :
    ∃ u, del home t e.1 = some u ∧ u.size = t.size ∧ Keeps home u l := by
  have hn := h.size_pos mem_cons_self
  obtain ⟨s, hlt, hfind, hslot⟩ := h.findSlot_stored hhome mem_cons_self
  obtain ⟨u, hu, hstores⟩ := shiftFrom_stores (h.stores hn) (fun k => hhome _ k hn) hlt hslot
  refine ⟨{ t with slot := u }, ?_, rfl, fun hz => ?_, fun _ => hstores⟩
  · simp only [ProbeTable.del, hfind, hu, Option.map_some]
  · exact absurd hz (Nat.ne_of_gt hn)

/-- Deleting a held key terminates and removes exactly its entry. -/
theorem del_holds [DecidableEq K] (h : Holds home t (e :: l)) :
    ∃ u, del home t e.1 = some u ∧ u.size = t.size ∧ Holds home u l := by
  obtain ⟨u, hu, hsize, hkeeps⟩ := h.keeps.del hhome
  have hhalf := h.half
  rw [length_cons] at hhalf
  exact ⟨u, hu, hsize, by omega, hkeeps.stores⟩

/-- Changing what is stored under a key changes its entry alone. -/
theorem Keeps.modify [DecidableEq K] {v : V} (h : Keeps home t ((k, v) :: l)) (f : V → V) :
    (ProbeTable.modify home t k f).size = t.size ∧
      Keeps home (ProbeTable.modify home t k f) ((k, f v) :: l) := by
  have hn := h.size_pos mem_cons_self
  obtain ⟨s, hlt, hfind, hslot⟩ := h.findSlot_stored hhome mem_cons_self
  have hmod : ProbeTable.modify home t k f = { t with slot := update t.slot s (some (k, f v)) } := by
    unfold ProbeTable.modify
    rw [show findSlot home t k = some s from hfind]
    dsimp only
    rw [hslot, Option.map_some]
  have hs := h.stores hn
  rw [hmod]
  refine ⟨rfl, fun hz => absurd hz (Nat.ne_of_gt hn), fun _ => ⟨?_, ?_, ?_, ?_⟩⟩
  · -- a slot is empty exactly if it was, and a key's home is what it was
    intro r hr e he p hp hdist
    refine update_kept _ ?_
    dsimp only at he
    rw [update_apply] at he
    split_ifs at he with heq
    · cases he
      subst heq
      exact hs.reach r hr (k, v) hslot p hp hdist
    · exact hs.reach r hr e he p hp hdist
  · have hdrop := (entries_drop hlt hslot).symm.trans hs.perm
    have hfill := entries_fill (e := (k, f v)) hlt (update_self s none t.slot)
    rw [update_idem] at hfill
    exact hfill.trans (hdrop.cons_inv.cons _)
  · exact hs.keys
  · exact hs.room

/-- Rebuilding at any size that leaves a slot empty terminates and keeps the entries. -/
theorem Keeps.rebuild {n : ℕ} (h : Keeps home t l) (hroom : l = [] ∨ l.length < n) :
    ∃ u, ProbeTable.rebuild home t n = some u ∧ u.size = n ∧ Keeps home u l := by
  have hperm : (entries t.slot t.size).Perm l := by
    by_cases hn : 0 < t.size
    · exact (h.stores hn).perm
    · have hzero : t.size = 0 := by omega
      rw [h.bare hzero, hzero]
      exact .refl []
  have hkeys : ((entries t.slot t.size).map Prod.fst).Nodup :=
    (hperm.map Prod.fst).nodup_iff.mpr h.keys
  have hlen : (entries t.slot t.size).length ≤ n - 1 := by
    rw [hperm.length_eq]
    rcases hroom with rfl | hlt
    · exact Nat.zero_le _
    · omega
  obtain ⟨u, hu, hsize, hkeeps⟩ := foldlM_stores (m := n - 1)
    (P := fun u l => u.size = n ∧ Keeps home u l) (f := ProbeTable.put home)
    (fun u l e hu hnew hlt => by
      obtain ⟨w, hw, hsize, hkeeps⟩ := hu.2.put hhome hnew (by omega)
      exact ⟨w, hw, hsize.trans hu.1, hkeeps⟩)
    (u := ⟨n, fun _ => none⟩) ⟨rfl, (holds_fresh n).keeps⟩ hkeys hlen
  exact ⟨u, hu, hsize, hkeeps.perm ((reverse_perm _).trans hperm)⟩

/-- Rebuilding at any size of at most half load terminates and keeps the entries. -/
theorem rebuild_holds {n : ℕ} (h : Holds home t l) (hroom : l.length * 2 ≤ n) :
    ∃ u, rebuild home t n = some u ∧ u.size = n ∧ Holds home u l := by
  obtain ⟨u, hu, hsize, hkeeps⟩ := h.keeps.rebuild hhome (n := n) (by
    cases l with
    | nil => exact .inl rfl
    | cons e l =>
      rw [length_cons] at hroom ⊢
      exact .inr (by omega))
  exact ⟨u, hu, hsize, hsize ▸ hroom, hkeeps.stores⟩

end Operations

section Scatter

/-- The home of a 64-bit key in a table whose size is a power of two: two shifts and a product
scatter the key, and the low bits are kept. -/
def scatter (n h : ℕ) : ℕ :=
  let x₁ := h ^^^ (h >>> 33)
  let x₂ := x₁ * 0xff51afd7ed558ccd % 2 ^ 64
  let x₃ := x₂ ^^^ (x₂ >>> 33)
  x₃ &&& (n - 1)

theorem scatter_lt (n h : ℕ) (hn : 0 < n) : scatter n h < n := by
  have hle : scatter n h ≤ n - 1 := Nat.and_le_right
  omega

end Scatter

end Gptps.ProbeTable
