import Mathlib.Algebra.Ring.Nat
import Mathlib.Data.List.Induction
import Mathlib.Tactic.SplitIfs

/-!
# Merging measurement rows

A row of `gptps_stats` counts the values folded into it, with their sum, extremes and the latest of them.
Merging two rows gives the row of all their values in order, saturation and the ties of the latest value
included. So the rows of several shards may be merged in any grouping.
-/

namespace Gptps.MeasureMerge

open List

/-- What a row keeps of its values. -/
structure Tally where
  /-- The values folded in. -/
  count : UInt64
  /-- Their sum, up to the largest value. -/
  sum : UInt64
  /-- The least. -/
  min : UInt64
  /-- The greatest. -/
  max : UInt64
  /-- The latest. -/
  last : UInt64
  /-- And its time. -/
  lastMs : UInt64
  deriving DecidableEq, Repr

/-- A row, with what its name reported. -/
structure Measure extends Tally where
  /-- The unit. -/
  unit : UInt32
  /-- How values combine. -/
  kind : UInt32
  deriving DecidableEq, Repr

/-- A sum that stops at UINT64_MAX. -/
def satAdd (a b : UInt64) : UInt64 := if a > 0xFFFFFFFFFFFFFFFF - b then 0xFFFFFFFFFFFFFFFF else a + b

/-- A row before its first value. -/
def Tally.zero : Tally := ⟨0, 0, 0, 0, 0, 0⟩

/-- `mrow_fold`: fold in a value with its time. -/
def mrowFold (m : Tally) (x : UInt64 × UInt64) : Tally :=
  { count := m.count + 1
    sum := satAdd m.sum x.1
    min := if m.count = 0 ∨ x.1 < m.min then x.1 else m.min
    max := if m.count = 0 ∨ x.1 > m.max then x.1 else m.max
    last := if m.count + 1 = 1 ∨ x.2 ≥ m.lastMs then x.1 else m.last
    lastMs := if m.count + 1 = 1 ∨ x.2 ≥ m.lastMs then x.2 else m.lastMs }

/-- `gptps_stats_measure_merge` into `d`. -/
def measureMerge (d a : Measure) : Measure :=
  if a.count = 0 then d
  else if d.count = 0 then a
  else
    { d with
      count := d.count + a.count
      sum := satAdd d.sum a.sum
      min := if a.min < d.min then a.min else d.min
      max := if a.max > d.max then a.max else d.max
      last := if a.lastMs ≥ d.lastMs then a.last else d.last
      lastMs := if a.lastMs ≥ d.lastMs then a.lastMs else d.lastMs }

/-- The row of a sequence of values. -/
def rowOf (unit kind : UInt32) (xs : List (UInt64 × UInt64)) : Measure :=
  { toTally := xs.foldl mrowFold .zero, unit := unit, kind := kind }

section Folds

variable {u k : UInt32} {xs : List (UInt64 × UInt64)} {a b c d : UInt64}

theorem satAdd_toNat (a b : UInt64) : (satAdd a b).toNat = min (a.toNat + b.toNat) (2 ^ 64 - 1) := by
  have ha := a.toNat_lt
  have hb := b.toNat_lt
  have hle : b ≤ 0xFFFFFFFFFFFFFFFF := UInt64.le_iff_toNat_le.mpr (Nat.le_of_lt_succ hb)
  have hsub : (0xFFFFFFFFFFFFFFFF - b).toNat = 2 ^ 64 - 1 - b.toNat := UInt64.toNat_sub_of_le _ _ hle
  have hcond : a > 0xFFFFFFFFFFFFFFFF - b ↔ 2 ^ 64 - 1 - b.toNat < a.toNat := by
    rw [gt_iff_lt, UInt64.lt_iff_toNat_lt, hsub]
  unfold satAdd
  split_ifs with h
  · rw [hcond] at h
    rw [Nat.min_eq_right (by omega)]
    rfl
  · rw [hcond] at h
    rw [UInt64.toNat_add, Nat.mod_eq_of_lt (by omega), min_eq_left (by omega)]

theorem satAdd_assoc (a b c : UInt64) : satAdd (satAdd a b) c = satAdd a (satAdd b c) := by
  apply UInt64.toNat_inj.mp
  simp only [satAdd_toNat]
  omega

theorem satAdd_zero (a : UInt64) : satAdd 0 a = a := by
  apply UInt64.toNat_inj.mp
  have ha := a.toNat_lt
  rw [satAdd_toNat, UInt64.toNat_zero]
  omega

/-- The count of a sequence that is not too long. -/
theorem rowOf_count (h : xs.length < 2 ^ 64) : (rowOf u k xs).count.toNat = xs.length := by
  induction xs using reverseRecOn with
  | nil => rfl
  | append_singleton xs x ih =>
    rw [length_append, length_singleton] at h ⊢
    have hcount : (rowOf u k (xs ++ [x])).count = (rowOf u k xs).count + 1 := by
      simp only [rowOf, foldl_append]
      rfl
    rw [hcount, UInt64.toNat_add, ih (by omega), UInt64.toNat_one]
    exact Nat.mod_eq_of_lt h

/-- A row with one value more. -/
theorem rowOf_append (u k : UInt32) (xs : List (UInt64 × UInt64)) (x : UInt64 × UInt64) :
    rowOf u k (xs ++ [x]) = { rowOf u k xs with toTally := mrowFold (rowOf u k xs).toTally x } := by
  simp only [rowOf, foldl_append, foldl_cons, foldl_nil]

/-- A row without values is as it began. -/
theorem rowOf_zero (h : xs.length < 2 ^ 64) (hc : (rowOf u k xs).count = 0) : xs = [] := by
  have hcount := rowOf_count (u := u) (k := k) h
  rw [hc, UInt64.toNat_zero] at hcount
  exact eq_nil_of_length_eq_zero hcount.symm

theorem count_pos (h : c ≠ 0) : 0 < c.toNat :=
  Nat.pos_of_ne_zero fun hc => h (UInt64.toNat_inj.mp hc)

/-- After a count that is not zero comes one that is not the first. -/
theorem count_next (hc : 0 < c.toNat) (hlt : c.toNat + 1 < 2 ^ 64) : c + 1 ≠ 0 ∧ c + 1 ≠ 1 := by
  have hadd : (c + 1).toNat = c.toNat + 1 := by
    exact Nat.mod_eq_of_lt hlt
  constructor
  · intro h
    rw [h, UInt64.toNat_zero] at hadd
    omega
  · intro h
    rw [h, UInt64.toNat_one] at hadd
    omega

/-- Merging the row of one value folds it in. -/
theorem merge_one {d : Measure} (x : UInt64 × UInt64) (hd : d.count ≠ 0) (hn : d.count.toNat + 1 < 2 ^ 64) :
    (measureMerge d (rowOf u k [x])).toTally = mrowFold d.toTally x := by
  obtain ⟨-, hd₁⟩ := count_next (count_pos hd) hn
  have hrow : rowOf u k [x] = ⟨⟨1, x.1, x.1, x.1, x.1, x.2⟩, u, k⟩ := by
    simp only [rowOf, foldl_cons, foldl_nil, mrowFold, Tally.zero, satAdd_zero]
    rfl
  rw [hrow]
  simp only [measureMerge, mrowFold, hd, hd₁, if_false, false_or]
  rfl

/-- One value more on the right of a merge of rows with values is one more in the merged row. -/
theorem merge_fold {d a : Measure} (x : UInt64 × UInt64) (hd : d.count ≠ 0) (ha : a.count ≠ 0)
    (hn : d.count.toNat + a.count.toNat + 1 < 2 ^ 64) :
    (measureMerge d { a with toTally := mrowFold a.toTally x }).toTally =
      mrowFold (measureMerge d a).toTally x := by
  have hd' := count_pos hd
  have ha' := count_pos ha
  have hsum : (d.count + a.count).toNat = d.count.toNat + a.count.toNat := by
    rw [UInt64.toNat_add]
    exact Nat.mod_eq_of_lt (by omega)
  obtain ⟨ha₀, ha₁⟩ := count_next (c := a.count) ha' (by omega)
  obtain ⟨-, hm₁⟩ := count_next (c := d.count + a.count) (by omega) (by omega)
  have hm₀ : d.count + a.count ≠ 0 := by
    intro h
    rw [h, UInt64.toNat_zero] at hsum
    omega
  simp only [measureMerge, mrowFold, ha, hd, ha₀, ha₁, hm₀, hm₁, if_false, false_or]
  refine Tally.mk.injEq .. |>.mpr ⟨(UInt64.add_assoc ..).symm, (satAdd_assoc ..).symm, ?_, ?_, ?_, ?_⟩
  all_goals
    simp only [ge_iff_le, gt_iff_lt, UInt64.lt_iff_toNat_lt, UInt64.le_iff_toNat_le]
    split_ifs <;> first | rfl | omega

end Folds

section Merges

variable {u k u' k' : UInt32} {xs ys : List (UInt64 × UInt64)}

/-- Merging into a row without values. -/
theorem merge_empty (h : ys.length < 2 ^ 64) :
    (measureMerge (rowOf u k []) (rowOf u' k' ys)).toTally = (rowOf u' k' ys).toTally := by
  unfold measureMerge
  by_cases hys : (rowOf u' k' ys).count = 0
  · obtain rfl := rowOf_zero h hys
    rfl
  · rw [if_neg hys, if_pos (show (rowOf u k []).count = 0 from rfl)]

/-- Merging the rows of two sequences is the row of one after the other. -/
theorem merge_rowOf (h : xs.length + ys.length < 2 ^ 64) :
    (measureMerge (rowOf u k xs) (rowOf u' k' ys)).toTally = (rowOf u k (xs ++ ys)).toTally := by
  by_cases hxs : xs = []
  · subst hxs
    exact merge_empty (by omega)
  have hx : (rowOf u k xs).count.toNat = xs.length := rowOf_count (by omega)
  have hcount : (rowOf u k xs).count ≠ 0 := fun hc => hxs (rowOf_zero (by omega) hc)
  -- on the values of the second row, from the last to the first
  induction ys using reverseRecOn with
  | nil =>
    rw [append_nil]
    rfl
  | append_singleton ys y ih =>
    rw [length_append, length_singleton] at h
    have hy : (rowOf u' k' ys).count.toNat = ys.length := rowOf_count (by omega)
    by_cases hys : ys = []
    · subst hys
      rw [nil_append, rowOf_append]
      exact merge_one y hcount (by omega)
    · have hycount : (rowOf u' k' ys).count ≠ 0 := fun hc => hys (rowOf_zero (by omega) hc)
      rw [rowOf_append, ← append_assoc, rowOf_append, ← ih (by omega)]
      exact merge_fold y hcount hycount (by omega)

/-- A way to merge rows, in order. -/
inductive Grouping
  /-- One shard's row. -/
  | row (unit kind : UInt32) (xs : List (UInt64 × UInt64))
  /-- Two groups, the second into the first. -/
  | merge (g g' : Grouping)

/-- The shards' values. -/
def Grouping.shards : Grouping → List (List (UInt64 × UInt64))
  | .row _ _ xs => [xs]
  | .merge g g' => g.shards ++ g'.shards

/-- What merging in that way gives. -/
def Grouping.merged : Grouping → Measure
  | .row unit kind xs => rowOf unit kind xs
  | .merge g g' => measureMerge g.merged g'.merged

/-- Every grouping gives the row of all values. -/
theorem Grouping.merged_eq (g : Grouping) (h : g.shards.flatten.length < 2 ^ 64) :
    ∃ u k, g.merged = rowOf u k g.shards.flatten := by
  induction g with
  | row u k xs => exact ⟨u, k, by rw [shards, flatten_singleton]; rfl⟩
  | merge g g' ih ih' =>
    rw [shards, flatten_append] at h ⊢
    rw [length_append] at h
    obtain ⟨u, k, hg⟩ := ih (by omega)
    obtain ⟨u', k', hg'⟩ := ih' (by omega)
    have htally : (measureMerge (rowOf u k _) (rowOf u' k' _)).toTally = _ := merge_rowOf h
    rw [← hg, ← hg'] at htally
    refine ⟨(measureMerge g.merged g'.merged).unit, (measureMerge g.merged g'.merged).kind, ?_⟩
    rw [merged]
    generalize measureMerge g.merged g'.merged = m at htally ⊢
    obtain ⟨tally, unit, kind⟩ := m
    cases htally
    rfl

/-- Merging measurements equals measuring together: the row of one sequence merged with that of another
is the row of both in order, and merging the rows of shards in order gives the same row however they are
grouped. -/
theorem merge_equals_fold :
    (∀ u k u' k' u₀ k₀ xs ys, xs.length + ys.length < 2 ^ 64 →
      (measureMerge (rowOf u k xs) (rowOf u' k' ys)).toTally = (rowOf u₀ k₀ (xs ++ ys)).toTally) ∧
    ∀ g g' : Grouping, g.shards = g'.shards → g.shards.flatten.length < 2 ^ 64 →
      g.merged.toTally = g'.merged.toTally := by
  refine ⟨fun u k u' k' u₀ k₀ xs ys h => merge_rowOf h, fun g g' hsame h => ?_⟩
  obtain ⟨u, k, hg⟩ := g.merged_eq h
  obtain ⟨u', k', hg'⟩ := g'.merged_eq (hsame ▸ h)
  rw [hg, hg', hsame]
  rfl

/-- A tie of the latest value goes to the second row, and the sum stops. -/
theorem merge_equals_fold_tie :
    (rowOf 0 0 ([(5, 10), (7, 20)] ++ [(0xFFFFFFFFFFFFFFFE, 20)])).toTally =
        ⟨3, 0xFFFFFFFFFFFFFFFF, 5, 0xFFFFFFFFFFFFFFFE, 0xFFFFFFFFFFFFFFFE, 20⟩ ∧
      (measureMerge (rowOf 0 0 [(5, 10), (7, 20)]) (rowOf 0 0 [(0xFFFFFFFFFFFFFFFE, 20)])).toTally =
        (rowOf 0 0 ([(5, 10), (7, 20)] ++ [(0xFFFFFFFFFFFFFFFE, 20)])).toTally :=
  ⟨by decide, merge_equals_fold.1 0 0 0 0 0 0 _ _ (by decide)⟩

end Merges

end Gptps.MeasureMerge
