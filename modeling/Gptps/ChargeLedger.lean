import Mathlib.Algebra.BigOperators.Group.Multiset.Basic
import Mathlib.Algebra.Order.Group.Multiset

/-!
# A ledger of charges

What is reserved of one main budget and of a growing list of further ones is the
sum of the charges of the holders, each charge being the amounts recorded when it
was made. Charging adds its amounts, releasing takes the same amounts off again,
and budgets added later begin with nothing reserved. The amounts are from any
commutative group, such as machine words.
-/

namespace Gptps.ChargeLedger

open List

variable {M : Type*} [AddCommGroup M]

/-- Add the amounts of a charge to the budgets it reaches. -/
def addEach : List M → List M → List M
  | r :: rs, s :: ss => (r + s) :: addEach rs ss
  | rs, _ => rs

/-- Take the amounts of a charge off the budgets it reaches. -/
def subEach : List M → List M → List M
  | r :: rs, s :: ss => (r - s) :: subEach rs ss
  | rs, _ => rs

/-- Adding a charge changes no budget's place. -/
theorem addEach_length (v c : List M) : (addEach v c).length = v.length := by
  induction v generalizing c with
  | nil => rfl
  | cons r rs ih =>
    cases c with
    | nil => rfl
    | cons s ss => simp only [addEach, length_cons, ih]

/-- Nor does taking one off. -/
theorem subEach_length (v c : List M) : (subEach v c).length = v.length := by
  induction v generalizing c with
  | nil => rfl
  | cons r rs ih =>
    cases c with
    | nil => rfl
    | cons s ss => simp only [subEach, length_cons, ih]

/-- Each budget after a charge that reaches no further than they do. -/
theorem addEach_getD {v c : List M} (h : c.length ≤ v.length) (i : ℕ) :
    (addEach v c).getD i 0 = v.getD i 0 + c.getD i 0 := by
  induction v generalizing c i with
  | nil =>
    have hc : c = [] := length_eq_zero_iff.mp (Nat.le_zero.mp h)
    subst hc
    exact (add_zero _).symm
  | cons r rs ih =>
    cases c with
    | nil => exact (add_zero _).symm
    | cons s ss =>
      cases i with
      | zero => rfl
      | succ i =>
        exact ih (Nat.le_of_succ_le_succ h) i

/-- Each budget after a release. -/
theorem subEach_getD {v c : List M} (h : c.length ≤ v.length) (i : ℕ) :
    (subEach v c).getD i 0 = v.getD i 0 - c.getD i 0 := by
  induction v generalizing c i with
  | nil =>
    have hc : c = [] := length_eq_zero_iff.mp (Nat.le_zero.mp h)
    subst hc
    exact (sub_zero _).symm
  | cons r rs ih =>
    cases c with
    | nil => exact (sub_zero _).symm
    | cons s ss =>
      cases i with
      | zero => rfl
      | succ i =>
        exact ih (Nat.le_of_succ_le_succ h) i

/-- The count of holders, the main total and the further totals are those of the charges. -/
structure Balances (count : ℕ) (total : M) (v : List M) (cs : Multiset (M × List M)) : Prop where
  /-- How many charges there are. -/
  count : count = cs.card
  /-- Their sum on the main budget. -/
  total : total = (cs.map Prod.fst).sum
  /-- A charge reaches only budgets there are. -/
  short : ∀ c ∈ cs, c.2.length ≤ v.length
  /-- Their sum on each further budget. -/
  each : ∀ i, v.getD i 0 = (cs.map fun c => c.2.getD i 0).sum

namespace Balances

variable {n : ℕ} {t : M} {v : List M} {cs : Multiset (M × List M)} {c : M × List M}

/-- Nothing is charged at first. -/
theorem empty : Balances 0 (0 : M) [] 0 :=
  ⟨rfl, rfl, fun c hc => absurd hc (Multiset.notMem_zero c), fun _ => rfl⟩

/-- A charge is made. -/
theorem reserve (h : Balances n t v cs) (hc : c.2.length ≤ v.length) :
    Balances (n + 1) (t + c.1) (addEach v c.2) (c ::ₘ cs) := by
  refine ⟨?_, ?_, ?_, ?_⟩
  · rw [Multiset.card_cons, h.count]
  · rw [Multiset.map_cons, Multiset.sum_cons, h.total, add_comm]
  · intro x hx
    rw [addEach_length]
    rcases Multiset.mem_cons.mp hx with rfl | hx
    · exact hc
    · exact h.short x hx
  · intro i
    rw [addEach_getD hc, Multiset.map_cons, Multiset.sum_cons, h.each, add_comm]

/-- A charge is released. -/
theorem release (h : Balances n t v (c ::ₘ cs)) :
    Balances (n - 1) (t - c.1) (subEach v c.2) cs := by
  have hc := h.short c (Multiset.mem_cons_self c cs)
  refine ⟨?_, ?_, ?_, ?_⟩
  · rw [h.count, Multiset.card_cons, Nat.add_sub_cancel]
  · rw [h.total, Multiset.map_cons, Multiset.sum_cons, add_sub_cancel_left]
  · intro x hx
    rw [subEach_length]
    exact h.short x (Multiset.mem_cons_of_mem hx)
  · intro i
    rw [subEach_getD hc, h.each, Multiset.map_cons, Multiset.sum_cons, add_sub_cancel_left]

/-- New budgets begin with nothing reserved. -/
theorem extend (h : Balances n t v cs) (k : ℕ) : Balances n t (v ++ replicate k 0) cs := by
  refine ⟨h.count, h.total, ?_, ?_⟩
  · intro x hx
    rw [length_append]
    exact (h.short x hx).trans (Nat.le_add_right _ _)
  · intro i
    rw [← h.each i]
    simp only [getD_eq_getElem?_getD]
    by_cases hi : i < v.length
    · rw [getElem?_append_left hi]
    · have hle : v.length ≤ i := le_of_not_gt hi
      rw [getElem?_append_right hle, getElem?_eq_none hle, getElem?_replicate]
      split_ifs <;> rfl

end Balances

end Gptps.ChargeLedger
