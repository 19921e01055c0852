import Mathlib.Order.Bounds.Basic
import Mathlib.Order.Lattice.Nat

/-!
# Edit distance

The least number of insertions, deletions and substitutions that turn one list into another, its
recursion on both lists, and the bounds with which a table of it can be given up early.
-/

namespace Gptps.EditDistance

open List

variable {α : Type*} {a b c d : List α} {x y : α} {n m : ℕ}

/-- `Script a b n`: `n` insertions, deletions and substitutions turn `a` into `b`. -/
inductive Script : List α → List α → ℕ → Prop
  /-- Nothing is left. -/
  | nil : Script [] [] 0
  /-- An element stays. -/
  | keep {a b : List α} {n : ℕ} (x : α) (h : Script a b n) : Script (x :: a) (x :: b) n
  /-- An element is inserted. -/
  | insert {a b : List α} {n : ℕ} (y : α) (h : Script a b n) : Script a (y :: b) (n + 1)
  /-- An element is deleted. -/
  | delete {a b : List α} {n : ℕ} (x : α) (h : Script a b n) : Script (x :: a) b (n + 1)
  /-- An element is replaced. -/
  | substitute {a b : List α} {n : ℕ} (x y : α) (h : Script a b n) :
    Script (x :: a) (y :: b) (n + 1)

/-- Scripts of two parts make one of the whole. -/
theorem Script.append (h : Script a b n) (h' : Script c d m) : Script (a ++ c) (b ++ d) (m + n) := by
  induction h with
  | nil => exact h'
  | keep x _ ih => exact .keep x ih
  | insert y _ ih => exact .insert y ih
  | delete x _ ih => exact .delete x ih
  | substitute x y _ ih => exact .substitute x y ih

/-- A script can be read from the other end. -/
theorem Script.reverse (h : Script a b n) : Script a.reverse b.reverse n := by
  induction h with
  | nil => exact .nil
  | keep x _ ih => simpa using ih.append (.keep x .nil)
  | insert y _ ih => simpa [add_comm] using ih.append (.insert y .nil)
  | delete x _ ih => simpa [add_comm] using ih.append (.delete x .nil)
  | substitute x y _ ih => simpa [add_comm] using ih.append (.substitute x y .nil)

/-- Part of a script turns the end of the first list into an end of the second. -/
theorem Script.suffix (h : Script (c ++ a) b n) : ∃ b₁ b₂ m, b = b₁ ++ b₂ ∧ m ≤ n ∧ Script a b₂ m := by
  generalize hl : c ++ a = l at h
  induction h generalizing c with
  | nil =>
    obtain ⟨rfl, rfl⟩ := append_eq_nil_iff.mp hl
    exact ⟨[], [], 0, rfl, le_rfl, .nil⟩
  | insert y h ih =>
    obtain ⟨b₁, b₂, m, rfl, hm, hs⟩ := ih hl
    exact ⟨y :: b₁, b₂, m, rfl, Nat.le_succ_of_le hm, hs⟩
  | keep x h ih =>
    cases c with
    | nil =>
      cases hl
      exact ⟨[], _, _, rfl, le_rfl, .keep x h⟩
    | cons z c =>
      obtain ⟨b₁, b₂, m, rfl, hm, hs⟩ := ih (cons.inj hl).2
      exact ⟨x :: b₁, b₂, m, rfl, hm, hs⟩
  | delete x h ih =>
    cases c with
    | nil =>
      cases hl
      exact ⟨[], _, _, rfl, le_rfl, .delete x h⟩
    | cons z c =>
      obtain ⟨b₁, b₂, m, rfl, hm, hs⟩ := ih (cons.inj hl).2
      exact ⟨b₁, b₂, m, rfl, Nat.le_succ_of_le hm, hs⟩
  | substitute x y h ih =>
    cases c with
    | nil =>
      cases hl
      exact ⟨[], _, _, rfl, le_rfl, .substitute x y h⟩
    | cons z c =>
      obtain ⟨b₁, b₂, m, rfl, hm, hs⟩ := ih (cons.inj hl).2
      exact ⟨y :: b₁, b₂, m, rfl, Nat.le_succ_of_le hm, hs⟩

/-- A script makes up for the difference of the lengths. -/
theorem Script.length (h : Script a b n) : a.length ≤ b.length + n ∧ b.length ≤ a.length + n := by
  induction h with
  | nil => exact ⟨le_rfl, le_rfl⟩
  | keep | insert | delete | substitute => simp only [length_cons]; omega

theorem Script.inserts (b : List α) : Script [] b b.length := by
  induction b with
  | nil => exact .nil
  | cons y b ih => exact .insert y ih

theorem Script.deletes (a b : List α) : Script a b (b.length + a.length) := by
  induction a with
  | nil => exact .inserts b
  | cons x a ih => exact .delete x ih

/-- The edit distance: the least number of edits. -/
noncomputable def dist (a b : List α) : ℕ := sInf {n | Script a b n}

theorem dist_script (a b : List α) : Script a b (dist a b) := Nat.sInf_mem ⟨_, .deletes a b⟩

theorem dist_le (h : Script a b n) : dist a b ≤ n := Nat.sInf_le h

/-- Different lists have some distance. -/
theorem dist_pos (hne : a ≠ b) : 0 < dist a b := by
  refine Nat.pos_of_ne_zero fun hzero => hne ?_
  have hs := dist_script a b
  rw [hzero] at hs
  clear hne hzero
  induction a generalizing b with
  | nil => cases hs; rfl
  | cons x a ih =>
    cases hs with
    | keep _ h => rw [ih h]

theorem dist_nil_left (b : List α) : dist [] b = b.length := by
  refine le_antisymm (dist_le (.inserts b)) ?_
  simpa using (dist_script [] b).length.2

theorem dist_nil_right (a : List α) : dist a [] = a.length := by
  refine le_antisymm ?_ (by simpa using (dist_script a []).length.1)
  simpa using dist_le (Script.deletes a [])

/-- The distance of two lists from those of shorter ones. -/
theorem dist_cons_cons [DecidableEq α] (x y : α) (a b : List α) : dist (x :: a) (y :: b) =
    min (min (dist a b + if x = y then 0 else 1) (dist (x :: a) b + 1)) (dist a (y :: b) + 1) := by
  refine le_antisymm (le_min (le_min ?_ ?_) ?_) ?_
  · split_ifs with hxy
    · subst hxy
      exact dist_le (.keep x (dist_script a b))
    · exact dist_le (.substitute x y (dist_script a b))
  · exact dist_le (.insert y (dist_script (x :: a) b))
  · exact dist_le (.delete x (dist_script a (y :: b)))
  · have hs := dist_script (x :: a) (y :: b)
    generalize dist (x :: a) (y :: b) = n at hs
    rw [min_le_iff, min_le_iff]
    cases hs with
    | keep _ h => exact .inl (.inl (by rw [if_pos rfl]; exact dist_le h))
    | insert _ h => exact .inl (.inr (Nat.succ_le_succ (dist_le h)))
    | delete _ h => exact .inr (Nat.succ_le_succ (dist_le h))
    | substitute _ _ h =>
      refine .inl (.inl (Nat.add_le_add (dist_le h) ?_))
      split_ifs <;> omega

theorem dist_reverse (a b : List α) : dist a.reverse b.reverse = dist a b := by
  refine le_antisymm (dist_le (dist_script a b).reverse) (dist_le ?_)
  have hs := (dist_script a.reverse b.reverse).reverse
  rwa [reverse_reverse, reverse_reverse] at hs

/-- No distance is less than the least one of the row of a shorter list. -/
theorem dist_append_ge (hrow : ∀ b₁ b₂, b = b₁ ++ b₂ → n < dist a b₂) (c : List α) :
    n < dist (c ++ a) b := by
  obtain ⟨b₁, b₂, m, hb, hm, hs⟩ := (dist_script (c ++ a) b).suffix
  exact lt_of_lt_of_le (hrow b₁ b₂ hb) (le_trans (dist_le hs) hm)

end Gptps.EditDistance
