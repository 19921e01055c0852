import Mathlib.Order.Lattice.Nat
import Mathlib.Tactic.SplitIfs

/-!
# Binary search in a list sorted by a key

The loop halves an interval of indices around the place where a key must be. On a list whose
keys rise it finds the key exactly when the list has it.
-/

namespace Gptps.SortedSearch

open List

variable {α K : Type*} [LinearOrder K]

/-- The search in the indices from `lo` up to `hi`. -/
def searchFrom (l : List α) (key : α → K) (k : K) : ℕ → ℕ → ℕ → Option ℕ
  | 0, _, _ => none
  | fuel + 1, lo, hi =>
    if lo < hi then
      let mid := lo + (hi - lo) / 2
      match l[mid]? with
      | none => none
      | some a =>
        if key a = k then some mid
        else if key a < k then searchFrom l key k fuel (mid + 1) hi
        else searchFrom l key k fuel lo mid
    else none

/-- The index of the element with the key `k`. -/
def search (l : List α) (key : α → K) (k : K) : Option ℕ :=
  searchFrom l key k l.length 0 l.length

variable {l : List α} {key : α → K} {k : K} {fuel lo hi i : ℕ}

/-- What the search finds has the key, whether or not the keys rise. -/
theorem searchFrom_sound (h : searchFrom l key k fuel lo hi = some i) :
    ∃ a, l[i]? = some a ∧ key a = k := by
  induction fuel generalizing lo hi with
  | zero => cases h
  | succ fuel ih =>
    rw [searchFrom] at h
    split_ifs at h with hlt
    dsimp only at h
    cases hmid : l[lo + (hi - lo) / 2]? with
    | none => rw [hmid] at h; cases h
    | some a =>
      rw [hmid] at h
      dsimp only at h
      split_ifs at h with hkey hless
      · cases h
        exact ⟨a, hmid, hkey⟩
      · exact ih h
      · exact ih h

/-- An element between the bounds is found. -/
theorem searchFrom_finds (hsort : l.Pairwise fun a b => key a < key b) {a : α}
    (hi' : l[i]? = some a) (hkey : key a = k) (hlo : lo ≤ i) (hhi : i < hi)
    (hlen : hi ≤ l.length) (hfuel : hi - lo ≤ fuel) :
    (searchFrom l key k fuel lo hi).isSome := by
  induction fuel generalizing lo hi with
  | zero => omega
  | succ fuel ih =>
    have hmid : lo + (hi - lo) / 2 < l.length := by omega
    rw [searchFrom, if_pos (by omega)]
    dsimp only
    rw [getElem?_eq_getElem hmid]
    dsimp only
    have hil : i < l.length := by omega
    have ha : l[i] = a := by
      rw [getElem?_eq_getElem hil] at hi'
      exact Option.some.inj hi'
    have hrise := pairwise_iff_getElem.mp hsort
    split_ifs with heq hless
    · rfl
    · refine ih ?_ hhi hlen (by omega)
      by_contra hle
      rcases Nat.lt_or_eq_of_le (le_of_not_gt hle) with hlt | hsame
      · have := hrise _ _ hil hmid hlt
        rw [ha, hkey] at this
        exact lt_asymm this hless
      · simp only [← hsame, ha, hkey] at heq
        exact heq trivial
    · refine ih hlo ?_ (by omega) (by omega)
      by_contra hle
      rcases Nat.lt_or_eq_of_le (le_of_not_gt hle) with hlt | hsame
      · have := hrise _ _ hmid hil hlt
        rw [ha, hkey] at this
        exact hless this
      · simp only [hsame, ha, hkey] at heq
        exact heq trivial

/-- Elements at two indices of a list with rising keys have different keys. -/
theorem index_unique (hsort : l.Pairwise fun a b => key a < key b) {j : ℕ} {a b : α}
    (ha : l[i]? = some a) (hb : l[j]? = some b) (hkey : key a = key b) : i = j := by
  obtain ⟨hil, rfl⟩ := List.getElem?_eq_some_iff.mp ha
  obtain ⟨hjl, rfl⟩ := List.getElem?_eq_some_iff.mp hb
  have hrise := pairwise_iff_getElem.mp hsort
  rcases lt_trichotomy i j with hlt | heq | hgt
  · exact absurd (hrise i j hil hjl hlt) (hkey ▸ lt_irrefl _)
  · exact heq
  · exact absurd (hrise j i hjl hil hgt) (hkey ▸ lt_irrefl _)

/-- On rising keys the search is exact. -/
theorem search_iff (hsort : l.Pairwise fun a b => key a < key b) :
    search l key k = some i ↔ ∃ a, l[i]? = some a ∧ key a = k := by
  constructor
  · exact searchFrom_sound
  · rintro ⟨a, ha, hkey⟩
    obtain ⟨hil, -⟩ := List.getElem?_eq_some_iff.mp ha
    have hfound := searchFrom_finds hsort ha hkey (Nat.zero_le i) hil le_rfl
      (le_of_eq (Nat.sub_zero _))
    obtain ⟨j, hj⟩ := Option.isSome_iff_exists.mp hfound
    obtain ⟨b, hb, hbk⟩ := searchFrom_sound hj
    have hsame : j = i := index_unique hsort hb ha (hbk.trans hkey.symm)
    rw [search, hj, hsame]

end Gptps.SortedSearch
