import Mathlib.Data.List.Perm.Basic
import Mathlib.Tactic.SplitIfs

/-!
# A binary heap in an array

Pushing and popping move a hole along a path between the root and a leaf until the new element fits.
The order is any strict weak order, given as a test. Both loops are written with fuel and answer
`none` where it runs out, so that their end is a statement.
-/

namespace Gptps.ArrayHeap

open List Option

variable {α : Type*} (before : α → α → Bool)

/-- The place above place `i`. -/
def parent (i : ℕ) : ℕ := (i - 1) / 2

/-- Move the hole at `i` up until `x` fits. -/
def siftUp : ℕ → List α → ℕ → α → Option (List α)
  | 0, _, _, _ => none
  | fuel + 1, l, i, x =>
    if i = 0 then some (l.set 0 x)
    else
      match l[parent i]? with
      | none => none
      | some y => if before x y then siftUp fuel (l.set i y) (parent i) x else some (l.set i x)

/-- Add an element. -/
def push (l : List α) (x : α) : Option (List α) := siftUp before (l.length + 1) (l ++ [x]) l.length x

/-- The child of place `i` that goes first, if it has any. -/
def firstChild (l : List α) (i : ℕ) : Option (ℕ × α) :=
  (l[2 * i + 1]?).map fun y =>
    match l[2 * i + 2]? with
    | some z => if before z y then (2 * i + 2, z) else (2 * i + 1, y)
    | none => (2 * i + 1, y)

/-- Move the hole at `i` down until `x` fits. -/
def siftDown : ℕ → List α → ℕ → α → Option (List α)
  | 0, _, _, _ => none
  | fuel + 1, l, i, x =>
    match firstChild before l i with
    | none => some (l.set i x)
    | some (c, y) => if before y x then siftDown fuel (l.set i y) c x else some (l.set i x)

/-- Take the first element off; the last one fills the hole. -/
def pop (l : List α) : Option (Option (α × List α)) :=
  match l.head?, l.getLast? with
  | some top, some last =>
    (siftDown before (l.length + 1) l.dropLast 0 last).map fun l' => some (top, l')
  | _, _ => some none

/-- No element goes before the one above it. -/
def Ordered (l : List α) : Prop :=
  ∀ i x y, 0 < i → l[i]? = some x → l[parent i]? = some y → before x y = false

/-- A test that orders strictly: not both ways round, and elements that do not go before each other
are alike to all others. -/
structure StrictWeak : Prop where
  /-- Not both ways round. -/
  asymm : ∀ x y, before x y = true → before y x = false
  /-- What goes before none that goes before none. -/
  negTrans : ∀ x y z, before x y = false → before y z = false → before x z = false

variable {before} {l l' : List α} {i c : ℕ} {x y z : α}

theorem parent_lt (hi : i ≠ 0) : parent i < i := by
  unfold parent
  omega

theorem StrictWeak.irrefl (hb : StrictWeak before) (x : α) : before x x = false := by
  cases hx : before x x with
  | false => rfl
  | true => exact (hb.asymm x x hx).symm.trans hx |>.symm

/-- What goes before none goes before none that goes before it. -/
theorem StrictWeak.of_before (hb : StrictWeak before) (hxy : before x y = true)
    (hzy : before z y = false) : before z x = false := hb.negTrans z y x hzy (hb.asymm x y hxy)

/-- What place `j` holds once place `i` was set. -/
theorem get_set (hi : i < l.length) (x : α) (j : ℕ) :
    (l.set i x)[j]? = if i = j then some x else l[j]? := by
  rw [getElem?_set]
  split_ifs with hij
  · rfl
  · rfl

/-- Moving an element into the hole and the hole to its place keeps what is stored. -/
theorem move_perm {j : ℕ} (hi : i < l.length) (hij : i ≠ j) (hj : l[j]? = some y) (x : α) :
    ((l.set i y).set j x).Perm (l.set i x) := by
  obtain ⟨hlt, hget⟩ := List.getElem?_eq_some_iff.mp hj
  have hlt' : j < (l.set i x).length := by rwa [length_set]
  have hi' : i < (l.set i x).length := by rwa [length_set]
  have hperm := set_set_perm hi' hlt'
  rw [getElem_set_self, getElem_set_ne hij, hget, set_set] at hperm
  exact hperm

section Up

/-- The hole at `i` may move up with `x`: the pairs off the hole are in order, its children do not go
before its parent, nor before `x`. -/
structure UpOrder (before : α → α → Bool) (l : List α) (i : ℕ) (x : α) : Prop where
  /-- Pairs off the hole. -/
  except : ∀ j y z, 0 < j → j ≠ i → parent j ≠ i → l[j]? = some y → l[parent j]? = some z →
    before y z = false
  /-- Children and parent of the hole. -/
  grand : ∀ j y z, 0 < j → parent j = i → i ≠ 0 → l[j]? = some y → l[parent i]? = some z →
    before y z = false
  /-- Children of the hole and `x`. -/
  below : ∀ j y, 0 < j → parent j = i → l[j]? = some y → before y x = false

/-- The hole is filled. -/
theorem UpOrder.fill (ho : UpOrder before l i x) (hi : i < l.length)
    (hstop : i ≠ 0 → ∀ y, l[parent i]? = some y → before x y = false) : Ordered before (l.set i x) := by
  intro j u v hj hu hv
  rw [get_set hi] at hu hv
  by_cases hij : i = j
  · subst hij
    rw [if_pos rfl] at hu
    have hne : i ≠ parent i := Nat.ne_of_gt (parent_lt (Nat.ne_of_gt hj))
    rw [if_neg hne] at hv
    cases hu
    exact hstop (Nat.ne_of_gt hj) v hv
  · rw [if_neg hij] at hu
    by_cases hpj : i = parent j
    · rw [if_pos hpj] at hv
      cases hv
      exact ho.below j u hj hpj.symm hu
    · rw [if_neg hpj] at hv
      exact ho.except j u v hj (Ne.symm hij) (Ne.symm hpj) hu hv

/-- The hole moves up past an element `x` goes before. -/
theorem UpOrder.move (hb : StrictWeak before) (ho : UpOrder before l i x) (hi : i < l.length)
    (hne : i ≠ 0) (hy : l[parent i]? = some y) (hxy : before x y = true) :
    UpOrder before (l.set i y) (parent i) x := by
  have hlt := parent_lt hne
  -- the element above the hole is in order with its own parent
  have hup : ∀ w, parent i ≠ 0 → l[parent (parent i)]? = some w → before y w = false := by
    intro w hp hw
    have hlt' := parent_lt hp
    exact ho.except (parent i) y w (Nat.pos_of_ne_zero hp) (by omega) (by omega) hy hw
  -- and with its children
  have hdown : ∀ j u, 0 < j → j ≠ i → parent j = parent i → l[j]? = some u → before u y = false := by
    intro j u hj hji hpj hu
    exact ho.except j u y hj hji (by omega) hu (hpj ▸ hy)
  refine ⟨fun j u v hj hjp hpj hu hv => ?_, fun j u v hj hpj hp hu hv => ?_, fun j u hj hpj hu => ?_⟩
  · rw [get_set hi] at hu hv
    by_cases hij : i = j
    · exact absurd (hij ▸ rfl) hpj
    · rw [if_neg hij] at hu
      by_cases hip : i = parent j
      · rw [if_pos hip] at hv
        cases hv
        exact ho.grand j u y hj hip.symm hne hu hy
      · rw [if_neg hip] at hv
        exact ho.except j u v hj (Ne.symm hij) (Ne.symm hip) hu hv
  · have hlt' := parent_lt hp
    rw [get_set hi] at hu hv
    rw [if_neg (by omega)] at hv
    have hyv := hup v hp hv
    by_cases hij : i = j
    · rw [if_pos hij] at hu
      cases hu
      exact hyv
    · rw [if_neg hij] at hu
      exact hb.negTrans u y v (hdown j u hj (Ne.symm hij) hpj hu) hyv
  · rw [get_set hi] at hu
    by_cases hij : i = j
    · rw [if_pos hij] at hu
      cases hu
      exact hb.asymm x y hxy
    · rw [if_neg hij] at hu
      exact hb.of_before hxy (hdown j u hj (Ne.symm hij) hpj hu)

/-- The way up ends, in a heap of the same elements. -/
theorem siftUp_some (hb : StrictWeak before) {fuel : ℕ} (hf : i < fuel) (hi : i < l.length)
    (ho : UpOrder before l i x) :
    ∃ l', siftUp before fuel l i x = some l' ∧ Ordered before l' ∧ l'.Perm (l.set i x) := by
  induction fuel generalizing l i with
  | zero => exact absurd hf (Nat.not_lt_zero i)
  | succ fuel ih =>
    unfold siftUp
    by_cases hzero : i = 0
    · subst hzero
      exact ⟨_, rfl, ho.fill hi fun hno => absurd rfl hno, .refl _⟩
    · rw [if_neg hzero]
      have hlt := parent_lt hzero
      have hget : l[parent i]? = some (l.get ⟨parent i, by omega⟩) := getElem?_eq_getElem _
      rw [hget]
      dsimp only
      by_cases hgo : before x (l.get ⟨parent i, by omega⟩) = true
      · rw [if_pos hgo]
        obtain ⟨l', hl', hord, hperm⟩ := ih (l := l.set i _) (by omega)
          (by rw [length_set]; omega) (ho.move hb hi hzero hget hgo)
        exact ⟨l', hl', hord, hperm.trans (move_perm hi (Nat.ne_of_gt hlt) hget x)⟩
      · rw [if_neg hgo]
        refine ⟨_, rfl, ho.fill hi fun _ y hy => ?_, .refl _⟩
        cases hget.symm.trans hy
        exact Bool.eq_false_iff.mpr hgo

/-- Pushing ends, in a heap that holds one element more. -/
theorem push_some (hb : StrictWeak before) (hl : Ordered before l) (x : α) :
    ∃ l', push before l x = some l' ∧ Ordered before l' ∧ l'.Perm (x :: l) := by
  have hget : ∀ j y, (l ++ [x])[j]? = some y → j ≠ l.length → l[j]? = some y := by
    intro j y hy hj
    obtain ⟨hlt, -⟩ := List.getElem?_eq_some_iff.mp hy
    rw [length_append, length_singleton] at hlt
    rwa [getElem?_append_left (by omega)] at hy
  have hleaf : ∀ j y, 0 < j → parent j = l.length → (l ++ [x])[j]? ≠ some y := by
    intro j y hj hp hy
    obtain ⟨hlt, -⟩ := List.getElem?_eq_some_iff.mp hy
    rw [length_append, length_singleton] at hlt
    have hup := parent_lt (Nat.ne_of_gt hj)
    omega
  have ho : UpOrder before (l ++ [x]) l.length x := by
    refine ⟨fun j y z hj hji hpj hy hz => ?_, fun j y z hj hpj _ hy _ => ?_, fun j y hj hpj hy => ?_⟩
    · exact hl j y z hj (hget j y hy hji) (hget _ z hz hpj)
    · exact absurd hy (hleaf j y hj hpj)
    · exact absurd hy (hleaf j y hj hpj)
  obtain ⟨l', hl', hord, hperm⟩ := siftUp_some hb (Nat.lt_succ_self l.length) (by simp) ho
  refine ⟨l', hl', hord, hperm.trans ?_⟩
  have hset : (l ++ [x]).set l.length x = l ++ [x] := by simp
  rw [hset]
  exact perm_append_singleton x l

end Up

section Down

/-- A child of place `i`. -/
theorem child_cases {j : ℕ} (hj : 0 < j) (hp : parent j = i) : j = 2 * i + 1 ∨ j = 2 * i + 2 := by
  unfold parent at hp
  omega

/-- The first child is one, and none of the children goes before it. -/
theorem firstChild_some (hb : StrictWeak before) (hc : firstChild before l i = some (c, y)) :
    0 < c ∧ parent c = i ∧ l[c]? = some y ∧
      ∀ j z, 0 < j → parent j = i → l[j]? = some z → before z y = false := by
  obtain ⟨u, hu, hc⟩ := map_eq_some_iff.mp hc
  have hright : l[2 * i + 2]? = none ∨ ∃ v, l[2 * i + 2]? = some v := eq_none_or_eq_some _
  have hfirst : (c = 2 * i + 1 ∧ y = u ∧ ∀ v, l[2 * i + 2]? = some v → before v u = false) ∨
      c = 2 * i + 2 ∧ l[2 * i + 2]? = some y ∧ before y u = true := by
    rcases hright with hnone | ⟨v, hv⟩
    · rw [hnone] at hc
      cases hc
      exact .inl ⟨rfl, rfl, fun v hv => by cases hnone.symm.trans hv⟩
    · rw [hv] at hc
      dsimp only at hc
      split_ifs at hc with hvu
      · cases hc
        exact .inr ⟨rfl, hv, hvu⟩
      · cases hc
        refine .inl ⟨rfl, rfl, fun w hw => ?_⟩
        cases hv.symm.trans hw
        exact Bool.eq_false_iff.mpr hvu
  rcases hfirst with ⟨rfl, rfl, hno⟩ | ⟨rfl, hy, hyu⟩
  · refine ⟨by omega, by unfold parent; omega, hu, fun j z hj hp hz => ?_⟩
    rcases child_cases hj hp with rfl | rfl
    · have hzy := some.inj (hz.symm.trans hu)
      rw [hzy]
      exact hb.irrefl y
    · exact hno z hz
  · refine ⟨by omega, by unfold parent; omega, hy, fun j z hj hp hz => ?_⟩
    rcases child_cases hj hp with rfl | rfl
    · have hzu := some.inj (hz.symm.trans hu)
      rw [hzu]
      exact hb.asymm y u hyu
    · have hzy := some.inj (hz.symm.trans hy)
      rw [hzy]
      exact hb.irrefl y

theorem firstChild_none (hc : firstChild before l i = none) {j : ℕ} (hj : 0 < j) (hp : parent j = i) :
    l[j]? = none := by
  have hleft := List.getElem?_eq_none_iff.mp (map_eq_none_iff.mp hc)
  rcases child_cases hj hp with rfl | rfl
  · exact List.getElem?_eq_none_iff.mpr hleft
  · exact List.getElem?_eq_none_iff.mpr (by omega)

/-- The hole at `i` may move down with `x`: the pairs off the hole are in order, and neither its
children nor `x` go before its parent. -/
structure DownOrder (before : α → α → Bool) (l : List α) (i : ℕ) (x : α) : Prop where
  /-- Pairs off the hole. -/
  except : ∀ j y z, 0 < j → j ≠ i → parent j ≠ i → l[j]? = some y → l[parent j]? = some z →
    before y z = false
  /-- Children and parent of the hole. -/
  grand : ∀ j y z, 0 < j → parent j = i → i ≠ 0 → l[j]? = some y → l[parent i]? = some z →
    before y z = false
  /-- The parent of the hole and `x`. -/
  above : ∀ y, i ≠ 0 → l[parent i]? = some y → before x y = false

theorem DownOrder.fill (ho : DownOrder before l i x) (hi : i < l.length)
    (hstop : ∀ j y, 0 < j → parent j = i → l[j]? = some y → before y x = false) :
    Ordered before (l.set i x) := by
  refine UpOrder.fill ⟨ho.except, ho.grand, hstop⟩ hi fun hne y hy => ho.above y hne hy

theorem DownOrder.move (hb : StrictWeak before) (ho : DownOrder before l i x) (hi : i < l.length)
    (hc : firstChild before l i = some (c, y)) (hyx : before y x = true) :
    DownOrder before (l.set i y) c x := by
  obtain ⟨hpos, hpc, hy, hmin⟩ := firstChild_some hb hc
  have hlt := parent_lt (Nat.ne_of_gt hpos)
  refine ⟨fun j u v hj hjc hpj hu hv => ?_, fun j u v hj hpj _ hu hv => ?_, fun u _ hu => ?_⟩
  · rw [get_set hi] at hu hv
    by_cases hij : i = j
    · subst hij
      have hne : i ≠ parent i := Nat.ne_of_gt (parent_lt (Nat.ne_of_gt hj))
      rw [if_pos rfl] at hu
      rw [if_neg hne] at hv
      cases hu
      exact ho.grand c y v hpos hpc (Nat.ne_of_gt hj) hy hv
    · rw [if_neg hij] at hu
      by_cases hip : i = parent j
      · rw [if_pos hip] at hv
        cases hv
        exact hmin j u hj hip.symm hu
      · rw [if_neg hip] at hv
        exact ho.except j u v hj (Ne.symm hij) (Ne.symm hip) hu hv
  · have hltj := parent_lt (Nat.ne_of_gt hj)
    rw [get_set hi] at hu hv
    rw [if_neg (by omega)] at hu
    rw [if_pos hpc.symm] at hv
    cases hv
    exact ho.except j u y hj (by omega) (by omega) hu (hpj ▸ hy)
  · rw [get_set hi, if_pos hpc.symm] at hu
    cases hu
    exact hb.asymm y x hyx

/-- The way down ends, in a heap of the same elements. -/
theorem siftDown_some (hb : StrictWeak before) (fuel : ℕ) (hf : l.length < fuel + i) (hi : i < l.length)
    (ho : DownOrder before l i x) :
    ∃ l', siftDown before fuel l i x = some l' ∧ Ordered before l' ∧ l'.Perm (l.set i x) := by
  induction fuel generalizing l i with
  | zero => omega
  | succ fuel ih =>
    unfold siftDown
    cases hc : firstChild before l i with
    | none =>
      refine ⟨_, rfl, ho.fill hi fun j y hj hp hy => ?_, .refl _⟩
      rw [firstChild_none hc hj hp] at hy
      cases hy
    | some p =>
      obtain ⟨c, y⟩ := p
      obtain ⟨hpos, hpc, hy, hmin⟩ := firstChild_some hb hc
      have hlt := parent_lt (Nat.ne_of_gt hpos)
      obtain ⟨hclt, -⟩ := List.getElem?_eq_some_iff.mp hy
      dsimp only
      by_cases hgo : before y x = true
      · rw [if_pos hgo]
        obtain ⟨l', hl', hord, hperm⟩ := ih (l := l.set i y) (i := c) (by rw [length_set]; omega)
          (by rwa [length_set]) (ho.move hb hi hc hgo)
        exact ⟨l', hl', hord, hperm.trans (move_perm hi (by omega) hy x)⟩
      · rw [if_neg hgo]
        refine ⟨_, rfl, ho.fill hi fun j z hj hp hz => ?_, .refl _⟩
        exact hb.negTrans z y x (hmin j z hj hp hz) (Bool.eq_false_iff.mpr hgo)

/-- The root of a heap is first: nothing goes before it. -/
theorem root_first (hb : StrictWeak before) (hl : Ordered before l) (hx : l[0]? = some x)
    (hy : l[i]? = some y) : before y x = false := by
  induction i using Nat.strongRecOn generalizing y with
  | ind i ih =>
    by_cases hzero : i = 0
    · subst hzero
      have hyx := some.inj (hy.symm.trans hx)
      rw [hyx]
      exact hb.irrefl x
    · have hlt := parent_lt hzero
      obtain ⟨hil, -⟩ := List.getElem?_eq_some_iff.mp hy
      have hp : l[parent i]? = some (l.get ⟨parent i, by omega⟩) := getElem?_eq_getElem _
      exact hb.negTrans _ _ _ (hl i y _ (Nat.pos_of_ne_zero hzero) hy hp) (ih (parent i) hlt hp)

/-- Popping ends: the first element comes off, nothing goes before it, and a heap of the others is
left. -/
theorem pop_some (hb : StrictWeak before) (hl : Ordered before l) :
    (l = [] ∧ pop before l = some none) ∨
      ∃ top l', pop before l = some (some (top, l')) ∧ Ordered before l' ∧ l.Perm (top :: l') ∧
        ∀ y ∈ l, before y top = false := by
  cases l with
  | nil => exact .inl ⟨rfl, rfl⟩
  | cons top rest =>
    right
    have hfirst : ∀ y ∈ top :: rest, before y top = false := by
      intro y hy
      obtain ⟨i, hi⟩ := getElem?_of_mem hy
      exact root_first hb hl rfl hi
    have hne : top :: rest ≠ [] := cons_ne_nil _ _
    have hlast : (top :: rest).getLast? = some ((top :: rest).getLast hne) := getLast?_eq_some_getLast hne
    unfold pop
    rw [hlast]
    dsimp only [head?_cons]
    cases rest with
    | nil => exact ⟨top, [], rfl, fun _ _ _ _ hu => (nomatch hu), .refl _, hfirst⟩
    | cons next rest =>
      have hhead : (top :: next :: rest).dropLast = top :: (next :: rest).dropLast := rfl
      have hget : ∀ (j : ℕ) (y : α), (top :: next :: rest).dropLast[j]? = some y →
          (top :: next :: rest)[j]? = some y := by
        intro j y hy
        rw [getElem?_dropLast] at hy
        split_ifs at hy with hj
        exact hy
      have ho : DownOrder before (top :: next :: rest).dropLast 0 ((top :: next :: rest).getLast hne) :=
        ⟨fun j u v hj _ _ hu hv => hl j u v hj (hget j u hu) (hget _ v hv),
          fun _ _ _ _ _ hno => absurd rfl hno, fun _ hno => absurd rfl hno⟩
      obtain ⟨l', hl', hord, hperm⟩ := siftDown_some hb ((top :: next :: rest).length + 1)
        (by rw [length_dropLast]; omega) (by rw [hhead]; exact Nat.succ_pos _) ho
      refine ⟨top, l', by rw [hl']; rfl, hord, ?_, hfirst⟩
      refine Perm.cons top (hperm.trans ?_).symm
      have happ := dropLast_append_getLast (cons_ne_nil next rest)
      have hback := (perm_append_singleton ((next :: rest).getLast (cons_ne_nil next rest))
        (next :: rest).dropLast).symm
      rwa [happ] at hback

end Down

end Gptps.ArrayHeap
