import Gptps.EngineStore
import Mathlib.Data.List.GetD
import Mathlib.Data.List.Pairwise

/-!
# Ordered intake

Intake stands in admission order: scores descend, and within one score the
items stand in the order they entered. The cache holds, for some scores, the
last item of that score, scores strictly descending. Every insert, unlink and
re-sort keeps both, so that a cached tail is always the right place to splice.
-/

namespace Gptps.IntakeOrder

open Function LinkedQueue LinkedMergeSort EngineState EngineStore List

/-- One item comes before another in admission order. -/
def Precedes (a b : Item) : Prop :=
  b.schedScore < a.schedScore ∨ a.schedScore = b.schedScore ∧ a.intakeSeq < b.intakeSeq

/-- The list stands in admission order. -/
def Ordered (l : List Item) : Prop := l.Pairwise Precedes

/-- The item at `p` is in the list and is the last one of its score. -/
def LastOfScore (l : List Item) (score : ℤ) (p : Ptr) : Prop :=
  ∃ l₁ x l₂, l = l₁ ++ x :: l₂ ∧ x.ptr = p ∧ x.schedScore = score ∧ ∀ y ∈ l₂, y.schedScore < score

/-- The cache of run tails describes the list. -/
structure CacheOk (l : List Item) (runs : List (ℤ × Ptr)) : Prop where
  /-- Each cached tail is the last item of its score. -/
  tails : ∀ r ∈ runs, LastOfScore l r.1 r.2
  /-- Cached scores strictly descend. -/
  descend : runs.Pairwise fun a b => b.1 < a.1
  /-- The cache has a fixed size. -/
  bounded : runs.length ≤ intakeRuns

/-- The items of intake are told apart, by their addresses and by their entry numbers. -/
structure Entered (l : List Item) (seq : ℕ) : Prop where
  /-- Entry numbers are at most the last one stamped. -/
  stamped : ∀ x ∈ l, x.intakeSeq ≤ seq
  /-- No entry number was stamped twice. -/
  entries : (l.map (·.intakeSeq)).Nodup
  /-- No two items have one address. -/
  nodup : (l.map (·.ptr)).Nodup

/-- Intake is in order and its cache describes it. -/
structure IntakeOk (l : List Item) (runs : List (ℤ × Ptr)) (seq : ℕ) : Prop extends
    Entered l seq where
  /-- Admission order. -/
  ordered : Ordered l
  /-- The cache. -/
  cache : CacheOk l runs

variable {l l₁ l₂ k : List Item} {runs r₁ r₂ r₃ : List (ℤ × Ptr)} {score : ℤ} {seq : ℕ} {p : Ptr}
  {it x : Item} {e : Engine}

/-- Items in admission order descend in score. -/
theorem Precedes.score_le {a b : Item} (h : Precedes a b) : b.schedScore ≤ a.schedScore := by
  rcases h with h | h <;> omega

/-- A descending cache descends from index to index. -/
theorem getD_descend (hd : runs.Pairwise fun a b => b.1 < a.1) {i j : ℕ} (hij : i < j)
    (hj : j < runs.length) : (runs.getD j (0, 0)).1 < (runs.getD i (0, 0)).1 := by
  rw [getD_eq_getElem runs (0, 0) hj, getD_eq_getElem runs (0, 0) (hij.trans hj)]
  exact pairwise_iff_getElem.mp hd i j (hij.trans hj) hj hij

/-- What the binary search answers in a window of a descending cache. -/
theorem runSearch_spec (score : ℤ) (fuel : ℕ) {lo hi : ℕ} (hd : runs.Pairwise fun a b => b.1 < a.1)
    (hhi : hi ≤ runs.length) (hlo : lo ≤ hi) (hf : hi - lo ≤ fuel)
    (hleft : ∀ i < runs.length, i < lo → score < (runs.getD i (0, 0)).1)
    (hright : ∀ i < runs.length, hi ≤ i → (runs.getD i (0, 0)).1 < score) :
    (∃ i < runs.length, runSearch runs score fuel lo hi = (i, true) ∧
      (runs.getD i (0, 0)).1 = score) ∨
    ∃ i ≤ runs.length, runSearch runs score fuel lo hi = (i, false) ∧
      (∀ j < runs.length, j < i → score < (runs.getD j (0, 0)).1) ∧
      ∀ j < runs.length, i ≤ j → (runs.getD j (0, 0)).1 < score := by
  induction fuel generalizing lo hi with
  | zero =>
    have heq : lo = hi := by omega
    subst heq
    exact .inr ⟨lo, hhi, rfl, hleft, hright⟩
  | succ fuel ih =>
    unfold runSearch
    by_cases hlt : lo < hi
    · rw [if_pos hlt]
      have hmid : lo + (hi - lo) / 2 < runs.length := by omega
      generalize hm : lo + (hi - lo) / 2 = mid at *
      by_cases heq : (runs.getD mid (0, 0)).1 = score
      · exact .inl ⟨mid, hmid, if_pos heq, heq⟩
      · rw [if_neg heq]
        by_cases hgt : (runs.getD mid (0, 0)).1 > score
        · rw [if_pos hgt]
          refine ih hhi (by omega) (by omega) ?_ hright
          intro i hi' hlt'
          by_cases him : i = mid
          · rw [him]
            exact hgt
          · have hdown := getD_descend hd (by omega : i < mid) hmid
            omega
        · rw [if_neg hgt]
          refine ih (by omega) (by omega) (by omega) hleft ?_
          intro i hi' hle
          by_cases him : i = mid
          · rw [him]
            omega
          · have hdown := getD_descend hd (by omega : mid < i) hi'
            omega
    · have heq : lo = hi := by omega
      subst heq
      rw [if_neg hlt]
      exact .inr ⟨lo, hhi, rfl, hleft, hright⟩

/-- The cache slot of a score: the run cached for it, or where one belongs. -/
theorem intakeRunSlot_spec (hd : runs.Pairwise fun a b => b.1 < a.1) (score : ℤ) :
    (∃ r₁ p r₂, runs = r₁ ++ (score, p) :: r₂ ∧ intakeRunSlot runs score = (r₁.length, true)) ∨
    ∃ r₁ r₂, runs = r₁ ++ r₂ ∧ intakeRunSlot runs score = (r₁.length, false) ∧
      (∀ r ∈ r₁, score < r.1) ∧ ∀ r ∈ r₂, r.1 < score := by
  have hspec := runSearch_spec score runs.length hd le_rfl (Nat.zero_le _) (Nat.sub_le _ _)
    (fun i _ hi => absurd hi (Nat.not_lt_zero i))
    (fun i h hi => absurd hi (Nat.not_le.mpr h))
  rcases hspec with ⟨i, hi, hs, hscore⟩ | ⟨i, hi, hs, hleft, hright⟩
  · left
    refine ⟨runs.take i, (runs.getD i (0, 0)).2, runs.drop (i + 1), ?_, ?_⟩
    · rw [← hscore, getD_eq_getElem runs (0, 0) hi]
      have hsplit := (take_append_drop i runs).symm
      rwa [drop_eq_getElem_cons hi] at hsplit
    · rw [length_take, min_eq_left (le_of_lt hi)]
      exact hs
  · right
    refine ⟨runs.take i, runs.drop i, (take_append_drop i runs).symm, ?_, ?_, ?_⟩
    · rw [length_take, min_eq_left hi]
      exact hs
    · intro r hr
      obtain ⟨j, hj, rfl⟩ := mem_take_iff_getElem.mp hr
      have hlen : j < runs.length := by omega
      have hlt := hleft j hlen (by omega)
      rwa [getD_eq_getElem runs (0, 0) hlen] at hlt
    · intro r hr
      obtain ⟨j, hj, rfl⟩ := mem_drop_iff_getElem.mp hr
      have hlen : i + j < runs.length := by omega
      have hlt := hright (i + j) hlen (Nat.le_add_right i j)
      rwa [getD_eq_getElem runs (0, 0) hlen] at hlt

/-- Splicing behind the last item of a prefix puts the item between the two parts. -/
theorem insertBehind_prefix (it : Item) (hnd : ((l₁ ++ l₂).map (·.ptr)).Nodup) :
    insertBehind (l₁ ++ l₂) (l₁.getLast?.map (·.ptr)) it = l₁ ++ it :: l₂ := by
  induction l₁ with
  | nil => cases l₂ <;> rfl
  | cons x xs ih =>
    rw [cons_append, map_cons, nodup_cons] at hnd
    cases xs using reverseRecOn with
    | nil => simp [insertBehind]
    | append_singleton ys y =>
      have hne : x.ptr ≠ y.ptr := by
        intro he
        exact hnd.1 (he ▸ mem_map_of_mem (by simp))
      have hrest := ih hnd.2
      simp only [getLast?_concat, Option.map_some] at hrest
      rw [getLast?_cons, getLast?_concat]
      simp only [Option.getD_some, Option.map_some, cons_append, insertBehind, if_neg hne, hrest]

/-- In an ordered list the items scoring at least as much come first. -/
theorem Ordered.split (h : Ordered l) (score : ℤ) :
    ∃ l₁ l₂, l = l₁ ++ l₂ ∧ l₁ = l.takeWhile (fun x => score ≤ x.schedScore) ∧
      (∀ x ∈ l₁, score ≤ x.schedScore) ∧ ∀ x ∈ l₂, x.schedScore < score := by
  refine ⟨l.takeWhile _, l.dropWhile _, takeWhile_append_dropWhile.symm, rfl, ?_, ?_⟩
  · intro x hx
    have hall := all_takeWhile (p := fun x : Item => decide (score ≤ x.schedScore)) (l := l)
    exact of_decide_eq_true (all_eq_true.mp hall x hx)
  · induction l with
    | nil => intro x hx; cases hx
    | cons y ys ih =>
      have hy := (pairwise_cons.mp h)
      intro x hx
      rw [dropWhile_cons] at hx
      split at hx
      · exact ih hy.2 x hx
      · rename_i hnot
        have hlow : y.schedScore < score := by simpa using hnot
        rcases mem_cons.mp hx with rfl | hmem
        · exact hlow
        · have hle := (hy.1 x hmem).score_le
          omega

/-- A cached tail ends the prefix of items scoring at least as much. -/
theorem LastOfScore.split (h : Ordered l) (hlast : LastOfScore l score p) :
    ∃ l₁ l₂, l = l₁ ++ l₂ ∧ l₁.getLast?.map (·.ptr) = some p ∧
      (∀ x ∈ l₁, score ≤ x.schedScore) ∧ ∀ x ∈ l₂, x.schedScore < score := by
  obtain ⟨l₁, x, l₂, rfl, hp, hscore, hlow⟩ := hlast
  refine ⟨l₁ ++ [x], l₂, by simp, by simp [hp], ?_, hlow⟩
  intro y hy
  rcases mem_append.mp hy with hy | hy
  · have hpre := (pairwise_append.mp h).2.2 y hy x mem_cons_self
    rw [← hscore]
    exact hpre.score_le
  · have hyx : y = x := mem_singleton.mp hy
    exact Int.le_of_eq (by rw [hyx, hscore])

/-- The place `intake_insert` splices at, cached or walked to: behind every item
scoring at least as much and before every other. -/
theorem insert_point (h : IntakeOk l runs seq) (score : ℤ) :
    ∃ l₁ l₂, l = l₁ ++ l₂ ∧
      (if (intakeRunSlot runs score).2 then some (runs.getD (intakeRunSlot runs score).1 (0, 0)).2
        else walkPoint l score) = l₁.getLast?.map (·.ptr) ∧
      (∀ x ∈ l₁, score ≤ x.schedScore) ∧ ∀ x ∈ l₂, x.schedScore < score := by
  rcases intakeRunSlot_spec h.cache.descend score with ⟨r₁, p, r₂, hr, hs⟩ | ⟨r₁, r₂, _, hs, _⟩
  · have hlast := h.cache.tails (score, p) (by rw [hr]; simp)
    obtain ⟨l₁, l₂, hl, hp, hge, hlt⟩ := hlast.split h.ordered
    refine ⟨l₁, l₂, hl, ?_, hge, hlt⟩
    rw [hs, hp, if_pos rfl, hr]
    simp
  · obtain ⟨l₁, l₂, hl, htake, hge, hlt⟩ := h.ordered.split score
    refine ⟨l₁, l₂, hl, ?_, hge, hlt⟩
    rw [hs, if_neg Bool.false_ne_true, walkPoint, htake]

/-- A last item of its score stays so when others are put in front of it, or behind
it with a lower score. -/
theorem LastOfScore.insert (h : LastOfScore (l₁ ++ l₂) score p) (hne : it.schedScore ≠ score)
    (hge : ∀ x ∈ l₁, it.schedScore ≤ x.schedScore) (hlt : ∀ x ∈ l₂, x.schedScore < it.schedScore) :
    LastOfScore (l₁ ++ it :: l₂) score p := by
  obtain ⟨k₁, x, k₂, hl, hp, hscore, hlow⟩ := h
  rcases append_eq_append_iff.mp hl with ⟨m, hm₁, hm₂⟩ | ⟨m, hm₁, hm₂⟩
  · refine ⟨l₁ ++ it :: m, x, k₂, by rw [hm₂]; simp, hp, hscore, hlow⟩
  · cases m with
    | nil =>
      rw [nil_append] at hm₂
      exact ⟨l₁ ++ [it], x, k₂, by rw [← hm₂]; simp, hp, hscore, hlow⟩
    | cons y m =>
      injection hm₂ with hxy hk₂
      subst hxy
      refine ⟨k₁, x, m ++ it :: l₂, by rw [hm₁]; simp, hp, hscore, ?_⟩
      intro z hz
      rcases mem_append.mp hz with hz | hz
      · exact hlow z (by rw [hk₂]; exact mem_append_left _ hz)
      · have hx := hge x (by rw [hm₁]; simp)
        rcases mem_cons.mp hz with rfl | hz
        · omega
        · exact hlow z (by rw [hk₂]; exact mem_append_right _ hz)

/-- Inserting at the length of a prefix inserts behind it. -/
theorem insertIdx_length {α : Type*} (r₁ r₂ : List α) (x : α) :
    (r₁ ++ r₂).insertIdx r₁.length x = r₁ ++ x :: r₂ := by
  induction r₁ with
  | nil => rfl
  | cons y ys ih => rw [length_cons, cons_append, insertIdx_succ_cons, ih]; rfl

/-- What caching a new run does: nothing, or the run is entered at its place and later
ones may go. -/
theorem intakeRunCache_spec (r₁ r₂ : List (ℤ × Ptr)) (score : ℤ) (tail : Ptr)
    (hlen : (r₁ ++ r₂).length ≤ intakeRuns) :
    intakeRunCache (r₁ ++ r₂) r₁.length score tail = r₁ ++ r₂ ∨
      ∃ r₃, r₃.Sublist r₂ ∧ (r₁ ++ (score, tail) :: r₃).length ≤ intakeRuns ∧
        intakeRunCache (r₁ ++ r₂) r₁.length score tail = r₁ ++ (score, tail) :: r₃ := by
  unfold intakeRunCache
  split_ifs with hfull hend
  · exact .inl rfl
  · have hne : r₂ ≠ [] := by
      intro hnil
      rw [hnil, append_nil] at hend
      exact hend rfl
    refine .inr ⟨r₂.dropLast, dropLast_sublist r₂, ?_, ?_⟩
    · have hpos := length_pos_iff.mpr hne
      simp only [length_append, length_cons, length_dropLast] at hlen ⊢
      omega
    · rw [dropLast_append_of_ne_nil hne, insertIdx_length]
  · refine .inr ⟨r₂, .refl r₂, ?_, insertIdx_length r₁ r₂ _⟩
    simp only [length_append, length_cons] at hlen hfull ⊢
    omega

/-- A cache all of whose tails are right and whose scores descend around a new one. -/
theorem CacheOk.enter (hlast : LastOfScore l score p) (hkept : ∀ r ∈ r₁ ++ r₂, LastOfScore l r.1 r.2)
    (hd : (r₁ ++ r₂).Pairwise fun a b => b.1 < a.1) (habove : ∀ r ∈ r₁, score < r.1)
    (hbelow : ∀ r ∈ r₂, r.1 < score) (hsub : r₃.Sublist r₂)
    (hlen : (r₁ ++ (score, p) :: r₃).length ≤ intakeRuns) : CacheOk l (r₁ ++ (score, p) :: r₃) := by
  rw [pairwise_append] at hd
  refine ⟨?_, ?_, hlen⟩
  · intro r hr
    rcases mem_append.mp hr with hr | hr
    · exact hkept r (mem_append_left _ hr)
    · rcases mem_cons.mp hr with rfl | hr
      · exact hlast
      · exact hkept r (mem_append_right _ (hsub.subset hr))
  · rw [pairwise_append, pairwise_cons]
    refine ⟨hd.1, ⟨fun r hr => hbelow r (hsub.subset hr), hd.2.1.sublist hsub⟩, ?_⟩
    intro a ha b hb
    rcases mem_cons.mp hb with rfl | hb
    · exact habove a ha
    · exact hd.2.2 a ha b (hsub.subset hb)

/-- The cache around a run found at a score: above it, it, and below it. -/
theorem CacheOk.around (h : CacheOk l (r₁ ++ (score, p) :: r₂)) :
    (r₁ ++ r₂).Pairwise (fun a b => b.1 < a.1) ∧ (∀ r ∈ r₁, score < r.1) ∧
      (∀ r ∈ r₂, r.1 < score) ∧ ∀ r ∈ r₁ ++ r₂, LastOfScore l r.1 r.2 ∧ r.1 ≠ score := by
  have hd := h.descend
  rw [pairwise_append, pairwise_cons] at hd
  obtain ⟨h₁, ⟨hlow, h₂⟩, hcross⟩ := hd
  have habove : ∀ r ∈ r₁, score < r.1 := fun r hr => hcross r hr (score, p) mem_cons_self
  refine ⟨?_, habove, hlow, ?_⟩
  · rw [pairwise_append]
    exact ⟨h₁, h₂, fun a ha b hb => hcross a ha b (mem_cons_of_mem _ hb)⟩
  · intro r hr
    rcases mem_append.mp hr with hr | hr
    · have hgt := habove r hr
      exact ⟨h.tails r (mem_append_left _ hr), by omega⟩
    · have hlt := hlow r hr
      exact ⟨h.tails r (mem_append_right _ (mem_cons_of_mem _ hr)), by omega⟩

/-- The run cache after an item entered behind the last one scoring at least as much. -/
theorem insert_cache (h : CacheOk (l₁ ++ l₂) runs) (it : Item)
    (hge : ∀ x ∈ l₁, it.schedScore ≤ x.schedScore) (hlt : ∀ x ∈ l₂, x.schedScore < it.schedScore) :
    CacheOk (l₁ ++ it :: l₂)
      (if (intakeRunSlot runs it.schedScore).2
        then runs.set (intakeRunSlot runs it.schedScore).1 (it.schedScore, it.ptr)
        else intakeRunCache runs (intakeRunSlot runs it.schedScore).1 it.schedScore it.ptr) := by
  have hlast : LastOfScore (l₁ ++ it :: l₂) it.schedScore it.ptr := ⟨l₁, it, l₂, rfl, rfl, rfl, hlt⟩
  rcases intakeRunSlot_spec h.descend it.schedScore with
    ⟨r₁, p, r₂, rfl, hs⟩ | ⟨r₁, r₂, rfl, hs, habove, hbelow⟩
  · obtain ⟨hd, habove, hbelow, hkept⟩ := h.around
    have hset : (r₁ ++ (it.schedScore, p) :: r₂).set r₁.length (it.schedScore, it.ptr) =
        r₁ ++ (it.schedScore, it.ptr) :: r₂ := by simp
    rw [hs, if_pos rfl, hset]
    refine CacheOk.enter hlast ?_ hd habove hbelow (.refl r₂) ?_
    · intro r hr
      exact (hkept r hr).1.insert (hkept r hr).2.symm hge hlt
    · have hb := h.bounded
      simpa using hb
  · have hkept : ∀ r ∈ r₁ ++ r₂, LastOfScore (l₁ ++ it :: l₂) r.1 r.2 := by
      intro r hr
      have hne : it.schedScore ≠ r.1 := by
        rcases mem_append.mp hr with hr | hr
        · have hgt := habove r hr
          omega
        · have hlow := hbelow r hr
          omega
      exact (h.tails r hr).insert hne hge hlt
    rw [hs, if_neg Bool.false_ne_true]
    rcases intakeRunCache_spec r₁ r₂ it.schedScore it.ptr h.bounded with hsame | ⟨r₃, hsub, hlen, hnew⟩
    · rw [hsame]
      exact ⟨hkept, h.descend, h.bounded⟩
    · rw [hnew]
      exact CacheOk.enter hlast hkept h.descend habove hbelow hsub hlen

/-- An item entering intake is spliced in behind every item scoring at least as much. -/
theorem intakeInsert_eq (h : IntakeOk (e.q .intake) e.runs e.intakeSeq) (it : Item) :
    ∃ l₁ l₂, e.q .intake = l₁ ++ l₂ ∧
      (∀ x ∈ l₁, it.schedScore ≤ x.schedScore) ∧ (∀ x ∈ l₂, x.schedScore < it.schedScore) ∧
      intakeInsert e it = { e with
        q := update e.q .intake (l₁ ++ { it with intakeSeq := e.intakeSeq + 1 } :: l₂)
        links := (insertAfter e.links (e.anchor .intake) (l₁.map (·.ptr)).getLast? it.ptr).1
        anchor := update e.anchor .intake
          (insertAfter e.links (e.anchor .intake) (l₁.map (·.ptr)).getLast? it.ptr).2
        whereIs := update e.whereIs it.ptr (.queue .intake)
        runs := (intakeInsert e it).runs
        intakeSeq := e.intakeSeq + 1 } := by
  obtain ⟨l₁, l₂, hl, hpoint, hge, hlt⟩ := insert_point h it.schedScore
  have hnd := h.nodup
  rw [hl] at hnd
  have hget : (l₁.map (·.ptr)).getLast? = l₁.getLast?.map (·.ptr) := getLast?_map
  have hq := insertBehind_prefix { it with intakeSeq := e.intakeSeq + 1 } hnd
  refine ⟨l₁, l₂, hl, hge, hlt, ?_⟩
  rw [hget, ← hq, ← hl, ← hpoint]
  rfl

/-- An insert keeps intake in order and its cache right. -/
theorem intakeInsert_ok (h : IntakeOk (e.q .intake) e.runs e.intakeSeq)
    (hp : it.ptr ∉ (e.q .intake).map (·.ptr)) :
    IntakeOk ((intakeInsert e it).q .intake) (intakeInsert e it).runs
      (intakeInsert e it).intakeSeq := by
  obtain ⟨l₁, l₂, hl, hge, hlt, heq⟩ := intakeInsert_eq h it
  have hq : (intakeInsert e it).q .intake = l₁ ++ { it with intakeSeq := e.intakeSeq + 1 } :: l₂ := by
    rw [heq]
    simp only [update_self]
  have hord := h.ordered
  have hnew : ∀ x ∈ l₁ ++ l₂, x.intakeSeq < e.intakeSeq + 1 := by
    intro x hx
    exact Nat.lt_succ_of_le (h.stamped x (hl ▸ hx))
  have hperm : (l₁ ++ { it with intakeSeq := e.intakeSeq + 1 } :: l₂).Perm
      ({ it with intakeSeq := e.intakeSeq + 1 } :: (l₁ ++ l₂)) := perm_middle
  refine ⟨⟨?_, ?_, ?_⟩, ?_, ?_⟩
  · intro x hx
    rw [hq, hperm.mem_iff] at hx
    rcases mem_cons.mp hx with rfl | hx
    · exact le_rfl
    · exact le_of_lt (hnew x hx)
  · rw [hq, (hperm.map _).nodup_iff, map_cons, nodup_cons, ← hl]
    refine ⟨?_, h.entries⟩
    intro hmem
    obtain ⟨x, hx, hseq⟩ := mem_map.mp hmem
    have hlow := hnew x (hl ▸ hx)
    simp only at hseq
    omega
  · rw [hq, (hperm.map _).nodup_iff, map_cons, nodup_cons, ← hl]
    exact ⟨hp, h.nodup⟩
  · rw [hq]
    rw [hl, Ordered, pairwise_append] at hord
    rw [Ordered, pairwise_append, pairwise_cons]
    refine ⟨hord.1, ⟨fun x hx => .inl (hlt x hx), hord.2.1⟩, ?_⟩
    intro x hx y hy
    rcases mem_cons.mp hy with rfl | hy
    · have hscore := hge x hx
      have hseq := hnew x (mem_append_left _ hx)
      unfold Precedes
      simp only
      omega
    · exact hord.2.2 x hx y hy
  · rw [hq]
    have hc := h.cache
    rw [hl] at hc
    exact insert_cache hc { it with intakeSeq := e.intakeSeq + 1 } hge hlt

/-- A last item of its score stays so when another item leaves. -/
theorem LastOfScore.erase (h : LastOfScore (l₁ ++ it :: l₂) score p) (hne : it.ptr ≠ p) :
    LastOfScore (l₁ ++ l₂) score p := by
  obtain ⟨k₁, x, k₂, hl, hp, hscore, hlow⟩ := h
  rcases append_eq_append_iff.mp hl with ⟨m, hm₁, hm₂⟩ | ⟨m, hm₁, hm₂⟩
  · cases m with
    | nil =>
      injection hm₂ with hx _
      exact absurd (hx ▸ hp) hne
    | cons y m =>
      injection hm₂ with _ hl₂
      exact ⟨l₁ ++ m, x, k₂, by rw [hl₂]; simp, hp, hscore, hlow⟩
  · cases m with
    | nil =>
      injection hm₂ with hx _
      exact absurd (hx ▸ hp) hne
    | cons y m =>
      injection hm₂ with hxy hk₂
      subst hxy
      refine ⟨k₁, x, m ++ l₂, by rw [hm₁]; simp, hp, hscore, ?_⟩
      intro z hz
      exact hlow z (hk₂ ▸ ((sublist_cons_self it l₂).append_left m).subset hz)

/-- Two last items of the same address have the same score. -/
theorem LastOfScore.score_eq (hnd : (l.map (·.ptr)).Nodup) (hmem : it ∈ l)
    (h : LastOfScore l score it.ptr) : it.schedScore = score := by
  obtain ⟨k₁, x, k₂, rfl, hp, hscore, -⟩ := h
  have hx : x ∈ k₁ ++ x :: k₂ := by simp
  have hinj := inj_on_of_nodup_map hnd
  rw [← hinj hx hmem hp]
  exact hscore

/-- Nothing stands before an address that only the first item can have. -/
theorem itemBefore_none (x : Item) (hk : p ∉ k.map (·.ptr)) : itemBefore p (x :: k) = none := by
  induction k generalizing x with
  | nil => rfl
  | cons y ys ih =>
    rw [map_cons, mem_cons, not_or] at hk
    rw [itemBefore, if_neg fun he => hk.1 he.symm]
    exact ih y hk.2

variable (hnd : ((l₁ ++ it :: l₂).map (·.ptr)).Nodup)

include hnd

/-- The item before another in a list with distinct addresses. -/
theorem itemBefore_split : itemBefore it.ptr (l₁ ++ it :: l₂) = l₁.getLast? := by
  induction l₁ with
  | nil =>
    rw [nil_append, map_cons, nodup_cons] at hnd
    exact itemBefore_none it hnd.1
  | cons x xs ih =>
    rw [cons_append, map_cons, nodup_cons] at hnd
    have hrest := ih hnd.2
    cases xs with
    | nil => simp [itemBefore]
    | cons y ys =>
      have hne : y.ptr ≠ it.ptr := by
        have hin := hnd.2
        rw [cons_append, map_cons, nodup_cons] at hin
        intro he
        exact hin.1 (he ▸ mem_map_of_mem (by simp))
      rw [cons_append, cons_append, itemBefore, if_neg hne]
      rw [cons_append] at hrest
      rw [hrest]
      rfl

/-- Taking an item out by its address leaves the others. -/
theorem eraseP_split : ((l₁ ++ it :: l₂).eraseP fun x => x.ptr = it.ptr) = l₁ ++ l₂ := by
  have hfar : ∀ x ∈ l₁, ¬ decide (x.ptr = it.ptr) = true := by
    intro x hx he
    rw [map_append, nodup_append] at hnd
    exact hnd.2.2 _ (mem_map_of_mem hx) _ mem_cons_self (of_decide_eq_true he)
  rw [eraseP_append_right _ hfar, eraseP_cons_of_pos (by simp)]

/-- Where an item stands in a list with distinct addresses is determined. -/
theorem split_unique {k₁ k₂ : List Item} (hl : l₁ ++ it :: l₂ = k₁ ++ x :: k₂) (hp : x.ptr = it.ptr) :
    k₁ = l₁ ∧ x = it ∧ k₂ = l₂ := by
  have hxi : x = it := inj_on_of_nodup_map hnd (by rw [hl]; simp) (by simp) hp
  subst hxi
  have hn := Nodup.of_map _ hnd
  rw [nodup_append, nodup_cons] at hn
  have hfront : x ∉ l₁ := fun hx => hn.2.2 x hx x mem_cons_self rfl
  have hinj := (append_cons_inj_of_notMem hfront hn.2.1.1).mp hl
  exact ⟨hinj.1.symm, rfl, hinj.2.2.symm⟩

/-- Behind a run tail the scores are lower. -/
theorem LastOfScore.after (h : LastOfScore (l₁ ++ it :: l₂) score it.ptr) :
    ∀ y ∈ l₂, y.schedScore < score := by
  obtain ⟨k₁, x, k₂, hl, hp, -, hlow⟩ := h
  obtain ⟨-, -, rfl⟩ := split_unique hnd hl hp
  exact hlow

/-- A cached run whose tail is not the item that leaves stays right. -/
theorem CacheOk.erase_other (h : CacheOk (l₁ ++ it :: l₂) runs) {r : ℤ × Ptr} (hr : r ∈ runs)
    (hne : r.1 = it.schedScore → r.2 ≠ it.ptr) : LastOfScore (l₁ ++ l₂) r.1 r.2 := by
  refine (h.tails r hr).erase ?_
  intro he
  have hlast := h.tails r hr
  rw [← he] at hlast
  have hscore := hlast.score_eq hnd (by simp)
  exact hne hscore.symm he.symm

/-- The cache after its item `it`, cached as a run tail, left behind `l₁`. -/
theorem tail_cache (h : CacheOk (l₁ ++ it :: l₂) (r₁ ++ (it.schedScore, it.ptr) :: r₂)) :
    CacheOk (l₁ ++ l₂) (match l₁.getLast? with
      | some x =>
        if x.schedScore = it.schedScore then r₁ ++ (it.schedScore, x.ptr) :: r₂ else r₁ ++ r₂
      | none => r₁ ++ r₂) := by
  obtain ⟨hd, habove, hbelow, hkept⟩ := h.around
  have htails : ∀ r ∈ r₁ ++ r₂, LastOfScore (l₁ ++ l₂) r.1 r.2 := by
    intro r hr
    have hin : r ∈ r₁ ++ (it.schedScore, it.ptr) :: r₂ := (sublist_cons_self ..).append_left r₁ |>.subset hr
    exact h.erase_other hnd hin fun he => absurd he (hkept r hr).2
  have hbound := h.bounded
  rw [length_append, length_cons] at hbound
  have hdrop : CacheOk (l₁ ++ l₂) (r₁ ++ r₂) := by
    refine ⟨htails, hd, ?_⟩
    rw [length_append]
    omega
  cases hlast : l₁.getLast? with
  | none => exact hdrop
  | some x =>
    simp only
    split_ifs with hsame
    · obtain ⟨k, rfl⟩ := getLast?_eq_some_iff.mp hlast
      have hcached := h.tails (it.schedScore, it.ptr) (by simp)
      have htail : LastOfScore (k ++ [x] ++ l₂) it.schedScore x.ptr :=
        ⟨k, x, l₂, by simp, rfl, hsame, hcached.after hnd⟩
      refine CacheOk.enter htail htails hd habove hbelow (.refl r₂) ?_
      rw [length_append, length_cons]
      exact hbound
    · exact hdrop

omit hnd

/-- The run cache after an item left, repaired if it was a run tail. -/
theorem unlink_cache (h : IntakeOk (e.q .intake) e.runs e.intakeSeq) (hl : e.q .intake = l₁ ++ it :: l₂) :
    CacheOk (l₁ ++ l₂) (intakeUnlink e it).runs := by
  have hc := h.cache
  have hnd := h.nodup
  rw [hl] at hc hnd
  simp only [intakeUnlink, hl, itemBefore_split hnd]
  rcases intakeRunSlot_spec hc.descend it.schedScore with
    ⟨r₁, p, r₂, hr, hs⟩ | ⟨r₁, r₂, hr, hs, habove, hbelow⟩
  · by_cases hp : p = it.ptr
    · have htail := tail_cache hnd (hp ▸ hr ▸ hc)
      have herase : (r₁ ++ (it.schedScore, p) :: r₂).eraseIdx r₁.length = r₁ ++ r₂ := by
        simp [eraseIdx_append_of_length_le]
      rw [hs, hr, intakeRunDrop, herase]
      cases hlast : l₁.getLast? <;> rw [hlast] at htail <;> simpa [hp] using htail
    · rw [hs, hr]
      have hother : ¬ (true = true ∧
          ((r₁ ++ (it.schedScore, p) :: r₂).getD r₁.length (0, 0)).2 = it.ptr) := by
        simpa using hp
      rw [if_neg hother, ← hr]
      refine ⟨fun r hm => hc.erase_other hnd hm ?_, hc.descend, hc.bounded⟩
      intro hscore
      rw [hr] at hm hc
      obtain ⟨-, -, -, hkept⟩ := hc.around
      rcases mem_append.mp hm with hm | hm
      · exact absurd hscore (hkept r (mem_append_left _ hm)).2
      · rcases mem_cons.mp hm with rfl | hm
        · exact hp
        · exact absurd hscore (hkept r (mem_append_right _ hm)).2
  · have hnone : ¬ ((intakeRunSlot e.runs it.schedScore).2 = true ∧
        (e.runs.getD (intakeRunSlot e.runs it.schedScore).1 (0, 0)).2 = it.ptr) := by
      rw [hs]
      exact fun hx => absurd hx.1 Bool.false_ne_true
    rw [if_neg hnone]
    refine ⟨fun r hm => hc.erase_other hnd hm ?_, hc.descend, hc.bounded⟩
    intro hscore
    rw [hr] at hm
    rcases mem_append.mp hm with hm | hm
    · have hgt := habove r hm
      omega
    · have hlt := hbelow r hm
      omega

/-- Fewer items in the same order are told apart too. -/
theorem Entered.sublist (h : Entered l seq) (hs : k.Sublist l) : Entered k seq :=
  ⟨fun x hx => h.stamped x (hs.subset hx), h.entries.sublist (hs.map _), h.nodup.sublist (hs.map _)⟩

/-- An item of intake and what stands around it. -/
theorem intakeUnlink_q (hnd : ((e.q .intake).map (·.ptr)).Nodup) (hl : e.q .intake = l₁ ++ it :: l₂) :
    (intakeUnlink e it).q .intake = l₁ ++ l₂ := by
  rw [hl] at hnd
  simp only [intakeUnlink, fifoRemove, update_self, hl]
  exact eraseP_split hnd

/-- An unlink keeps intake in order and its cache right. -/
theorem intakeUnlink_ok (h : IntakeOk (e.q .intake) e.runs e.intakeSeq) (hit : it ∈ e.q .intake) :
    IntakeOk ((intakeUnlink e it).q .intake) (intakeUnlink e it).runs
      (intakeUnlink e it).intakeSeq := by
  obtain ⟨l₁, l₂, hl⟩ := append_of_mem hit
  have hq := intakeUnlink_q h.nodup hl
  have hsub : (l₁ ++ l₂).Sublist (e.q .intake) := by
    rw [hl]
    exact (Sublist.refl l₁).append (sublist_cons_self it l₂)
  rw [hq]
  exact ⟨h.toEntered.sublist hsub, h.ordered.sublist hsub, unlink_cache h hl⟩

/-- Without a cached tail only the order counts: fewer items stay in order. -/
theorem IntakeOk.forget (h : IntakeOk l runs seq) (hs : k.Sublist l) : IntakeOk k [] seq :=
  ⟨h.toEntered.sublist hs, h.ordered.sublist hs,
    ⟨forall_mem_nil _, .nil, Nat.zero_le _⟩⟩

/-- Rewriting fields the order does not read keeps everything. -/
theorem IntakeOk.map (h : IntakeOk l runs seq) {f : Item → Item} (hp : ∀ x, (f x).ptr = x.ptr)
    (hs : ∀ x, (f x).schedScore = x.schedScore) (hq : ∀ x, (f x).intakeSeq = x.intakeSeq) :
    IntakeOk (l.map f) runs seq := by
  have hptr : (fun x : Item => x.ptr) ∘ f = fun x => x.ptr := funext hp
  have hseq : (fun x : Item => x.intakeSeq) ∘ f = fun x => x.intakeSeq := funext hq
  refine ⟨⟨?_, ?_, ?_⟩, ?_, ?_, h.cache.descend, h.cache.bounded⟩
  · intro x hx
    obtain ⟨y, hy, rfl⟩ := mem_map.mp hx
    rw [hq]
    exact h.stamped y hy
  · rw [map_map, hseq]
    exact h.entries
  · rw [map_map, hptr]
    exact h.nodup
  · refine pairwise_map.mpr (h.ordered.imp ?_)
    intro a b hab
    unfold Precedes at hab ⊢
    rwa [hs, hs, hq, hq]
  · intro r hr
    obtain ⟨l₁, x, l₂, rfl, hx, hscore, hlow⟩ := h.cache.tails r hr
    refine ⟨l₁.map f, f x, l₂.map f, by simp, (hp x).trans hx, (hs x).trans hscore, ?_⟩
    intro y hy
    obtain ⟨z, hz, rfl⟩ := mem_map.mp hy
    rw [hs]
    exact hlow z hz

section Resort

/-- Items with distinct addresses are found by them. -/
theorem find_ptr (hnd : (l.map (·.ptr)).Nodup) (hx : x ∈ l) :
    (l.find? fun y => y.ptr = x.ptr) = some x := by
  obtain ⟨l₁, l₂, rfl⟩ := append_of_mem hx
  rw [find?_eq_some_iff_append]
  refine ⟨by simp, l₁, l₂, rfl, ?_⟩
  intro y hy
  have hne : y.ptr ≠ x.ptr := by
    rw [map_append, nodup_append] at hnd
    exact hnd.2.2 _ (mem_map_of_mem hy) _ mem_cons_self
  simp [hne]

/-- The sort key of an item of intake is its own. -/
theorem intakeKey_eq (hnd : (l.map (·.ptr)).Nodup) (hx : x ∈ l) :
    intakeKey l x.ptr = (x.schedScore, x.intakeSeq) := by
  rw [intakeKey, find_ptr hnd hx]
  rfl

/-- What it is to stand in sort order. -/
theorem inOrder_iff (x y : Ptr) : inOrder (intakeBefore l) x y = true ↔
    (intakeKey l y).1 < (intakeKey l x).1 ∨
      (intakeKey l y).1 = (intakeKey l x).1 ∧ (intakeKey l x).2 ≤ (intakeKey l y).2 := by
  unfold inOrder intakeBefore
  rw [Bool.not_eq_true', Bool.or_eq_false_iff, Bool.and_eq_false_iff]
  simp only [decide_eq_false_iff_not, beq_eq_false_iff_ne, ne_eq]
  omega

/-- Sort order is transitive. -/
theorem inOrder_trans (x y z : Ptr) (hxy : inOrder (intakeBefore l) x y = true)
    (hyz : inOrder (intakeBefore l) y z = true) : inOrder (intakeBefore l) x z = true := by
  rw [inOrder_iff] at *
  omega

/-- Any two items stand in sort order one way or the other. -/
theorem inOrder_total (x y : Ptr) :
    (inOrder (intakeBefore l) x y || inOrder (intakeBefore l) y x) = true := by
  rw [Bool.or_eq_true, inOrder_iff, inOrder_iff]
  omega

/-- The items at a rearrangement of the addresses are a rearrangement of the items. -/
theorem collect_perm (hnd : (l.map (·.ptr)).Nodup) {ps : List Ptr} (hp : ps.Perm (l.map (·.ptr))) :
    (ps.filterMap fun p => l.find? fun x => x.ptr = p).Perm l ∧
      (ps.filterMap fun p => l.find? fun x => x.ptr = p).map (·.ptr) = ps := by
  have hself : ((l.map (·.ptr)).filterMap fun p => l.find? fun x => x.ptr = p) = l := by
    rw [filterMap_map]
    have hsome : ∀ x ∈ l, ((fun p => l.find? fun x => x.ptr = p) ∘ fun x => x.ptr) x = some x :=
      fun x hx => find_ptr hnd hx
    rw [filterMap_congr hsome, filterMap_some]
  constructor
  · have hperm := hp.filterMap fun p => l.find? fun x => x.ptr = p
    rwa [hself] at hperm
  · rw [map_filterMap]
    have hsome : ∀ p ∈ ps, (l.find? fun x => x.ptr = p).map (·.ptr) = some p := by
      intro p hmem
      obtain ⟨x, hx, rfl⟩ := mem_map.mp (hp.mem_iff.mp hmem)
      rw [find_ptr hnd hx]
      rfl
    rw [filterMap_congr hsome, filterMap_some]

/-- Items in sort order with distinct entry numbers are in admission order. -/
theorem ordered_of_sorted (hnd : (l.map (·.ptr)).Nodup) (hk : k.Perm l)
    (hent : (l.map (·.intakeSeq)).Nodup)
    (hs : (k.map (·.ptr)).Pairwise fun x y => inOrder (intakeBefore l) x y = true) : Ordered k := by
  have hseq : k.Pairwise fun x y => x.intakeSeq ≠ y.intakeSeq := by
    have hn := (hk.map (·.intakeSeq)).nodup_iff.mpr hent
    exact pairwise_map.mp hn
  refine ((pairwise_map.mp hs).and hseq).imp_of_mem ?_
  intro x y hx hy hxy
  have hin := (inOrder_iff x.ptr y.ptr).mp hxy.1
  rw [intakeKey_eq hnd (hk.mem_iff.mp hx), intakeKey_eq hnd (hk.mem_iff.mp hy)] at hin
  have hne := hxy.2
  unfold Precedes
  simp only at hin
  omega

/-- The re-sort ends, only permutes intake, puts it in admission order and forgets the
cache. -/
theorem intakeResort_spec (h : Entered (e.q .intake) seq)
    (hrep : Rep e.links (e.anchor .intake) ((e.q .intake).map (·.ptr))) :
    ∃ m a k, intakeResort e = { e with
        links := m, anchor := update e.anchor .intake a, q := update e.q .intake k, runs := [] } ∧
      k.Perm (e.q .intake) ∧ Ordered k ∧ Rep m a (k.map (·.ptr)) ∧
      ∀ y ∉ (e.q .intake).map (·.ptr),
        m.next y = e.links.next y ∧ m.prev y = e.links.prev y := by
  obtain ⟨m, a, ps, hsort, hrep', hperm, hsorted, hframe⟩ :=
    sortQueue_spec (intakeBefore (e.q .intake)) inOrder_trans inOrder_total hrep
  obtain ⟨hk, hptrs⟩ := collect_perm h.nodup hperm
  refine ⟨m, a, _, ?_, hk, ?_, ?_, hframe⟩
  · rw [intakeResort, hsort]
  · exact ordered_of_sorted h.nodup hk h.entries (hptrs.symm ▸ hsorted)
  · rw [hptrs]
    exact hrep'

/-- Intake after a re-sort. -/
theorem resort_ok (h : Entered l seq) (hk : k.Perm l) (ho : Ordered k) : IntakeOk k [] seq := by
  refine ⟨⟨?_, ?_, ?_⟩, ho, ⟨?_, .nil, Nat.zero_le _⟩⟩
  · intro x hx
    exact h.stamped x (hk.mem_iff.mp hx)
  · exact (hk.map _).nodup_iff.mpr h.entries
  · exact (hk.map _).nodup_iff.mpr h.nodup
  · intro r hr
    exact absurd hr not_mem_nil

end Resort

end Gptps.IntakeOrder
