import Gptps.LinkedQueue
import Mathlib.Algebra.Ring.Nat
import Mathlib.Data.List.Chain
import Mathlib.Data.List.Induction
import Mathlib.Data.List.Nodup
import Mathlib.Data.List.Perm.Basic
import Mathlib.Logic.Function.Basic

/-!
# Bottom-up merge sort of a linked list in place

The sort relinks the forward pointers of a list: it merges runs of one node,
then of two, then of four, until one merge covers the whole list. Every loop
carries fuel, and `none` stands both for a loop that did not stop within its
fuel and for a null pointer that was followed. On a list of distinct nodes the
sort answers, permutes the nodes, orders them, and writes no other node.
-/

namespace Gptps.LinkedMergeSort

open Function LinkedQueue List Option

variable {P : Type*} [DecidableEq P]

/-- The variables of the merging loop. -/
structure MergeState (P : Type*) where
  /-- The forward links. -/
  next : P → Option P
  /-- The next node of the left run. -/
  p : Option P
  /-- The next node of the right run. -/
  q : Option P
  /-- The nodes left of the left run. -/
  psize : ℕ
  /-- The nodes left of the right run, unless the list ends first. -/
  qsize : ℕ
  /-- The first node of the output. -/
  list : Option P
  /-- The last node of the output. -/
  tail : Option P

/-- Link a node behind the output. -/
def emit (s : MergeState P) (x : P) : MergeState P :=
  match s.tail with
  | none => { s with list := some x, tail := some x }
  | some t => { s with next := update s.next t (some x), tail := some x }

/-- Move the next node of the left run to the output. -/
def pickLeft (s : MergeState P) : Option (MergeState P) :=
  s.p.map fun x => emit { s with p := s.next x, psize := s.psize - 1 } x

/-- Move the next node of the right run to the output. -/
def pickRight (s : MergeState P) : Option (MergeState P) :=
  s.q.map fun x => emit { s with q := s.next x, qsize := s.qsize - 1 } x

/-- Choose the run the next node comes from: the right one only when its node
has to stand strictly before the left one's. -/
def pick (before : P → P → Bool) (s : MergeState P) : Option (MergeState P) :=
  if s.psize = 0 then pickRight s
  else if s.qsize = 0 then pickLeft s
  else
    match s.p, s.q with
    | _, none => pickLeft s
    | none, some _ => none
    | some x, some y => if before y x then pickRight s else pickLeft s

/-- Merge the two runs. -/
def mergeRuns (before : P → P → Bool) : ℕ → MergeState P → Option (MergeState P)
  | 0, _ => none
  | fuel + 1, s =>
    if s.psize > 0 ∨ s.qsize > 0 ∧ s.q.isSome then (pick before s).bind (mergeRuns before fuel)
    else some s

/-- Step over the left run, counting its nodes. -/
def skipRun (next : P → Option P) : ℕ → Option P → ℕ → Option (Option P × ℕ)
  | 0, q, psize => some (q, psize)
  | _ + 1, none, _ => none
  | n + 1, some x, psize =>
    match next x with
    | none => some (none, psize + 1)
    | some y => skipRun next n (some y) (psize + 1)

/-- What one pass over the list leaves behind. -/
structure PassState (P : Type*) where
  /-- The forward links. -/
  next : P → Option P
  /-- The first node of the output. -/
  list : Option P
  /-- The last node of the output. -/
  tail : Option P
  /-- How many pairs of runs were merged. -/
  nmerges : ℕ

/-- Merge the runs of a list pairwise. -/
def mergePass (before : P → P → Bool) (bound insize : ℕ) :
    ℕ → Option P → PassState P → Option (PassState P)
  | 0, _, _ => none
  | _ + 1, none, s => some s
  | fuel + 1, some x, s =>
    (skipRun s.next insize (some x) 0).bind fun (q, psize) =>
      (mergeRuns before bound ⟨s.next, some x, q, psize, insize, s.list, s.tail⟩).bind fun r =>
        mergePass before bound insize fuel r.q ⟨r.next, r.list, r.tail, s.nmerges + 1⟩

/-- Repeat the pass with runs twice as long until one merge is left. -/
def sortLoop (before : P → P → Bool) (bound : ℕ) :
    ℕ → ℕ → (P → Option P) → Option P → Option ((P → Option P) × Option P)
  | 0, _, _, _ => none
  | fuel + 1, insize, next, list =>
    (mergePass before bound insize bound list ⟨next, none, none, 0⟩).bind fun r =>
      r.tail.bind fun t =>
        let next' := update r.next t none
        if r.nmerges ≤ 1 then some (next', r.list)
        else sortLoop before bound fuel (insize * 2) next' r.list

/-- Sort the list that starts at `list`; `bound` exceeds the number of its nodes. -/
def linkedSort (before : P → P → Bool) (bound : ℕ) (next : P → Option P) (list : Option P) :
    Option ((P → Option P) × Option P) :=
  match list with
  | none => some (next, none)
  | some x =>
    if (next x).isNone then some (next, some x)
    else sortLoop before bound bound 1 next (some x)

/-- Following the forward links from `a` goes through `l` and arrives at `b`. -/
def Path (next : P → Option P) : Option P → List P → Option P → Prop
  | a, [], b => a = b
  | a, x :: xs, b => a = some x ∧ Path next (next x) xs b

/-- The output so far: its end nodes and the links between its nodes. -/
structure Output (next : P → Option P) (list tail : Option P) (out : List P) : Prop where
  /-- The first node. -/
  list_eq : list = out.head?
  /-- The last node. -/
  tail_eq : tail = out.getLast?
  /-- Each node leads to the one behind it. -/
  linked : out.IsChain fun a b => next a = some b

variable {next next' : P → Option P} {s : MergeState P} {l l₁ l₂ out ps qs : List P} {a b c : Option P}
  {x y : P}

omit [DecidableEq P] in
/-- A path depends only on the links of its own nodes. -/
theorem path_congr (h : ∀ x ∈ l, next' x = next x) : Path next a l b → Path next' a l b := by
  induction l generalizing a with
  | nil => exact id
  | cons x xs ih =>
    rintro ⟨ha, hp⟩
    refine ⟨ha, ih (fun y hy => h y (mem_cons_of_mem x hy)) ?_⟩
    rw [h x mem_cons_self]
    exact hp

omit [DecidableEq P] in
/-- A path through an appended list splits where the first part ends. -/
theorem path_append : Path next a (l₁ ++ l₂) b ↔ ∃ c, Path next a l₁ c ∧ Path next c l₂ b := by
  induction l₁ generalizing a with
  | nil => simp only [nil_append, Path, exists_eq_left']
  | cons x xs ih => simp only [cons_append, Path, ih, exists_and_left, and_assoc]

omit [DecidableEq P] in
/-- A path that ends nowhere starts at its first node. -/
theorem Path.start (h : Path next a l none) : a = l.head? := by
  cases l with
  | nil => exact h
  | cons x xs => exact h.1

omit [DecidableEq P] in
/-- Output links change only with the links of nodes before the last one. -/
theorem isChain_congr (h : ∀ x ∈ out.dropLast, next' x = next x)
    (hc : out.IsChain fun a b => next a = some b) : out.IsChain fun a b => next' a = some b := by
  induction out with
  | nil => exact .nil
  | cons x xs ih =>
    cases xs with
    | nil => exact List.IsChain.singleton x
    | cons y ys =>
      rw [isChain_cons_cons] at hc ⊢
      refine ⟨?_, ih (fun z hz => h z (mem_cons_of_mem x hz)) hc.2⟩
      rw [h x mem_cons_self]
      exact hc.1

/-- Linking a new node behind the output extends it by that node. -/
theorem emit_output (h : Output s.next s.list s.tail out) (hnd : out.Nodup) :
    Output (emit s x).next (emit s x).list (emit s x).tail (out ++ [x]) := by
  obtain ⟨hl, ht, hc⟩ := h
  cases out using reverseRecOn with
  | nil =>
    have htail : s.tail = none := ht
    simp only [emit, htail]
    exact ⟨rfl, rfl, List.IsChain.singleton x⟩
  | append_singleton ys y =>
    rw [getLast?_concat] at ht
    simp only [emit, ht]
    refine ⟨?_, by simp, ?_⟩
    · rw [hl]
      cases ys <;> rfl
    · rw [isChain_append]
      refine ⟨?_, List.IsChain.singleton x, ?_⟩
      · refine isChain_congr ?_ hc
        intro z hz
        rw [dropLast_concat] at hz
        refine update_of_ne ?_ _ _
        rintro rfl
        exact (nodup_append.mp hnd).2.2 z hz z (by simp) rfl
      · intro a ha b hb
        rw [getLast?_concat, mem_some_iff] at ha
        cases ha
        cases hb
        exact update_self _ _ _

/-- Linking behind the output writes no node outside it. -/
theorem emit_frame (h : Output s.next s.list s.tail out) (hy : y ∉ out) :
    (emit s x).next y = s.next y := by
  cases ht : s.tail with
  | none => simp only [emit, ht]
  | some t =>
    simp only [emit, ht]
    refine update_of_ne ?_ _ _
    rintro rfl
    exact hy (mem_of_getLast? (h.tail_eq ▸ ht))

/-- A merge in progress: what is linked already and what is left of the two runs,
the right one being followed by the rest of the list. -/
structure Merging (s : MergeState P) (out ps qs : List P) (c : Option P) : Prop where
  /-- The output so far. -/
  output : Output s.next s.list s.tail out
  /-- What is left of the left run. -/
  left : Path s.next s.p ps c
  /-- What is left of the list from the right run on. -/
  right : Path s.next s.q qs none
  /-- The count of the left run. -/
  psize_eq : s.psize = ps.length
  /-- No node occurs twice. -/
  nodup : (out ++ (ps ++ qs)).Nodup

/-- A node taken from a run goes to the end of the output. -/
theorem emit_merging (hout : Output s.next s.list s.tail out) (hleft : Path s.next s.p ps c)
    (hright : Path s.next s.q qs none) (hsize : s.psize = ps.length)
    (hnd : (out ++ x :: (ps ++ qs)).Nodup) :
    Merging (emit s x) (out ++ [x]) ps qs c ∧ (emit s x).qsize = s.qsize ∧
      ∀ y ∉ out, (emit s x).next y = s.next y := by
  have hframe : ∀ y ∉ out, (emit s x).next y = s.next y := fun y hy => emit_frame hout hy
  have hfields : (emit s x).p = s.p ∧ (emit s x).q = s.q ∧
      (emit s x).psize = s.psize ∧ (emit s x).qsize = s.qsize := by
    unfold emit
    split <;> exact ⟨rfl, rfl, rfl, rfl⟩
  obtain ⟨hp, hq, hpsize, hqsize⟩ := hfields
  have hsplit := nodup_append.mp hnd
  have hkeep : ∀ y ∈ ps ++ qs, (emit s x).next y = s.next y := fun y hy =>
    hframe y fun hyo => hsplit.2.2 y hyo y (mem_cons_of_mem x hy) rfl
  refine ⟨⟨emit_output hout hsplit.1, ?_, ?_, hpsize.trans hsize, ?_⟩, hqsize, hframe⟩
  · rw [hp]
    exact path_congr (fun y hy => hkeep y (mem_append_left qs hy)) hleft
  · rw [hq]
    exact path_congr (fun y hy => hkeep y (mem_append_right ps hy)) hright
  · rw [append_assoc]
    exact hnd

theorem Merging.pickLeft (h : Merging s out (x :: ps) qs c) :
    ∃ s', LinkedMergeSort.pickLeft s = some s' ∧ Merging s' (out ++ [x]) ps qs c ∧
      s'.qsize = s.qsize ∧ ∀ y ∉ out, s'.next y = s.next y := by
  obtain ⟨hp, hpath⟩ := h.left
  refine ⟨emit { s with p := s.next x, psize := s.psize - 1 } x, ?_,
    emit_merging (s := { s with p := s.next x, psize := s.psize - 1 }) h.output hpath h.right ?_ h.nodup⟩
  · rw [LinkedMergeSort.pickLeft, hp, map_some]
  · exact congrArg (· - 1) h.psize_eq

theorem Merging.pickRight (h : Merging s out ps (x :: qs) c) :
    ∃ s', LinkedMergeSort.pickRight s = some s' ∧ Merging s' (out ++ [x]) ps qs c ∧
      s'.qsize = s.qsize - 1 ∧ ∀ y ∉ out, s'.next y = s.next y := by
  obtain ⟨hq, hpath⟩ := h.right
  have hperm : (out ++ x :: (ps ++ qs)).Perm (out ++ (ps ++ x :: qs)) :=
    perm_middle.symm.append_left out
  refine ⟨emit { s with q := s.next x, qsize := s.qsize - 1 } x, ?_,
    emit_merging (s := { s with q := s.next x, qsize := s.qsize - 1 }) h.output h.left hpath h.psize_eq
      (hperm.nodup_iff.mpr h.nodup)⟩
  rw [LinkedMergeSort.pickRight, hq, map_some]

section Spec

variable (before : P → P → Bool) {k fuel bound : ℕ}

/-- The order the sort establishes: the second of two nodes must not stand before the first. -/
def inOrder (a b : P) : Bool := !before b a

omit [DecidableEq P] in
/-- The merging loop goes on exactly while a run has a node left. -/
theorem merging_goes_on (h : Merging s out ps qs c) :
    (s.psize > 0 ∨ s.qsize > 0 ∧ s.q.isSome) ↔ ps ≠ [] ∨ qs.take s.qsize ≠ [] := by
  rw [h.psize_eq, h.right.start]
  cases ps with
  | nil =>
    cases qs with
    | nil => simp
    | cons y qs => cases s.qsize <;> simp
  | cons x ps => simp

/-- One choice of the loop is the choice of the list merge. -/
theorem Merging.pick (h : Merging s out ps qs c) (hgo : ps ≠ [] ∨ qs.take s.qsize ≠ []) :
    ∃ s' x ps' qs', LinkedMergeSort.pick before s = some s' ∧ Merging s' (out ++ [x]) ps' qs' c ∧
      merge ps (qs.take s.qsize) (inOrder before) =
        x :: merge ps' (qs'.take s'.qsize) (inOrder before) ∧
      qs.drop s.qsize = qs'.drop s'.qsize ∧
      ps'.length + (qs'.take s'.qsize).length + 1 = ps.length + (qs.take s.qsize).length ∧
      (out ++ [x] ++ (ps' ++ qs')).Perm (out ++ (ps ++ qs)) ∧
      ∀ y ∉ out, s'.next y = s.next y := by
  have hsize := h.psize_eq
  have hq := h.right.start
  cases ps with
  | nil =>
    cases qs with
    | nil => simp at hgo
    | cons y qs =>
      cases hk : s.qsize with
      | zero => simp [hk] at hgo
      | succ k =>
        obtain ⟨s', hs', hm, hqs, hframe⟩ := h.pickRight
        rw [hk, Nat.add_sub_cancel] at hqs
        refine ⟨s', y, [], qs, ?_, hm, ?_, ?_, ?_, ?_, hframe⟩
        · rw [LinkedMergeSort.pick, hsize, length_nil, if_pos rfl, hs']
        · simp [hqs]
        · simp [hqs]
        · simp [hqs]
        · simp
  | cons x ps =>
    have hleft : qs.take s.qsize = [] → LinkedMergeSort.pick before s = LinkedMergeSort.pickLeft s := by
      intro hnil
      have hp : s.p = some x := h.left.1
      rw [LinkedMergeSort.pick, if_neg (by rw [hsize]; simp)]
      by_cases hz : s.qsize = 0
      · rw [if_pos hz]
      · have hqs : qs = [] := by simpa [hz] using hnil
        rw [if_neg hz, hp, hq, hqs]
        rfl
    by_cases hnil : qs.take s.qsize = []
    · obtain ⟨s', hs', hm, hqs, hframe⟩ := h.pickLeft
      refine ⟨s', x, ps, qs, (hleft hnil).trans hs', hm, ?_, ?_, ?_, ?_, hframe⟩
      · rw [hqs, hnil, merge_right, merge_right]
      · rw [hqs]
      · rw [hqs, length_cons]
        omega
      · simp
    · cases qs with
      | nil => simp at hnil
      | cons y qs =>
        cases hk : s.qsize with
        | zero => simp [hk] at hnil
        | succ k =>
          have hp : s.p = some x := h.left.1
          have hqy : s.q = some y := hq
          have hpick : LinkedMergeSort.pick before s =
              if before y x then LinkedMergeSort.pickRight s else LinkedMergeSort.pickLeft s := by
            rw [LinkedMergeSort.pick, if_neg (by rw [hsize]; simp), if_neg (by omega), hp, hqy]
          cases hb : before y x with
          | true =>
            obtain ⟨s', hs', hm, hqs, hframe⟩ := h.pickRight
            rw [hk, Nat.add_sub_cancel] at hqs
            refine ⟨s', y, x :: ps, qs, ?_, hm, ?_, ?_, ?_, ?_, hframe⟩
            · rw [hpick, hb, if_pos rfl, hs']
            · rw [hqs, take_succ_cons, cons_merge_cons, if_neg]
              simp [inOrder, hb]
            · rw [hqs, drop_succ_cons]
            · rw [hqs, take_succ_cons, length_cons (a := y)]
              omega
            · rw [append_assoc, singleton_append]
              exact (perm_middle.symm).append_left out
          | false =>
            obtain ⟨s', hs', hm, hqs, hframe⟩ := h.pickLeft
            rw [hk] at hqs
            refine ⟨s', x, ps, y :: qs, ?_, hm, ?_, ?_, ?_, ?_, hframe⟩
            · rw [hpick, hb, if_neg (by simp), hs']
            · rw [hqs, take_succ_cons, cons_merge_cons, if_pos]
              simp [inOrder, hb]
            · rw [hqs]
            · rw [hqs, length_cons]
              omega
            · rw [append_assoc]
              rfl

/-- The merging loop stops and appends the merge of the two runs to the output. -/
theorem mergeRuns_spec (fuel : ℕ) (h : Merging s out ps qs c)
    (hf : ps.length + (qs.take s.qsize).length < fuel) :
    ∃ s', mergeRuns before fuel s = some s' ∧
      Output s'.next s'.list s'.tail
        (out ++ merge ps (qs.take s.qsize) (inOrder before)) ∧
      Path s'.next s'.q (qs.drop s.qsize) none ∧
      ∀ y ∉ out ++ (ps ++ qs), s'.next y = s.next y := by
  induction fuel generalizing s out ps qs with
  | zero => omega
  | succ fuel ih =>
    unfold mergeRuns
    by_cases hgo : ps ≠ [] ∨ qs.take s.qsize ≠ []
    · rw [if_pos ((merging_goes_on h).mpr hgo)]
      obtain ⟨r, x, ps', qs', hr, hm, hmerge, hdrop, hlen, hperm, hframe⟩ := h.pick before hgo
      obtain ⟨s', hs', hout, hpath, hframe'⟩ := ih hm (by omega)
      refine ⟨s', by rw [hr, bind_some, hs'], ?_, ?_, ?_⟩
      · rw [hmerge]
        rwa [append_assoc, singleton_append] at hout
      · rw [hdrop]
        exact hpath
      · intro y hy
        rw [hframe' y fun hmem => hy (hperm.mem_iff.mp hmem)]
        exact hframe y fun hmem => hy (mem_append_left _ hmem)
    · rw [if_neg (fun hx => hgo ((merging_goes_on h).mp hx))]
      push Not at hgo
      refine ⟨s, rfl, ?_, ?_, fun _ _ => rfl⟩
      · rw [hgo.1, hgo.2, nil_merge, append_nil]
        exact h.output
      · have hsplit := take_append_drop s.qsize qs
        rw [hgo.2, nil_append] at hsplit
        rw [hsplit]
        exact h.right

omit [DecidableEq P] in
/-- Stepping over a run answers the node behind it and the number of its nodes. -/
theorem skipRun_spec {n : ℕ} (k : ℕ) (h : Path next a l none) (hn : n = 0 ∨ l ≠ []) :
    skipRun next n a k = some ((l.drop n).head?, k + (l.take n).length) := by
  induction n generalizing l a k with
  | zero => rw [skipRun, h.start, drop_zero, take_zero, length_nil, add_zero]
  | succ n ih =>
    cases l with
    | nil => simp at hn
    | cons x xs =>
      obtain ⟨rfl, hxs⟩ := h
      rw [drop_succ_cons, take_succ_cons, length_cons]
      cases xs with
      | nil =>
        have hnil : next x = none := hxs
        simp only [skipRun, hnil, drop_nil, take_nil, head?_nil, length_nil]
      | cons y ys =>
        have hy : next x = some y := hxs.1
        rw [hy] at hxs
        simp only [skipRun, hy]
        rw [ih (k + 1) hxs (.inr (cons_ne_nil y ys))]
        congr 2
        omega

/-- One pass on lists: the runs of length `k` merged pairwise. -/
def passList (k : ℕ) : ℕ → List P → List P
  | 0, l => l
  | _ + 1, [] => []
  | fuel + 1, x :: xs =>
    merge ((x :: xs).take k) (((x :: xs).drop k).take k) (inOrder before) ++
      passList k fuel (((x :: xs).drop k).drop k)

omit [DecidableEq P] in
/-- A pass permutes the list. -/
theorem passList_perm (k fuel : ℕ) (l : List P) : (passList before k fuel l).Perm l := by
  induction fuel generalizing l with
  | zero => exact .refl l
  | succ fuel ih =>
    cases l with
    | nil => exact .refl []
    | cons x xs =>
      have hmerge : (merge ((x :: xs).take k) (((x :: xs).drop k).take k)
          (inOrder before)).Perm ((x :: xs).take k ++ ((x :: xs).drop k).take k) :=
        merge_perm_append (inOrder before)
      have hall := hmerge.append (ih (((x :: xs).drop k).drop k))
      rwa [append_assoc, take_append_drop, take_append_drop] at hall

/-- Every run of length `k` is in order. -/
def Runs (k : ℕ) (l : List P) : Prop :=
  ∀ i, ((l.drop (i * k)).take k).Pairwise fun a b => inOrder before a b = true

omit [DecidableEq P] in
/-- Runs of one node are in order. -/
theorem runs_one (l : List P) : Runs before 1 l := by
  intro i
  generalize l.drop (i * 1) = r
  cases r with
  | nil => exact .nil
  | cons x xs => exact pairwise_singleton _ x

omit [DecidableEq P] in
/-- Dropping whole runs leaves runs. -/
theorem Runs.drop (h : Runs before k l) : Runs before k (l.drop k) := by
  intro i
  rw [drop_drop, show k + i * k = (i + 1) * k by rw [Nat.succ_mul, add_comm]]
  exact h (i + 1)

omit [DecidableEq P] in
/-- A pass doubles the length of the runs that are in order. -/
theorem passList_runs (htrans : ∀ a b c, inOrder before a b → inOrder before b c → inOrder before a c)
    (htotal : ∀ a b, inOrder before a b || inOrder before b a) (hk : 0 < k) (hl : l.length ≤ fuel)
    (h : Runs before k l) : Runs before (k * 2) (passList before k fuel l) := by
  induction fuel generalizing l with
  | zero =>
    rw [eq_nil_of_length_eq_zero (by omega : l.length = 0)]
    intro i
    rw [passList, drop_nil, take_nil]
    exact .nil
  | succ fuel ih =>
    cases l with
    | nil =>
      intro i
      rw [passList, drop_nil, take_nil]
      exact .nil
    | cons x xs =>
      rw [passList]
      generalize hw : x :: xs = w at *
      have hwlen : 0 < w.length := by rw [← hw]; exact Nat.succ_pos _
      have h₁ : (w.take k).Pairwise fun a b => inOrder before a b = true := by
        have h0 := h 0
        rwa [zero_mul, drop_zero] at h0
      have h₂ : ((w.drop k).take k).Pairwise fun a b => inOrder before a b = true := by
        have h1 := h 1
        rwa [Nat.one_mul] at h1
      have hsorted := pairwise_merge htrans htotal _ _ h₁ h₂
      have hlen : (merge (w.take k) ((w.drop k).take k) (inOrder before)).length =
          min (k * 2) w.length := by
        rw [length_merge, length_take, length_take, length_drop]
        omega
      have hrest : (passList before k fuel ((w.drop k).drop k)).length = w.length - k - k := by
        rw [(passList_perm before k fuel _).length_eq, length_drop, length_drop]
      have hih := ih (by rw [length_drop, length_drop]; omega) h.drop.drop
      intro i
      cases i with
      | zero =>
        rw [zero_mul, drop_zero]
        by_cases hshort : w.length ≤ k * 2
        · have hnil : passList before k fuel ((w.drop k).drop k) = [] :=
            eq_nil_of_length_eq_zero (by omega)
          rw [hnil, append_nil, take_of_length_le (by omega)]
          exact hsorted
        · rw [take_append_of_le_length (by omega), take_of_length_le (by omega)]
          exact hsorted
      | succ i =>
        by_cases hshort : w.length ≤ k * 2
        · have hmul : k * 2 ≤ (i + 1) * (k * 2) := Nat.le_mul_of_pos_left _ (Nat.succ_pos i)
          rw [drop_eq_nil_of_le, take_nil]
          · exact .nil
          · rw [length_append]
            omega
        · have hsum : (i + 1) * (k * 2) =
              (merge (w.take k) ((w.drop k).take k) (inOrder before)).length + i * (k * 2) := by
            rw [hlen, Nat.succ_mul]
            omega
          rw [hsum, drop_append, drop_eq_nil_of_le (Nat.le_add_right _ _),
            nil_append, Nat.add_sub_cancel_left]
          exact hih i

/-- A pass over the list appends the pairwise merged runs to the output. -/
theorem mergePass_spec (hk : 0 < k) {s : PassState P} (hpath : Path s.next a l none)
    (hout : Output s.next s.list s.tail out) (hnd : (out ++ l).Nodup) (hbound : l.length < bound)
    (hf : l.length < fuel) :
    ∃ r, mergePass before bound k fuel a s = some r ∧
      Output r.next r.list r.tail (out ++ passList before k fuel l) ∧
      s.nmerges ≤ r.nmerges ∧ (r.nmerges = s.nmerges ↔ l = []) ∧
      (r.nmerges ≤ s.nmerges + 1 ↔ l.length ≤ k * 2) ∧
      ∀ y ∉ out ++ l, r.next y = s.next y := by
  induction fuel generalizing l out a s with
  | zero => omega
  | succ fuel ih =>
    cases l with
    | nil =>
      have ha : a = none := hpath
      subst ha
      refine ⟨s, rfl, ?_, le_rfl, ?_, ?_, fun _ _ => rfl⟩
      · rw [passList, append_nil]
        exact hout
      · simp
      · simp
    | cons x xs =>
      have ha : a = some x := hpath.1
      subst ha
      rw [passList]
      generalize hw : x :: xs = w at *
      have hne : w ≠ [] := by rw [← hw]; exact cons_ne_nil x xs
      have hlen : 0 < w.length := length_pos_of_ne_nil hne
      have hskip := skipRun_spec 0 hpath (.inr hne) (n := k)
      rw [zero_add] at hskip
      have hsplit : w.take k ++ w.drop k = w := take_append_drop k w
      obtain ⟨c, hleft, hright⟩ := path_append.mp (hsplit.symm ▸ hpath)
      have hm : Merging (⟨s.next, some x, (w.drop k).head?, (w.take k).length, k, s.list, s.tail⟩ :
          MergeState P) out (w.take k) (w.drop k) c := by
        refine ⟨hout, hleft, ?_, rfl, ?_⟩
        · rw [← hright.start]
          exact hright
        · rw [hsplit]
          exact hnd
      obtain ⟨r, hr, hrout, hrpath, hrframe⟩ := mergeRuns_spec before bound hm (by
        simp only [length_take, length_drop]
        omega)
      simp only at hrout hrpath hrframe
      have hperm : (out ++ merge (w.take k) ((w.drop k).take k) (inOrder before) ++
          (w.drop k).drop k).Perm (out ++ w) := by
        have hmerge : (merge (w.take k) ((w.drop k).take k) (inOrder before)).Perm
            (w.take k ++ (w.drop k).take k) := merge_perm_append (inOrder before)
        have hall := (hmerge.append (.refl ((w.drop k).drop k))).append_left out
        rwa [append_assoc (w.take k), take_append_drop, take_append_drop,
          ← append_assoc] at hall
      obtain ⟨r', hr', hout', hge, hzero, hone, hframe'⟩ :=
        ih (s := ⟨r.next, r.list, r.tail, s.nmerges + 1⟩) hrpath hrout (hperm.nodup_iff.mpr hnd)
          (by rw [length_drop, length_drop]; omega)
          (by rw [length_drop, length_drop]; omega)
      simp only at hge hzero hframe'
      refine ⟨r', ?_, ?_, by omega, ?_, ?_, ?_⟩
      · rw [mergePass, hskip, bind_some]
        simp only
        rw [hr, bind_some, hr']
      · rw [← append_assoc]
        exact hout'
      · refine ⟨fun h => ?_, fun h => absurd h hne⟩
        omega
      · rw [show r'.nmerges ≤ s.nmerges + 1 ↔ r'.nmerges = s.nmerges + 1 by omega, hzero,
          ← length_eq_zero_iff, length_drop, length_drop]
        omega
      · intro y hy
        rw [hframe' y fun hmem => hy (hperm.mem_iff.mp hmem)]
        refine hrframe y ?_
        rwa [hsplit]

/-- Ending the output at its last node makes it a list. -/
theorem Output.path {list tail : Option P} {t : P} (h : Output next list tail out) (hnd : out.Nodup)
    (ht : tail = some t) : Path (update next t none) list out none := by
  have hlast := h.tail_eq.symm.trans ht
  have hpath : ∀ (l : List P) (a : Option P), l.getLast? = some t → l.Nodup →
      (l.IsChain fun a b => next a = some b) → a = l.head? → Path (update next t none) a l none := by
    intro l
    induction l with
    | nil => intro a hl; cases hl
    | cons x xs ih =>
      intro a hl hn hc ha
      refine ⟨ha, ?_⟩
      cases xs with
      | nil =>
        rw [getLast?_singleton, some.injEq] at hl
        rw [hl]
        exact update_self _ _ _
      | cons y ys =>
        rw [isChain_cons_cons] at hc
        have hxt : x ≠ t := by
          rintro rfl
          exact (nodup_cons.mp hn).1 (mem_of_getLast? hl)
        rw [update_of_ne hxt, hc.1]
        exact ih _ hl (nodup_cons.mp hn).2 hc.2 rfl
  exact hpath out list hlast hnd h.linked h.list_eq

variable (htrans : ∀ a b c, inOrder before a b → inOrder before b c → inOrder before a c)
  (htotal : ∀ a b, inOrder before a b || inOrder before b a)

include htrans htotal

/-- The passes stop and leave an ordered permutation of the list. -/
theorem sortLoop_spec (hk : 0 < k) (hpath : Path next a l none) (hnd : l.Nodup) (hruns : Runs before k l)
    (hkl : k < l.length) (hbound : l.length < bound) (hf : l.length ≤ k * 2 ^ fuel) :
    ∃ next' a' l', sortLoop before bound fuel k next a = some (next', a') ∧
      Path next' a' l' none ∧ l'.Perm l ∧
      (l'.Pairwise fun x y => inOrder before x y = true) ∧
      ∀ y ∉ l, next' y = next y := by
  induction fuel generalizing k l next a with
  | zero =>
    omega
  | succ fuel ih =>
    have hempty : Output next none none ([] : List P) := ⟨rfl, rfl, .nil⟩
    obtain ⟨r, hr, hout, _, _, hone, hframe⟩ := mergePass_spec before hk
      (s := ⟨next, none, none, 0⟩) hpath hempty hnd hbound hbound
    rw [nil_append] at hout
    have hperm := passList_perm before k bound l
    have hnd' : (passList before k bound l).Nodup := hperm.nodup_iff.mpr hnd
    have hne : passList before k bound l ≠ [] := by
      intro hnil
      have hlen := hperm.length_eq
      rw [hnil, length_nil] at hlen
      omega
    obtain ⟨t, ht⟩ : ∃ t, r.tail = some t := by
      rw [hout.tail_eq, getLast?_eq_some_getLast hne]
      exact ⟨_, rfl⟩
    have hlist := hout.path hnd' ht
    have hruns' := passList_runs before htrans htotal hk (le_of_lt hbound) hruns
    have htl : t ∈ l := hperm.mem_iff.mp (mem_of_getLast? (hout.tail_eq ▸ ht))
    have hframe' : ∀ y ∉ l, update r.next t none y = next y := by
      intro y hy
      rw [update_of_ne (by rintro rfl; exact hy htl), hframe y hy]
    rw [sortLoop, hr, bind_some, ht, bind_some]
    by_cases hm : r.nmerges ≤ 1
    · refine ⟨_, _, _, if_pos hm, hlist, hperm, ?_, hframe'⟩
      have hall := hruns' 0
      rwa [zero_mul, drop_zero,
        take_of_length_le (by rw [hperm.length_eq]; exact hone.mp hm)] at hall
    · have hlong : k * 2 < l.length := by
        by_contra hcon
        exact hm (hone.mpr (by omega))
      rw [← hperm.length_eq] at hlong hbound hf
      rw [Nat.pow_succ, Nat.mul_comm (2 ^ fuel), ← mul_assoc] at hf
      obtain ⟨next', a', l', hs, hp, hl', hsorted, hfr⟩ :=
        ih (by omega) hlist hnd' hruns' hlong hbound hf
      refine ⟨next', a', l', ?_, hp, hl'.trans hperm, hsorted, ?_⟩
      · simp only [if_neg hm]
        exact hs
      · intro y hy
        rw [hfr y fun hmem => hy (hperm.mem_iff.mp hmem)]
        exact hframe' y hy

/-- The sort answers, permutes the list, orders it, and writes no other node. -/
theorem linkedSort_spec (hpath : Path next a l none) (hnd : l.Nodup) (hbound : l.length < bound) :
    ∃ next' a' l', linkedSort before bound next a = some (next', a') ∧
      Path next' a' l' none ∧ l'.Perm l ∧
      (l'.Pairwise fun x y => inOrder before x y = true) ∧
      ∀ y ∉ l, next' y = next y := by
  cases l with
  | nil =>
    have ha : a = none := hpath
    subst ha
    exact ⟨next, none, [], rfl, rfl, .refl [], .nil, fun _ _ => rfl⟩
  | cons x xs =>
    obtain ⟨rfl, hxs⟩ := hpath
    cases xs with
    | nil =>
      have hnone : next x = none := hxs
      refine ⟨next, some x, [x], ?_, ⟨rfl, hxs⟩, .refl _, pairwise_singleton _ x,
        fun _ _ => rfl⟩
      simp only [linkedSort, hnone, isNone_none, if_true]
    | cons y ys =>
      have hsome : next x = some y := hxs.1
      simp only [linkedSort, hsome, isNone_some, Bool.false_eq_true, if_false]
      have hlt := Nat.lt_two_pow_self (n := bound)
      refine sortLoop_spec before htrans htotal Nat.one_pos ⟨rfl, hxs⟩ hnd (runs_one before _) ?_
        hbound ?_
      · rw [length_cons, length_cons]
        omega
      · omega

end Spec

section Queue

variable {m : Links P}

/-- The nodes met by following the forward links. -/
def walk (next : P → Option P) : ℕ → Option P → List P
  | 0, _ => []
  | _ + 1, none => []
  | fuel + 1, some x => x :: walk next fuel (next x)

/-- Set the backward links along a list of nodes; answers the last node too. -/
def backLinks : Links P → Option P → List P → Links P × Option P
  | m, b, [] => (m, b)
  | m, b, x :: xs => backLinks (m.setPrev x b) (some x) xs

/-- Sort a doubly linked queue: relink forward, then rebuild the backward links
on the way to the new tail. Answers the nodes in their new order too. -/
def sortQueue (before : P → P → Bool) (m : Links P) (a : Anchor P) :
    Option (Links P × Anchor P × List P) :=
  (linkedSort before (a.count + 1) m.next a.head).map fun (next, head) =>
    let l := walk next a.count head
    let r := backLinks ⟨next, m.prev⟩ none l
    (r.1, ⟨head, r.2, a.count⟩, l)

omit [DecidableEq P] in
/-- Walking a path meets its nodes. -/
theorem walk_path {fuel : ℕ} (h : Path next a l none) (hf : l.length ≤ fuel) : walk next fuel a = l := by
  induction l generalizing a fuel with
  | nil =>
    have ha : a = none := h
    subst ha
    cases fuel <;> rfl
  | cons x xs ih =>
    obtain ⟨rfl, hxs⟩ := h
    cases fuel with
    | zero => rw [length_cons] at hf; omega
    | succ fuel =>
      rw [length_cons] at hf
      rw [walk, ih hxs (by omega)]

/-- Setting backward links leaves every forward link alone. -/
theorem backLinks_next (l : List P) (m : Links P) (b : Option P) :
    (backLinks m b l).1.next = m.next := by
  induction l generalizing m b with
  | nil => rfl
  | cons x xs ih => rw [backLinks, ih]; rfl

/-- Setting backward links writes only the nodes of the list. -/
theorem backLinks_prev_of_not_mem (hy : y ∉ l) : (backLinks m b l).1.prev y = m.prev y := by
  induction l generalizing m b with
  | nil => rfl
  | cons x xs ih =>
    rw [mem_cons, not_or] at hy
    rw [backLinks, ih hy.2]
    exact update_of_ne hy.1 _ _

/-- The walk over a list ends at its last node. -/
theorem backLinks_last (l : List P) (m : Links P) (b : Option P) :
    (backLinks m b l).2 = l.getLast?.or b := by
  induction l generalizing m b with
  | nil => rfl
  | cons x xs ih =>
    rw [backLinks, ih, getLast?_cons]
    cases xs.getLast? <;> rfl

/-- Rebuilt backward links turn a path into a doubly linked segment. -/
theorem backLinks_seg (h : Path m.next a l none) (hnd : l.Nodup) : Seg (backLinks m b l).1 b l none := by
  induction l generalizing m a b with
  | nil => trivial
  | cons x xs ih =>
    rw [nodup_cons] at hnd
    have hrest := ih (m := m.setPrev x b) (b := some x) h.2 hnd.2
    refine ⟨?_, ?_, hrest⟩
    · rw [backLinks, backLinks_prev_of_not_mem hnd.1]
      exact update_self _ _ _
    · rw [backLinks, backLinks_next, or_none]
      exact h.2.start

omit [DecidableEq P] in
/-- The forward links of a segment are a path. -/
theorem seg_path (h : Seg m b l none) : Path m.next l.head? l none := by
  induction l generalizing b with
  | nil => rfl
  | cons x xs ih =>
    obtain ⟨_, hn, hs⟩ := h
    refine ⟨rfl, ?_⟩
    rw [hn, or_none]
    exact ih hs

/-- Sorting a queue answers, permutes and orders its nodes, represents the new
order, and writes no node of another queue. -/
theorem sortQueue_spec (before : P → P → Bool)
    (htrans : ∀ a b c, inOrder before a b → inOrder before b c → inOrder before a c)
    (htotal : ∀ a b, inOrder before a b || inOrder before b a) {a : Anchor P} (h : Rep m a l) :
    ∃ m' a' l', sortQueue before m a = some (m', a', l') ∧ Rep m' a' l' ∧ l'.Perm l ∧
      (l'.Pairwise fun x y => inOrder before x y = true) ∧
      ∀ y ∉ l, m'.next y = m.next y ∧ m'.prev y = m.prev y := by
  have hpath := seg_path h.seg
  rw [← h.head] at hpath
  obtain ⟨next, head, l', hsort, hpath', hperm, hsorted, hframe⟩ :=
    linkedSort_spec before htrans htotal hpath h.nodup (Nat.lt_succ_self _)
  have hlen : l'.length = a.count := hperm.length_eq.trans h.count.symm
  have hwalk : walk next a.count head = l' := walk_path hpath' (le_of_eq hlen)
  have hnd : l'.Nodup := hperm.nodup_iff.mpr h.nodup
  rw [← h.count] at hsort
  have hanswer : sortQueue before m a = some ((backLinks ⟨next, m.prev⟩ none l').1,
      ⟨head, (backLinks ⟨next, m.prev⟩ none l').2, a.count⟩, l') := by
    rw [sortQueue, hsort, map_some]
    simp only [hwalk]
  refine ⟨_, _, l', hanswer, ?_, hperm, hsorted, ?_⟩
  · refine ⟨hnd, backLinks_seg (m := ⟨next, m.prev⟩) hpath' hnd, hpath'.start, ?_, hlen.symm⟩
    rw [backLinks_last, or_none]
  · intro y hy
    have hy' : y ∉ l' := fun hmem => hy (hperm.mem_iff.mp hmem)
    rw [backLinks_next, backLinks_prev_of_not_mem hy']
    exact ⟨hframe y hy, rfl⟩

end Queue

end Gptps.LinkedMergeSort
