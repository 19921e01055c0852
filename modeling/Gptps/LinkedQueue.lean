import Mathlib.Data.List.Induction
import Mathlib.Data.List.Nodup
import Mathlib.Logic.Function.Basic

/-!
# Intrusive doubly linked queues over a link memory

Nodes carry their own link words, and a queue is an anchor holding its first
and last node and its length. The operations below are the usual constant-time
ones: append, take the head, unlink any node, splice after a given node. A
representation predicate relates an anchor and the link memory to the list of
nodes the queue holds; every operation keeps it, and touches no node of a
queue it was not called on.
-/

namespace Gptps.LinkedQueue

open Function List

variable {P : Type*}

/-- The two link words of every node. -/
structure Links (P : Type*) where
  /-- The following node, if any. -/
  next : P → Option P
  /-- The preceding node, if any. -/
  prev : P → Option P

/-- A queue: its end nodes and its length. -/
structure Anchor (P : Type*) where
  /-- The first node. -/
  head : Option P
  /-- The last node. -/
  tail : Option P
  /-- How many nodes are linked in. -/
  count : ℕ

/-- The anchor of a queue nothing was ever pushed on. -/
def Anchor.empty : Anchor P := ⟨none, none, 0⟩

/-- The nodes of a list are linked in order, coming from `b` and leading to `e`. -/
def Seg (m : Links P) : Option P → List P → Option P → Prop
  | _, [], _ => True
  | b, x :: xs, e => m.prev x = b ∧ m.next x = xs.head?.or e ∧ Seg m (some x) xs e

/-- An anchor and the link memory represent a list of distinct nodes. -/
structure Rep (m : Links P) (a : Anchor P) (l : List P) : Prop where
  /-- No node is linked in twice. -/
  nodup : l.Nodup
  /-- Forward and backward links follow the list. -/
  seg : Seg m none l none
  /-- The anchor's first node. -/
  head : a.head = l.head?
  /-- The anchor's last node. -/
  tail : a.tail = l.getLast?
  /-- The anchor's length. -/
  count : a.count = l.length

variable {m m' : Links P} {a : Anchor P} {l l₁ l₂ k : List P} {b c e f v : Option P} {p x : P}

/-- Nothing is linked into a fresh queue. -/
theorem rep_empty (m : Links P) : Rep m Anchor.empty [] :=
  ⟨nodup_nil, trivial, rfl, rfl, rfl⟩

/-- A segment depends only on the link words of its own nodes. -/
theorem seg_congr (h : ∀ x ∈ l, m'.next x = m.next x ∧ m'.prev x = m.prev x) :
    Seg m b l e → Seg m' b l e := by
  induction l generalizing b with
  | nil => intro _; trivial
  | cons x xs ih =>
    rintro ⟨hp, hn, hs⟩
    have hx := h x mem_cons_self
    exact ⟨hx.2.trans hp, hx.1.trans hn, ih (fun y hy => h y (mem_cons_of_mem _ hy)) hs⟩

/-- The representation of one queue survives any write to other nodes. -/
theorem Rep.frame (h : Rep m a l) (hm : ∀ x ∈ l, m'.next x = m.next x ∧ m'.prev x = m.prev x) :
    Rep m' a l :=
  { h with seg := seg_congr hm h.seg }

/-- Segments compose where the first one leads to the start of the second. -/
theorem seg_append :
    Seg m b (l₁ ++ l₂) e ↔
      Seg m b l₁ (l₂.head?.or e) ∧ Seg m (l₁.getLast?.or b) l₂ e := by
  induction l₁ generalizing b with
  | nil => simp [Seg]
  | cons x xs ih =>
    have hlast : (x :: xs).getLast?.or b = xs.getLast?.or (some x) := by
      cases xs using reverseRecOn with
      | nil => simp
      | append_singleton ys y => simp [getLast?_cons]
    have hhead : (xs ++ l₂).head?.or e = xs.head?.or (l₂.head?.or e) := by
      cases xs <;> simp
    simp only [cons_append, Seg, ih, hlast, hhead, and_assoc]

/-- The node after a prefix is the first one of the rest, whether or not the prefix is empty. -/
theorem next_of_prefix (h : Rep m a (l₁ ++ l₂)) : (l₁.getLast?.map m.next).getD a.head = l₂.head? := by
  cases l₁ using reverseRecOn with
  | nil => simp [h.head]
  | append_singleton ys y =>
    obtain ⟨h₁, _⟩ := seg_append.mp h.seg
    obtain ⟨_, hy⟩ := seg_append.mp h₁
    simpa [Seg] using hy.2.1

/-- A node outside a list is not the last one of it. -/
theorem ne_getLast (h : x ∉ l) : ∀ y ∈ l.getLast?, x ≠ y := fun _ hy he => h (he ▸ mem_of_getLast? hy)

/-- A node outside a list is not the first one of it. -/
theorem ne_head (h : x ∉ l) : ∀ y ∈ l.head?, x ≠ y := fun _ hy he => h (he ▸ mem_of_head? hy)

variable [DecidableEq P]

/-- Write one forward link. -/
def Links.setNext (m : Links P) (p : P) (v : Option P) : Links P :=
  { m with next := update m.next p v }

/-- Write one backward link. -/
def Links.setPrev (m : Links P) (p : P) (v : Option P) : Links P :=
  { m with prev := update m.prev p v }

/-- Set the forward link of a node that may be absent. -/
def Links.setNext? (m : Links P) (p v : Option P) : Links P :=
  p.elim m fun x => m.setNext x v

/-- Set the backward link of a node that may be absent. -/
def Links.setPrev? (m : Links P) (p v : Option P) : Links P :=
  p.elim m fun x => m.setPrev x v

/-- Append a node. -/
def push (m : Links P) (a : Anchor P) (p : P) : Links P × Anchor P :=
  (((m.setNext p none).setPrev p a.tail).setNext? a.tail (some p),
    ⟨if a.tail.isSome then a.head else some p, some p, a.count + 1⟩)

/-- Unlink a node from wherever it stands, clearing its link words. -/
def remove (m : Links P) (a : Anchor P) (p : P) : Links P × Anchor P :=
  let b := m.prev p
  let n := m.next p
  let m' := (m.setNext? b n).setPrev? n b
  ((m'.setNext p none).setPrev p none,
    ⟨if b.isSome then a.head else n, if n.isSome then a.tail else b, a.count - 1⟩)

/-- Take the first node, clearing its link words. -/
def pop (m : Links P) (a : Anchor P) : Links P × Anchor P :=
  match a.head with
  | none => (m, a)
  | some p =>
    let n := m.next p
    (((m.setPrev? n none).setNext p none).setPrev p none,
      ⟨n, if n.isSome then a.tail else none, a.count - 1⟩)

/-- Splice a node in after `b`, or at the front when `b` is absent. -/
def insertAfter (m : Links P) (a : Anchor P) (b : Option P) (p : P) : Links P × Anchor P :=
  let n := (b.map m.next).getD a.head
  let m' := ((m.setNext p n).setPrev p b).setPrev? n (some p)
  (m'.setNext? b (some p),
    ⟨if b.isSome then a.head else some p, if n.isSome then a.tail else some p, a.count + 1⟩)

@[simp] theorem setNext_self : (m.setNext p v).next p = v := update_self ..

@[simp] theorem setPrev_self : (m.setPrev p v).prev p = v := update_self ..

@[simp] theorem setNext_prev : (m.setNext p v).prev = m.prev := rfl

@[simp] theorem setPrev_next : (m.setPrev p v).next = m.next := rfl

theorem setNext_of_ne (h : x ≠ p) : (m.setNext p v).next x = m.next x := update_of_ne h ..

theorem setPrev_of_ne (h : x ≠ p) : (m.setPrev p v).prev x = m.prev x := update_of_ne h ..

@[simp] theorem setNext?_prev : (m.setNext? b v).prev = m.prev := by
  cases b <;> rfl

@[simp] theorem setPrev?_next : (m.setPrev? b v).next = m.next := by
  cases b <;> rfl

theorem setNext?_of_ne (h : ∀ y ∈ b, x ≠ y) : (m.setNext? b v).next x = m.next x := by
  cases b with
  | none => rfl
  | some y => exact setNext_of_ne (h y rfl)

theorem setPrev?_of_ne (h : ∀ y ∈ b, x ≠ y) : (m.setPrev? b v).prev x = m.prev x := by
  cases b with
  | none => rfl
  | some y => exact setPrev_of_ne (h y rfl)

/-- Redirecting the last node of a segment changes only where it leads. -/
theorem seg_setNext_last (hn : l.Nodup) (h : Seg m b l e) : Seg (m.setNext? l.getLast? f) b l f := by
  cases l using reverseRecOn with
  | nil => trivial
  | append_singleton ys y =>
    obtain ⟨hys, hy⟩ := seg_append.mp h
    rw [getLast?_concat]
    refine seg_append.mpr ⟨seg_congr (fun x hx => ⟨setNext_of_ne ?_, rfl⟩) hys, hy.1, ?_, trivial⟩
    · exact (nodup_append.mp hn).2.2 x hx y mem_cons_self
    · exact setNext_self

/-- Redirecting the first node of a segment changes only where it comes from. -/
theorem seg_setPrev_head (hn : l.Nodup) (h : Seg m b l e) : Seg (m.setPrev? l.head? c) c l e := by
  cases l with
  | nil => trivial
  | cons x xs =>
    obtain ⟨_, hx, hxs⟩ := h
    refine ⟨setPrev_self, hx, seg_congr (m := m) (fun y hy => ⟨rfl, setPrev_of_ne ?_⟩) hxs⟩
    exact fun he => (nodup_cons.mp hn).1 (he ▸ hy)

/-- Writing the links of a node outside a segment leaves the segment alone. -/
theorem seg_set_other (hp : p ∉ l) (h : Seg m b l e) :
    Seg (m.setNext p v) b l e ∧ Seg (m.setPrev p v) b l e := by
  have hne : ∀ x ∈ l, x ≠ p := fun x hx he => hp (he ▸ hx)
  exact ⟨seg_congr (fun x hx => ⟨setNext_of_ne (hne x hx), rfl⟩) h,
    seg_congr (m := m) (fun x hx => ⟨rfl, setPrev_of_ne (hne x hx)⟩) h⟩

/-- The same for a write to an absent node or one outside the segment. -/
theorem seg_set_other? {p : Option P} (hp : ∀ x ∈ p, x ∉ l) (h : Seg m b l e) :
    Seg (m.setNext? p v) b l e ∧ Seg (m.setPrev? p v) b l e := by
  cases p with
  | none => exact ⟨h, h⟩
  | some x => exact seg_set_other (hp x rfl) h

/-- Appending links the node in last. -/
theorem push_rep (h : Rep m a l) (hp : p ∉ l) : Rep (push m a p).1 (push m a p).2 (l ++ [p]) := by
  have hnodup : (l ++ [p]).Nodup := by
    rw [nodup_append]
    exact ⟨h.nodup, by simp, by rintro x hx y hy rfl; simp at hy; exact hp (hy ▸ hx)⟩
  refine ⟨hnodup, ?_, ?_, by simp [push], by simp [push, h.count]⟩
  · refine seg_append.mpr ⟨?_, ?_⟩
    · have h1 := (seg_set_other (v := none) hp h.seg).1
      have h2 := (seg_set_other (v := a.tail) hp h1).2
      simpa [push, h.tail] using seg_setNext_last (f := some p) h.nodup h2
    · simp [Seg, push, h.tail, setNext?_of_ne (ne_getLast hp)]
  · cases l using reverseRecOn with
    | nil => simp [push, h.tail]
    | append_singleton ys y =>
      cases ys <;> simp [push, h.tail, h.head]

/-- Appending writes only the new node and the previous last one. -/
theorem push_frame (h : Rep m a l) (hp : p ∉ k) (hk : ∀ x ∈ k, x ∉ l) :
    ∀ x ∈ k, (push m a p).1.next x = m.next x ∧ (push m a p).1.prev x = m.prev x := by
  intro x hx
  have hxp : x ≠ p := fun he => hp (he ▸ hx)
  simp [push, h.tail, setNext?_of_ne (ne_getLast (hk x hx)), setNext_of_ne hxp, setPrev_of_ne hxp]

/-- Unlinking closes the gap between the neighbours. -/
theorem remove_rep (h : Rep m a (l₁ ++ p :: l₂)) : Rep (remove m a p).1 (remove m a p).2 (l₁ ++ l₂) := by
  obtain ⟨h₁, hp⟩ := seg_append.mp h.seg
  obtain ⟨hprev, hnext, h₂⟩ := hp
  have hnd := h.nodup
  rw [nodup_append, nodup_cons] at hnd
  obtain ⟨hn₁, ⟨hp₂, hn₂⟩, hdis⟩ := hnd
  have hp₁ : p ∉ l₁ := fun hx => hdis p hx p mem_cons_self rfl
  have hdis' : ∀ x ∈ l₁, x ∉ l₂ := fun x hx hy => hdis x hx x (mem_cons_of_mem _ hy) rfl
  refine ⟨?_, ?_, ?_, ?_, by simp [remove, h.count]⟩
  · rw [nodup_append]
    exact ⟨hn₁, hn₂, fun x hx y hy he => hdis' x hx (he ▸ hy)⟩
  · simp only [remove, hprev, hnext]
    refine seg_append.mpr ⟨?_, ?_⟩
    · have s1 := seg_setNext_last (f := l₂.head?) hn₁ h₁
      have s2 := (seg_set_other? (v := l₁.getLast?) (p := l₂.head?)
        (fun x hx hy => hdis' x hy (mem_of_head? hx)) s1).2
      have s3 := (seg_set_other (v := none) hp₁ s2).1
      simpa using (seg_set_other (v := none) hp₁ s3).2
    · have s1 := (seg_set_other? (v := l₂.head?) (p := l₁.getLast?)
        (fun x hx hy => hdis' x (mem_of_getLast? hx) hy) h₂).1
      have s2 := seg_setPrev_head (c := l₁.getLast?) hn₂ s1
      have s3 := (seg_set_other (v := none) hp₂ s2).1
      simpa using (seg_set_other (v := none) hp₂ s3).2
  · cases l₁ with
    | nil => simp [remove, hprev, hnext]
    | cons x xs =>
      have : ((x :: xs).getLast?).isSome = true := by simp
      simp [remove, hprev, h.head, this]
  · cases l₂ with
    | nil => simp [remove, hprev, hnext]
    | cons y ys => simp [remove, hnext, h.tail, getLast?_append]

/-- Unlinking writes only the node and its neighbours. -/
theorem remove_frame (h : Rep m a (l₁ ++ p :: l₂)) (hk : ∀ x ∈ k, x ∉ l₁ ++ p :: l₂) :
    ∀ x ∈ k, (remove m a p).1.next x = m.next x ∧ (remove m a p).1.prev x = m.prev x := by
  obtain ⟨_, hp⟩ := seg_append.mp h.seg
  obtain ⟨hprev, hnext, _⟩ := hp
  intro x hx
  have hout := hk x hx
  simp only [mem_append, mem_cons, not_or] at hout
  obtain ⟨hx₁, hxp, hx₂⟩ := hout
  simp [remove, hprev, hnext, setNext_of_ne hxp, setPrev_of_ne hxp, setNext?_of_ne (ne_getLast hx₁),
    setPrev?_of_ne (ne_head hx₂)]

/-- Taking the head is unlinking the first node. -/
theorem pop_eq_remove (h : Rep m a (p :: l)) : pop m a = remove m a p := by
  obtain ⟨hprev, _, _⟩ := h.seg
  have hhead : a.head = some p := h.head
  simp [pop, remove, hhead, hprev, Links.setNext?]

/-- Splicing after the last node of a prefix puts the node between the two parts. -/
theorem insertAfter_rep (h : Rep m a (l₁ ++ l₂)) (hp : p ∉ l₁ ++ l₂) :
    Rep (insertAfter m a l₁.getLast? p).1 (insertAfter m a l₁.getLast? p).2 (l₁ ++ p :: l₂) := by
  obtain ⟨h₁, h₂⟩ := seg_append.mp h.seg
  obtain ⟨hn₁, hn₂, hdis⟩ := nodup_append.mp h.nodup
  simp only [mem_append, not_or] at hp
  have hnext := next_of_prefix h
  have hdis' : ∀ x ∈ l₁, x ∉ l₂ := fun x hx hy => hdis x hx x hy rfl
  refine ⟨?_, ?_, ?_, ?_, by simp [insertAfter, h.count]; omega⟩
  · rw [nodup_append, nodup_cons]
    refine ⟨hn₁, ⟨hp.2, hn₂⟩, ?_⟩
    rintro x hx y hy rfl
    rcases mem_cons.mp hy with rfl | hy
    · exact hp.1 hx
    · exact hdis' x hx hy
  · simp only [insertAfter, hnext]
    refine seg_append.mpr ⟨?_, ?_, ?_, ?_⟩
    · have s1 := (seg_set_other (v := l₂.head?) hp.1 h₁).1
      have s2 := (seg_set_other (v := l₁.getLast?) hp.1 s1).2
      have s3 := (seg_set_other? (v := some p) (p := l₂.head?)
        (fun x hx hy => hdis' x hy (mem_of_head? hx)) s2).2
      simpa using seg_setNext_last (f := some p) hn₁ s3
    · simp [setPrev?_of_ne (ne_head hp.2)]
    · simp [setNext?_of_ne (ne_getLast hp.1)]
    · have s1 := (seg_set_other (v := l₂.head?) hp.2 h₂).1
      have s2 := (seg_set_other (v := l₁.getLast?) hp.2 s1).2
      have s3 := seg_setPrev_head (c := some p) hn₂ s2
      exact (seg_set_other? (v := some p) (p := l₁.getLast?)
        (fun x hx hy => hdis' x (mem_of_getLast? hx) hy) s3).1
  · cases l₁ with
    | nil => simp [insertAfter]
    | cons x xs =>
      have : ((x :: xs).getLast?).isSome = true := by simp
      simp [insertAfter, h.head, this]
  · simp only [insertAfter, hnext]
    cases l₂ with
    | nil => simp
    | cons y ys => simp [h.tail, getLast?_append, getLast?_cons]

/-- Splicing writes only the new node and its neighbours. -/
theorem insertAfter_frame (h : Rep m a (l₁ ++ l₂)) (hp : p ∉ k) (hk : ∀ x ∈ k, x ∉ l₁ ++ l₂) :
    ∀ x ∈ k, (insertAfter m a l₁.getLast? p).1.next x = m.next x ∧
      (insertAfter m a l₁.getLast? p).1.prev x = m.prev x := by
  have hnext := next_of_prefix h
  intro x hx
  have hxp : x ≠ p := fun he => hp (he ▸ hx)
  have hout := hk x hx
  simp only [mem_append, not_or] at hout
  simp [insertAfter, hnext, setNext_of_ne hxp, setPrev_of_ne hxp, setNext?_of_ne (ne_getLast hout.1),
    setPrev?_of_ne (ne_head hout.2)]

end Gptps.LinkedQueue
