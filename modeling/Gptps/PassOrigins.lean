import Gptps.ItemOrigins

/-!
# Where a pass takes its items from

No stage of a pass makes an item. A finished item may become a delayed one, a delayed one a queued one, and
a queued one is deferred or admitted; its handle, type, cost and priority stay as they are. A property of
items by their queue that follows these ways holds after a stage if it held before.
-/

namespace Gptps.PassOrigins

open Function EngineState EngineStore EnginePass DeskStore ApiDesk CallsCalm ItemOrigins PassRetries PassStages
  List

/-- Two items that no decision of a pass tells apart. -/
structure Kin (x y : Item) : Prop where
  /-- The handle. -/
  handle : y.handle = x.handle
  /-- The type. -/
  reg : y.reg = x.reg
  /-- The memory it declares. -/
  mem : y.costMem = x.costMem
  /-- The priority. -/
  priority : y.priority = x.priority
  /-- The ordering key. -/
  score : y.schedScore = x.schedScore
  /-- How often it was skipped. -/
  skips : y.skips = x.skips

/-- A property of live items by the queue they are in. -/
structure Every (P : QId → Item → Prop) (ps : PassState) : Prop where
  /-- The queues. -/
  queues : ∀ q ≠ QId.dead, ∀ x ∈ ps.e.q q, P q x
  /-- The retries decided are to be delayed. -/
  announced : ∀ x ∈ ps.announced, P .delayed x

/-- A property that follows the ways of items before admission. -/
structure Carries (P : QId → Item → Prop) : Prop where
  /-- It depends on nothing else. -/
  kin : ∀ q x y, Kin x y → P q x → P q y
  /-- A finished item is tried again. -/
  again : ∀ x, P .done x → P .delayed x
  /-- A pause is over. -/
  due : ∀ x, P .delayed x → P .intake x

section Settling

variable {P : QId → Item → Prop} {ps ps' : PassState} {it : Item} {e₁ : Engine} {q : QId}

/-- The queues only lose items. -/
theorem Every.shrink (h : Every P ps) (hq : ∀ q ≠ .dead, ∀ y ∈ ps'.e.q q, y ∈ ps.e.q q)
    (hann : ps'.announced = ps.announced) : Every P ps' :=
  ⟨fun q hne y hy => h.queues q hne y (hq q hne y hy), fun y hy => h.announced y (hann ▸ hy)⟩

/-- The live queues are the same. -/
theorem Every.kept (h : Every P ps) (hk : KeptLive ps.e ps'.e) (hann : ps'.announced = ps.announced) :
    Every P ps' := h.shrink (fun q hne y hy => by rwa [hk.q q hne] at hy) hann

/-- An item is added to a queue. -/
theorem Every.push (h : Every P ps) (hit : P q it) (hq : ps'.e.q = update ps.e.q q (ps.e.q q ++ [it]))
    (hann : ps'.announced = ps.announced) : Every P ps' := by
  refine ⟨fun q' hne y hy => ?_, fun y hy => h.announced y (hann ▸ hy)⟩
  rw [hq] at hy
  rcases mem_update hy with ⟨rfl, hmem⟩ | ⟨-, hmem⟩
  · rcases mem_append.mp hmem with hmem | hmem
    · exact h.queues q' hne y hmem
    · exact mem_singleton.mp hmem ▸ hit
  · exact h.queues q' hne y hmem

/-- A queue is rewritten in place. -/
theorem Every.touch {f : Item → Item} (h : Every P ps) (hf : ∀ x, P q x → P q (f x))
    (hq : ps'.e.q = update ps.e.q q ((ps.e.q q).map f)) (hann : ps'.announced = ps.announced) :
    Every P ps' := by
  refine ⟨fun q' hne y hy => ?_, fun y hy => h.announced y (hann ▸ hy)⟩
  rw [hq] at hy
  rcases mem_update hy with ⟨rfl, hmem⟩ | ⟨-, hmem⟩
  · obtain ⟨x, hx, rfl⟩ := mem_map.mp hmem
    exact hf x (h.queues q' hne x hx)
  · exact h.queues q' hne y hmem

/-- The first item of a queue is taken. -/
theorem Every.pop (h : Every P ps) (hne : q ≠ .dead) (hpop : fifoPop ps.e q = some (it, e₁)) :
    P q it ∧ Every P { ps with e := e₁ } := by
  obtain ⟨rest, hq, -⟩ := fifoPop_q hpop
  exact ⟨h.queues q hne it (hq ▸ mem_cons_self), h.shrink (fun q' _ y hy => mem_popped hpop hy) rfl⟩

/-- Step 1. -/
theorem drainDone_every (hP : Carries P) (now fuel : ℕ) (ps : PassState) (h : Every P ps) :
    Every P (drainDone now fuel ps) := by
  refine drainDone_decides ?_ fuel h
  intro ps₁ it e₁ ps' hps hpop hd
  obtain ⟨hit, hrest⟩ := hps.pop (by decide) hpop
  have hfree : Every P { ps₁ with e := release e₁ it.toCore } := hrest.shrink (fun _ _ _ hy => hy) rfl
  have hagain : ∀ y : Item, Kin it y → P .delayed y := fun y hy => hP.kin _ _ _ hy (hP.again it hit)
  cases hd with
  | again => exact hfree.push (hagain (againItem now it) ⟨rfl, rfl, rfl, rfl, rfl, rfl⟩) rfl rfl
  | drop x => exact hfree.kept (itemDrop_kept _ x).toKeptLive rfl
  | bury x => exact hfree.kept (deadLetterPush_kept _ x) rfl
  | retry =>
    refine ⟨hfree.queues, fun y hy => ?_⟩
    rcases mem_append.mp hy with hy | hy
    · exact hrest.announced y hy
    · rw [mem_singleton.mp hy]
      exact hagain _ ⟨rfl, rfl, rfl, rfl, rfl, rfl⟩

/-- Step 2. -/
theorem promote_every (hP : Carries P) (now : ℕ) (l : List Item) (ps : PassState) (h : Every P ps)
    (hl : ∀ x ∈ l, P .delayed x) : Every P (l.foldl (promoteOne now) ps) := by
  induction l generalizing ps with
  | nil => exact h
  | cons it l ih =>
    refine ih _ ?_ fun x hx => hl x (mem_cons_of_mem _ hx)
    unfold promoteOne
    split_ifs
    · refine ⟨fun q hne y hy => ?_, h.announced⟩
      rcases mem_inserted hy with hy | ⟨rfl, rfl⟩
      · exact h.queues _ hne y (mem_removed hy)
      · exact hP.kin _ it _ ⟨rfl, rfl, rfl, rfl, rfl, rfl⟩ (hP.due it (hl it mem_cons_self))
    · exact h.shrink (fun _ _ _ hy => hy) rfl

/-- Step 2b. -/
theorem park_every (now : ℕ) (l : List Item) (ps : PassState) (h : Every P ps) (hl :
    ∀ x ∈ l, P .delayed x) :
    Every P (l.foldl (parkOne now) ps) := by
  induction l generalizing ps with
  | nil => exact h
  | cons it l ih =>
    refine ih _ ?_ fun x hx => hl x (mem_cons_of_mem _ hx)
    unfold parkOne
    split_ifs <;> exact h.push (hl it mem_cons_self) rfl rfl

/-- What parking does to the queues. -/
theorem park_queues (now : ℕ) (k : List Item) (ps : PassState) :
    (k.foldl (parkOne now) ps).e.q = update ps.e.q .delayed (ps.e.q .delayed ++ k) := by
  induction k generalizing ps with
  | nil => rw [append_nil, update_eq_self]; rfl
  | cons it k ih =>
    have hone : (parkOne now ps it).e = fifoPush ps.e .delayed it := by
      unfold parkOne
      split <;> rfl
    rw [foldl_cons, ih, hone]
    simp only [fifoPush, update_self, update_idem, append_assoc, singleton_append]

/-- Step 3b's loop. -/
theorem drainWaiting_every (fuel : ℕ) (ps : PassState) (h : Every P ps) :
    Every P (drainWaiting fuel ps) := by
  refine drainWaiting_rule ?_ fuel h
  intro ps₁ q it e₁ hps hq hpop
  have hrest := (hps.pop (by rcases hq with rfl | rfl <;> decide) hpop).2
  unfold endWaiting
  dsimp only
  split_ifs
  · exact hrest.kept (itemDrop_kept _ _).toKeptLive rfl
  · exact hrest.kept (deadLetterPush_kept _ _) rfl

/-- Steps 3 and 3b. -/
theorem bound_every (hP : Carries P) (now : ℕ) (h : Every P ps) :
    Every P (boundDrain now (enforceDeadlines now ps)) := by
  have hcheck : Every P (enforceDeadlines now ps) := by
    refine h.touch (q := .running) (f := checkDeadline now) (fun x hx => hP.kin _ x _ ?_ hx) rfl rfl
    unfold checkDeadline
    split_ifs <;> exact ⟨rfl, rfl, rfl, rfl, rfl, rfl⟩
  generalize enforceDeadlines now ps = ps₁ at hcheck
  unfold boundDrain
  split_ifs
  · have hended := drainWaiting_every ((ps₁.e.q .delayed).length + (ps₁.e.q .intake).length) ps₁ hcheck
    generalize drainWaiting ((ps₁.e.q .delayed).length + (ps₁.e.q .intake).length) ps₁ = ps₂ at hended
    exact hended.touch (q := .running) (f := stopItem)
      (fun x hx => hP.kin _ x _ ⟨rfl, rfl, rfl, rfl, rfl, rfl⟩ hx) rfl rfl
  · exact hcheck.shrink (fun _ _ _ hy => hy) rfl
  · exact hcheck

/-- Steps 1 to 3b. -/
theorem settle_every (hP : Carries P) (inp : PassIn) {e : Engine} (h : ∀ q ≠ QId.dead, ∀ x ∈ e.q q, P q x) :
    Every P (passSettle inp e) := by
  have hdrained : Every P (passDrained inp e) :=
    (drainDone_every hP inp.now (e.q .done).length (passStart e)
      ⟨h, fun x hx => absurd hx not_mem_nil⟩).shrink (fun _ _ _ hy => hy) rfl
  have hpromoted : Every P (passPromoted inp e) :=
    promote_every hP inp.now _ _ hdrained (hdrained.queues .delayed (by decide))
  have hparked : Every P (passParked inp e) :=
    park_every inp.now _ _ ⟨hpromoted.queues, fun x hx => absurd hx not_mem_nil⟩ hpromoted.announced
  exact bound_every hP inp.now hparked

/-- Rescoring is a matter of intake. -/
theorem rescore_queues (inp : PassIn) (ps : PassState) (hq : q ≠ .intake) :
    (rescore inp ps).e.q q = ps.e.q q := by
  unfold rescore
  dsimp only
  split_ifs
  · rfl
  · have hmap : (mapQueue ps.e .intake fun it => { it with schedScore := inp.score it }).q q = ps.e.q q :=
      update_of_ne hq _ _
    unfold intakeResort
    split
    · exact hmap
    · exact (update_of_ne hq _ _).trans hmap

end Settling

end Gptps.PassOrigins
