import Gptps.EngineFrames

/-!
# The dead letters are conserved

Passes append to the retained list, a push beyond the cap evicts from its other end, drains empty it as far
as names can be copied, the cap changes live and the removal of a type renames what is retained of it. A
history of the list records what was pushed and what left; the engine's steps are such histories, and in
every one of them what was pushed is what left, in order, followed by what is retained.
-/

namespace Gptps.DeadLetters

open Function EngineState EngineStore EnginePass EngineApi EngineSystem ItemLife DeskStore EngineDesk
  List
open ApiDesk EngineFrames PassStages SystemDesk

variable {op : Op} {e e' : Engine}

section Histories

/-- The retained list, its counters and its cap are the same. -/
structure Same (e e' : Engine) : Prop where
  /-- The list. -/
  dead : e'.q .dead = e.q .dead
  /-- Its length as the engine counts it. -/
  count : e'.deadLetterCount = e.deadLetterCount
  /-- The evictions. -/
  evicted : e'.deadEvicted = e.deadEvicted
  /-- The cap. -/
  cap : e'.maxDeadLetters = e.maxDeadLetters

/-- The letters a push evicts: those in front of what it leaves of the list. -/
def evictedBy (e : Engine) (it : Item) : List Item :=
  (e.q .dead).take ((e.q .dead).length + 1 - ((deadLetterPush e it).q .dead).length)

/-- What happened to the list. -/
inductive Op
  /-- An item was pushed, and these were evicted for it. -/
  | push (it : Item) (evicted : List Item)
  /-- A drain took these. -/
  | drain (handed : List Item)
  /-- The counter of evictions was written. -/
  | write (v : ℕ)
  /-- Nothing entered or left. -/
  | quiet

/-- One operation on the list. -/
inductive Step (e : Engine) : Op → Engine → Prop
  /-- `dead_letter_push` -/
  | push (it : Item) : Step e (.push it (evictedBy e it)) (deadLetterPush e it)
  /-- `gptps_dead_letter_drain` -/
  | drain (cb : Bool) (nameOk : Ptr → Bool) :
    Step e (.drain (deadLetterDrain e cb nameOk).2) (deadLetterDrain e cb nameOk).1
  /-- limits.max_dead_letters is written. -/
  | cap (v : ℕ) : Step e .quiet (applySetting e (.maxDeadLetters v))
  /-- stats.dead_letters_evicted is written. -/
  | write (v : ℕ) : Step e (.write v) (applySetting e (.deadEvicted v))
  /-- A type is removed. -/
  | remove (r : RegId) (nameOk : Ptr → Bool) : Step e .quiet (unregisterEnd e r nameOk)
  /-- Everything else. -/
  | other {e' : Engine} (h : Same e e') : Step e .quiet e'

/-- A history of operations. -/
inductive Trace : Engine → List Op → Engine → Prop
  /-- Nothing happened yet. -/
  | nil (e : Engine) : Trace e [] e
  /-- One more operation. -/
  | snoc {e e' e'' : Engine} {ops : List Op} {op : Op} (h : Trace e ops e') (hs : Step e' op e'') :
    Trace e (ops ++ [op]) e''

/-- How a letter left. -/
inductive Fate
  /-- The cap evicted it. -/
  | evicted
  /-- A drain took it. -/
  | drained
  deriving DecidableEq, Repr

/-- What was pushed in one operation. -/
def Op.pushed : Op → List Item
  | .push it _ => [it]
  | _ => []

/-- What was pushed, in order. -/
def pushes (ops : List Op) : List Item := ops.flatMap Op.pushed

/-- What left in one operation. -/
def Op.gone : Op → List (Fate × Item)
  | .push _ evicted => evicted.map fun it => (.evicted, it)
  | .drain handed => handed.map fun it => (.drained, it)
  | _ => []

/-- What left, in order. -/
def departures (ops : List Op) : List (Fate × Item) := ops.flatMap Op.gone

/-- The counter of evictions after one operation. -/
def Op.tally (n : ℕ) : Op → ℕ
  | .push _ evicted => n + evicted.length
  | .write v => v
  | _ => n

/-- A letter without the name it is known by, which a removal and a drain replace by a copy. -/
def stamp (it : Item) : Item := { it with nameOwned := none, reg := none }

end Histories

section Frames

variable {e e' : Engine}

/-- What leaves the dead letters alone leaves their counters alone. -/
theorem Same.of_apart (h : Apart e e') : Same e e' := by
  have hrest := h.rest
  exact ⟨h.dead, by rw [hrest], by rw [hrest], by rw [hrest]⟩

end Frames

section Lists

variable {e e' : Engine} {ops : List Op} {n : ℕ}

/-- The eviction loop drops the oldest letters, counts them, and ends below the cap. -/
theorem evictDead_spec (fuel : ℕ) (e : Engine) (hcount : e.deadLetterCount = (e.q .dead).length)
    (hfuel : (e.q .dead).length ≤ fuel) :
    ∃ k ≤ (e.q .dead).length, (evictDead fuel e).q .dead = (e.q .dead).drop k ∧
      (evictDead fuel e).deadLetterCount + k = e.deadLetterCount ∧
      (evictDead fuel e).deadEvicted = e.deadEvicted + k ∧
      (evictDead fuel e).maxDeadLetters = e.maxDeadLetters ∧
      (e.maxDeadLetters ≠ 0 → (evictDead fuel e).deadLetterCount < e.maxDeadLetters) := by
  induction fuel generalizing e with
  | zero =>
    refine ⟨0, Nat.zero_le _, rfl, rfl, rfl, rfl, fun hcap => ?_⟩
    have hzero : e.deadLetterCount = 0 := hcount.trans (Nat.le_zero.mp hfuel)
    show e.deadLetterCount < e.maxDeadLetters
    rw [hzero]
    exact Nat.pos_of_ne_zero hcap
  | succ fuel ih =>
    rw [evictDead]
    split
    · rename_i hfull
      split
      · -- a full list is not empty
        rename_i hpop
        rw [fifoPop_none hpop] at hcount
        have hle := hfull.2
        rw [hcount] at hle
        exact absurd (Nat.le_zero.mp hle) hfull.1
      · rename_i old e₁ hpop
        obtain ⟨rest, hq, hrest, hc, hv, hm⟩ : ∃ rest, e.q .dead = old :: rest ∧ e₁.q .dead = rest ∧
            e₁.deadLetterCount = e.deadLetterCount ∧ e₁.deadEvicted = e.deadEvicted ∧
            e₁.maxDeadLetters = e.maxDeadLetters := by
          obtain ⟨rest, l, a, hq, rfl⟩ := fifoPop_some hpop
          exact ⟨rest, hq, rfl, rfl, rfl, rfl⟩
        have hfree := Same.of_apart <| itemFree_apart { e₁ with
          deadLetterCount := e₁.deadLetterCount - 1, deadEvicted := e₁.deadEvicted + 1 } old.ptr
        generalize itemFree { e₁ with
          deadLetterCount := e₁.deadLetterCount - 1, deadEvicted := e₁.deadEvicted + 1 } old.ptr = e₂
          at hfree ⊢
        obtain ⟨hdead, hcount₂, hevicted₂, hcap₂⟩ := hfree
        dsimp only at hdead hcount₂ hevicted₂ hcap₂
        rw [hrest] at hdead
        rw [hq, length_cons] at hcount hfuel
        obtain ⟨k, hk, hdrop, hleft, hgone, hcap, hbelow⟩ := ih e₂
          (by rw [hdead, hcount₂, hc, hcount, Nat.add_sub_cancel])
          (by rw [hdead]; exact Nat.le_of_succ_le_succ hfuel)
        rw [hdead] at hk hdrop
        rw [hcap₂, hm] at hcap hbelow
        rw [hq]
        refine ⟨k + 1, Nat.succ_le_succ hk, hdrop, ?_, ?_, hcap, hbelow⟩
        · omega
        · omega
    · rename_i hroom
      refine ⟨0, Nat.zero_le _, rfl, rfl, rfl, rfl, fun hcap => ?_⟩
      exact lt_of_not_ge fun hle => hroom ⟨hcap, hle⟩

/-- A push drops the oldest letters, appends the new one, counts both and stays within the cap. -/
theorem deadLetterPush_spec (it : Item) (hcount : e.deadLetterCount = (e.q .dead).length) :
    (deadLetterPush e it).deadLetterCount = ((deadLetterPush e it).q .dead).length ∧
      e.q .dead ++ [it] = evictedBy e it ++ (deadLetterPush e it).q .dead ∧
      (deadLetterPush e it).deadEvicted = e.deadEvicted + (evictedBy e it).length ∧
      (e.maxDeadLetters ≠ 0 → (deadLetterPush e it).deadLetterCount ≤ e.maxDeadLetters) := by
  obtain ⟨hdead, hdcount, hdevicted, hdcap⟩ := Same.of_apart (hidxDel_apart e it)
  obtain ⟨k, hk, hdrop, hleft, hgone, -, hbelow⟩ :=
    evictDead_spec ((hidxDel e it).q .dead).length (hidxDel e it) (by rw [hdcount, hdead, hcount])
      le_rfl
  rw [hdead] at hk hdrop
  rw [hdevicted] at hgone
  rw [hdcap] at hbelow
  have hq : (deadLetterPush e it).q .dead = (e.q .dead).drop k ++ [it] := by
    simp only [deadLetterPush, fifoPush, update_self, hdead, hdrop]
  have hn : (deadLetterPush e it).deadLetterCount + k = e.deadLetterCount + 1 := by
    show (evictDead _ (hidxDel e it)).deadLetterCount + 1 + k = _
    omega
  have hevicted : evictedBy e it = (e.q .dead).take k := by
    unfold evictedBy
    rw [hq, length_append, length_drop, length_singleton]
    congr 1
    omega
  refine ⟨?_, ?_, ?_, fun hcap => ?_⟩
  · rw [hq, length_append, length_drop, length_singleton]
    omega
  · rw [hevicted, hq, ← append_assoc, take_append_drop]
  · rw [hevicted, length_take, min_eq_left hk]
    exact hgone
  · exact hbelow hcap

/-- Whether a drain can hand over a letter: its name is not needed, there already, or can be copied. -/
def handable (named : Bool) (nameOk : Ptr → Bool) (it : Item) : Bool := named || canOwnName nameOk it

/-- The loop of a drain takes the letters before the first whose name it cannot have. -/
theorem deadLetterTake_spec (nameOk : Ptr → Bool) (named : Bool) (fuel : ℕ) (acc : Engine × List Item)
    (hcount : acc.1.deadLetterCount = (acc.1.q .dead).length)
    (hfuel : (acc.1.q .dead).length ≤ fuel) :
    (deadLetterTake nameOk named fuel acc).2.map stamp = acc.2.map stamp ++
        ((acc.1.q .dead).takeWhile (handable named nameOk)).map stamp ∧
      (deadLetterTake nameOk named fuel acc).1.q .dead =
        (acc.1.q .dead).dropWhile (handable named nameOk) ∧
      (deadLetterTake nameOk named fuel acc).1.deadLetterCount =
        ((deadLetterTake nameOk named fuel acc).1.q .dead).length ∧
      (deadLetterTake nameOk named fuel acc).1.deadEvicted = acc.1.deadEvicted := by
  induction fuel generalizing acc with
  | zero =>
    have hnil : acc.1.q .dead = [] := length_eq_zero_iff.mp (Nat.le_zero.mp hfuel)
    simp [deadLetterTake, hnil, hcount]
  | succ fuel ih =>
    rw [deadLetterTake]
    split
    · rename_i hpop
      simp [fifoPop_none hpop, hcount]
    · rename_i it e₁ hpop
      obtain ⟨rest, hq, hq₁⟩ := fifoPop_q hpop
      have hrest := fifoPop_rest hpop
      have hdead : e₁.q .dead = rest := by rw [hq₁, update_self]
      have hc : e₁.deadLetterCount = acc.1.deadLetterCount := by rw [hrest]
      have hv : e₁.deadEvicted = acc.1.deadEvicted := by rw [hrest]
      rw [hq, length_cons] at hcount hfuel
      split
      · rename_i hok
        have hpass : handable named nameOk it = true := by simpa [handable] using hok
        generalize hname : (if named then it else itemOwnName acc.1 it) = it'
        have hstamp : stamp it' = stamp it := by
          rw [← hname]
          split_ifs <;> rfl
        obtain ⟨htaken, hleft, hlen, hevicted⟩ := ih
          ({ e₁ with deadLetterCount := e₁.deadLetterCount - 1 }, acc.2 ++ [it'])
          (by show e₁.deadLetterCount - 1 = (e₁.q .dead).length
              rw [hdead, hc, hcount, Nat.add_sub_cancel])
          (by show (e₁.q .dead).length ≤ fuel
              rw [hdead]
              exact Nat.le_of_succ_le_succ hfuel)
        refine ⟨?_, ?_, hlen, hevicted.trans hv⟩
        · rw [htaken, hq, takeWhile_cons_of_pos hpass]
          show map stamp (acc.2 ++ [it']) ++ map stamp ((e₁.q .dead).takeWhile _) = _
          rw [hdead, map_append, map_singleton, hstamp, append_assoc]
          rfl
        · rw [hleft, hq, dropWhile_cons_of_pos hpass]
          show (e₁.q .dead).dropWhile _ = _
          rw [hdead]
      · rename_i hstuck
        have hstop : ¬ handable named nameOk it = true := by simpa [handable] using hstuck
        refine ⟨?_, ?_, ?_, rfl⟩
        · rw [hq, takeWhile_cons_of_neg hstop, map_nil, append_nil]
        · rw [hq, dropWhile_cons_of_neg hstop]
        · rw [hq, hcount, length_cons]

/-- A drain hands over exactly the letters before the first whose name it cannot have, and leaves the
rest. -/
theorem deadLetterDrain_spec (hcount : e.deadLetterCount = (e.q .dead).length) (cb : Bool)
    (nameOk : Ptr → Bool) :
    (deadLetterDrain e cb nameOk).2.map stamp =
        ((e.q .dead).takeWhile (handable (!cb || boundedSealed e) nameOk)).map stamp ∧
      (deadLetterDrain e cb nameOk).1.q .dead =
        (e.q .dead).dropWhile (handable (!cb || boundedSealed e) nameOk) ∧
      (deadLetterDrain e cb nameOk).1.deadLetterCount = ((deadLetterDrain e cb nameOk).1.q .dead).length ∧
      (deadLetterDrain e cb nameOk).1.deadEvicted = e.deadEvicted :=
  deadLetterTake_spec nameOk (!cb || boundedSealed e) (e.q .dead).length (e, []) hcount le_rfl

/-- The removal of a type renames letters in place. -/
theorem unregisterEnd_spec (e : Engine) (r : RegId) (nameOk : Ptr → Bool) :
    ((unregisterEnd e r nameOk).q .dead).map stamp = (e.q .dead).map stamp ∧
      (unregisterEnd e r nameOk).deadLetterCount = e.deadLetterCount ∧
      (unregisterEnd e r nameOk).deadEvicted = e.deadEvicted := by
  have hq : (unregisterEnd e r nameOk).q .dead = (e.q .dead).map (ownDeadLetter e r nameOk) := by
    unfold unregisterEnd
    dsimp only
    split_ifs <;> rfl
  refine ⟨?_, ?_, ?_⟩
  · rw [hq, map_map]
    refine map_congr_left fun it _ => ?_
    show stamp (ownDeadLetter e r nameOk it) = stamp it
    unfold ownDeadLetter
    split_ifs <;> rfl
  · unfold unregisterEnd
    dsimp only
    split_ifs <;> rfl
  · unfold unregisterEnd
    dsimp only
    split_ifs <;> rfl

/-- The books of a history: the engine's count, what was pushed, and the counter of evictions. -/
structure Books (n : ℕ) (ops : List Op) (e : Engine) : Prop where
  /-- The count is the length of the list. -/
  count : e.deadLetterCount = (e.q .dead).length
  /-- What was pushed is what left followed by what is retained. -/
  order : (pushes ops).map stamp = (departures ops).map (fun x => stamp x.2) ++ (e.q .dead).map stamp
  /-- The evictions are counted, from the value last written on. -/
  evicted : e.deadEvicted = ops.foldl Op.tally n

/-- One more operation: it accounts for what it pushes, for what leaves and for its evictions. -/
theorem Books.snoc (h : Books n ops e) (hcount : e'.deadLetterCount = (e'.q .dead).length)
    (horder : (e.q .dead).map stamp ++ op.pushed.map stamp =
      op.gone.map (fun x => stamp x.2) ++ (e'.q .dead).map stamp)
    (hevicted : e'.deadEvicted = op.tally e.deadEvicted) : Books n (ops ++ [op]) e' := by
  refine ⟨hcount, ?_, ?_⟩
  · unfold pushes departures
    rw [flatMap_append, flatMap_append, flatMap_singleton, flatMap_singleton,
      map_append, map_append, append_assoc, ← horder, ← append_assoc]
    exact congrArg (· ++ _) h.order
  · rw [foldl_append, hevicted, h.evicted]
    rfl

/-- Nothing enters or leaves. -/
theorem Books.quiet (h : Books n ops e) (hq : (e'.q .dead).map stamp = (e.q .dead).map stamp)
    (hc : e'.deadLetterCount = e.deadLetterCount) (hv : e'.deadEvicted = e.deadEvicted) :
    Books n (ops ++ [.quiet]) e' := by
  refine h.snoc ?_ ?_ hv
  · have hlen : (e'.q .dead).length = (e.q .dead).length := by simpa using congrArg length hq
    rw [hc, hlen, h.count]
  · rw [hq]
    exact append_nil _

/-- One operation keeps the books. -/
theorem Books.step (h : Books n ops e) (hs : Step e op e') : Books n (ops ++ [op]) e' := by
  cases hs with
  | push it =>
    obtain ⟨hcount, horder, hevicted, -⟩ := deadLetterPush_spec it h.count
    refine h.snoc hcount ?_ hevicted
    have hlist := congrArg (map stamp) horder
    rw [map_append, map_append] at hlist
    rw [Op.gone, map_map]
    exact hlist
  | drain cb nameOk =>
    obtain ⟨htaken, hleft, hcount, hevicted⟩ := deadLetterDrain_spec h.count cb nameOk
    refine h.snoc hcount ?_ hevicted
    have hsplit := congrArg (map stamp)
      (takeWhile_append_dropWhile (p := handable (!cb || boundedSealed e) nameOk) (l := e.q .dead))
    rw [map_append, ← htaken, ← hleft] at hsplit
    rw [Op.gone, map_map]
    exact (append_nil _).trans hsplit.symm
  | cap v => exact h.quiet rfl rfl rfl
  | write v => exact h.snoc h.count (append_nil _) rfl
  | remove r nameOk =>
    obtain ⟨hq, hc, hv⟩ := unregisterEnd_spec e r nameOk
    exact h.quiet hq hc hv
  | other hsame => exact h.quiet (congrArg _ hsame.dead) hsame.count hsame.evicted

/-- Every history keeps the books. -/
theorem Trace.books (h : Trace e ops e') (hempty : e.q .dead = []) (hcount : e.deadLetterCount = 0) :
    Books e.deadEvicted ops e' := by
  induction h with
  | nil => exact ⟨by rw [hempty, hcount]; rfl, by rw [hempty]; rfl, rfl⟩
  | snoc _ hs ih => exact ih.step hs

end Lists

section Passes

/-- One history after another. -/
theorem Trace.append {e'' : Engine} {ops ops' : List Op} (h : Trace e ops e') (h' : Trace e' ops' e'') :
    Trace e (ops ++ ops') e'' := by
  induction h' with
  | nil =>
    rw [append_nil]
    exact h
  | snoc _ hs ih =>
    rw [← append_assoc]
    exact ih.snoc hs

/-- One operation. -/
theorem Trace.single (h : Step e op e') : Trace e [op] e' :=
  (Trace.nil e).snoc h

/-- Whether an operation is one of a pass. -/
def Op.filling : Op → Bool
  | .push .. => true
  | .quiet => true
  | _ => false

/-- Items were pushed, and nothing else happened to the list. -/
def Fills (e e' : Engine) : Prop := ∃ ops, Trace e ops e' ∧ ∀ op ∈ ops, op.filling = true

namespace Fills

variable {e e' e'' : Engine}

theorem trans (h : Fills e e') (h' : Fills e' e'') : Fills e e'' := by
  obtain ⟨ops, htrace, hops⟩ := h
  obtain ⟨ops', htrace', hops'⟩ := h'
  refine ⟨ops ++ ops', htrace.append htrace', fun op hop => ?_⟩
  rcases mem_append.mp hop with hop | hop
  · exact hops op hop
  · exact hops' op hop

/-- Nothing happened to the list. -/
theorem of_apart (h : Apart e e') : Fills e e' :=
  ⟨[.quiet], .single (.other (.of_apart h)), by simp [Op.filling]⟩

theorem refl (e : Engine) : Fills e e := of_apart (.refl e)

/-- One push. -/
theorem push (e : Engine) (it : Item) : Fills e (deadLetterPush e it) :=
  ⟨[.push it (evictedBy e it)], .single (.push it), by simp [Op.filling]⟩

end Fills

/-- Step 1. -/
theorem drainDone_fills (now fuel : ℕ) (ps : PassState) : Fills ps.e (drainDone now fuel ps).e := by
  refine drainDone_decides (M := fun ps' => Fills ps.e ps'.e) ?_ fuel (.refl _)
  intro ps₁ it e₁ ps' h hpop hd
  have hrelease : Fills ps.e (release e₁ it.toCore) :=
    h.trans (.of_apart ((fifoPop_apart _ _ (by decide) hpop).trans ⟨rfl, rfl⟩))
  cases hd with
  | again => exact hrelease.trans (.of_apart (fifoPush_apart _ _ (by decide)))
  | drop => exact hrelease.trans (.of_apart (itemDrop_apart _ _))
  | bury => exact hrelease.trans (.push _ _)
  | retry => exact hrelease

/-- Steps 2 and 2b. -/
theorem stages_apart {f : PassState → Item → PassState} (hf : ∀ ps it, Apart ps.e (f ps it).e)
    (l : List Item) (ps : PassState) : Apart ps.e (l.foldl f ps).e := by
  induction l generalizing ps with
  | nil => exact .refl _
  | cons it l ih => exact (hf ps it).trans (ih _)

theorem promoteOne_apart (now : ℕ) (ps : PassState) (it : Item) : Apart ps.e (promoteOne now ps it).e := by
  unfold promoteOne
  split_ifs
  · exact (fifoRemove_apart _ _ (by decide)).trans (intakeInsert_apart _ _)
  · exact .refl _

theorem parkOne_apart (now : ℕ) (ps : PassState) (it : Item) : Apart ps.e (parkOne now ps it).e := by
  unfold parkOne
  split
  · exact fifoPush_apart _ _ (by decide)
  · exact fifoPush_apart _ _ (by decide)

/-- Step 3b's loop. -/
theorem drainWaiting_fills (fuel : ℕ) (ps : PassState) : Fills ps.e (drainWaiting fuel ps).e := by
  refine drainWaiting_rule (M := fun ps' => Fills ps.e ps'.e) ?_ fuel (.refl _)
  intro ps₁ q it e₁ h hq hpop
  have hpopped : Fills ps.e e₁ :=
    h.trans (.of_apart (fifoPop_apart _ _ (by rcases hq with rfl | rfl <;> decide) hpop))
  unfold endWaiting
  dsimp only
  split_ifs
  · exact hpopped.trans (.of_apart (itemDrop_apart _ _))
  · exact hpopped.trans (.push _ _)

/-- Step 3b. -/
theorem boundDrain_fills (now : ℕ) (ps : PassState) : Fills ps.e (boundDrain now ps).e := by
  unfold boundDrain
  split_ifs
  · have hdrained := drainWaiting_fills ((ps.e.q .delayed).length + (ps.e.q .intake).length) ps
    generalize drainWaiting ((ps.e.q .delayed).length + (ps.e.q .intake).length) ps = ps₁ at hdrained ⊢
    have hforget : Apart ps₁.e (intakeForget ps₁.e) := .of_store rfl
    exact hdrained.trans (.of_apart (hforget.trans (mapQueue_apart _ (by decide) _)))
  · exact .refl _
  · exact .refl _

/-- Steps 1 to 3b. -/
theorem passSettle_fills (inp : PassIn) (e : Engine) : Fills e (passSettle inp e).e := by
  have hdrained : Fills e (passDrained inp e).e := drainDone_fills inp.now _ (passStart e)
  have hpromoted : Apart (passDrained inp e).e (passPromoted inp e).e :=
    stages_apart (promoteOne_apart inp.now) _ _
  have hparked : Apart (passPromoted inp e).e (passParked inp e).e :=
    stages_apart (parkOne_apart inp.now) _ { passPromoted inp e with announced := [] }
  have hdeadlines : Apart (passParked inp e).e (enforceDeadlines inp.now (passParked inp e)).e :=
    mapQueue_apart _ (by decide) _
  exact (hdrained.trans (.of_apart ((hpromoted.trans hparked).trans hdeadlines))).trans
    (boundDrain_fills _ _)

/-- One round of the admission loop. -/
theorem admitOnce_fills (inp : PassIn) (ps : PassState) (top : Item) :
    Fills ps.e (admitOnce inp ps top).1.e := by
  have hround := admitOnce_round inp ps top
  generalize admitOnce inp ps top = r at hround ⊢
  have hbury : ∀ it x, Fills ps.e (deadLetterPush (intakeUnlink ps.e it) x) := fun it x =>
    (Fills.of_apart (intakeUnlink_apart _ it)).trans (.push _ x)
  cases hround with
  | nothing | stuck | held | reserve | denyStuck | starved => exact .refl _
  | strand | deny => exact hbury _ _
  | defer => exact .of_apart ((intakeUnlink_apart _ _).trans (fifoPush_apart _ _ (by decide)))
  | admission =>
    refine .of_apart ?_
    refine Apart.trans ?_ (fifoPush_apart _ _ (by decide))
    split_ifs
    · exact (intakeUnlink_apart _ _).trans ⟨rfl, rfl⟩
    · exact ((mapQueue_apart _ (by decide) _).trans (intakeUnlink_apart _ _)).trans ⟨rfl, rfl⟩

theorem admitLoop_fills (inp : PassIn) (fuel : ℕ) (ps : PassState) :
    Fills ps.e (admitLoop inp fuel ps).e :=
  admitLoop_rule (M := fun ps' => Fills ps.e ps'.e)
    (fun ps₁ top h _ => h.trans (admitOnce_fills inp ps₁ top)) fuel (.refl _)

/-- A pass pushes, and does nothing else to the list. -/
theorem enginePass_fills (inp : PassIn) (e : Engine) : Fills e (enginePass inp e).e := by
  have hscored : Apart (passSettle inp e).e (passScored inp e).e := by
    unfold passScored rescore
    split_ifs
    · exact .refl _
    · exact (mapQueue_apart _ (by decide) _).trans (intakeResort_apart _)
  exact (((passSettle_fills inp e).trans (.of_apart hscored)).trans (admitLoop_fills inp _ _)).trans
    (.of_apart (hidxTrim_apart _ _))

end Passes

section Steps

variable {l : Label}

/-- What a step can do to the list. -/
def Explains : Label → Op → Bool
  | .pass _, op => op.filling
  | .deadDrain .., .drain _ => true
  | .setting (.deadEvicted v), .write w => v = w
  | _, .quiet => true
  | _, _ => false

/-- A step is a history of the list. -/
def Told (l : Label) (e e' : Engine) : Prop := ∃ ops, Trace e ops e' ∧ ∀ op ∈ ops, Explains l op = true

/-- Every step may leave the list alone. -/
theorem explains_quiet (l : Label) : Explains l .quiet = true := by
  unfold Explains
  split <;> simp_all [Op.filling]

/-- One operation. -/
theorem Told.single (h : Step e op e') (hl : Explains l op = true) : Told l e e' := by
  refine ⟨[op], .single h, fun op' hop => ?_⟩
  rw [mem_singleton.mp hop]
  exact hl

/-- Nothing happened to the list. -/
theorem Told.of_same (h : Same e e') : Told l e e' :=
  .single (.other h) (explains_quiet l)

theorem Told.of_apart (h : Apart e e') : Told l e e' := .of_same (.of_apart h)

variable {s s' : Sys}

/-- Settings. -/
theorem setting_told (e : Engine) (x : Setting) : Told (.setting x) e (applySetting e x) := by
  cases x with
  | maxDeadLetters v => exact .single (.cap v) rfl
  | deadEvicted v => exact .single (.write v) (decide_eq_true rfl)
  | _ => exact .of_same ⟨rfl, rfl, rfl, rfl⟩

/-- A pass. -/
theorem pass_told (inp : PassIn) (e : Engine) (b : Bool) :
    Told (.pass inp) e { (enginePass inp e).e with workersExit := b } := by
  obtain ⟨ops, htrace, hops⟩ := enginePass_fills inp e
  have hexit : Same (enginePass inp e).e { (enginePass inp e).e with workersExit := b } :=
    ⟨rfl, rfl, rfl, rfl⟩
  refine ⟨ops ++ [.quiet], htrace.snoc (.other hexit), fun op hop => ?_⟩
  rcases mem_append.mp hop with hop | hop
  · exact hops op hop
  · rw [mem_singleton.mp hop]
    exact explains_quiet _

/-- Every step of an engine that is still there is a history of the list. -/
theorem step_told (hstep : step s l = some s') (hup : s'.shut ≠ .returned) : Told l s.e s'.e := by
  have hgone : l ≠ .shutdownEnd := by
    rintro rfl
    exact hup (end_shut hstep)
  have heffect := step_effect hstep
  generalize s'.e = e at heffect ⊢
  cases heffect with
  | idle => exact .of_apart (.refl _)
  | pass b => exact pass_told _ _ b
  | take h => exact .of_apart (takeReady_apart _ h)
  | attempt => exact .of_apart (mapQueue_apart _ (by decide) _)
  | post => exact .of_apart ((fifoRemove_apart _ _ (by decide)).trans (fifoPush_apart _ _ (by decide)))
  | sealing h => exact .of_apart (boundedSeal_apart _ h)
  | memory => exact .of_apart (.of_store rfl)
  | pool h => exact .of_apart (poolTake_apart _ h)
  | submit => exact .of_apart (submitInternal_apart _ _ _)
  | cancel => exact .of_apart (gptpsCancel_apart _ _)
  | unregister h =>
    have hsame := Same.of_apart (unregisterBegin_apart _ h)
    exact .of_same { hsame with }
  | remove => exact .single (.remove _ _) rfl
  | free => exact .of_apart (itemFree_apart _ _)
  | drain => exact .single (.drain _ _) rfl
  | enrol h => exact .of_same ⟨by rw [h], by rw [h], by rw [h], by rw [h]⟩
  | setting => exact setting_told _ _
  | @halt now =>
    have hsame := Same.of_apart (shutdownBegin_apart s.e now)
    exact .of_same { hsame with }
  | collect => exact .of_apart (shutdownCollect_apart _)
  | gone => exact absurd rfl hgone

end Steps

section Runs

/-- The evictions of a history. -/
def evictions (ops : List Op) : ℕ := (departures ops).countP fun x => x.1 = .evicted

/-- Unless it is written, the counter grows by the evictions. -/
theorem tally_evictions {ops : List Op} (h : ∀ v, Op.write v ∉ ops) (n : ℕ) :
    ops.foldl Op.tally n = n + evictions ops := by
  induction ops generalizing n with
  | nil => rfl
  | cons op ops ih =>
    have hone : Op.tally n op = n + op.gone.countP fun x => x.1 = .evicted := by
      cases op with
      | push it evicted =>
        simp [Op.tally, Op.gone, countP_map, Function.comp_def]
      | drain handed => simp [Op.tally, Op.gone, countP_map, Function.comp_def]
      | write v => exact absurd mem_cons_self (h v)
      | quiet => rfl
    rw [foldl_cons, ih (fun v hv => h v (mem_cons_of_mem _ hv)), hone]
    unfold evictions departures
    rw [flatMap_cons, countP_append, add_assoc]

/-- A run is a history of the list, one piece a step. -/
theorem run_told {s s' : Sys} {ls : List Label} (hrun : run s ls = some s') (hup : s'.shut ≠ .returned) :
    ∃ opss : List (List Op), Forall₂ (fun l ops => ∀ op ∈ ops, Explains l op = true) ls opss ∧
      Trace s.e opss.flatten s'.e := by
  induction ls generalizing s with
  | nil =>
    cases hrun
    exact ⟨[], .nil, .nil _⟩
  | cons l ls ih =>
    obtain ⟨s₁, hstep, hrest⟩ := Option.bind_eq_some_iff.mp hrun
    have hup₁ : s₁.shut ≠ .returned := by
      cases ls with
      | nil =>
        cases hrest
        exact hup
      | cons l' ls =>
        obtain ⟨s₂, hstep', -⟩ := Option.bind_eq_some_iff.mp hrest
        exact step_up hstep'
    obtain ⟨ops, htrace, hops⟩ := step_told hstep hup₁
    obtain ⟨opss, hall, htraces⟩ := ih hrest
    exact ⟨ops :: opss, .cons hops hall, htrace.append htraces⟩

/-- Dead letters are conserved. Every run of an engine is a history of pushes, drains and changes around
the retained list, and in every history the count is the list's length, what was pushed is what left,
evicted or drained, followed in order by what is retained, a push ends within the cap in force, a drain
hands over exactly what is before the first letter whose name it cannot have, and the counter of evictions
grows by exactly these while nothing writes it. -/
theorem dead_letters_conserved (a : OpenArgs) :
    (∀ ls s, run (init a) ls = some s → s.shut ≠ .returned →
      ∃ opss : List (List Op), Forall₂ (fun l ops => ∀ op ∈ ops, Explains l op = true) ls opss ∧
        Trace (init a).e opss.flatten s.e) ∧
    ∀ ops e, Trace (init a).e ops e →
      e.deadLetterCount = (e.q .dead).length ∧
      (pushes ops).map stamp = (departures ops).map (fun x => stamp x.2) ++ (e.q .dead).map stamp ∧
      (e.q .dead).map stamp <:+ (pushes ops).map stamp ∧
      (∀ it, e.maxDeadLetters ≠ 0 → (deadLetterPush e it).deadLetterCount ≤ e.maxDeadLetters) ∧
      (∀ cb nameOk, (deadLetterDrain e cb nameOk).2.map stamp =
          ((e.q .dead).takeWhile (handable (!cb || boundedSealed e) nameOk)).map stamp ∧
        (deadLetterDrain e cb nameOk).1.q .dead =
          (e.q .dead).dropWhile (handable (!cb || boundedSealed e) nameOk)) ∧
      ∀ ops' e', Trace e ops' e' → (∀ v, Op.write v ∉ ops') →
        e'.deadEvicted = e.deadEvicted + evictions ops' := by
  refine ⟨fun ls s hrun hup => run_told hrun hup, fun ops e htrace => ?_⟩
  have hbooks : Books 0 ops e := htrace.books rfl rfl
  refine ⟨hbooks.count, hbooks.order, ?_, ?_, ?_, ?_⟩
  · rw [hbooks.order]
    exact suffix_append _ _
  · intro it hcap
    exact (deadLetterPush_spec it hbooks.count).2.2.2 hcap
  · intro cb nameOk
    obtain ⟨htaken, hleft, -⟩ := deadLetterDrain_spec hbooks.count cb nameOk
    exact ⟨htaken, hleft⟩
  · intro ops' e' htrace' hwrites
    have hbooks' : Books 0 (ops ++ ops') e' := (htrace.append htrace').books rfl rfl
    rw [hbooks'.evicted, foldl_append, ← hbooks.evicted, tally_evictions hwrites]

/-- An engine that retains one letter. -/
def letterOpen : OpenArgs := { sampleOpen false 1000 with maxDeadLetters := 1 }

/-- Two items fail, one after the other. -/
def failedRun : List Label :=
  sampleType false 600 ++ sampleAt 7 0 ++ sampleAt 8 0 ++ [.pass (samplePass 10)] ++
    sampleAttempt 7 .task ++ [.pass (samplePass 13), .emit] ++ sampleAttempt 8 .task ++
    [.pass (samplePass 14)]

/-- The first letter is evicted for the second, and a drain hands that over: nothing else was pushed. -/
theorem dead_letters_conserved_drained :
    (deadLetterDrain (ranTo letterOpen failedRun).e true fun _ => true).2.length = 1 ∧
    ∃ ops, Trace (init letterOpen).e ops (ranTo letterOpen failedRun).e ∧ evictions ops = 1 ∧
      (pushes ops).map stamp = (departures ops).map (fun x => stamp x.2) ++
        (deadLetterDrain (ranTo letterOpen failedRun).e true fun _ => true).2.map stamp := by
  obtain ⟨hruns, hall⟩ := dead_letters_conserved letterOpen
  obtain ⟨opss, hexplained, htrace⟩ :=
    hruns failedRun _ (run_ranTo (by decide +kernel)) (by decide +kernel)
  have hwrites : ∀ l ∈ failedRun, ∀ v, Explains l (.write v) = false := by
    simp [failedRun, sampleType, sampleAt, sampleAttempt, Explains, Op.filling]
  have hquiet : ∀ ops ∈ opss, ∀ v, Op.write v ∉ ops := by
    refine ((forall₂_and_left (R := fun _ _ => True) opss failedRun).mp (Forall₂.flip ?_)).1
    refine ((forall₂_and_left _ _).mpr ⟨hwrites, hexplained⟩).imp ?_
    rintro l ops ⟨hnone, hsome⟩
    refine ⟨fun v hv => ?_, trivial⟩
    cases (hnone v).symm.trans (hsome _ hv)
  obtain ⟨-, horder, -, -, hdrain, -⟩ := hall _ _ htrace
  obtain ⟨-, -, -, -, -, hevicted⟩ := hall [] _ (.nil _)
  have hone := hevicted _ _ htrace fun v hv => by
    obtain ⟨ops, hops, hmem⟩ := mem_flatten.mp hv
    exact hquiet ops hops v hmem
  have hall' : ((ranTo letterOpen failedRun).e.q .dead).takeWhile
      (handable (!true || boundedSealed (ranTo letterOpen failedRun).e) fun _ => true) =
        (ranTo letterOpen failedRun).e.q .dead := by decide +kernel
  refine ⟨by decide +kernel, _, htrace, ?_, ?_⟩
  · have hcount : (ranTo letterOpen failedRun).e.deadEvicted = 1 := by decide +kernel
    exact (hone.trans (Nat.zero_add _)).symm
  · rw [(hdrain true fun _ => true).1, hall', horder]

end Runs

end Gptps.DeadLetters
