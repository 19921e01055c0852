import Gptps.CallsCalm

/-!
# Where live items come from between passes

Outside passes an item moves from `ready` to `running` or `done` and from `running` to `done`, and nothing
else; what decides about its admission stays as it is. An accepted submit adds an item to intake.
-/

namespace Gptps.ItemOrigins

open Function EngineState EngineStore EnginePass EngineApi EngineSystem DeskStore ApiDesk SystemDesk
open SystemInvariant PassRetries CallsCalm

variable {q q' : QId}

/-- A way between two queues outside passes. -/
inductive Leads : QId → QId → Prop
  /-- None. -/
  | stay (q : QId) : Leads q q
  /-- An attempt starts. -/
  | start : Leads .ready .running
  /-- An item that must not be started is passed on. -/
  | skip : Leads .ready .done
  /-- An attempt has ended. -/
  | post : Leads .running .done

/-- Nothing leads to where an item waits. -/
theorem Leads.waiting (h : Leads q q') (hq : q' = .delayed ∨ q' = .intake) : q = q' := by
  cases h with
  | stay => rfl
  | start | skip | post => rcases hq with h | h <;> cases h

/-- Nor from there. -/
theorem Leads.of_waiting (h : Leads q q') (hq : q = .delayed ∨ q = .intake) : q' = q := by
  cases h with
  | stay => rfl
  | start | skip | post => rcases hq with h | h <;> cases h

/-- An item that was live before the step. -/
def Older (e : Engine) (q : QId) (y : Item) : Prop :=
  ∃ q' ≠ QId.dead, ∃ x ∈ e.q q', Leads q' q ∧ y.handle = x.handle ∧ Still x y

/-- An item as a submit makes it. -/
structure Fresh (s : Sys) (y : Item) : Prop where
  /-- The handle is the next. -/
  handle : y.handle = s.e.nextHandle
  /-- It is ordered by its priority. -/
  score : y.schedScore = y.priority
  /-- It was not skipped. -/
  skips : y.skips = 0

/-- Whether a step is a pass. -/
def isPass : Label → Bool
  | .pass _ => true
  | _ => false

section Steps

variable {s s' : Sys}

/-- An item that stays. -/
theorem Older.stay {e : Engine} (hq : q ≠ .dead) {x y : Item} (hx : x ∈ e.q q) (hh : y.handle = x.handle)
    (hst : Still x y) : Older e q y := ⟨q, hq, x, hx, .stay q, hh, hst⟩

/-- Every live item after a step outside passes was live before it, or was submitted by it. -/
theorem step_older {l : Label} (hs : Reachable s) (hl : isPass l = false) (hstep : step s l = some s') :
    ∀ q ≠ QId.dead, ∀ y ∈ s'.e.q q, Older s.e q y ∨ q = .intake ∧ Fresh s y := by
  intro q hq y hy
  cases step_way (reachable_inv hs) (reachable_untold hs) hstep with
  | steady hst =>
    obtain ⟨x, hx, hc⟩ := hst.items q hq y hy
    exact .inl (.stay hq hx hc.handle hc.toStill)
  | submits it hsub =>
    rcases hsub.items q hq y hy with ⟨x, hx, hc⟩ | ⟨hqi, hc⟩
    · exact .inl (.stay hq hx hc.handle hc.toStill)
    · refine .inr ⟨hqi, hc.handle.trans hsub.handle, ?_, hc.skips.trans hsub.skips⟩
      rw [hc.score, hc.priority]
      exact hsub.score
  | pass inp hpass =>
    rw [hpass] at hl
    cases hl
  | emit ev buf hemit => exact .inl (.stay hq (hemit.engine ▸ hy) rfl (.refl y))
  | take now it htake =>
    rcases htake.items q y hy with hy | ⟨rfl, rfl⟩ | ⟨rfl, rfl⟩
    · exact .inl (.stay hq hy rfl (.refl y))
    · exact .inl ⟨.ready, by decide, it, htake.ready, .skip, rfl, ⟨rfl, rfl, rfl, rfl, rfl, rfl⟩⟩
    · exact .inl ⟨.ready, by decide, it, htake.ready, .start, rfl, ⟨rfl, rfl, rfl, rfl, rfl, rfl⟩⟩
  | started it hstart =>
    rcases hstart.items q y hy with ⟨hy, -⟩ | ⟨rfl, rfl⟩
    · exact .inl (.stay hq hy rfl (.refl y))
    · exact .inl (.stay hq hstart.running rfl ⟨rfl, rfl, rfl, rfl, rfl, rfl⟩)
  | post it st hpost =>
    rcases hpost.items q y hy with hy | ⟨rfl, rfl⟩
    · exact .inl (.stay hq hy rfl (.refl y))
    · exact .inl ⟨.running, by decide, it, hpost.running, .post, rfl, ⟨rfl, rfl, rfl, rfl, rfl, rfl⟩⟩

end Steps

end Gptps.ItemOrigins
