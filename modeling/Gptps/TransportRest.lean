import Gptps.TransportOutcomes
import Mathlib.Algebra.BigOperators.Group.Finset.Basic

/-!
# The transport comes to rest

Between two replies the calls and the readers have only so much to do. When they have done it every
call has its outcome, but for the requests that are outstanding with a worker that lives.
-/

namespace Gptps.TransportRest

open Function Transport TransportStands TransportOutcomes List Option

variable {s s' : Sys} {stand : Addr → Stand} {c : Addr} {k k' : Call} {i : ℕ} {L M : Link}

section Work

/-- The steps a call has before it, with those its record gives a reader. -/
def callWork : Phase → ℕ
  | .routing => 9
  | .numbering _ => 8
  | .registering _ => 7
  | .writing _ => 3
  | .takingBack _ => 2
  | .waiting _ => 1
  | .returned _ => 0

/-- The steps a reader has before it until it reads or ends. -/
def readerWork : Reader → ℕ
  | .reading => 3
  | .calling .. => 5
  | .called _ => 4
  | .broken => 2
  | .failing l => 1 + 2 * l.length
  | .failCalled _ l => 2 + 2 * l.length
  | .gone => 0

/-- The steps of a link. -/
def linkWork (L : Link) : ℕ := 3 * L.pend.length + readerWork L.reader

/-- The steps of the links. -/
def linksWork (w : List Link) : ℕ := (w.map linkWork).sum

/-- The steps of a call that was made. -/
def workOf (o : Option Call) : ℕ := o.elim 0 fun k => callWork k.phase

/-- How many steps there are at most until nothing moves by itself. -/
def work (s : Sys) : ℕ := (∑ c ∈ Finset.range s.made, workOf (s.calls c)) + linksWork s.x.w

end Work

section Moves

variable {l : Label} {recs : Addr → Option Record} {id : ℕ} {o : Option Addr}

/-- The call waits for its reply. -/
def waits (k : Call) : Bool :=
  match k.phase with
  | .waiting _ => true
  | _ => false

/-- The step happens without a reply, a death or a new call: a waiting call goes on when its record was
completed, and a reader finds the end of its stream when it is there. -/
def moves (s : Sys) : Label → Bool
  | .proceed c _ => (s.calls c).any fun k => k.running && (!waits k || (s.recs c).any fun r => r.done)
  | .broken i => (s.x.w[i]?).any fun L => L.reader = .reading && L.eof
  | .reader i => (s.x.w[i]?).any fun L => L.reader ≠ .reading && L.reader ≠ .gone
  | _ => false

end Moves

section Rest

/-- The call has its outcome: it returned, and an asynchronous call that was accepted was called back. -/
def Ended (s : Sys) (c : Addr) (k : Call) : Prop :=
  ∃ st, k.phase = .returned st ∧
    callbacks c s.trace = if k.form.isAsync = true ∧ st = .ok then 1 else 0

end Rest

section Outcomes

end Outcomes

end Gptps.TransportRest
