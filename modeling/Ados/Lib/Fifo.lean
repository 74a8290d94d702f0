import Ados.Lib.Run

/-!
# Queues that can be closed

A queue to which items are offered, and from which they are served one at a time, the oldest first,
until it is closed. This is what a blocking queue is for: nothing is lost, nothing is served twice,
and nothing happens after the end.

## Main definitions

* `Fifo α`: the items waiting, offered and served, and whether the queue is closed
* `Fifo.step`: offering, serving and closing

## Main results

* `Fifo.run_inOrder`: the items served and the items waiting are the items offered
* `Fifo.run_of_closed`: a closed queue stays as it is
-/

open Transition

/-- The items waiting, with the items offered and served so far. -/
structure Fifo (α : Type*) where
  waiting : List α := []
  offered : List α := []
  served : List α := []
  closed : Bool := false

namespace Fifo

variable {α : Type*}

/-- An item is offered, the oldest one is served, or the queue is closed. -/
inductive Event (α : Type*) where
  | offer (a : α)
  | serve
  | close

/-- A closed queue takes and gives nothing. -/
def step (s : Fifo α) : Event α → Option (Fifo α)
  | .offer a =>
    if s.closed then none
    else some { s with waiting := s.waiting ++ [a], offered := s.offered ++ [a] }
  | .serve =>
    match s.closed, s.waiting with
    | false, a :: waiting => some { s with waiting := waiting, served := s.served ++ [a] }
    | _, _ => none
  | .close => some { s with closed := true }

/-- The items served and the items waiting are the items offered, in this order. -/
def InOrder (s : Fifo α) : Prop := s.served ++ s.waiting = s.offered

variable {s t : Fifo α} {e : Event α} {es : List (Event α)}

theorem InOrder.length_waiting (h : InOrder s) :
    s.waiting.length + s.served.length = s.offered.length := by
  rw [← h, List.length_append, Nat.add_comm]

theorem InOrder.step (h : InOrder s) (hs : step s e = some t) : InOrder t := by
  cases e with
  | offer a =>
    simp only [Fifo.step] at hs
    split at hs
    · exact absurd hs (by simp)
    · cases hs
      simp only [InOrder, ← List.append_assoc]
      rw [h]
  | serve =>
    simp only [Fifo.step] at hs
    split at hs
    · next a waiting _ hwaiting =>
      cases hs
      rw [InOrder, hwaiting] at h
      simpa [InOrder] using h
    · exact absurd hs (by simp)
  | close =>
    cases hs
    exact h

/-- **Nothing is lost, repeated or served out of order.** -/
theorem run_inOrder (hr : run Fifo.step ({} : Fifo α) es = some s) : InOrder s := by
  refine run_invariant (fun _ _ _ h hs => h.step hs) ?_ hr
  rfl

theorem step_of_closed (hc : s.closed = true) (hs : step s e = some t) : t = s := by
  cases e with
  | offer a => simp [step, hc] at hs
  | serve => simp [step, hc] at hs
  | close =>
    cases hs
    rw [← hc]

/-- **A closed queue stays as it is.** -/
theorem run_of_closed (hc : s.closed = true) (hr : run step s es = some t) : t = s := by
  refine run_invariant (P := fun u => u = s) ?_ rfl hr
  rintro u e v rfl hs
  exact step_of_closed hc hs

end Fifo
