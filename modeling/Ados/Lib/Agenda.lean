import Ados.Lib.Run
import Mathlib.Algebra.Order.Group.Multiset

/-!
# Agendas

An agenda holds items, each with a date, and stands at a date of its own. An item is entered as long
as its date is not past. Each day the items of that date are delivered, and the agenda goes on to
the next date. This is what a timer is for: every item is delivered once, on its date.

## Main definitions

* `Agenda α`: the current date, the items pending, entered and delivered
* `Agenda.step date`: entering an item, and the end of a day
* `Agenda.Punctual date`: nothing is lost, late or early

## Main results

* `Agenda.run_punctual`: every run of an agenda is punctual
* `Agenda.Punctual.delivered_of_lt`: an item whose date is past has been delivered, on its date
* `Agenda.step_enter`, `Agenda.step_next`: the two steps as an implementation makes them
-/

open Transition

/-- The current date, the items pending, the items entered so far, and the items delivered, each
with the date of its delivery. -/
structure Agenda (α : Type*) where
  now : ℕ := 0
  pending : Multiset α := 0
  entered : Multiset α := 0
  delivered : Multiset (ℕ × α) := 0

namespace Agenda

variable {α : Type*}

/-- An item is entered, or the day ends. -/
inductive Event (α : Type*) where
  | enter (a : α)
  | next

/-- The items of the current date are delivered at the end of the day. -/
def step (date : α → ℕ) (s : Agenda α) : Event α → Option (Agenda α)
  | .enter a =>
    if s.now ≤ date a then
      some { s with pending := s.pending + {a}, entered := s.entered + {a} }
    else none
  | .next =>
    some { s with
      now := s.now + 1
      pending := s.pending.filter fun a => date a ≠ s.now
      delivered := s.delivered +
        (s.pending.filter fun a => date a = s.now).map fun a => (s.now, a) }

/-- Every item entered is pending or has been delivered, no item pending is late, and every delivery
was on its date. -/
structure Punctual (date : α → ℕ) (s : Agenda α) : Prop where
  entered : s.entered = s.delivered.map Prod.snd + s.pending
  pending : ∀ a ∈ s.pending, s.now ≤ date a
  delivered : ∀ x ∈ s.delivered, x.1 = date x.2 ∧ x.1 < s.now

variable {date : α → ℕ} {s t : Agenda α} {e : Event α} {es : List (Event α)}

theorem punctual_empty : Punctual date ({} : Agenda α) := ⟨rfl, by simp, by simp⟩

/-- One event keeps the agenda: the items pending are those of the current date and the others. -/
theorem Punctual.step (h : Punctual date s) (hs : step date s e = some t) : Punctual date t := by
  cases e with
  | enter a =>
    simp only [Agenda.step] at hs
    split at hs
    · next hle =>
      cases hs
      refine ⟨?_, ?_, h.delivered⟩
      · rw [h.entered, add_assoc]
      · intro b hb
        rcases Multiset.mem_add.mp hb with hb | hb
        · exact h.pending b hb
        · rwa [Multiset.mem_singleton.mp hb]
    · exact absurd hs (by simp)
  | next =>
    cases hs
    refine ⟨?_, ?_, ?_⟩
    · have hsplit := Multiset.filter_add_not (fun a => date a = s.now) s.pending
      simp only [Multiset.map_add, Multiset.map_map, Function.comp_def, Multiset.map_id']
      rw [h.entered, add_assoc, hsplit]
    · intro a ha
      obtain ⟨ha, hne⟩ := Multiset.mem_filter.mp ha
      exact lt_of_le_of_ne (h.pending a ha) (Ne.symm hne)
    · intro x hx
      rcases Multiset.mem_add.mp hx with hx | hx
      · obtain ⟨hdate, hlt⟩ := h.delivered x hx
        exact ⟨hdate, Nat.lt_succ_of_lt hlt⟩
      · obtain ⟨a, ha, rfl⟩ := Multiset.mem_map.mp hx
        exact ⟨(Multiset.mem_filter.mp ha).2.symm, Nat.lt_succ_self _⟩

/-- **Every run of an agenda is punctual.** -/
theorem run_punctual (hr : run (Agenda.step date) {} es = some s) : Punctual date s :=
  run_invariant (fun _ _ _ h hs => h.step hs) punctual_empty hr

/-- An item whose date is past has been delivered, on its date. -/
theorem Punctual.delivered_of_lt (h : Punctual date s) {a : α} (ha : a ∈ s.entered)
    (hlt : date a < s.now) : (date a, a) ∈ s.delivered := by
  rw [h.entered] at ha
  rcases Multiset.mem_add.mp ha with ha | ha
  · obtain ⟨⟨f, b⟩, hx, rfl⟩ := Multiset.mem_map.mp ha
    have hdate : f = date b := (h.delivered _ hx).1
    exact hdate ▸ hx
  · exact absurd (h.pending a ha) (Nat.not_le.mpr hlt)

/-! ## The steps of an implementation -/

theorem step_enter {a : α} (h : s.now ≤ date a) :
    step date s (.enter a) =
      some { s with pending := s.pending + {a}, entered := s.entered + {a} } :=
  if_pos h

/-- The end of a day takes out the items of that date and keeps the others, however they are told
apart. -/
theorem step_next {taken kept : Multiset α} (hpending : s.pending = kept + taken)
    (htaken : ∀ a ∈ taken, date a = s.now) (hkept : ∀ a ∈ kept, date a ≠ s.now) :
    step date s .next = some { s with
      now := s.now + 1
      pending := kept
      delivered := s.delivered + taken.map fun a => (s.now, a) } := by
  have hdue : s.pending.filter (fun a => date a = s.now) = taken := by
    rw [hpending, Multiset.filter_add, Multiset.filter_eq_nil.mpr hkept,
      Multiset.filter_eq_self.mpr htaken, zero_add]
  have hlater : s.pending.filter (fun a => date a ≠ s.now) = kept := by
    rw [hpending, Multiset.filter_add, Multiset.filter_eq_self.mpr hkept, add_eq_left,
      Multiset.filter_eq_nil]
    intro a ha hne
    exact hne (htaken a ha)
  rw [step, hdue, hlater]

end Agenda
