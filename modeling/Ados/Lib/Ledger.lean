import Ados.Lib.Run
import Mathlib.Data.List.Pairwise
import Mathlib.Data.List.Nodup
import Mathlib.Logic.Function.Basic

/-!
# Calls and their ends

Callers make calls, each of them one at a time. A call is known by its number among all calls, and
ends with an outcome.

## Main definitions

* `Ledger κ α ω`: the calls, those in progress, and the outcomes of the others
* `Ledger.step`: a call begins, or ends
* `Ledger.Kept`: every call is in progress or has ended once, those of one caller in order

## Main results

* `Ledger.Kept.step`, `Ledger.run_kept`: this is kept
-/

open Transition

/-- The calls with their callers and arguments, the call in which a caller is, and the outcomes of
the calls that have ended, in this order. -/
structure Ledger (κ α ω : Type*) where
  calls : List (κ × α) := []
  current : κ → Option ℕ := fun _ => none
  ended : List (ℕ × ω) := []

namespace Ledger

variable {κ α ω : Type*}

/-- A caller begins a call, or ends the one in which it is. -/
inductive Event (κ α ω : Type*) where
  | start (i : κ) (x : α)
  | finish (i : κ) (o : ω)

/-- Who makes the call `n`. -/
def caller (b : Ledger κ α ω) (n : ℕ) : Option κ := b.calls[n]?.map Prod.fst

/-- The call `n` has begun and not ended. -/
def IsOpen (b : Ledger κ α ω) (n : ℕ) : Prop := ∃ i, b.current i = some n

/-- The calls that have ended. -/
def numbers (b : Ledger κ α ω) : List ℕ := b.ended.map Prod.fst

/-- What is kept: every call is in progress or has ended once, and the calls of one caller end in
the order in which they begin. -/
structure Kept (b : Ledger κ α ω) : Prop where
  caller_eq : ∀ i n, b.current i = some n → b.caller n = some i
  nodup : b.numbers.Nodup
  mem_numbers_iff : ∀ n, n ∈ b.numbers ↔ n < b.calls.length ∧ ¬ b.IsOpen n
  past : ∀ i n, b.current i = some n → ∀ m ∈ b.numbers, b.caller m = some i → m < n
  order : b.numbers.Pairwise fun m n => b.caller m = b.caller n → m < n

theorem kept_new : Kept ({} : Ledger κ α ω) where
  caller_eq _ _ h := absurd h (by simp)
  nodup := List.nodup_nil
  mem_numbers_iff n := by simp [numbers]
  past _ _ h := absurd h (by simp)
  order := List.Pairwise.nil

variable {b t : Ledger κ α ω} {i : κ} {n : ℕ} {x : α} {o : ω}

theorem lt_of_caller (h : b.caller n = some i) : n < b.calls.length := by
  obtain ⟨y, hy, -⟩ := Option.map_eq_some_iff.mp h
  exact (List.getElem?_eq_some_iff.mp hy).1

/-- The calls that have begun keep their callers. -/
theorem caller_append {new : List (κ × α)} (hn : n < b.calls.length)
    (ht : t.calls = b.calls ++ new) : t.caller n = b.caller n := by
  rw [caller, ht, List.getElem?_append_left hn, caller]

/-- A call has one caller. -/
theorem Kept.current_inj {j : κ} (h : b.Kept) (hi : b.current i = some n)
    (hj : b.current j = some n) : i = j :=
  Option.some.inj ((h.caller_eq i n hi).symm.trans (h.caller_eq j n hj))

variable [DecidableEq κ]

def step (b : Ledger κ α ω) : Event κ α ω → Option (Ledger κ α ω)
  | .start i x =>
    match b.current i with
    | none =>
      some { b with
        calls := b.calls ++ [(i, x)]
        current := Function.update b.current i (some b.calls.length) }
    | some _ => none
  | .finish i o =>
    match b.current i with
    | some n =>
      some { b with
        current := Function.update b.current i none
        ended := b.ended ++ [(n, o)] }
    | none => none

theorem step_start (hi : b.current i = none) :
    step b (.start i x) =
      some { b with
        calls := b.calls ++ [(i, x)]
        current := Function.update b.current i (some b.calls.length) } := by
  simp only [step, hi]

theorem step_finish (hi : b.current i = some n) :
    step b (.finish i o) =
      some { b with
        current := Function.update b.current i none
        ended := b.ended ++ [(n, o)] } := by
  simp only [step, hi]

/-- A call begins: its number is new. -/
theorem Kept.start (h : b.Kept) (hi : b.current i = none) (hcalls : t.calls = b.calls ++ [(i, x)])
    (hcurrent : t.current = Function.update b.current i (some b.calls.length))
    (hended : t.ended = b.ended) : t.Kept := by
  have hnumbers : t.numbers = b.numbers := by rw [numbers, hended, numbers]
  have hnew : t.caller b.calls.length = some i := by simp [caller, hcalls]
  have hself : t.current i = some b.calls.length := by rw [hcurrent, Function.update_self]
  have hother : ∀ j, j ≠ i → t.current j = b.current j := fun j hj => by
    rw [hcurrent, Function.update_of_ne hj]
  have hlt : ∀ m ∈ b.numbers, m < b.calls.length := fun m hm => ((h.mem_numbers_iff m).mp hm).1
  have hold : ∀ m ∈ b.numbers, t.caller m = b.caller m := fun m hm =>
    caller_append (hlt m hm) hcalls
  constructor
  case caller_eq =>
    intro j n hj
    by_cases hji : j = i
    · subst hji
      obtain rfl : b.calls.length = n := Option.some.inj (hself.symm.trans hj)
      exact hnew
    · have hc := h.caller_eq j n ((hother j hji).symm.trans hj)
      rw [caller_append (lt_of_caller hc) hcalls]
      exact hc
  case nodup => exact hnumbers ▸ h.nodup
  case mem_numbers_iff =>
    intro n
    rw [hnumbers, h.mem_numbers_iff n, hcalls, List.length_append, List.length_singleton]
    constructor
    · rintro ⟨hn, hopen⟩
      refine ⟨by omega, fun ⟨j, hj⟩ => ?_⟩
      by_cases hji : j = i
      · subst hji
        have hnum := Option.some.inj (hself.symm.trans hj)
        omega
      · exact hopen ⟨j, (hother j hji).symm.trans hj⟩
    · rintro ⟨hn, hopen⟩
      have hne : n ≠ b.calls.length := fun hn => hopen ⟨i, hn ▸ hself⟩
      refine ⟨by omega, fun ⟨j, hj⟩ => hopen ⟨j, ?_⟩⟩
      have hji : j ≠ i := fun hji => absurd (hi.symm.trans (hji ▸ hj)) (by simp)
      exact (hother j hji).trans hj
  case past =>
    intro j n hj m hm hc
    rw [hnumbers] at hm
    by_cases hji : j = i
    · subst hji
      have hnum := Option.some.inj (hself.symm.trans hj)
      exact hnum ▸ hlt m hm
    · exact h.past j n ((hother j hji).symm.trans hj) m hm ((hold m hm).symm.trans hc)
  case order =>
    rw [hnumbers]
    refine h.order.imp_of_mem fun {m n} hm hn hlt hc => hlt ?_
    rw [← hold m hm, ← hold n hn]
    exact hc

/-- A call ends: those that its caller made before have ended. -/
theorem Kept.finish (h : b.Kept) (hi : b.current i = some n) (hcalls : t.calls = b.calls)
    (hcurrent : t.current = Function.update b.current i none)
    (hended : t.ended = b.ended ++ [(n, o)]) : t.Kept := by
  have hnumbers : t.numbers = b.numbers ++ [n] := by simp [numbers, hended]
  have hcaller : t.caller = b.caller := by
    funext m
    rw [caller, hcalls, caller]
  have hother : ∀ j m, t.current j = some m → j ≠ i ∧ b.current j = some m := by
    intro j m hj
    by_cases hji : j = i
    · subst hji
      rw [hcurrent, Function.update_self] at hj
      exact absurd hj (by simp)
    · rw [hcurrent, Function.update_of_ne hji] at hj
      exact ⟨hji, hj⟩
  have hnew : n ∉ b.numbers := fun hn => ((h.mem_numbers_iff n).mp hn).2 ⟨i, hi⟩
  have hn : b.caller n = some i := h.caller_eq i n hi
  constructor
  case caller_eq =>
    intro j m hj
    rw [hcaller]
    exact h.caller_eq j m (hother j m hj).2
  case nodup =>
    rw [hnumbers]
    exact List.nodup_append.mpr ⟨h.nodup, List.nodup_singleton n, fun m hm k hk hmk =>
      hnew (List.mem_singleton.mp hk ▸ hmk ▸ hm)⟩
  case mem_numbers_iff =>
    intro m
    rw [hnumbers, List.mem_append, List.mem_singleton, h.mem_numbers_iff m, hcalls]
    constructor
    · rintro (⟨hm, hopen⟩ | rfl)
      · exact ⟨hm, fun ⟨j, hj⟩ => hopen ⟨j, (hother j m hj).2⟩⟩
      · refine ⟨lt_of_caller hn, fun ⟨j, hj⟩ => ?_⟩
        obtain ⟨hji, hj⟩ := hother j m hj
        exact hji (h.current_inj hj hi)
    · rintro ⟨hm, hopen⟩
      by_cases hmn : m = n
      · exact .inr hmn
      · refine .inl ⟨hm, fun ⟨j, hj⟩ => hopen ⟨j, ?_⟩⟩
        have hji : j ≠ i := fun hji => hmn (Option.some.inj (hj.symm.trans (hji ▸ hi)))
        rw [hcurrent, Function.update_of_ne hji]
        exact hj
  case past =>
    intro j k hj m hm hc
    obtain ⟨hji, hj⟩ := hother j k hj
    rw [hcaller] at hc
    rw [hnumbers] at hm
    rcases List.mem_append.mp hm with hm | hm
    · exact h.past j k hj m hm hc
    · obtain rfl := List.mem_singleton.mp hm
      exact absurd (Option.some.inj (hc.symm.trans hn)) hji
  case order =>
    rw [hnumbers, hcaller]
    refine List.pairwise_append.mpr ⟨h.order, List.pairwise_singleton _ _, fun m hm k hk hc => ?_⟩
    obtain rfl := List.mem_singleton.mp hk
    exact h.past i k hi m hm (hc.trans hn)

theorem Kept.step {e : Event κ α ω} (h : b.Kept) (hs : step b e = some t) : t.Kept := by
  cases e with
  | start i x =>
    simp only [Ledger.step] at hs
    split at hs
    · next hi =>
      cases hs
      exact h.start hi rfl rfl rfl
    · exact absurd hs (by simp)
  | finish i o =>
    simp only [Ledger.step] at hs
    split at hs
    · next n hi =>
      cases hs
      exact h.finish hi rfl rfl rfl
    · exact absurd hs (by simp)

/-- **Every call ends at most once, and those of one caller in order.** -/
theorem run_kept {es : List (Event κ α ω)} (hr : run Ledger.step ({} : Ledger κ α ω) es = some b) :
    b.Kept :=
  run_invariant (fun _ _ _ h hs => h.step hs) kept_new hr

end Ledger
