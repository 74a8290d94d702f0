import Ados.TimeWheel.Agenda

/-!
# Deadlines

What the schedule says of the deadlines. A task is returned before its tick only by a hierarchy of
one wheel, and exactly if the key under which it was filed lost a carry. A task that was not filed
in time is past its tick already, and cannot be returned before it.

## Main definitions

* `Timer.KeepsCarry`: a call of `ExecuteAt` that files its task loses no carry
* `Timer.OnTime`: no task was returned before its tick

## Main results

* `onTime_of_keepsCarry`: when no call loses a carry, no task is returned early; a task whose call
  lost one is returned early by every run past its tick
-/

namespace Ados.TimeWheel

open Transition

namespace Timer

/-- A call of `ExecuteAt` that files its task loses no carry in the key. -/
def KeepsCarry (t : Timer) (ev : Event) : Prop :=
  ∀ tp, ev = .executeAt tp →
    t.exec.currentTickCount * t.exec.dtCount % 2 ^ 64 ≤ t.exec.virtualTp tp →
    Carried t.exec.options.wheelSize (t.exec.virtualTp tp / t.exec.dtCount) t.exec.currentTickCount

/-- No task was returned before its tick. -/
def OnTime (t : Timer) : Prop := ∀ f e, (f, e) ∈ t.returned → e.tickCount ≤ f

instance (t : Timer) : Decidable t.OnTime :=
  decidable_of_iff (∀ r ∈ t.returned, r.2.tickCount ≤ r.1)
    ⟨fun h f e he => h (f, e) he, fun h r hr => h r.1 r.2 hr⟩

variable {options : Options} {w w₀ : ℕ} {t : Timer} {es : List Event} {e : Entry}

/-- With one wheel, a task filed in time whose `fireTick` is past has been returned at it. -/
theorem returned_of_single (hsizes : options.wheelSize = [w]) (hw : 0 < w)
    (hr : run Timer.step (initial options) es = some t) (he : e ∈ t.filed) (htime : e.InTime)
    (hlt : fireTick [w] e < t.exec.currentTickCount) : (fireTick [w] e, e) ∈ t.returned := by
  have hpunctual := punctual_run (hsizes ▸ .single hw) hr (inReach_of_single hsizes)
  rw [hsizes] at hpunctual
  have hentered : e ∈ (t.filed : Multiset Entry).filter TaskWithTimestamp.InTime :=
    Multiset.mem_filter.mpr ⟨Multiset.mem_coe.mpr he, htime⟩
  have hdelivered : (fireTick [w] e, e) ∈
      (t.returned : Multiset (ℕ × Entry)).filter fun r => r.2.InTime :=
    hpunctual.delivered_of_lt hentered hlt
  exact Multiset.mem_coe.mp (Multiset.mem_filter.mp hdelivered).1

/-- The calls of a run that loses no carry filed their tasks under the turns of their ticks. -/
theorem onTime_of_carried (hv : ValidSizes options.wheelSize)
    (h : Scheduled options.wheelSize w₀ t)
    (ha : t.Accounted) (hc : ∀ x ∈ t.filed, Carried options.wheelSize x.tickCount x.task.madeAt) :
    t.OnTime := by
  intro f x hx
  by_cases htime : x.InTime
  · rw [h.returned f x hx htime]
    exact (le_fireTick_iff hv.pos htime).mpr (hc x (ha.mem_of_returned hx))
  · exact (Nat.le_of_not_le htime).trans (ha.returned f x hx)

/-- A step that loses no carry files its task, if it files one, under the turn of its tick. -/
theorem carried_step (hs : Sound options t) {ev : Event} {t' : Timer} (hstep : Step t ev t')
    (hq : KeepsCarry t ev)
    (hc : ∀ x ∈ t.filed, Carried options.wheelSize x.tickCount x.task.madeAt) :
    ∀ x ∈ t'.filed, Carried options.wheelSize x.tickCount x.task.madeAt := by
  cases hstep with
  | start => exact hc
  | tick => exact hc
  | executeAt he =>
    rcases executeAt_appends he with ⟨-, rfl, -⟩ | ⟨hle, -, rfl, place, hf⟩
    · simpa using hc
    · intro x hx
      rcases List.mem_append.mp hx with hx | hx
      · exact hc x hx
      · obtain rfl := List.mem_singleton.mp hx
        have hkept := hq _ rfl hle
        rwa [hs.options_eq] at hkept

/-- A task whose key lost a carry was filed in time, on a hierarchy of one wheel. -/
theorem lost_carry (hv : ValidSizes options.wheelSize)
    (hlost : ¬ Carried options.wheelSize e.tickCount e.task.madeAt) :
    ∃ w, options.wheelSize = [w] ∧ e.InTime := by
  obtain ⟨w, ws, hsizes⟩ := List.exists_cons_of_ne_nil hv.ne_nil
  have hw : 0 < w := hv.pos w (by simp [hsizes])
  cases ws with
  | nil =>
    refine ⟨w, hsizes, ?_⟩
    rw [hsizes, Carried, not_or, Nat.not_lt] at hlost
    unfold TaskWithTimestamp.InTime
    omega
  | cons v vs => exact absurd (by rw [hsizes]; trivial) hlost

/-- **No task is returned early as long as no call loses a carry.** With two wheels or more no call
does. With one wheel a call that does has its task returned before its tick, by every run that gets
to that tick. -/
theorem onTime_of_keepsCarry (hv : ValidSizes options.wheelSize)
    (hr : run Timer.step (initial options) es = some t) :
    (AllSteps Timer.step KeepsCarry (initial options) es →
      AllStates Timer.step OnTime (initial options) es) ∧
    ∀ e ∈ t.filed, ¬ Carried options.wheelSize e.tickCount e.task.madeAt →
      e.tickCount ≤ t.exec.currentTickCount → ∃ f < e.tickCount, (f, e) ∈ t.returned := by
  constructor
  · intro hq
    obtain ⟨w₀, ws, hsizes⟩ := List.exists_cons_of_ne_nil hv.ne_nil
    have hw : options.wheelSize[0]? = some w₀ := by rw [hsizes]; rfl
    let P : Timer → Prop := fun t => Sound options t ∧ Scheduled options.wheelSize w₀ t ∧
      t.Accounted ∧ ∀ x ∈ t.filed, Carried options.wheelSize x.tickCount x.task.madeAt
    have hP : AllStates Timer.step P (initial options) es := by
      refine allStates_of_allSteps ?_
        ⟨.initial hv, scheduled_initial, accounted_initial, by simp [initial]⟩ hq
      rintro s ev u ⟨hs, h, ha, hc⟩ hkeep hu
      have hstep := step_cases hu
      exact ⟨hs.step hv hstep, h.step hv hw hs hstep, ha.step hstep,
        carried_step hs hstep hkeep hc⟩
    apply hP.imp
    rintro s ⟨-, h, ha, hc⟩
    exact onTime_of_carried hv h ha hc
  · intro e he hlost hle
    obtain ⟨w, hsizes, htime⟩ := lost_carry hv hlost
    have hw : 0 < w := hv.pos w (by simp [hsizes])
    have hearly : fireTick [w] e < e.tickCount := by
      rw [← Nat.not_le, ← hsizes, le_fireTick_iff hv.pos htime]
      exact hlost
    exact ⟨_, hearly, returned_of_single hsizes hw hr he htime (by omega)⟩

/-- On a wheel of two slots, the task filed for tick `4` at tick `1` is returned at tick `2`. -/
theorem returned_early :
    ∃ t, run Timer.step (initial { dt := 1, wheelSize := [2] })
      [.start 0, .tick, .executeAt 4, .tick, .tick] = some t ∧ ¬ t.OnTime := by
  have h : ((run Timer.step (initial { dt := 1, wheelSize := [2] })
      [.start 0, .tick, .executeAt 4, .tick, .tick]).map fun t => decide t.OnTime) =
        some false := by
    decide +kernel
  obtain ⟨t, ht, hc⟩ := Option.map_eq_some_iff.mp h
  exact ⟨t, ht, of_decide_eq_false hc⟩

/-- In the same run, carried on past the tick `4`. -/
theorem onTime_of_keepsCarry_two_slots :
    ∃ t, run Timer.step (initial { dt := 1, wheelSize := [2] })
      [.start 0, .tick, .executeAt 4, .tick, .tick, .tick] = some t ∧
      ∀ e ∈ t.filed, ¬ Carried [2] e.tickCount e.task.madeAt →
        e.tickCount ≤ t.exec.currentTickCount → ∃ f < e.tickCount, (f, e) ∈ t.returned := by
  obtain ⟨t, ht⟩ := Option.isSome_iff_exists.mp
    (show (run Timer.step (initial { dt := 1, wheelSize := [2] })
      [.start 0, .tick, .executeAt 4, .tick, .tick, .tick]).isSome by decide +kernel)
  exact ⟨t, ht, (onTime_of_keepsCarry (.single (by decide)) ht).2⟩

end Timer

end Ados.TimeWheel
