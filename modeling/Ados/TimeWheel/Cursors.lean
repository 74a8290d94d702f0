import Ados.TimeWheel.Contents

/-!
# Filing ahead of the cursors

A level is ticked ahead of the multiples of its span `S`, by `A = S_0 + ... + S_{i-1}` ticks: when
`c mod S + A` reaches `S`, its cursor is already past the place that `c / S + 1` names. A task that
`ExecuteAt` files one turn ahead, `S ≤ t - c < 2 S`, then lands behind the cursor.

## Main definitions

* `FiledAhead s n place`: the place is not behind a cursor: a key of the map is not below the map's
  cursor, a slot of a wheel above the first is drained before the tick `n`
* `AheadWhen wheelSize c n`: when that is so, for the current tick `c` and the tick `n`

## Main results

* `Timer.drains_run_iff`: these are the slots that the ticks of a run drain
* `filed_ahead_iff`: `ExecuteAt` files ahead of the cursors exactly when `AheadWhen` holds
-/

namespace Ados.TimeWheel

open Odometer Transition

variable {Task : Type}

/-- The place is not behind a cursor. A slot of a wheel above the first is ahead when a tick before
the tick `n` drains it, which the cursors alone decide. -/
def FiledAhead (s : TimeWheelExecutor Task) (n : ℕ) : Place → Prop
  | .map key => s.timingTaskMap.pos ≤ key
  | .slot 0 _ => True
  | .slot (i + 1) p =>
    ∃ k, s.currentTickCount + k < n ∧ Leaves (advance^[k] (digits s.timingWheelVec)) (i + 1) p

/-- When a task with tick `n` is filed ahead of the cursors at tick `c`. On a level of span `S` that
is ahead by `A`: the cursor has not begun the next turn, or the task is two turns ahead, or (on a
wheel of two slots) a whole turn of the wheel still ends before the task. -/
def AheadWhen (wheelSize : List ℕ) (c n : ℕ) : Prop :=
  (∀ i w, wheelSize[i + 1]? = some w → S wheelSize i ≤ n - c → n - c < S wheelSize (i + 1) →
    c % S wheelSize i + ahead wheelSize i < S wheelSize i ∨ 2 * S wheelSize i ≤ n - c ∨
      (c / S wheelSize i + 1 + w) * S wheelSize i ≤ n + ahead wheelSize i) ∧
  ∀ i, i + 1 = wheelSize.length → S wheelSize i ≤ n - c →
    c % S wheelSize i + ahead wheelSize i < S wheelSize i ∨ 2 * S wheelSize i ≤ n - c

section Arithmetic

variable {s a w c n : ℕ}

/-- Where the next turn has begun: the number of turns, counted ahead. -/
theorem add_div_eq (ha : a < s) (c : ℕ) :
    (c + a) / s = c / s + if c % s + a < s then 0 else 1 := by
  have hs : 0 < s := Nat.zero_lt_of_lt ha
  rw [Nat.add_div hs, Nat.div_eq_of_lt ha, Nat.mod_eq_of_lt ha, Nat.add_zero]
  by_cases h : c % s + a < s
  · simp [h]
  · simp [h, Nat.le_of_not_lt h]

/-- A key that is `d / s` turns ahead is not below the cursor, counted ahead by `a`. -/
theorem cursor_le_iff (ha : a < s) {d : ℕ} (hd : s ≤ d) :
    1 + (c + a) / s ≤ d / s + c / s ↔ c % s + a < s ∨ 2 * s ≤ d := by
  have hs : 0 < s := Nat.zero_lt_of_lt ha
  have h1 : 1 ≤ d / s := (Nat.le_div_iff_mul_le hs).mpr (by omega)
  have h2 : 2 ≤ d / s ↔ 2 * s ≤ d := Nat.le_div_iff_mul_le hs
  rw [add_div_eq ha, ← h2]
  split <;> omega

/-- A drain before the tick `n` is a multiple of the span between `c + 1 + a` and `n + a`. -/
theorem exists_multiple_iff (hs : 0 < s) {p : ℕ} :
    (∃ m, c ≤ m ∧ m < n ∧ s ∣ m + 1 + a ∧ (m + 1 + a) / s % w = p) ↔
      ∃ k, c + 1 + a ≤ k * s ∧ k * s ≤ n + a ∧ k % w = p := by
  constructor
  · rintro ⟨m, hcm, hmn, ⟨k, hk⟩, hmod⟩
    rw [hk, Nat.mul_div_cancel_left _ hs] at hmod
    rw [Nat.mul_comm] at hk
    exact ⟨k, by omega, by omega, hmod⟩
  · rintro ⟨k, hlo, hhi, hmod⟩
    have hk : k * s - 1 - a + 1 + a = k * s := by omega
    refine ⟨k * s - 1 - a, by omega, by omega, ?_, ?_⟩
    · rw [hk]
      exact Nat.dvd_mul_left s k
    · rw [hk, Nat.mul_div_cancel _ hs, hmod]

/-- When the place `d / s + c / s` of a dial of size `w` is left before the tick `n`: in the turn of
its number, or, if that has begun by the tick `c`, a whole turn of the dial later. -/
theorem exists_drain_iff (ha : a < s) (hw : 2 ≤ w) (hle : c ≤ n) (hlo : s ≤ n - c) :
    (∃ m, c ≤ m ∧ m < n ∧ s ∣ m + 1 + a ∧
      (m + 1 + a) / s % w = ((n - c) / s + c / s) % w) ↔
      c % s + a < s ∨ 2 * s ≤ n - c ∨ (c / s + 1 + w) * s ≤ n + a := by
  have hs : 0 < s := Nat.zero_lt_of_lt ha
  have hq : 1 ≤ (n - c) / s := (Nat.le_div_iff_mul_le hs).mpr (by omega)
  have hq2 : 2 ≤ (n - c) / s ↔ 2 * s ≤ n - c := Nat.le_div_iff_mul_le hs
  have hmulq := Nat.div_mul_le_self (n - c) s
  have hc := Nat.div_add_mod' c s
  have hr := Nat.mod_lt c hs
  rw [exists_multiple_iff hs]
  constructor
  · rintro ⟨k, hk, hkn, hmod⟩
    by_contra hnot
    simp only [not_or, Nat.not_lt, Nat.not_le] at hnot
    obtain ⟨hpast, hnear, hlate⟩ := hnot
    have hq1 : (n - c) / s = 1 := by omega
    have hgt : c / s + 1 < k := by
      by_contra hle
      have hbegun := Nat.mul_le_mul_right s (Nat.le_of_not_lt hle)
      rw [Nat.add_mul, Nat.one_mul] at hbegun
      omega
    rw [hq1, Nat.add_comm 1] at hmod
    have hturn := Nat.mul_le_mul_right s (Nat.ModEq.add_le_of_lt hmod.symm hgt)
    omega
  · intro h
    by_cases hsoon : c % s + a < s ∨ 2 * s ≤ n - c
    · refine ⟨(n - c) / s + c / s, ?_, ?_, rfl⟩
      · rw [Nat.add_mul]
        have hahead : (c % s + a < s ∧ s ≤ (n - c) / s * s) ∨ 2 * s ≤ (n - c) / s * s := by
          rcases hsoon with hsoon | hsoon
          · exact Or.inl ⟨hsoon, by simpa using Nat.mul_le_mul_right s hq⟩
          · exact Or.inr (Nat.mul_le_mul_right s (hq2.mpr hsoon))
        omega
      · rw [Nat.add_mul]
        omega
    · have hlate : (c / s + 1 + w) * s ≤ n + a := by tauto
      have hq1 : (n - c) / s = 1 := by omega
      refine ⟨c / s + 1 + w, ?_, hlate, ?_⟩
      · have hthree : (c / s + 1 + 2) * s ≤ (c / s + 1 + w) * s :=
          Nat.mul_le_mul_right s (by omega)
        simp only [Nat.add_mul, Nat.one_mul] at hthree ⊢
        omega
      · rw [Nat.add_mod_right, hq1, Nat.add_comm 1]

end Arithmetic

/-! ## The levels -/

section Levels

variable {wheelSize : List ℕ} {c n i j w p key : ℕ}

theorem ValidSizes.S_mono (hv : ValidSizes wheelSize) (hij : i ≤ j) (hj : j < wheelSize.length) :
    S wheelSize i ≤ S wheelSize j := by
  induction j, hij using Nat.le_induction with
  | base => exact Nat.le_refl _
  | succ j _ ih =>
    refine le_trans (ih (by omega)) ?_
    have hw := List.getElem?_eq_getElem hj
    rw [S_succ hw]
    exact Nat.le_mul_of_pos_right _ (hv.pos _ (List.mem_of_getElem? hw))

/-- The level whose slots a task is filed in decides alone: the spans grow with the levels, so that
the distance fits one level. -/
theorem aheadWhen_slot (hv : ValidSizes wheelSize) (hw : wheelSize[i + 1]? = some w)
    (hlo : S wheelSize i ≤ n - c) (hhi : n - c < S wheelSize (i + 1)) :
    AheadWhen wheelSize c n ↔
      c % S wheelSize i + ahead wheelSize i < S wheelSize i ∨ 2 * S wheelSize i ≤ n - c ∨
        (c / S wheelSize i + 1 + w) * S wheelSize i ≤ n + ahead wheelSize i := by
  obtain ⟨hlt, -⟩ := List.getElem?_eq_some_iff.mp hw
  constructor
  · exact fun h => h.1 i w hw hlo hhi
  · intro h
    constructor
    · intro j v hj hlo' hhi'
      obtain ⟨hlt', -⟩ := List.getElem?_eq_some_iff.mp hj
      obtain rfl : j = i := by
        rcases Nat.lt_trichotomy j i with hji | hji | hji
        · have hbelow := hv.S_mono (show j + 1 ≤ i by omega) (by omega)
          omega
        · exact hji
        · have habove := hv.S_mono (show i + 1 ≤ j by omega) (by omega)
          omega
      obtain rfl : v = w := by simpa [hw] using hj.symm
      exact h
    · intro j hj hlo'
      have habove := hv.S_mono (show i + 1 ≤ j by omega) (by omega)
      omega

theorem aheadWhen_map (hv : ValidSizes wheelSize) (hi : i + 1 = wheelSize.length)
    (hlo : S wheelSize i ≤ n - c) :
    AheadWhen wheelSize c n ↔
      c % S wheelSize i + ahead wheelSize i < S wheelSize i ∨ 2 * S wheelSize i ≤ n - c := by
  constructor
  · exact fun h => h.2 i hi hlo
  · intro h
    constructor
    · intro j v hj hlo' hhi'
      obtain ⟨hlt', -⟩ := List.getElem?_eq_some_iff.mp hj
      have hbelow := hv.S_mono (show j + 1 ≤ i by omega) (by omega)
      omega
    · intro j hj _
      obtain rfl : j = i := by omega
      exact h

theorem aheadWhen_first (hv : ValidSizes wheelSize) (hlt : n - c < S wheelSize 0) :
    AheadWhen wheelSize c n := by
  constructor
  · intro j v hj hlo _
    obtain ⟨hlt', -⟩ := List.getElem?_eq_some_iff.mp hj
    have hbelow := hv.S_mono (Nat.zero_le j) (by omega)
    omega
  · intro j hj hlo
    have hbelow := hv.S_mono (Nat.zero_le j) (by omega)
    omega

/-- The ticks that drain a slot of a wheel above the first. -/
theorem leaves_startDigits_iff (hv : ValidSizes wheelSize) (hw : wheelSize[i + 1]? = some w) :
    Leaves (after (startDigits wheelSize) n) (i + 1) p ↔
      S wheelSize i ∣ n + 1 + ahead wheelSize i ∧
        (n + 1 + ahead wheelSize i) / S wheelSize i % w = p := by
  obtain ⟨hlt, -⟩ := List.getElem?_eq_some_iff.mp hw
  have hd : (startDigits wheelSize)[i + 1]? = some ⟨1, w⟩ := by
    rw [getElem?_startDigits_succ, hw]
    rfl
  rw [leaves_after_iff (startDigits_proper hv) hd, span_startDigits (by omega),
    lead_startDigits (by omega)]
  refine and_congr_right fun hdvd => ?_
  have hsucc : (n + ahead wheelSize i + 1) / S wheelSize i = _ := Nat.succ_div
  rw [show n + 1 + ahead wheelSize i = n + ahead wheelSize i + 1 by omega] at hdvd ⊢
  rw [hsucc, if_pos hdvd, Nat.add_comm 1]

end Levels

/-! ## Filing -/

section Filing

variable {wheelSize : List ℕ} {n : ℕ} {task : Task} {place : Place}
  {s s' : TimeWheelExecutor Task}

/-- A filed task is ahead of the cursors exactly when `AheadWhen` holds of the two ticks. The cursor
of the map counts the turns of the last wheel, ahead by its lead. -/
theorem Files.ahead_iff (hv : ValidSizes wheelSize) (hsize : s.options.wheelSize = wheelSize)
    (ha : Aligned wheelSize s.currentTickCount s.timingWheelVec s.timingTaskMap)
    (hf : Files s n task place s') :
    FiledAhead s n place ↔ AheadWhen wheelSize s.currentTickCount n := by
  have hle := hf.le
  have hlt := hf.lt
  have hlocated := hsize ▸ hf.located
  match place, hlocated with
  | .map key, hlocated =>
    obtain ⟨hmin, rfl⟩ := locate_map hlocated (by omega)
    obtain ⟨i, hi⟩ := Nat.exists_eq_succ_of_ne_zero
      (show wheelSize.length ≠ 0 by simpa using hv.ne_nil)
    have hprod : wheelSize.prod = S wheelSize i := by
      rw [S, ← Nat.succ_eq_add_one, ← hi, List.take_length]
    rw [aheadWhen_map hv hi.symm (hmin i (by omega)), FiledAhead, ha.pos, hi,
      turns_startDigits hv _ (by omega), hprod]
    exact cursor_le_iff (hv.ahead_lt (by omega)) (hmin i (by omega))
  | .slot i p, hlocated =>
    obtain ⟨j, size, hj, hw, hmin, hhi, rfl⟩ := locate_slot hlocated (by omega)
    rw [Nat.zero_add] at hj
    subst hj
    cases i with
    | zero => exact ⟨fun _ => aheadWhen_first hv hhi, fun _ => trivial⟩
    | succ i =>
      have hlo := hmin i (Nat.lt_succ_self i)
      obtain ⟨hi, -⟩ := List.getElem?_eq_some_iff.mp hw
      rw [aheadWhen_slot hv hw hlo hhi,
        ← exists_drain_iff (hv.ahead_lt (by omega)) (hv.two_le hw) hle hlo, FiledAhead, ha.digits]
      simp only [iterate_advance_after (startDigits_proper hv), leaves_startDigits_iff hv hw]
      constructor
      · rintro ⟨k, hk, hleaves⟩
        exact ⟨s.currentTickCount + k, by omega, hk, hleaves⟩
      · rintro ⟨m, hm, hmn, hleaves⟩
        obtain ⟨k, rfl⟩ := Nat.exists_eq_add_of_le hm
        exact ⟨k, hmn, hleaves⟩

end Filing

namespace Timer

/-- The ticks of a run drain the slots that `FiledAhead` looks for: after a run with `k` ticks the
next tick drains a slot exactly when `k` advances bring the cursors there. -/
theorem drains_run_iff {options : Options} (hv : ValidSizes options.wheelSize) {es : List Event}
    {t u : Timer} (hs : Sound options t) (hr : run Timer.step t es = some u) {i p : ℕ}
    (hi : i < options.wheelSize.length) :
    ∃ k, u.exec.currentTickCount = t.exec.currentTickCount + k ∧
      (Drains u.exec.timingWheelVec i p ↔
        Leaves (advance^[k] (digits t.exec.timingWheelVec)) i p) := by
  have hu := Sound.run hv hs hr
  have hle : t.exec.currentTickCount ≤ u.exec.currentTickCount := by
    refine run_invariant (P := fun s => t.exec.currentTickCount ≤ s.exec.currentTickCount) ?_
      (Nat.le_refl _) hr
    intro s e s' hle he
    exact hle.trans (step_cases he).count_le
  obtain ⟨k, hk⟩ := Nat.exists_eq_add_of_le hle
  refine ⟨k, hk, ?_⟩
  rw [drains_iff_leaves (by rw [hu.aligned.length]; exact hi), hu.aligned.digits,
    hs.aligned.digits, hk, iterate_advance_after (startDigits_proper hv)]

/-- **`ExecuteAt` files ahead of the cursors exactly when `AheadWhen` holds.** In every reachable
state, a call that files its task for the current tick or a later one, whatever `dt` is, finds one
place for it, and that place is ahead of the cursors if and only if the two ticks satisfy
`AheadWhen`. -/
theorem filed_ahead_iff {options : Options} (hv : ValidSizes options.wheelSize) {es : List Event}
    {t : Timer} (hr : run Timer.step (initial options) es = some t) {tp : ℤ} {task : Call}
    {e : Entry} {exec : TimeWheelExecutor Call}
    (he : t.exec.executeAt tp task = .ok (some e, exec))
    (hle : t.exec.currentTickCount ≤ e.tickCount) :
    ∃ place, locate 0 options.wheelSize (e.tickCount - t.exec.currentTickCount)
        t.exec.currentTickCount = .ok place ∧
      put t.exec.timingWheelVec t.exec.timingTaskMap place e =
        .ok (exec.timingWheelVec, exec.timingTaskMap) ∧
      (FiledAhead t.exec e.tickCount place ↔
        AheadWhen options.wheelSize t.exec.currentTickCount e.tickCount) := by
  have hs := Sound.run hv (.initial hv) hr
  have hsize : t.exec.options.wheelSize = options.wheelSize := by rw [hs.options_eq]
  rcases executeAt_appends he with ⟨-, hnone, -⟩ | ⟨-, -, hsome, place, happends⟩
  · exact absurd hnone (by simp)
  · cases hsome
    have hf := happends.files hle
    exact ⟨place, hsize ▸ hf.located, hf.filed, hf.ahead_iff hv hsize hs.aligned⟩

/-- On two wheels of two slots, a task filed for tick `4` at tick `0`. -/
theorem filed_ahead_iff_two_wheels :
    ∃ t e exec, run Timer.step (initial { dt := 1, wheelSize := [2, 2] }) [.start 0] = some t ∧
      t.exec.executeAt 4 ⟨0, 0⟩ = .ok (some e, exec) ∧
      ∃ place, locate 0 [2, 2] (e.tickCount - t.exec.currentTickCount) t.exec.currentTickCount =
        .ok place ∧
      (FiledAhead t.exec e.tickCount place ↔
        AheadWhen [2, 2] t.exec.currentTickCount e.tickCount) := by
  have h : (run Timer.step (initial { dt := 1, wheelSize := [2, 2] }) [.start 0]).bind
      (fun t => (t.exec.executeAt 4 ⟨0, 0⟩).toOption.map fun r => (t.exec.currentTickCount, r.1)) =
        some (0, some ⟨4, 0, 0⟩) := by
    decide +kernel
  obtain ⟨t, ht, h⟩ := Option.bind_eq_some_iff.mp h
  obtain ⟨⟨r, exec⟩, he, h⟩ := toOption_eq_some.mp h
  obtain ⟨hc, rfl⟩ := Prod.mk.inj h
  obtain ⟨place, hplace, -, hiff⟩ := filed_ahead_iff ⟨by simp, by simp, by simp⟩ ht he
    (by rw [hc]; exact Nat.zero_le _)
  exact ⟨t, _, exec, ht, he, place, hplace, hiff⟩

/-- On two wheels of two slots, the task filed for tick `6` at tick `2` goes under the key `1`, when
the cursor of the map is at `2` already. -/
theorem filed_behind :
    ∃ t e exec, run Timer.step (initial { dt := 1, wheelSize := [2, 2] }) [.start 0, .tick, .tick] =
      some t ∧ t.exec.executeAt 6 ⟨0, 2⟩ = .ok (some e, exec) ∧
      locate 0 [2, 2] (e.tickCount - t.exec.currentTickCount) t.exec.currentTickCount =
        .ok (.map 1) ∧ ¬ FiledAhead t.exec e.tickCount (.map 1) := by
  have h : (run Timer.step (initial { dt := 1, wheelSize := [2, 2] }) [.start 0, .tick, .tick]).bind
      (fun t => (t.exec.executeAt 6 ⟨0, 2⟩).toOption.map fun r =>
        (t.exec.currentTickCount, t.exec.timingTaskMap.pos, r.1)) =
      some (2, 2, some ⟨6, 0, 2⟩) := by
    decide +kernel
  obtain ⟨t, ht, h⟩ := Option.bind_eq_some_iff.mp h
  obtain ⟨⟨r, exec⟩, he, h⟩ := toOption_eq_some.mp h
  obtain ⟨hc, hpos, rfl⟩ : t.exec.currentTickCount = 2 ∧ t.exec.timingTaskMap.pos = 2 ∧
      r = some ⟨6, 0, 2⟩ := by simpa using h
  refine ⟨t, _, exec, ht, he, ?_, ?_⟩
  · rw [hc]
    rfl
  · rw [FiledAhead, hpos]
    decide

end Timer

end Ados.TimeWheel
