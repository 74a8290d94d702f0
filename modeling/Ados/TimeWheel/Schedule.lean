import Ados.TimeWheel.Conservation
import Ados.TimeWheel.Contents

/-!
# When a task is returned

In a run of whole ticks the tick that returns a task is fixed when the task is filed. With two
wheels or more the first wheel holds only tasks filed in it directly, and returns each at its own
tick. With one wheel of `w` slots a task whose tick `t` is `w` or more ahead of the current tick `c`
is filed under the key `(t - c) / w + c / w`, which loses the carry of the two remainders; it is
brought back in the turn of that number, not in the turn `t / w`.

A task is filed in time if its tick is the current one or a later one. With a `dt` that is not
negative every task is; a negative one is cast to `2 ^ 63` or more, and from the tick `2` on every
task that is filed has the tick `0` or `1`. The schedule is that of the tasks filed in time.

## Main definitions

* `TaskWithTimestamp.InTime`: the task was filed in time
* `fireTick wheelSize e`: the tick that returns the task `e`
* `Carried wheelSize n c`: the key of a task filed at tick `c` for tick `n` is the turn of `n`
* `Timer.Scheduled`: every task of the first wheel and of the map that was filed in time is held for
  its `fireTick`

## Main results

* `madeAt_le_fireTick`, `fireTick_le`: a task is returned after its call and by its tick
* `le_fireTick_iff`: it is returned at its tick exactly when no carry is lost
* `Timer.scheduled_run`: every run keeps `Timer.Scheduled`
-/

namespace Ados.TimeWheel

open Transition

/-- The task was filed at its tick or before. -/
def TaskWithTimestamp.InTime (e : Entry) : Prop := e.task.madeAt ≤ e.tickCount

instance : DecidablePred TaskWithTimestamp.InTime := fun e =>
  inferInstanceAs (Decidable (e.task.madeAt ≤ e.tickCount))

/-- The tick that returns a task filed in time. -/
def fireTick : List ℕ → Entry → ℕ
  | [w], e =>
    if e.tickCount - e.task.madeAt < w then e.tickCount
    else ((e.tickCount - e.task.madeAt) / w + e.task.madeAt / w) * w + e.tickCount % w
  | _, e => e.tickCount

/-- No carry is lost in the key of a task: the remainders of `t - c` and `c` do not fill a turn. A
task of a slot has no key. -/
def Carried : List ℕ → (tickCount madeAt : ℕ) → Prop
  | [w], n, c => n - c < w ∨ (n - c) % w + c % w < w
  | _, _, _ => True

section Arithmetic

variable {wheelSize : List ℕ} {w n c : ℕ} {e : Entry}

theorem fireTick_near (h : e.tickCount - e.task.madeAt < w) : fireTick [w] e = e.tickCount :=
  if_pos h

theorem fireTick_far (h : w ≤ e.tickCount - e.task.madeAt) :
    fireTick [w] e =
      ((e.tickCount - e.task.madeAt) / w + e.task.madeAt / w) * w + e.tickCount % w :=
  if_neg (Nat.not_lt.mpr h)

theorem fireTick_of_length_ne (h : wheelSize.length ≠ 1) : fireTick wheelSize e = e.tickCount := by
  match wheelSize, h with
  | [], _ => rfl
  | _ :: _ :: _, _ => rfl

/-- The quotient of a sum exceeds the sum of the quotients by the carry of the remainders. -/
theorem div_eq_add_carry (hw : 0 < w) (hle : c ≤ n) :
    n / w = (n - c) / w + c / w + if w ≤ (n - c) % w + c % w then 1 else 0 := by
  rw [← Nat.add_div hw, Nat.sub_add_cancel hle]

/-- In full turns, a task is returned at its tick less the lost carry. -/
theorem fireTick_add_carry (hw : 0 < w) (hle : e.InTime)
    (hfar : w ≤ e.tickCount - e.task.madeAt) :
    fireTick [w] e + (if w ≤ (e.tickCount - e.task.madeAt) % w + e.task.madeAt % w then w else 0) =
      e.tickCount := by
  -- the turn of the tick is that of the key, and one more if there is a carry
  have hdiv := div_eq_add_carry hw hle
  have hsum := Nat.div_add_mod' e.tickCount w
  rw [fireTick_far hfar]
  split at hdiv
  · next hcarry =>
    rw [if_pos hcarry]
    rw [hdiv, Nat.succ_mul] at hsum
    omega
  · next hcarry =>
    rw [if_neg hcarry]
    rw [hdiv, Nat.add_zero] at hsum
    exact hsum

theorem fireTick_mod (w : ℕ) (e : Entry) : fireTick [w] e % w = e.tickCount % w := by
  by_cases h : e.tickCount - e.task.madeAt < w
  · rw [fireTick_near h]
  · rw [fireTick_far (Nat.le_of_not_lt h), Nat.mul_add_mod', Nat.mod_mod]

theorem fireTick_div (hw : 0 < w) (h : w ≤ e.tickCount - e.task.madeAt) :
    fireTick [w] e / w = (e.tickCount - e.task.madeAt) / w + e.task.madeAt / w := by
  rw [fireTick_far h, Nat.add_comm, Nat.add_mul_div_right _ _ hw,
    Nat.div_eq_of_lt (Nat.mod_lt _ hw), Nat.zero_add]

/-- A task is returned in a later turn than the turn of its call, unless it is near. -/
theorem div_lt_fireTick_div (hw : 0 < w) (h : w ≤ e.tickCount - e.task.madeAt) :
    e.task.madeAt / w < fireTick [w] e / w := by
  have hpos : 0 < (e.tickCount - e.task.madeAt) / w := Nat.div_pos h hw
  rw [fireTick_div hw h]
  omega

theorem madeAt_le_fireTick (hw : 0 < w) (hle : e.InTime) :
    e.task.madeAt ≤ fireTick [w] e := by
  by_cases h : e.tickCount - e.task.madeAt < w
  · rwa [fireTick_near h]
  · have hlt := div_lt_fireTick_div hw (Nat.le_of_not_lt h)
    by_contra hgt
    have hmono := Nat.div_le_div_right (c := w) (Nat.le_of_not_le hgt)
    omega

theorem fireTick_le (hw : 0 < w) (hle : e.InTime) :
    fireTick [w] e ≤ e.tickCount ∧
      (e.tickCount - fireTick [w] e = 0 ∨ e.tickCount - fireTick [w] e = w) := by
  by_cases h : e.tickCount - e.task.madeAt < w
  · rw [fireTick_near h]
    simp
  · have hsum := fireTick_add_carry hw hle (Nat.le_of_not_lt h)
    split at hsum <;> omega

/-- A task is returned at its tick exactly when its key loses no carry. -/
theorem le_fireTick_iff (hpos : ∀ w ∈ wheelSize, 0 < w) (hle : e.InTime) :
    e.tickCount ≤ fireTick wheelSize e ↔ Carried wheelSize e.tickCount e.task.madeAt := by
  match wheelSize, hpos with
  | [], _ => simp [fireTick, Carried]
  | _ :: _ :: _, _ => simp [fireTick, Carried]
  | [w], hpos =>
    have hw : 0 < w := hpos w (by simp)
    by_cases h : e.tickCount - e.task.madeAt < w
    · simp [fireTick_near h, Carried, h]
    · have hsum := fireTick_add_carry hw hle (Nat.le_of_not_lt h)
      simp only [Carried, h, false_or]
      split at hsum <;> omega

end Arithmetic

/-! ## Filing -/

section Filing

variable {s s' : TimeWheelExecutor Call} {n p key w : ℕ} {task : Call}

/-- What is filed on the first wheel is less than a turn ahead, in the slot of its tick. -/
theorem Files.first (hf : Files s n task (.slot 0 p) s')
    (hw : s.options.wheelSize[0]? = some w) : n < s.currentTickCount + w ∧ p = n % w := by
  have hle := hf.le
  have hlt := hf.lt
  obtain ⟨j, size, hj, hsize, -, hS, hp⟩ := locate_slot hf.located (by omega)
  obtain rfl : j = 0 := by omega
  obtain rfl : size = w := by simpa [hw] using hsize.symm
  have hS0 : S s.options.wheelSize 0 = size := by
    obtain ⟨ws, hws⟩ := exists_eq_cons hw
    rw [hws, S_zero]
  simp only [List.take_zero, List.prod_nil, Nat.div_one, Nat.sub_add_cancel hle] at hp
  exact ⟨by omega, hp⟩

/-- What is less than a turn of the first wheel ahead is filed on it. -/
theorem Files.near {place : Place} (hf : Files s n task place s')
    (hw : s.options.wheelSize[0]? = some w) (hlt : n < s.currentTickCount + w) :
    place = .slot 0 (n % w) := by
  have hle := hf.le
  have hlocated := hf.located
  obtain ⟨ws, hws⟩ := exists_eq_cons hw
  rw [hws, locate, if_pos (by omega), Nat.sub_add_cancel hle, Nat.mod_eq_of_lt hf.lt] at hlocated
  exact (Except.ok.inj hlocated).symm

/-- With one wheel, what is filed in the map is a turn ahead at least. -/
theorem Files.map_single (hf : Files s n task (.map key) s') (hw : s.options.wheelSize = [w]) :
    w ≤ n - s.currentTickCount ∧ key = (n - s.currentTickCount) / w + s.currentTickCount / w := by
  have hle := hf.le
  have hlt := hf.lt
  have hmap := locate_map hf.located (by omega)
  rw [hw] at hmap
  obtain ⟨hmin, rfl⟩ := hmap
  exact ⟨by simpa [S] using hmin 0 (by simp), by simp⟩

end Filing

namespace Timer

/-! ## The invariant -/

/-- Every task on the first wheel is held for its `fireTick`, which is less than a turn ahead, and
every task returned was returned at it. With one wheel the map holds every other task under the turn
of its `fireTick`, and no such key is behind the cursor. All this is said of tasks filed in time. -/
structure Scheduled (wheelSize : List ℕ) (w₀ : ℕ) (t : Timer) : Prop where
  slot : ∀ p e, InSlot t.exec.timingWheelVec 0 p e → e.InTime →
    fireTick wheelSize e % w₀ = p ∧ t.exec.currentTickCount ≤ fireTick wheelSize e ∧
      fireTick wheelSize e < t.exec.currentTickCount + w₀
  map : wheelSize = [w₀] → ∀ k e, InMap t.exec.timingTaskMap k e → e.InTime →
    fireTick [w₀] e / w₀ = k ∧ w₀ < 2 ^ 64 ∧ t.exec.timingTaskMap.pos ≤ k
  returned : ∀ f e, (f, e) ∈ t.returned → e.InTime → f = fireTick wheelSize e

variable {options : Options} {w₀ : ℕ} {t t' : Timer} {ev : Event} {es : List Event}

theorem scheduled_initial : Scheduled options.wheelSize w₀ (initial options) := by
  have hnone : ∀ x, x ∉ held (initial options).exec.timingWheelVec
      (initial options).exec.timingTaskMap := by simp [initial, held_initialized]
  refine ⟨fun p e h => ?_, fun _ k e h => ?_, by simp [initial]⟩
  · exact absurd (mem_held.mpr (Or.inl ⟨0, p, h⟩)) (hnone e)
  · exact absurd (mem_held.mpr (Or.inr ⟨k, h⟩)) (hnone e)

/-- With one wheel, the cursor of the map is at the turn after the current one. -/
theorem Sound.pos_single (hs : Sound options t) (hw : options.wheelSize = [w₀]) (hpos : 0 < w₀) :
    t.exec.timingTaskMap.pos = 1 + t.exec.currentTickCount / w₀ := by
  have hv := ValidSizes.single hpos
  have ha := hs.aligned
  rw [hw] at ha
  rw [ha.pos, List.length_singleton, turns_startDigits hv _ (by simp), ahead_zero, Nat.add_zero,
    S_zero]

/-- With one wheel, its scale is its number of slots. -/
theorem Sound.scale_single (hs : Sound options t) (hw : options.wheelSize = [w₀])
    (hlt : w₀ < 2 ^ 64) {w : TimingWheelTool Call} (h : t.exec.timingWheelVec[0]? = some w) :
    w.scale = w₀ := by
  have hscale := congrArg (fun l => l[0]?) hs.scales
  simp only [List.getElem?_map, h, hw, makeWheels, Nat.one_mul, Nat.mod_eq_of_lt hlt,
    List.map_cons, List.getElem?_cons_zero, Option.map_some, Option.some.injEq] at hscale
  exact hscale

/-- A key of a task filed in time is a turn ahead of the cursor at least. -/
theorem Sound.pos_le_key (hs : Sound options t) (hone : options.wheelSize = [w₀]) (hpos : 0 < w₀)
    {n key : ℕ} {task : Call} {exec : TimeWheelExecutor Call}
    (hf : Files t.exec n task (.map key) exec) : t.exec.timingTaskMap.pos ≤ key := by
  obtain ⟨hfar, rfl⟩ := hf.map_single ((congrArg Options.wheelSize hs.options_eq).trans hone)
  have hahead := Nat.div_pos hfar hpos
  rw [hs.pos_single hone hpos]
  omega

/-- Filing at a place keeps the schedule. -/
theorem Scheduled.filed_at (hv : ValidSizes options.wheelSize)
    (hw : options.wheelSize[0]? = some w₀) (hs : Sound options t)
    (h : Scheduled options.wheelSize w₀ t) {n : ℕ} {place : Place} {exec : TimeWheelExecutor Call}
    (hf : Appends t.exec n ⟨t.calls, t.exec.currentTickCount⟩ place exec) :
    Scheduled options.wheelSize w₀ { t with
      exec := exec, calls := t.calls + 1
      filed := t.filed ++ [⟨n, t.calls, t.exec.currentTickCount⟩] } := by
  have hopt : t.exec.options.wheelSize = options.wheelSize := by rw [hs.options_eq]
  have hcount : exec.currentTickCount = t.exec.currentTickCount := by rw [hf.rest]
  have hcursor : exec.timingTaskMap.pos = t.exec.timingTaskMap.pos := (put_digits hf.filed).2
  have hpos : 0 < w₀ := hv.pos _ (List.mem_of_getElem? hw)
  refine ⟨?_, ?_, h.returned⟩
  · intro p e hin htime
    simp only [hcount]
    rcases (put_inSlot hf.filed).mp hin with hin | ⟨rfl, rfl⟩
    · exact h.slot p e hin htime
    · have hf := hf.files htime
      obtain ⟨hlt, rfl⟩ := hf.first (hopt ▸ hw)
      have hle := hf.le
      have hfire : fireTick options.wheelSize ⟨n, t.calls, t.exec.currentTickCount⟩ = n := by
        by_cases hone : options.wheelSize.length = 1
        · obtain ⟨v, hv⟩ := List.length_eq_one_iff.mp hone
          obtain rfl : v = w₀ := by simpa [hv] using hw
          rw [hv]
          exact fireTick_near (by simp only; omega)
        · exact fireTick_of_length_ne hone
      rw [hfire]
      exact ⟨rfl, hle, hlt⟩
  · intro hone k e hin htime
    simp only [hcursor]
    rcases (put_inMap hf.filed).mp hin with hin | ⟨rfl, rfl⟩
    · exact h.map hone k e hin htime
    · have hf := hf.files htime
      have hahead := hs.pos_le_key hone hpos hf
      obtain ⟨hfar, rfl⟩ := hf.map_single (hopt.trans hone)
      have hlt := hf.lt
      exact ⟨fireTick_div hpos hfar, by omega, hahead⟩

/-- With one wheel, the end of a turn brings in the tasks of the turn that begins. -/
theorem Scheduled.borrowed (hone : options.wheelSize = [w₀]) (hpos : 0 < w₀) (hs : Sound options t)
    (h : Scheduled options.wheelSize w₀ t) (hturn : w₀ ∣ t.exec.currentTickCount + 1) {e : Entry}
    (hin : InMap t.exec.timingTaskMap t.exec.timingTaskMap.pos e) (htime : e.InTime) :
    t.exec.currentTickCount + 1 ≤ fireTick [w₀] e ∧
      fireTick [w₀] e < t.exec.currentTickCount + 1 + w₀ := by
  obtain ⟨hdiv, -, -⟩ := h.map hone _ e hin htime
  have hcursor := hs.pos_single hone hpos
  have hsucc : (t.exec.currentTickCount + 1) / w₀ = _ := Nat.succ_div
  rw [if_pos hturn] at hsucc
  have hstart := Nat.div_mul_cancel hturn
  have hfire := Nat.div_add_mod' (fireTick [w₀] e) w₀
  have hmod := Nat.mod_lt (fireTick [w₀] e) hpos
  rw [hdiv, hcursor, Nat.add_comm 1, ← hsucc, hstart] at hfire
  omega

/-- A tick returns the tasks whose `fireTick` it is, and keeps the schedule of the others. -/
theorem Scheduled.ticked (hv : ValidSizes options.wheelSize)
    (hw : options.wheelSize[0]? = some w₀) (hs : Sound options t)
    (h : Scheduled options.wheelSize w₀ t) {taskList : TaskList Call}
    {exec : TimeWheelExecutor Call} (ht : t.exec.takeTick = .ok (taskList, exec)) (tp : ℤ) :
    Scheduled options.wheelSize w₀ { t with
      exec := exec.countTick
      lastLoopTimePoint := tp
      returned := t.returned ++ taskList.map fun e => (t.exec.currentTickCount, e) } := by
  obtain ⟨hticks, hrest⟩ := ticks_of_takeTick ht
  have hcount : exec.currentTickCount = t.exec.currentTickCount := by rw [hrest]
  have hpos : 0 < w₀ := hv.pos _ (List.mem_of_getElem? hw)
  refine ⟨?_, ?_, ?_⟩
  · intro p e hin htime
    simp only [TimeWheelExecutor.countTick, hcount]
    rcases (hticks.inFirst hs.aligned hw hpos).mp hin with
      ⟨hin, hne⟩ | ⟨hone, hturn, hin, w, hw0, hp⟩
    · obtain ⟨rfl, hle, hlt⟩ := h.slot p e hin htime
      refine ⟨rfl, ?_, by omega⟩
      rcases Nat.lt_or_eq_of_le hle with hlt | heq
      · exact hlt
      · exact absurd (congrArg (· % w₀) heq) hne
    · obtain ⟨-, hlt, -⟩ := h.map hone _ e hin htime
      rw [TimingWheelTool.refileIndex, hs.scale_single hone hlt hw0] at hp
      rw [hone, fireTick_mod, hp]
      exact ⟨rfl, h.borrowed hone hpos hs hturn hin htime⟩
  · intro hone k e hin htime
    obtain ⟨hin, hne⟩ := hticks.inMap.mp hin
    obtain ⟨hdiv, hlt, hle⟩ := h.map hone k e hin htime
    have hcursor := hticks.pos
    refine ⟨hdiv, hlt, ?_⟩
    simp only [TimeWheelExecutor.countTick, hcursor]
    split
    · next hcarry =>
      have : k ≠ t.exec.timingTaskMap.pos := fun heq => hne ⟨hcarry, heq⟩
      omega
    · exact hle
  · intro f e he htime
    rcases List.mem_append.mp he with he | he
    · exact h.returned f e he htime
    · obtain ⟨x, hx, heq⟩ := List.mem_map.mp he
      cases heq
      obtain ⟨hmod, hle, hlt⟩ := h.slot _ _ ((hticks.mem_taskList_iff hs.aligned hw).mp hx) htime
      exact Nat.le_antisymm hle (Nat.ModEq.le_of_lt_add hmod hlt)

theorem Scheduled.step (hv : ValidSizes options.wheelSize)
    (hw : options.wheelSize[0]? = some w₀) (hs : Sound options t)
    (h : Scheduled options.wheelSize w₀ t) (hstep : Step t ev t') :
    Scheduled options.wheelSize w₀ t' := by
  cases hstep with
  | start => exact ⟨h.slot, h.map, h.returned⟩
  | executeAt he =>
    rcases executeAt_appends he with ⟨-, rfl, rfl⟩ | ⟨-, -, rfl, place, hf⟩
    · exact ⟨h.slot, h.map, h.returned⟩
    · exact h.filed_at hv hw hs hf
  | tick _ _ ht => exact h.ticked hv hw hs ht _

/-- Every run keeps the schedule. -/
theorem scheduled_run (hv : ValidSizes options.wheelSize) (hw : options.wheelSize[0]? = some w₀)
    (hr : run Timer.step (initial options) es = some t) :
    Sound options t ∧ Scheduled options.wheelSize w₀ t := by
  refine run_invariant (P := fun t => Sound options t ∧ Scheduled options.wheelSize w₀ t) ?_
    ⟨.initial hv, scheduled_initial⟩ hr
  rintro s e u ⟨hs, h⟩ he
  exact ⟨hs.step hv (step_cases he), h.step hv hw hs (step_cases he)⟩

/-- A task that is held by a hierarchy of one wheel and was filed in time is not due before the
current tick. -/
theorem Scheduled.le_fireTick_of_single (hone : options.wheelSize = [w₀]) (hpos : 0 < w₀)
    (hs : Sound options t) (h : Scheduled options.wheelSize w₀ t) {e : Entry} (htime : e.InTime)
    (he : e ∈ held t.exec.timingWheelVec t.exec.timingTaskMap) :
    t.exec.currentTickCount ≤ fireTick [w₀] e := by
  rcases mem_held.mp he with ⟨i, p, hin⟩ | ⟨k, hin⟩
  · have hlt := hin.lt_length
    rw [hs.aligned.length, hone, List.length_singleton, Nat.lt_one_iff] at hlt
    subst hlt
    rw [← hone]
    exact (h.slot p e hin htime).2.1
  · obtain ⟨hdiv, -, hkey⟩ := h.map hone k e hin htime
    rw [hs.pos_single hone hpos] at hkey
    by_contra hgt
    have hmono := Nat.div_le_div_right (c := w₀) (Nat.le_of_not_le hgt)
    omega

end Timer

end Ados.TimeWheel
