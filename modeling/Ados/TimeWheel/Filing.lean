import Ados.TimeWheel.Geometry

/-!
# What a call of `ExecuteAt` does

The arithmetic of `ExecuteAt` in closed form. As long as `current_tick_count_ * dt_count_` fits 64
bits nothing wraps around after the subtraction of the start time: a task that is filed has a tick
`t` at or after the current tick `c`, and its place depends on `t - c` and `c` alone.

## Main results

* `executeAt_appends`, `executeAt_cases`: a call goes to `Execute` or files one task at the place
  that `locate` gives
* `locate_slot`, `locate_map`: the wheel is the first with `t - c < S_i`, and the slot and the key
  are sums of two quotients
* `put_slot`, `put_map`: filing appends to one list
-/

namespace Ados.TimeWheel

variable {Task : Type}

/-- `virtual_tp`: the timestamp of `tp` counted from the start time, in unsigned arithmetic. -/
def TimeWheelExecutor.virtualTp (s : TimeWheelExecutor Task) (tp : ℤ) : ℕ :=
  wrap64 (getTimestampNs tp - s.startTimePoint)

theorem TimeWheelExecutor.virtualTp_lt (s : TimeWheelExecutor Task) (tp : ℤ) :
    s.virtualTp tp < 2 ^ 64 := wrap64_lt _

/-- From the start time on the subtraction does not wrap around. -/
theorem TimeWheelExecutor.virtualTp_of_le {s : TimeWheelExecutor Task} {tp : ℤ}
    (h : s.startTimePoint ≤ getTimestampNs tp) :
    s.virtualTp tp = getTimestampNs tp - s.startTimePoint :=
  wrap64_sub (wrap64_lt tp) h

/-- `ExecuteAt` appended `task` with tick `t` at `place`, in the state `s'`. -/
structure Appends (s : TimeWheelExecutor Task) (t : ℕ) (task : Task) (place : Place)
    (s' : TimeWheelExecutor Task) : Prop where
  lt : t < 2 ^ 64
  located : locate 0 s.options.wheelSize (wrap64 (t - s.currentTickCount)) s.currentTickCount =
    .ok place
  filed : put s.timingWheelVec s.timingTaskMap place ⟨t, task⟩ =
    .ok (s'.timingWheelVec, s'.timingTaskMap)
  rest : s' = { s with timingWheelVec := s'.timingWheelVec, timingTaskMap := s'.timingTaskMap }

/-- `ExecuteAt` filed `task` with tick `t` at `place`, in the state `s'`, at or before that tick. -/
structure Files (s : TimeWheelExecutor Task) (t : ℕ) (task : Task) (place : Place)
    (s' : TimeWheelExecutor Task) : Prop where
  le : s.currentTickCount ≤ t
  lt : t < 2 ^ 64
  located : locate 0 s.options.wheelSize (t - s.currentTickCount) s.currentTickCount = .ok place
  filed : put s.timingWheelVec s.timingTaskMap place ⟨t, task⟩ =
    .ok (s'.timingWheelVec, s'.timingTaskMap)
  rest : s' = { s with timingWheelVec := s'.timingWheelVec, timingTaskMap := s'.timingTaskMap }

theorem Appends.files {s s' : TimeWheelExecutor Task} {t : ℕ} {task : Task} {place : Place}
    (h : Appends s t task place s') (hle : s.currentTickCount ≤ t) : Files s t task place s' := by
  have hlocated := h.located
  rw [wrap64_sub h.lt hle] at hlocated
  exact ⟨hle, h.lt, hlocated, h.filed, h.rest⟩

/-- A call of `ExecuteAt` hands a late task to `Execute` and changes nothing, or appends the task at
one place. -/
theorem executeAt_appends {s s' : TimeWheelExecutor Task} {tp : ℤ} {task : Task}
    {r : Option (TaskWithTimestamp Task)} (h : s.executeAt tp task = .ok (r, s')) :
    (s.virtualTp tp < s.currentTickCount * s.dtCount % 2 ^ 64 ∧ r = none ∧ s' = s) ∨
      (s.currentTickCount * s.dtCount % 2 ^ 64 ≤ s.virtualTp tp ∧ 0 < s.dtCount ∧
        r = some ⟨s.virtualTp tp / s.dtCount, task⟩ ∧
        ∃ place, Appends s (s.virtualTp tp / s.dtCount) task place s') := by
  have hv := s.virtualTp_lt tp
  unfold TimeWheelExecutor.executeAt at h
  dsimp only at h
  rw [← TimeWheelExecutor.virtualTp] at h
  split at h
  · next hlate =>
    cases h
    exact Or.inl ⟨hlate, rfl, rfl⟩
  · next hlate =>
    split at h
    · exact absurd h (by simp)
    · next hdt =>
      have hlt : s.virtualTp tp / s.dtCount < 2 ^ 64 := lt_of_le_of_lt (Nat.div_le_self _ _) hv
      obtain ⟨place, hplace, h⟩ := bind_eq_ok.mp h
      obtain ⟨⟨vec, m⟩, hput, h⟩ := bind_eq_ok.mp h
      cases h
      exact Or.inr ⟨Nat.le_of_not_lt hlate, Nat.pos_of_ne_zero hdt, rfl, place, hlt, hplace, hput,
        rfl⟩

/-- `ExecuteAt` writes the wheels and the map alone. -/
theorem executeAt_rest {s s' : TimeWheelExecutor Task} {tp : ℤ} {task : Task}
    {r : Option (TaskWithTimestamp Task)} (h : s.executeAt tp task = .ok (r, s')) :
    s' = { s with timingWheelVec := s'.timingWheelVec, timingTaskMap := s'.timingTaskMap } := by
  rcases executeAt_appends h with ⟨-, -, rfl⟩ | ⟨-, -, -, place, happends⟩
  · rfl
  · exact happends.rest

/-- Without a wrap-around of `current_tick_count_ * dt_count_`, a task that is filed has a tick that
is not before the current one. -/
theorem executeAt_cases {s s' : TimeWheelExecutor Task} {tp : ℤ} {task : Task}
    {r : Option (TaskWithTimestamp Task)} (hc : s.currentTickCount * s.dtCount < 2 ^ 64)
    (h : s.executeAt tp task = .ok (r, s')) :
    (s.virtualTp tp < s.currentTickCount * s.dtCount ∧ r = none ∧ s' = s) ∨
      (s.currentTickCount * s.dtCount ≤ s.virtualTp tp ∧ 0 < s.dtCount ∧
        r = some ⟨s.virtualTp tp / s.dtCount, task⟩ ∧
        ∃ place, Files s (s.virtualTp tp / s.dtCount) task place s') := by
  have hcases := executeAt_appends h
  rw [Nat.mod_eq_of_lt hc] at hcases
  refine hcases.imp_right fun ⟨hle, hpos, hr, place, happends⟩ => ⟨hle, hpos, hr, place, ?_⟩
  exact happends.files ((Nat.le_div_iff_mul_le hpos).mpr hle)

/-! ## The place -/

/-- A slot is chosen on the first wheel whose turn is longer than the horizon. -/
theorem locate_slot {wheelSize : List ℕ} {ii diff tmp i p : ℕ}
    (h : locate ii wheelSize diff tmp = .ok (.slot i p)) (hlt : diff + tmp < 2 ^ 64) :
    ∃ j size, i = ii + j ∧ wheelSize[j]? = some size ∧ (∀ k < j, S wheelSize k ≤ diff) ∧
      diff < S wheelSize j ∧
      p = (diff / (wheelSize.take j).prod + tmp / (wheelSize.take j).prod) % size := by
  induction wheelSize generalizing ii diff tmp with
  | nil => simp [locate] at h
  | cons size ws ih =>
    rw [locate] at h
    split at h
    · next hd =>
      cases h
      rw [Nat.mod_eq_of_lt hlt]
      exact ⟨0, size, rfl, rfl, by simp, by simpa [S] using hd, by simp⟩
    · next hd =>
      split at h
      · exact absurd h (by simp)
      · next hsize =>
        have hpos : 0 < size := Nat.pos_of_ne_zero hsize
        have h1 := Nat.div_le_self diff size
        have h2 := Nat.div_le_self tmp size
        obtain ⟨j, v, rfl, hv, hmin, hlt, rfl⟩ := ih h (by omega)
        refine ⟨j + 1, v, by omega, by simpa using hv, ?_, ?_, ?_⟩
        · intro k hk
          cases k with
          | zero => simpa [S] using hd
          | succ k =>
            rw [S_cons_succ, Nat.mul_comm]
            exact (Nat.le_div_iff_mul_le hpos).mp (hmin k (by omega))
        · rw [S_cons_succ, Nat.mul_comm]
          exact (Nat.div_lt_iff_lt_mul hpos).mp hlt
        · simp [Nat.div_div_eq_div_mul]

/-- The map is chosen when the horizon is beyond every wheel. -/
theorem locate_map {wheelSize : List ℕ} {ii diff tmp key : ℕ}
    (h : locate ii wheelSize diff tmp = .ok (.map key)) (hlt : diff + tmp < 2 ^ 64) :
    (∀ k < wheelSize.length, S wheelSize k ≤ diff) ∧
      key = diff / wheelSize.prod + tmp / wheelSize.prod := by
  induction wheelSize generalizing ii diff tmp with
  | nil =>
    cases h
    rw [Nat.mod_eq_of_lt hlt]
    simp
  | cons size ws ih =>
    rw [locate] at h
    split at h
    · exact absurd h (by simp)
    · next hd =>
      split at h
      · exact absurd h (by simp)
      · next hsize =>
        have hpos : 0 < size := Nat.pos_of_ne_zero hsize
        have h1 := Nat.div_le_self diff size
        have h2 := Nat.div_le_self tmp size
        obtain ⟨hmin, rfl⟩ := ih h (by omega)
        refine ⟨?_, by simp [Nat.div_div_eq_div_mul]⟩
        intro k hk
        cases k with
        | zero => simpa [S] using hd
        | succ k =>
          rw [S_cons_succ, Nat.mul_comm]
          exact (Nat.le_div_iff_mul_le hpos).mp (hmin k (by simpa using hk))

/-! ## Filing -/

variable {vec vec' : List (TimingWheelTool Task)} {m m' : TimingTaskMap Task}
  {e : TaskWithTimestamp Task}

/-- Filing in a slot appends to the list of that slot. -/
theorem put_slot {ii pos : ℕ} (h : put vec m (.slot ii pos) e = .ok (vec', m')) :
    m' = m ∧ ∃ w l, vec[ii]? = some w ∧ w.wheel[pos]? = some l ∧
      vec' = vec.set ii { w with wheel := w.wheel.set pos (l ++ [e]) } := by
  simp only [put] at h
  split at h
  · exact absurd h (by simp)
  · next w hw =>
    obtain ⟨v, hv, h⟩ := bind_eq_ok.mp h
    obtain ⟨l, hl, rfl⟩ := TimingWheelTool.emplaceBack_eq_ok.mp hv
    cases h
    exact ⟨rfl, w, l, hw, hl, rfl⟩

/-- Filing in the map appends to the list of the key. -/
theorem put_map {key : ℕ} (h : put vec m (.map key) e = .ok (vec', m')) :
    vec' = vec ∧ m' = { m with lists := Bag.emplaceBack m.lists key e } := by
  cases h
  exact ⟨rfl, rfl⟩

theorem put_scales {place : Place} (h : put vec m place e = .ok (vec', m')) :
    vec'.map (·.scale) = vec.map (·.scale) := by
  cases place with
  | map key => rw [(put_map h).1]
  | slot ii pos =>
    obtain ⟨-, w, l, hw, -, rfl⟩ := put_slot h
    exact Bag.map_set_of_eq hw rfl

end Ados.TimeWheel
