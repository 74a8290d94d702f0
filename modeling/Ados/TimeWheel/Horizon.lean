import Ados.TimeWheel.IndexSafety

/-!
# The level of a horizon

`ExecuteAt` files a task with deadline tick `t` at the current tick `c` on the first wheel whose
turn is longer than `t - c`, or in the map if there is none, and appends it to one list. The slot
and the key are sums of two quotients, which fall short of the quotient of `t` by one at most.

## Main definitions

* `Level wheelSize diff i`: the wheel `i` is the first whose turn is longer than `diff`
* `levelIndex wheelSize i diff tmp`: the running sum of the loop at the level `i`
* `AvoidsZero wheelSize diff`: the loop stops before a wheel without slots
* `TimeWheelExecutor.FilesByHorizon`: what a call does to the wheels and the map

## Main results

* `exists_place`: the place that the loop finds
* `levelIndex_bounds`: the error of adding two quotients
* `TimerLoop.files_by_horizon_iff`: a call files by the horizon exactly if it finds the wheels or
  needs none
-/

namespace Ados.TimeWheel

open Transition

variable {Task : Type} {wheelSize : List ℕ} {diff tmp i ii : ℕ}

/-! ## The place -/

/-- The wheel `i` is the first whose turn is longer than the horizon. -/
structure Level (wheelSize : List ℕ) (diff i : ℕ) : Prop where
  le : ∀ k < i, S wheelSize k ≤ diff
  lt : diff < S wheelSize i

/-- The sum of the two running values at the level `i`. -/
def levelIndex (wheelSize : List ℕ) (i diff tmp : ℕ) : ℕ :=
  diff / (wheelSize.take i).prod + tmp / (wheelSize.take i).prod

/-- Before every wheel without slots there is one whose turn is longer than the horizon. -/
def AvoidsZero (wheelSize : List ℕ) (diff : ℕ) : Prop :=
  ∀ i, wheelSize[i]? = some 0 → ∃ k < i, diff < S wheelSize k

theorem Level.unique {j : ℕ} (hi : Level wheelSize diff i) (hj : Level wheelSize diff j) :
    i = j := by
  rcases Nat.lt_trichotomy i j with hlt | heq | hgt
  · exact absurd hi.lt (Nat.not_lt.mpr (hj.le i hlt))
  · exact heq
  · exact absurd hj.lt (Nat.not_lt.mpr (hi.le j hgt))

theorem avoidsZero_of_pos (hpos : ∀ w ∈ wheelSize, 0 < w) : AvoidsZero wheelSize diff :=
  fun _ hi => absurd (hpos 0 (List.mem_of_getElem? hi)) (Nat.lt_irrefl 0)

/-- The wheel of a level has a slot. -/
theorem Level.size_pos {size : ℕ} (h : Level wheelSize diff i) (hi : wheelSize[i]? = some size) :
    0 < size := by
  apply Nat.pos_of_ne_zero
  rintro rfl
  have hzero : S wheelSize i = 0 := by
    apply List.prod_eq_zero
    apply List.mem_of_getElem? (i := i)
    rw [List.getElem?_take, if_pos (Nat.lt_succ_self i), hi]
  have hlt := h.lt
  rw [hzero] at hlt
  exact absurd hlt (Nat.not_lt_zero diff)

theorem AvoidsZero.exists_locate (h : AvoidsZero wheelSize diff) :
    ∃ place, locate ii wheelSize diff tmp = .ok place := by
  induction wheelSize generalizing ii diff tmp with
  | nil => exact ⟨_, rfl⟩
  | cons size ws ih =>
    rw [locate]
    by_cases hd : diff < size
    · rw [if_pos hd]
      exact ⟨_, rfl⟩
    · have hsize : size ≠ 0 := by
        rintro rfl
        obtain ⟨k, hk, -⟩ := h 0 rfl
        exact absurd hk (Nat.not_lt_zero k)
      rw [if_neg hd, if_neg hsize]
      apply ih
      intro i hi
      obtain ⟨k, hk, hlt⟩ := h (i + 1) hi
      cases k with
      | zero =>
        rw [S_zero] at hlt
        exact absurd hlt hd
      | succ k =>
        refine ⟨k, Nat.lt_of_succ_lt_succ hk, ?_⟩
        rw [S_cons_succ, Nat.mul_comm] at hlt
        exact (Nat.div_lt_iff_lt_mul (Nat.pos_of_ne_zero hsize)).mpr hlt

/-- Otherwise the loop divides by the size of such a wheel. -/
theorem locate_of_not_avoidsZero (h : ¬ AvoidsZero wheelSize diff) :
    locate ii wheelSize diff tmp = .error .divByZero := by
  simp only [AvoidsZero, not_forall, not_exists, not_and, Nat.not_lt] at h
  obtain ⟨i, hi, hle⟩ := h
  induction wheelSize generalizing ii diff tmp i with
  | nil => simp at hi
  | cons size ws ih =>
    rw [locate]
    cases i with
    | zero =>
      obtain rfl : size = 0 := by simpa using hi
      rw [if_neg (Nat.not_lt_zero diff), if_pos rfl]
    | succ i =>
      have hd : size ≤ diff := by
        have := hle 0 (Nat.succ_pos i)
        rwa [S_zero] at this
      rw [if_neg (Nat.not_lt.mpr hd)]
      by_cases hsize : size = 0
      · rw [if_pos hsize]
      · rw [if_neg hsize]
        apply ih i hi
        intro k hk
        have hk' := hle (k + 1) (Nat.succ_lt_succ hk)
        rw [S_cons_succ, Nat.mul_comm] at hk'
        exact (Nat.le_div_iff_mul_le (Nat.pos_of_ne_zero hsize)).mpr hk'

/-- **The place that the loop finds**: a slot of the level of the horizon, or the map. -/
theorem exists_place (h : AvoidsZero wheelSize diff) (hlt : diff + tmp < 2 ^ 64) :
    (∃ i size, wheelSize[i]? = some size ∧ Level wheelSize diff i ∧
        locate 0 wheelSize diff tmp = .ok (.slot i (levelIndex wheelSize i diff tmp % size))) ∨
      (∀ k < wheelSize.length, S wheelSize k ≤ diff) ∧
        locate 0 wheelSize diff tmp =
          .ok (.map (levelIndex wheelSize wheelSize.length diff tmp)) := by
  obtain ⟨place, hplace⟩ : ∃ place, locate 0 wheelSize diff tmp = .ok place := h.exists_locate
  cases place with
  | slot i p =>
    obtain ⟨j, size, hj, hsize, hle, hlt', hp⟩ := locate_slot hplace hlt
    rw [Nat.zero_add] at hj
    subst hj
    left
    refine ⟨i, size, hsize, ⟨hle, hlt'⟩, ?_⟩
    rw [hplace, hp, levelIndex]
  | map key =>
    obtain ⟨hle, hkey⟩ := locate_map hplace hlt
    right
    refine ⟨hle, ?_⟩
    rw [hplace, hkey, levelIndex, List.take_length]

/-- With slots on every wheel the horizon has a level exactly if it is within the last wheel. -/
theorem forall_le_iff (hne : wheelSize ≠ []) (hpos : ∀ w ∈ wheelSize, 0 < w) :
    (∀ k < wheelSize.length, S wheelSize k ≤ diff) ↔ wheelSize.prod ≤ diff := by
  have hlen := List.length_pos_of_ne_nil hne
  constructor
  · intro h
    have hlast := h (wheelSize.length - 1) (by omega)
    rwa [S, Nat.sub_add_cancel hlen, List.take_length] at hlast
  · intro h k hk
    have hdrop : 0 < (wheelSize.drop (k + 1)).prod :=
      List.prod_pos fun w hw => hpos w (List.mem_of_mem_drop hw)
    calc S wheelSize k ≤ S wheelSize k * (wheelSize.drop (k + 1)).prod :=
          Nat.le_mul_of_pos_right _ hdrop
      _ = wheelSize.prod := by rw [S, ← List.prod_append, List.take_append_drop]
      _ ≤ diff := h

theorem exists_level (hne : wheelSize ≠ []) (h : diff < wheelSize.prod) :
    ∃ i < wheelSize.length, Level wheelSize diff i := by
  classical
  -- the last wheel has a turn longer than the horizon, the level is the first that has
  have hlen := List.length_pos_of_ne_nil hne
  have hex : ∃ i, diff < S wheelSize i := by
    refine ⟨wheelSize.length - 1, ?_⟩
    rwa [S, Nat.sub_add_cancel hlen, List.take_length]
  refine ⟨Nat.find hex, ?_, fun k hk => Nat.not_lt.mp (Nat.find_min hex hk), Nat.find_spec hex⟩
  have hle : Nat.find hex ≤ wheelSize.length - 1 := by
    apply Nat.find_min'
    rwa [S, Nat.sub_add_cancel hlen, List.take_length]
  omega

/-- The sum of the quotients of two numbers is the quotient of their sum, or one less. -/
theorem levelIndex_bounds (i diff tmp : ℕ) :
    levelIndex wheelSize i diff tmp ≤ (diff + tmp) / (wheelSize.take i).prod ∧
      (diff + tmp) / (wheelSize.take i).prod ≤ levelIndex wheelSize i diff tmp + 1 := by
  unfold levelIndex
  rcases Nat.eq_zero_or_pos (wheelSize.take i).prod with hzero | hpos
  · simp [hzero]
  · rw [Nat.add_div hpos]
    constructor
    · exact Nat.le_add_right _ _
    · apply Nat.add_le_add_left
      split
      · exact Nat.le_refl _
      · exact Nat.zero_le _

/-! ## The call -/

namespace TimeWheelExecutor

/-- The tick at which a task for a time point is due, counted from the start time. -/
def deadline (s : TimeWheelExecutor Task) (tp : ℤ) : ℕ := s.virtualTp tp / s.dtCount

/-- How many ticks ahead that is. -/
def horizon (s : TimeWheelExecutor Task) (tp : ℤ) : ℕ := s.deadline tp - s.currentTickCount

/-- The sum of the two running values of the loop at the level `i`. -/
def index (s : TimeWheelExecutor Task) (tp : ℤ) (i : ℕ) : ℕ :=
  levelIndex s.options.wheelSize i (s.horizon tp) s.currentTickCount

/-- The executor with the task appended to the list `l` of the slot `pos` of the wheel `i`, which is
`w`. -/
def withSlot (s : TimeWheelExecutor Task) (i : ℕ) (w : TimingWheelTool Task) (pos : ℕ)
    (l : TaskList Task) (e : TaskWithTimestamp Task) : TimeWheelExecutor Task :=
  { s with timingWheelVec :=
      s.timingWheelVec.set i { w with wheel := w.wheel.set pos (l ++ [e]) } }

/-- The executor with the task appended to the list of a key of the map. -/
def withKey (s : TimeWheelExecutor Task) (key : ℕ) (e : TaskWithTimestamp Task) :
    TimeWheelExecutor Task :=
  { s with timingTaskMap :=
      { s.timingTaskMap with lists := Bag.emplaceBack s.timingTaskMap.lists key e } }

/-- A call chooses the level by the horizon and touches one list: it appends the task to the slot
`index i mod w_i` of the first wheel `i` whose turn is longer than the horizon, or to the list of
the key `index L` of the map if no wheel has such a turn. -/
structure FilesByHorizon (s : TimeWheelExecutor Task) (tp : ℤ) (task : Task) : Prop where
  slot : ∀ i size, s.options.wheelSize[i]? = some size →
    Level s.options.wheelSize (s.horizon tp) i →
    ∃ w l, s.timingWheelVec[i]? = some w ∧ w.wheel[s.index tp i % size]? = some l ∧
      s.executeAt tp task = .ok (some ⟨s.deadline tp, task⟩,
        s.withSlot i w (s.index tp i % size) l ⟨s.deadline tp, task⟩)
  map : s.options.wheelSize.prod ≤ s.horizon tp →
    s.executeAt tp task = .ok (some ⟨s.deadline tp, task⟩,
      s.withKey (s.index tp s.options.wheelSize.length) ⟨s.deadline tp, task⟩)
  level : s.horizon tp < s.options.wheelSize.prod →
    ∃ i < s.options.wheelSize.length, Level s.options.wheelSize (s.horizon tp) i
  bounds : ∀ i, s.index tp i ≤ s.deadline tp / (s.options.wheelSize.take i).prod ∧
    s.deadline tp / (s.options.wheelSize.take i).prod ≤ s.index tp i + 1

variable {s : TimeWheelExecutor Task} {tp : ℤ} {task : Task}

/-- A list of the map that is not the one of the key stays as it is. -/
theorem lookup_withKey_ne {key j : ℕ} {e : TaskWithTimestamp Task} (h : j ≠ key) :
    (s.withKey key e).timingTaskMap.lists.lookup j = s.timingTaskMap.lists.lookup j :=
  Bag.lookup_emplaceBack_ne h e

theorem lookup_withKey_self (key : ℕ) (e : TaskWithTimestamp Task) :
    (s.withKey key e).timingTaskMap.lists.lookup key =
      some (Bag.taken s.timingTaskMap.lists key ++ [e]) :=
  Bag.lookup_emplaceBack_self _ key e

theorem deadline_lt (s : TimeWheelExecutor Task) (tp : ℤ) : s.deadline tp < 2 ^ 64 :=
  lt_of_le_of_lt (Nat.div_le_self _ _) (s.virtualTp_lt tp)

theorem horizon_add (hle : s.currentTickCount ≤ s.deadline tp) :
    s.horizon tp + s.currentTickCount = s.deadline tp := Nat.sub_add_cancel hle

theorem horizon_add_lt (hle : s.currentTickCount ≤ s.deadline tp) :
    s.horizon tp + s.currentTickCount < 2 ^ 64 := by
  rw [horizon_add hle]
  exact s.deadline_lt tp

/-- A task that is due at the current tick or later is not handed to `Execute`. -/
theorem not_late_of_le (hle : s.currentTickCount ≤ s.deadline tp) : ¬ s.Late tp := by
  intro hlate
  have hmul : s.currentTickCount * s.dtCount ≤ s.virtualTp tp :=
    (Nat.mul_le_mul_right _ hle).trans (Nat.div_mul_le_self _ _)
  have hmod := Nat.mod_le (s.currentTickCount * s.dtCount) (2 ^ 64)
  unfold Late at hlate
  omega

/-- A call for such a task is a search for the place and the filing there. -/
theorem executeAt_eq (hdt : 0 < s.dtCount) (hle : s.currentTickCount ≤ s.deadline tp) :
    s.executeAt tp task =
      (locate 0 s.options.wheelSize (s.horizon tp) s.currentTickCount).bind fun place =>
        (put s.timingWheelVec s.timingTaskMap place ⟨s.deadline tp, task⟩).bind fun r =>
          .ok (some ⟨s.deadline tp, task⟩,
            { s with timingWheelVec := r.1, timingTaskMap := r.2 }) := by
  rw [executeAt_of_not_late (not_late_of_le hle) hdt]
  have hwrap : wrap64 (↑(s.virtualTp tp / s.dtCount) - s.currentTickCount) = s.horizon tp :=
    wrap64_sub (s.deadline_lt tp) hle
  rw [hwrap]
  rfl

/-- Filing in a slot of a wheel that has it. -/
theorem put_slot_of_getElem? {vec : List (TimingWheelTool Task)} {m : TimingTaskMap Task}
    {w : TimingWheelTool Task} {pos : ℕ} {l : TaskList Task} {e : TaskWithTimestamp Task}
    (hw : vec[i]? = some w) (hl : w.wheel[pos]? = some l) :
    put vec m (.slot i pos) e =
      .ok (vec.set i { w with wheel := w.wheel.set pos (l ++ [e]) }, m) := by
  simp [put, hw, TimingWheelTool.emplaceBack, hl, Except.bind]

/-- The slot of a level is there as long as the wheels have their sizes. -/
theorem exists_slot {size : ℕ} (pos : ℕ)
    (hsizes : (digits s.timingWheelVec).map Digit.size = s.options.wheelSize)
    (hi : s.options.wheelSize[i]? = some size) (hpos : 0 < size) :
    ∃ w l, s.timingWheelVec[i]? = some w ∧ w.wheel[pos % size]? = some l := by
  rw [← hsizes] at hi
  obtain ⟨w, hw, rfl⟩ : ∃ w, s.timingWheelVec[i]? = some w ∧ w.wheel.length = size := by
    simpa [digits] using hi
  exact ⟨w, _, hw, List.getElem?_eq_getElem (Nat.mod_lt pos hpos)⟩

theorem executeAt_of_level {size : ℕ} (hdt : 0 < s.dtCount)
    (hle : s.currentTickCount ≤ s.deadline tp)
    (hzero : AvoidsZero s.options.wheelSize (s.horizon tp))
    (hi : s.options.wheelSize[i]? = some size)
    (hlevel : Level s.options.wheelSize (s.horizon tp) i) {w : TimingWheelTool Task}
    {l : TaskList Task} (hw : s.timingWheelVec[i]? = some w)
    (hl : w.wheel[s.index tp i % size]? = some l) :
    s.executeAt tp task = .ok (some ⟨s.deadline tp, task⟩,
      s.withSlot i w (s.index tp i % size) l ⟨s.deadline tp, task⟩) := by
  rcases exists_place hzero (horizon_add_lt hle) with ⟨j, v, hv, hj, hplace⟩ | ⟨hfar, -⟩
  · obtain rfl := hlevel.unique hj
    obtain rfl : size = v := Option.some_inj.mp (hi.symm.trans hv)
    rw [executeAt_eq hdt hle, hplace]
    simp only [Except.bind]
    rw [← index, put_slot_of_getElem? hw hl]
    rfl
  · have hle' := hfar i (List.getElem?_eq_some_iff.mp hi).1
    exact absurd hlevel.lt (Nat.not_lt.mpr hle')

theorem executeAt_of_far (hdt : 0 < s.dtCount) (hle : s.currentTickCount ≤ s.deadline tp)
    (hzero : AvoidsZero s.options.wheelSize (s.horizon tp))
    (hfar : ∀ k < s.options.wheelSize.length, S s.options.wheelSize k ≤ s.horizon tp) :
    s.executeAt tp task = .ok (some ⟨s.deadline tp, task⟩,
      s.withKey (s.index tp s.options.wheelSize.length) ⟨s.deadline tp, task⟩) := by
  rcases exists_place hzero (horizon_add_lt hle) with ⟨j, v, hv, hj, -⟩ | ⟨-, hplace⟩
  · have hle' := hfar j (List.getElem?_eq_some_iff.mp hv).1
    exact absurd hj.lt (Nat.not_lt.mpr hle')
  · rw [executeAt_eq hdt hle, hplace]
    rfl

/-- With a wheel of its size for each level, or beyond all of them, a call files by the horizon. -/
theorem filesByHorizon (hne : s.options.wheelSize ≠ []) (hpos : ∀ w ∈ s.options.wheelSize, 0 < w)
    (hdt : 0 < s.dtCount) (hle : s.currentTickCount ≤ s.deadline tp)
    (h : (digits s.timingWheelVec).map Digit.size = s.options.wheelSize ∨
      s.options.wheelSize.prod ≤ s.horizon tp) : s.FilesByHorizon tp task where
  slot := by
    intro i size hi hlevel
    have hsizes : (digits s.timingWheelVec).map Digit.size = s.options.wheelSize := by
      apply h.resolve_right
      intro hfar
      have hle' := (forall_le_iff hne hpos).mpr hfar i (List.getElem?_eq_some_iff.mp hi).1
      exact absurd hlevel.lt (Nat.not_lt.mpr hle')
    obtain ⟨w, l, hw, hl⟩ := exists_slot (s.index tp i) hsizes hi (hlevel.size_pos hi)
    exact ⟨w, l, hw, hl, executeAt_of_level hdt hle (avoidsZero_of_pos hpos) hi hlevel hw hl⟩
  map := fun hfar =>
    executeAt_of_far hdt hle (avoidsZero_of_pos hpos) ((forall_le_iff hne hpos).mpr hfar)
  level := fun hlt => exists_level hne hlt
  bounds := by
    intro i
    unfold index
    rw [← horizon_add hle]
    exact levelIndex_bounds i (s.horizon tp) s.currentTickCount

/-- Without wheels, a call for a task that needs one does not. -/
theorem not_filesByHorizon_of_nil (hnil : s.timingWheelVec = [])
    (hlt : s.horizon tp < s.options.wheelSize.prod) : ¬ s.FilesByHorizon tp task := by
  intro h
  obtain ⟨i, hi, hlevel⟩ := h.level hlt
  obtain ⟨w, l, hw, -⟩ := h.slot i _ (List.getElem?_eq_getElem hi) hlevel
  rw [hnil] at hw
  cases hw

end TimeWheelExecutor

namespace TimerLoop

variable {options : Options} {s : TimerLoop} {es : List Act}

/-- **A call files by the horizon exactly if it finds the wheels or needs none.** In every state
that the executor reaches and for every deadline tick `t` at or after the current tick, the call
files the task on the level of the horizon, in the slot or under the key of the sum of the two
quotients, and changes nothing else, if and only if `Shutdown` has not cleared the wheels or the
task goes to the map. -/
theorem files_by_horizon_iff (hne : options.wheelSize ≠ []) (hpos : ∀ w ∈ options.wheelSize, 0 < w)
    (hdt : options.dt ≠ 0) (hr : run step (initial options) es = some s) {tp : ℤ}
    (hle : s.exec.currentTickCount ≤ s.exec.deadline tp) (task : Call) :
    s.exec.FilesByHorizon tp task ↔ .join ∉ es ∨ options.wheelSize.prod ≤ s.exec.horizon tp := by
  have hconf := configured_run hr
  have hdt' := hconf.dtCount_pos hdt
  constructor
  · intro h
    by_contra hcon
    rw [not_or, not_not, Nat.not_le] at hcon
    obtain ⟨hjoin, hlt⟩ := hcon
    rw [← hconf.options_eq] at hlt
    exact TimeWheelExecutor.not_filesByHorizon_of_nil (cleared_run hr hjoin) hlt h
  · intro h
    rw [← hconf.options_eq] at hne hpos h
    apply TimeWheelExecutor.filesByHorizon hne hpos hdt' hle
    rcases h with hjoin | hfar
    · left
      rw [sizes_run hr hjoin, hconf.options_eq]
    · exact Or.inr hfar

/-- A call after the first tick, for the tick after that. -/
theorem files_by_horizon_iff_ticked :
    ∃ s, run step (initial { dt := 1, wheelSize := [2, 2] }) tickedRun = some s ∧
      s.exec.currentTickCount = 1 ∧ s.exec.deadline 2 = 2 ∧ s.exec.FilesByHorizon 2 ⟨0, 1⟩ := by
  have h : ((run step (initial { dt := 1, wheelSize := [2, 2] }) tickedRun).map fun s =>
      (s.exec.currentTickCount, s.exec.deadline 2)) = some (1, 2) := by
    decide +kernel
  obtain ⟨s, hs, hval⟩ := Option.map_eq_some_iff.mp h
  obtain ⟨hcount, hdeadline⟩ := Prod.mk.inj hval
  have hle : s.exec.currentTickCount ≤ s.exec.deadline 2 := by
    rw [hcount, hdeadline]
    decide
  have hiff := files_by_horizon_iff (by decide) (by decide) (by decide) hs hle ⟨0, 1⟩
  exact ⟨s, hs, hcount, hdeadline, hiff.mpr (Or.inl (by decide))⟩

/-- After `Shutdown` a call for the current tick finds no wheel. -/
theorem not_filesByHorizon_after_shutdown :
    ∃ s, run step (initial {}) [.start, .clock 0, .shutdown, .loop, .join] = some s ∧
      s.exec.currentTickCount ≤ s.exec.deadline 0 ∧ ¬ s.exec.FilesByHorizon 0 ⟨0, 0⟩ := by
  have h : ((run step (initial {}) [.start, .clock 0, .shutdown, .loop, .join]).map fun s =>
      (s.exec.timingWheelVec.length, s.exec.currentTickCount,
        decide (s.exec.horizon 0 < s.exec.options.wheelSize.prod))) = some (0, 0, true) := by
    decide +kernel
  obtain ⟨s, hs, hval⟩ := Option.map_eq_some_iff.mp h
  obtain ⟨hlen, hcount, hlt⟩ : s.exec.timingWheelVec.length = 0 ∧ s.exec.currentTickCount = 0 ∧
      s.exec.horizon 0 < s.exec.options.wheelSize.prod := by
    simpa using hval
  refine ⟨s, hs, ?_, ?_⟩
  · rw [hcount]
    exact Nat.zero_le _
  · exact TimeWheelExecutor.not_filesByHorizon_of_nil (List.length_eq_zero_iff.mp hlen) hlt

end TimerLoop

end Ados.TimeWheel
