import Ados.TimeWheel.Contents
import Ados.TimeWheel.IndexSafety

/-!
# Re-filing from the map

When the last wheel wraps, its `borrow_func` takes a list out of the map and files each task of it
in the slot `tick_count % scale`. The scale of the last wheel is the product `P` of all sizes, not
the product `Q` of those below it: the index is the remainder of the tick by `P`, while the slot
that is drained for the tick is its quotient by `Q`, modulo the size.

## Main definitions

* `drainedSlot below size x`: the slot of the last wheel that is drained for the tick of a task
* `RefilesToDrained`: the loop of `borrow_func` appends a task to the slot drained for it

## Main results

* `getLast?_tick`: a tick that wraps every wheel leaves the last wheel to the loop of `borrow_func`
* `getLast?_scale_makeWheels`: the scale of the last wheel
* `mod_eq_div_mod_iff`: when the two slots agree
* `TimerLoop.refiles_to_drained_iff`: a task taken out of the map is appended to the slot drained
  for it exactly if `Q = 1` or its tick is a multiple of `P`
-/

namespace Ados.TimeWheel

open Transition

variable {Task : Type} {below : List ℕ} {size : ℕ}

/-! ## The slot -/

/-- The slot of the last wheel that is drained for the tick of a task, the wheels below it having
the sizes `below`. -/
def drainedSlot (below : List ℕ) (size : ℕ) (x : TaskWithTimestamp Task) : ℕ :=
  x.tickCount / below.prod % size

/-- The loop of the last level's `borrow_func`, come to the task `x` with the wheel `v`, appends it
to the slot drained for its tick. -/
def RefilesToDrained (below : List ℕ) (size : ℕ) (v : TimingWheelTool Task)
    (x : TaskWithTimestamp Task) : Prop :=
  ∃ l, v.wheel[drainedSlot below size x]? = some l ∧
    v.refile [x] = .ok { v with wheel := v.wheel.set (drainedSlot below size x) (l ++ [x]) }

/-- The remainder by a product is the last digit of the quotient exactly if there is nothing to
divide by, or no remainder. -/
theorem mod_eq_div_mod_iff {q n t : ℕ} (hq : 0 < q) :
    t % (q * n) = t / q % n ↔ q = 1 ∨ q * n ∣ t := by
  rw [← Nat.mod_mul_right_div_self]
  constructor
  · intro h
    rcases Nat.eq_or_lt_of_le (Nat.succ_le_of_lt hq) with hone | htwo
    · exact Or.inl hone.symm
    · right
      apply Nat.dvd_of_mod_eq_zero
      by_contra hne
      have hlt := Nat.div_lt_self (Nat.pos_of_ne_zero hne) htwo
      omega
  · rintro (rfl | hdvd)
    · rw [Nat.div_one]
    · rw [Nat.mod_eq_zero_of_dvd hdvd, Nat.zero_div]

/-- The loop of `borrow_func` appends a task to a slot exactly if that is the slot it computes. -/
theorem refile_singleton_iff {v : TimingWheelTool Task} {x : TaskWithTimestamp Task} {p : ℕ}
    (hscale : v.scale ≠ 0) (hp : p < v.wheel.length) :
    (∃ l, v.wheel[p]? = some l ∧
      v.refile [x] = .ok { v with wheel := v.wheel.set p (l ++ [x]) }) ↔ v.refileIndex x = p := by
  constructor
  · rintro ⟨l, hl, h⟩
    obtain ⟨-, -, -, hslot, -⟩ := TimingWheelTool.refile_spec h
    have hset := hslot p
    rw [List.getElem?_set_self hp, hl, Option.map_some, Option.some_inj] at hset
    by_contra hne
    simp [hne] at hset
  · rintro rfl
    obtain ⟨l, hl⟩ : ∃ l, v.wheel[v.refileIndex x]? = some l := ⟨_, List.getElem?_eq_getElem hp⟩
    refine ⟨l, hl, TimingWheelTool.refile_cons_eq_ok.mpr ⟨hscale, _, ?_, rfl⟩⟩
    exact TimingWheelTool.emplaceBack_eq_ok.mpr ⟨l, hl, rfl⟩

/-- With the product of all sizes for its scale, the last wheel is given a task in the slot drained
for it exactly if there is one slot below, or the tick is a multiple of the product. -/
theorem refilesToDrained_iff {v : TimingWheelTool Task} {x : TaskWithTimestamp Task}
    (hbelow : 0 < below.prod) (hsize : 0 < size) (hlen : v.wheel.length = size)
    (hscale : v.scale = below.prod * size) :
    RefilesToDrained below size v x ↔ below.prod = 1 ∨ below.prod * size ∣ x.tickCount := by
  have hne : v.scale ≠ 0 := hscale ▸ (Nat.mul_pos hbelow hsize).ne'
  have hslot : drainedSlot below size x < v.wheel.length := by
    rw [hlen]
    exact Nat.mod_lt _ hsize
  rw [RefilesToDrained, refile_singleton_iff hne hslot, TimingWheelTool.refileIndex, hscale,
    drainedSlot, mod_eq_div_mod_iff hbelow]

/-! ## The tick of the last wheel -/

/-- A tick that wraps every wheel leaves the last one as the loop of its `borrow_func` does. -/
theorem getLast?_tick {vec : List (TimingWheelTool Task)} {m : TimingTaskMap Task}
    {w : TimingWheelTool Task} (hcarries : Odometer.Carries (digits vec) vec.length)
    (hw : vec.getLast? = some w) :
    (tick vec m).map (fun r => r.2.1.getLast?) = ((w.drained 0).refile m.borrow.1).map some := by
  induction vec with
  | nil => cases hw
  | cons u above ih =>
    obtain ⟨hwrap, hcarries⟩ : u.currentPos + 1 = u.wheel.length ∧
      Odometer.Carries (digits above) above.length := hcarries
    have htake : u.take = .ok (u.wheel[u.currentPos], u.drained (u.currentPos + 1)) :=
      TimingWheelTool.take_eq_ok.mpr ⟨List.getElem?_eq_getElem (by omega), rfl⟩
    have hlast : (u.drained (u.currentPos + 1)).currentPos =
        (u.drained (u.currentPos + 1)).wheel.length := by
      simpa using hwrap
    rw [tick, htake]
    simp only [Except.bind, if_pos hlast]
    cases above with
    | nil =>
      obtain rfl : u = w := Option.some_inj.mp hw
      show Except.map _ (Except.bind (Except.bind ((u.drained 0).refile m.borrow.1) _) _) = _
      cases (u.drained 0).refile m.borrow.1 <;> rfl
    | cons v above =>
      rw [← ih hcarries hw, borrowFunc]
      cases htick : tick (v :: above) m with
      | error fault => rfl
      | ok r =>
        obtain ⟨dropped, above', m'⟩ := r
        have hne : above' ≠ [] := by
          cases ticks_of_tick htick <;> exact List.cons_ne_nil _ _
        simp [Except.bind, Except.map, List.getLast?_cons, List.getLast?_eq_some_getLast hne]

/-! ## The scale of the last wheel -/

theorem getLast?_scale_makeWheels {startPos curScale : ℕ} {wheelSize : List ℕ}
    (hne : wheelSize ≠ []) :
    ((makeWheels startPos curScale wheelSize : List (TimingWheelTool Task)).map
      (·.scale)).getLast? = some (curScale * wheelSize.prod % 2 ^ 64) := by
  induction wheelSize generalizing startPos curScale with
  | nil => exact absurd rfl hne
  | cons v ws ih =>
    cases ws with
    | nil => simp [makeWheels]
    | cons next rest =>
      rw [makeWheels, List.map_cons, List.getLast?_cons, ih (List.cons_ne_nil next rest),
        Option.getD_some, Nat.mod_mul_mod, Nat.mul_assoc, ← List.prod_cons]

/-! ## Runs -/

/-- A call that puts a task into the map has a horizon of the product of the sizes at least, which
fits 64 bits. -/
theorem prod_lt_of_executeAt {s s' : TimeWheelExecutor Task} {tp : ℤ} {task : Task}
    {r : Option (TaskWithTimestamp Task)} {k : ℕ} {x : TaskWithTimestamp Task}
    (hne : s.options.wheelSize ≠ []) (hpos : ∀ w ∈ s.options.wheelSize, 0 < w)
    (h : s.executeAt tp task = .ok (r, s')) (hx : InMap s'.timingTaskMap k x) :
    InMap s.timingTaskMap k x ∨ s.options.wheelSize.prod < 2 ^ 64 := by
  rcases executeAt_appends h with ⟨-, -, rfl⟩ | ⟨-, -, -, place, happends⟩
  · exact Or.inl hx
  · rcases (put_inMap happends.filed).mp hx with hx | ⟨rfl, -⟩
    · exact Or.inl hx
    · right
      have hlocated := happends.located
      rcases locate_cases hpos 0 (wrap64 (↑(s.virtualTp tp / s.dtCount) - s.currentTickCount))
        s.currentTickCount with ⟨-, -, hfar⟩ | ⟨j, p, v, hslot, -⟩
      · exact lt_of_le_of_lt (hfar.resolve_left hne) (wrap64_lt _)
      · rw [hslot] at hlocated
        cases hlocated

namespace TimerLoop

variable {options : Options} {s s' : TimerLoop} {a : Act} {es : List Act}

/-- No step but the last of `Shutdown` changes a scale. -/
theorem Step.scales_eq (hs : Step s a s') (ha : a ≠ .join) :
    s'.exec.timingWheelVec.map (·.scale) = s.exec.timingWheelVec.map (·.scale) := by
  cases hs with
  | empty _ htake | taken _ _ htake => exact (ticks_of_takeTick htake).1.scales
  | executeAt hexec =>
    rcases executeAt_appends hexec with ⟨-, -, rfl⟩ | ⟨-, -, -, place, happends⟩
    · rfl
    · exact put_scales happends.filed
  | join _ _ => exact absurd rfl ha
  | _ => rfl

/-- Until `Shutdown` has cleared the wheels, the scales are those of `Initialize`. -/
theorem scales_run (hr : run step (initial options) es = some s) (hjoin : .join ∉ es) :
    s.exec.timingWheelVec.map (·.scale) =
      (makeWheels 0 1 options.wheelSize : List (TimingWheelTool Call)).map (·.scale) := by
  refine run_invariant_of_mem (P := fun s => s.exec.timingWheelVec.map (·.scale) =
    (makeWheels 0 1 options.wheelSize : List (TimingWheelTool Call)).map (·.scale)) ?_ ?_ hr
  · intro s a t h ha hs
    rw [(step_cases hs).scales_eq fun heq => hjoin (heq ▸ ha)]
    exact h
  · rfl

/-- The scale of the last wheel is the product of all sizes, in 64 bits. -/
theorem scale_last (hne : options.wheelSize ≠ []) (hr : run step (initial options) es = some s)
    {w : TimingWheelTool Call} (hw : s.exec.timingWheelVec.getLast? = some w) :
    w.scale = options.wheelSize.prod % 2 ^ 64 := by
  -- there is a last wheel, so `Shutdown` has not cleared them
  have hjoin : .join ∉ es := by
    intro hjoin
    rw [cleared_run hr hjoin] at hw
    cases hw
  have hlast := congrArg List.getLast? (scales_run hr hjoin)
  rw [getLast?_scale_makeWheels hne, List.getLast?_map, hw, Nat.one_mul] at hlast
  exact Option.some_inj.mp hlast

/-- The last wheel has its size. -/
theorem length_last (hsizes : options.wheelSize = below ++ [size])
    (hr : run step (initial options) es = some s) {w : TimingWheelTool Call}
    (hw : s.exec.timingWheelVec.getLast? = some w) : w.wheel.length = size := by
  have hjoin : .join ∉ es := by
    intro hjoin
    rw [cleared_run hr hjoin] at hw
    cases hw
  have hlast := congrArg List.getLast? (sizes_run hr hjoin)
  rw [hsizes, List.getLast?_concat, digits, List.map_map, List.getLast?_map, hw] at hlast
  exact Option.some_inj.mp hlast

/-- Tasks are in the map only if the product of the sizes fits 64 bits. -/
theorem Step.prod_lt (hs : Step s a s') (hne : s.exec.options.wheelSize ≠ [])
    (hpos : ∀ w ∈ s.exec.options.wheelSize, 0 < w)
    (h : ∀ k x, InMap s.exec.timingTaskMap k x → s.exec.options.wheelSize.prod < 2 ^ 64) {k : ℕ}
    {x : TaskWithTimestamp Call} (hx : InMap s'.exec.timingTaskMap k x) :
    s.exec.options.wheelSize.prod < 2 ^ 64 := by
  cases hs with
  | empty _ htake | taken _ _ htake =>
    exact h k x ((ticks_of_takeTick htake).1.inMap.mp hx).1
  | executeAt hexec =>
    rcases prod_lt_of_executeAt hne hpos hexec hx with hx | hlt
    · exact h k x hx
    · exact hlt
  | join _ _ =>
    obtain ⟨l, hl, -⟩ := hx
    cases hl
  | _ => exact h k x hx

theorem prod_lt_run (hv : ValidSizes options.wheelSize)
    (hr : run step (initial options) es = some s) {k : ℕ} {x : TaskWithTimestamp Call}
    (hx : InMap s.exec.timingTaskMap k x) : options.wheelSize.prod < 2 ^ 64 := by
  have h : Configured options s ∧
      ∀ k x, InMap s.exec.timingTaskMap k x → options.wheelSize.prod < 2 ^ 64 := by
    refine run_invariant (P := fun s => Configured options s ∧
      ∀ k x, InMap s.exec.timingTaskMap k x → options.wheelSize.prod < 2 ^ 64) ?_ ?_ hr
    · rintro s a s' ⟨hconf, h⟩ hs
      refine ⟨hconf.step (step_cases hs), ?_⟩
      rw [← hconf.options_eq] at hv h ⊢
      exact fun k x hx => (step_cases hs).prod_lt hv.ne_nil hv.pos h hx
    · refine ⟨configured_initial, ?_⟩
      rintro k x ⟨l, hl, -⟩
      cases hl
  exact h.2 k x hx

/-- **Re-filing from the map agrees with the slot drained for a task exactly if there is one slot
below the last wheel, or the tick is a multiple of all sizes.** In every state that the executor
reaches, with `w` for the last wheel: a tick that wraps all wheels hands `w`, its slot taken and its
cursor at `0`, to the loop of `borrow_func`; and come to a task of the list taken out of the map,
with `front` filed before it, the loop appends the task to the slot that is drained for its tick, if
and only if the product of the sizes below is `1` or the product of all sizes divides the tick. -/
theorem refiles_to_drained_iff (hv : ValidSizes options.wheelSize)
    (hsizes : options.wheelSize = below ++ [size])
    (hr : run step (initial options) es = some s) {w : TimingWheelTool Call}
    (hw : s.exec.timingWheelVec.getLast? = some w) {front rest : List Entry} {x : Entry}
    (hx : s.exec.timingTaskMap.borrow.1 = front ++ x :: rest) :
    (Odometer.Carries (digits s.exec.timingWheelVec) s.exec.timingWheelVec.length →
      s.exec.takeTick.map (fun r => r.2.timingWheelVec.getLast?) =
        ((w.drained 0).refile (front ++ x :: rest)).map some) ∧
    ∀ v, (w.drained 0).refile front = .ok v →
      (RefilesToDrained below size v x ↔ below.prod = 1 ∨ below.prod * size ∣ x.tickCount) := by
  have hprod : options.wheelSize.prod = below.prod * size := by
    rw [hsizes, List.prod_append, List.prod_singleton]
  have hmem : x ∈ s.exec.timingTaskMap.borrow.1 := by simp [hx]
  have hlt := prod_lt_run hv hr (mem_taken.mp hmem)
  refine ⟨fun hcarries => ?_, fun v hfront => ?_⟩
  · rw [← hx, ← getLast?_tick hcarries hw, TimeWheelExecutor.takeTick]
    cases tick s.exec.timingWheelVec s.exec.timingTaskMap <;> rfl
  · obtain ⟨-, hscale, hlen, -⟩ := TimingWheelTool.refile_spec hfront
    apply refilesToDrained_iff
    · exact List.prod_pos fun n hn => hv.pos n (by simp [hsizes, hn])
    · exact hv.pos size (by simp [hsizes])
    · rw [hlen, TimingWheelTool.drained_wheel, List.length_set, length_last hsizes hr hw]
    · rw [hscale, TimingWheelTool.drained_scale, scale_last hv.ne_nil hr hw, Nat.mod_eq_of_lt hlt,
        hprod]

/-- The run through the first tick of two wheels of two slots, with a task beyond them. -/
def refilingRun (tp : ℤ) : List Act :=
  [.start, .clock 0, .executeAt tp, .loop, .loop, .loop, .loop, .loop, .loop, .loop]

/-- The second tick takes a task for tick 4 out of the map and appends it to the slot `0`. -/
theorem refiles_to_drained_iff_four :
    ∃ (s : TimerLoop) (w : TimingWheelTool Call),
      run step (initial { dt := 1, wheelSize := [2, 2] }) (refilingRun 4) = some s ∧
      s.exec.timingWheelVec.getLast? = some w ∧
      s.exec.takeTick.map (fun r => r.2.timingWheelVec.getLast?) =
        ((w.drained 0).refile [⟨4, ⟨0, 0⟩⟩]).map some ∧
      RefilesToDrained [2] 2 (w.drained 0) ⟨4, ⟨0, 0⟩⟩ := by
  have h : ((run step (initial { dt := 1, wheelSize := [2, 2] }) (refilingRun 4)).map
        fun s => (s.exec.timingWheelVec.getLast?, s.exec.timingTaskMap.borrow.1,
          decide (Odometer.Carries (digits s.exec.timingWheelVec)
            s.exec.timingWheelVec.length))) =
      some (some ⟨1, 4, [[], []]⟩, [⟨4, ⟨0, 0⟩⟩], true) := by
    decide +kernel
  obtain ⟨s, hs, hval⟩ := Option.map_eq_some_iff.mp h
  simp only [Prod.mk.injEq, decide_eq_true_eq] at hval
  obtain ⟨hw, hx, hcarries⟩ := hval
  have hv : ValidSizes [2, 2] := ⟨by simp, by simp, by simp⟩
  have hsizes : [2, 2] = [2] ++ [2] := rfl
  have htaken : s.exec.timingTaskMap.borrow.1 = [] ++ ⟨4, ⟨0, 0⟩⟩ :: [] := hx
  obtain ⟨htick, hloop⟩ := refiles_to_drained_iff hv hsizes hs hw htaken
  exact ⟨s, _, hs, hw, htick hcarries, (hloop _ rfl).mpr (Or.inr (by decide))⟩

/-- The second tick takes a task for tick 6 out of the map, indexes the last wheel at 2, and fails.
-/
theorem refile_out_of_range :
    ∃ (s : TimerLoop) (w : TimingWheelTool Call),
      run step (initial { dt := 1, wheelSize := [2, 2] }) (refilingRun 6) = some s ∧
      s.exec.timingWheelVec.getLast? = some w ∧
      s.exec.timingTaskMap.borrow.1 = [⟨6, ⟨0, 0⟩⟩] ∧
      s.exec.takeTick.map (fun _ => ()) = .error .outOfRange ∧
      w.refileIndex ⟨6, ⟨0, 0⟩⟩ = 2 ∧ drainedSlot [2] 2 (⟨6, ⟨0, 0⟩⟩ : Entry) = 1 ∧
      (w.drained 0).refile [⟨6, ⟨0, 0⟩⟩] = .error .outOfRange := by
  have h : ((run step (initial { dt := 1, wheelSize := [2, 2] }) (refilingRun 6)).map
        fun s => (s.exec.timingWheelVec.getLast?, s.exec.timingTaskMap.borrow.1,
          s.exec.takeTick.map fun _ => ())) =
      some (some ⟨1, 4, [[], []]⟩, [⟨6, ⟨0, 0⟩⟩], .error .outOfRange) := by
    decide +kernel
  obtain ⟨s, hs, hval⟩ := Option.map_eq_some_iff.mp h
  simp only [Prod.mk.injEq] at hval
  obtain ⟨hw, hx, hfault⟩ := hval
  exact ⟨s, _, hs, hw, hx, hfault, by decide, by decide, rfl⟩

end TimerLoop

end Ados.TimeWheel
