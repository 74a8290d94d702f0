import Ados.TimeWheel.CallOrder

/-!
# Timers of the first wheel, through the whole loop

A task whose tick is less than a turn of the first wheel ahead is filed in the slot of its tick, and
whatever happens until then the loop takes it from there. The slot comes round at the task's own
tick if the wheel has not yet been ticked for it; if it has, because the call was made while the
tasks of that tick were running, the slot comes round a turn later.

## Main definitions

* `TimerLoop.dueTick`: the tick at which the slot of a near task comes round
* `TimerLoop.Tracked`: where a task of the first wheel can be, given that tick

## Main results

* `TimerLoop.near_horizon_exact`: a call between ticks is run once, at its tick, in the order of the
  calls
* `TimerLoop.window_exact_iff`: a call in the window of a tick is run at the first possible tick
  exactly if its tick is a later one, or the wheel has one slot
-/

namespace Ados.TimeWheel

open Transition

namespace TimerLoop

variable {options : Options} {s s' u : TimerLoop} {es : List Act} {w₀ d n : ℕ} {x : Entry}

/-- The tick at which the slot of a task with tick `n` comes round next. -/
def dueTick (s : TimerLoop) (w₀ n : ℕ) : ℕ := if s.ticks ≤ n then n else n + w₀

/-- Where the task `x` can be, if its slot comes round at the tick `d`: in that slot, among the
tasks taken at the tick `d`, or among the tasks run at the tick `d`; the first as long as the wheels
have not been cleared. -/
structure Tracked (w₀ d : ℕ) (x : Entry) (s : TimerLoop) : Prop where
  slot : ∀ p, InSlot s.exec.timingWheelVec 0 p x → d % w₀ = p ∧ s.ticks ≤ d ∧ d < s.ticks + w₀
  map : s.exec.timingWheelVec.length = 1 → ∀ k, ¬ InMap s.exec.timingTaskMap k x
  rest : x ∈ s.pc.rest → s.exec.currentTickCount = d
  ran : ∀ r ∈ s.ran, r.entry = x → r.tick = d
  somewhere : (∃ r ∈ s.ran, r.entry = x) ∨ x ∈ s.pc.rest ∨
    (∃ p, InSlot s.exec.timingWheelVec 0 p x) ∨
    s.exec.timingWheelVec = [] ∧ s.exec.currentTickCount ≤ d
  only : ∀ y ∈ s.known, y.task.id = x.task.id → y = x
  id_lt : x.task.id < s.calls

/-- No later call has the number of the task. -/
theorem Tracked.only_effect (h : Tracked w₀ d x s) (he : Effect s s') :
    ∀ y ∈ s'.known, y.task.id = x.task.id → y = x := by
  intro y hy hid
  rcases he.known with ⟨hle, -⟩ | ⟨z, hz, hknown, -⟩
  · exact h.only y (Multiset.mem_of_le hle hy) hid
  · rw [hknown] at hy
    rcases Multiset.mem_add.mp hy with hy | hy
    · exact h.only y hy hid
    · rw [Multiset.mem_singleton.mp hy, hz] at hid
      exact absurd hid.symm h.id_lt.ne

/-- A tick takes the task if it is due, and otherwise leaves it in its slot. -/
theorem Tracked.taken (hv : ValidSizes options.wheelSize) (hw : options.wheelSize[0]? = some w₀)
    (hs : Sound options s) (h : Tracked w₀ d x s) {taskList : TaskList Call}
    {exec : TimeWheelExecutor Call} (hpc : s.pc = .lock)
    (htake : s.exec.takeTick = .ok (taskList, exec)) :
    Tracked w₀ d x { s with exec := exec, pc := .running taskList } := by
  have hpos : 0 < w₀ := hv.pos _ (List.mem_of_getElem? hw)
  obtain ⟨hticks, hrest⟩ := ticks_of_takeTick htake
  have ha := hs.aligned_of_ne_nil (takeTick_ne_nil htake)
  have hcount : s.ticks = s.exec.currentTickCount :=
    ticks_of_not_window (by simp [hpc, Pc.InWindow])
  have hexec : exec.currentTickCount = s.exec.currentTickCount := by rw [hrest]
  have htaken : x ∈ taskList → s.ticks = d := by
    intro hx
    obtain ⟨hmod, hle, hlt⟩ := h.slot _ ((hticks.mem_taskList_iff ha hw).mp hx)
    exact Nat.le_antisymm hle (Nat.ModEq.le_of_lt_add hmod hlt)
  -- any other stays: the map, which might bring one in, does not hold the task
  have hslot : ∀ p, InSlot exec.timingWheelVec 0 p x ↔
      InSlot s.exec.timingWheelVec 0 p x ∧ s.ticks % w₀ ≠ p := by
    intro p
    rw [hticks.inFirst ha hw hpos]
    apply or_iff_left
    rintro ⟨hone, -, hmap, -⟩
    exact h.map (by rw [ha.length, hone]; rfl) _ hmap
  refine ⟨?_, ?_, ?_, h.ran, ?_, h.only_effect (.taken hpc htake), h.id_lt⟩
  · intro p hp
    obtain ⟨hp, hne⟩ := (hslot p).mp hp
    obtain ⟨rfl, hle, hlt⟩ := h.slot p hp
    rw [ticks_taken hpc htake]
    refine ⟨rfl, ?_, by omega⟩
    rcases Nat.lt_or_eq_of_le hle with hlt | heq
    · exact hlt
    · exact absurd (congrArg (· % w₀) heq) hne
  · intro hlen k hk
    exact h.map (hticks.length ▸ hlen) k (hticks.inMap.mp hk).1
  · intro hx
    rw [← htaken hx, hcount, ← hexec]
  · rcases h.somewhere with hran | hx | ⟨p, hp⟩ | ⟨hnil, -⟩
    · exact Or.inl hran
    · simp [hpc, Pc.rest] at hx
    · by_cases hcursor : s.ticks % w₀ = p
      · exact Or.inr (Or.inl ((hticks.mem_taskList_iff ha hw).mpr (hcursor ▸ hp)))
      · exact Or.inr (Or.inr (Or.inl ⟨p, (hslot p).mpr ⟨hp, hcursor⟩⟩))
    · exact absurd hnil (takeTick_ne_nil htake)

/-- The list of the tick is run task by task. -/
theorem Tracked.begun (hv : ValidSizes options.wheelSize) (hs : Sound options s)
    (h : Tracked w₀ d x s) {e : Entry} {rest : List Entry} (hpc : s.pc = .running (e :: rest)) :
    Tracked w₀ d x { s with
      ran := s.ran ++ [⟨s.exec.currentTickCount, s.lastLoopTimePoint, e⟩]
      pc := .body rest } := by
  have hwindow : s.pc.InWindow := by simp [hpc, Pc.InWindow]
  have hrest : ∀ y, y ∈ s.pc.rest ↔ y = e ∨ y ∈ rest := by simp [hpc, Pc.rest]
  refine ⟨?_, h.map, ?_, ?_, ?_, h.only_effect (.begins hpc), h.id_lt⟩
  · rw [ticks_begins hpc]; exact h.slot
  · intro hx
    exact h.rest ((hrest x).mpr (Or.inr hx))
  · intro r hr hx
    rcases List.mem_append.mp hr with hr | hr
    · exact h.ran r hr hx
    · obtain rfl := List.mem_singleton.mp hr
      exact h.rest ((hrest x).mpr (Or.inl hx.symm))
  · rcases h.somewhere with ⟨r, hr, hx⟩ | hx | hslot | ⟨hnil, -⟩
    · exact Or.inl ⟨r, List.mem_append_left _ hr, hx⟩
    · rcases (hrest x).mp hx with rfl | hx
      · exact Or.inl ⟨_, List.mem_append_right _ (List.mem_singleton_self _), rfl⟩
      · exact Or.inr (Or.inl hx)
    · exact Or.inr (Or.inr (Or.inl hslot))
    · exact absurd hnil (hs.ne_nil_of_window hv hwindow)

/-- Another call leaves the task where it is. -/
theorem Tracked.appended (h : Tracked w₀ d x s) {tp : ℤ} {entry : Option Entry}
    {exec : TimeWheelExecutor Call}
    (hexec : s.exec.executeAt tp ⟨s.calls, s.exec.currentTickCount⟩ = .ok (entry, exec)) :
    Tracked w₀ d x { s with exec := exec, calls := s.calls + 1 } := by
  have honly := h.only_effect (.executeAt hexec)
  have hcount : exec.currentTickCount = s.exec.currentTickCount := by rw [executeAt_rest hexec]
  rcases executeAt_appends hexec with ⟨-, -, rfl⟩ | ⟨-, -, -, place, happends⟩
  · exact ⟨h.slot, h.map, h.rest, h.ran, h.somewhere, honly, Nat.lt_succ_of_lt h.id_lt⟩
  · -- the new task is another one: its call has a number of its own
    have hne : ∀ y : Entry, y.task.id = s.calls → x ≠ y := by
      rintro y hy rfl
      exact absurd hy h.id_lt.ne
    have hslot : ∀ p, InSlot exec.timingWheelVec 0 p x ↔ InSlot s.exec.timingWheelVec 0 p x := by
      intro p
      rw [put_inSlot happends.filed]
      exact or_iff_left fun hx => hne _ rfl hx.2
    have hmap : ∀ k, InMap exec.timingTaskMap k x ↔ InMap s.exec.timingTaskMap k x := by
      intro k
      rw [put_inMap happends.filed]
      exact or_iff_left fun hx => hne _ rfl hx.2
    have hlen : exec.timingWheelVec.length = s.exec.timingWheelVec.length := by
      simpa using congrArg List.length (put_digits happends.filed).1
    refine ⟨?_, ?_, ?_, h.ran, ?_, honly, Nat.lt_succ_of_lt h.id_lt⟩
    · intro p hp
      rw [ticks_executeAt hexec]
      exact h.slot p ((hslot p).mp hp)
    · intro hone k hk
      exact h.map (hlen ▸ hone) k ((hmap k).mp hk)
    · rw [hcount]; exact h.rest
    · rcases h.somewhere with hran | hx | ⟨p, hp⟩ | ⟨hnil, hle⟩
      · exact Or.inl hran
      · exact Or.inr (Or.inl hx)
      · exact Or.inr (Or.inr (Or.inl ⟨p, (hslot p).mpr hp⟩))
      · refine Or.inr (Or.inr (Or.inr ⟨?_, hcount ▸ hle⟩))
        exact List.length_eq_zero_iff.mp (hlen.trans (by simp [hnil]))

/-- One step keeps track of the task, also when `Shutdown` clears the wheels before its slot has
come round. -/
theorem Tracked.effect (hv : ValidSizes options.wheelSize) (hw : options.wheelSize[0]? = some w₀)
    (hs : Sound options s) (h : Tracked w₀ d x s) (he : Effect s s') : Tracked w₀ d x s' := by
  have honly := h.only_effect he
  cases he with
  | quiet hq =>
    refine ⟨?_, ?_, ?_, ?_, ?_, honly, ?_⟩
    · rw [hq.vec, hq.ticks]; exact h.slot
    · rw [hq.vec, hq.map]; exact h.map
    · rw [hq.rest, hq.count]; exact h.rest
    · rw [hq.ran]; exact h.ran
    · rw [hq.ran, hq.rest, hq.vec, hq.count]; exact h.somewhere
    · rw [hq.calls]; exact h.id_lt
  | taken hpc htake => exact h.taken hv hw hs hpc htake
  | count hpc =>
    have hwindow : s.pc.InWindow := by simp [hpc, Pc.InWindow]
    refine ⟨?_, h.map, fun hx => absurd hx (by simp [Pc.rest]), h.ran, ?_, honly, h.id_lt⟩
    · rw [ticks_count hpc]; exact h.slot
    · rcases h.somewhere with hran | hx | hslot | ⟨hnil, -⟩
      · exact Or.inl hran
      · simp [hpc, Pc.rest] at hx
      · exact Or.inr (Or.inr (Or.inl hslot))
      · exact absurd hnil (hs.ne_nil_of_window hv hwindow)
  | begins hpc => exact h.begun hv hs hpc
  | executeAt hexec => exact h.appended hexec
  | join hpc =>
    obtain ⟨hwindow, hrest⟩ := not_window_of_join hpc
    refine ⟨fun p hp => absurd hp (by simp [InSlot]), fun hone => absurd hone (by simp),
      fun hx => absurd hx (by simp [Pc.rest]), h.ran, ?_, honly, h.id_lt⟩
    rcases h.somewhere with hran | hx | ⟨p, hp⟩ | ⟨-, hle⟩
    · exact Or.inl hran
    · simp [hrest] at hx
    · have hle := (h.slot p hp).2.1
      rw [ticks_of_not_window hwindow] at hle
      exact Or.inr (Or.inr (Or.inr ⟨rfl, hle⟩))
    · exact Or.inr (Or.inr (Or.inr ⟨rfl, hle⟩))

/-- Past its tick, a tracked task has been run, once and at that tick. -/
theorem Tracked.ran_of_lt (h : Tracked w₀ d x s) (hacc : Accounted s)
    (hpast : d < s.exec.currentTickCount) :
    ∃ r, s.ran.filter (fun q => q.entry.task.id = x.task.id) = [r] ∧ r ∈ s.ran ∧ r.entry = x ∧
      r.tick = d := by
  rcases h.somewhere with ⟨r, hr, rfl⟩ | hx | ⟨p, hp⟩ | ⟨-, hle⟩
  · exact ⟨r, hacc.filter_ran hr, hr, rfl, h.ran r hr rfl⟩
  · exact absurd (h.rest hx) (by omega)
  · have hle := (h.slot p hp).2.1
    unfold ticks at hle
    omega
  · omega

/-! ## A near call -/

theorem executeAt_near {exec exec' : TimeWheelExecutor Call} {tp : ℤ} {task : Call}
    {r : Option Entry} (hw : exec.options.wheelSize[0]? = some w₀)
    (hle : exec.currentTickCount ≤ exec.virtualTp tp / exec.dtCount)
    (hlt : exec.virtualTp tp / exec.dtCount < exec.currentTickCount + w₀)
    (h : exec.executeAt tp task = .ok (r, exec')) :
    r = some ⟨exec.virtualTp tp / exec.dtCount, task⟩ ∧
      put exec.timingWheelVec exec.timingTaskMap
        (.slot 0 (exec.virtualTp tp / exec.dtCount % w₀)) ⟨exec.virtualTp tp / exec.dtCount, task⟩ =
          .ok (exec'.timingWheelVec, exec'.timingTaskMap) := by
  have hvirtual : exec.currentTickCount * exec.dtCount ≤ exec.virtualTp tp :=
    le_trans (Nat.mul_le_mul_right _ hle) (Nat.div_mul_le_self _ _)
  have hc := lt_of_le_of_lt hvirtual (exec.virtualTp_lt tp)
  rcases executeAt_cases hc h with ⟨hlate, -, -⟩ | ⟨-, -, hr, place, hf⟩
  · omega
  · obtain rfl := hf.near hw hlt
    exact ⟨hr, hf.filed⟩

/-- A near call files its task to be run when its slot comes round. -/
theorem tracked_of_near (hv : ValidSizes options.wheelSize)
    (hw : options.wheelSize[0]? = some w₀) (hs : Sound options s) (hacc : Accounted s) {tp : ℤ}
    (hn : s.exec.virtualTp tp / s.exec.dtCount = n) (hle : s.exec.currentTickCount ≤ n)
    (hlt : n < s.exec.currentTickCount + w₀) (hcall : step s (.executeAt tp) = some u) :
    Tracked w₀ (s.dueTick w₀ n) ⟨n, s.calls, s.exec.currentTickCount⟩ u := by
  have hpos : 0 < w₀ := hv.pos _ (List.mem_of_getElem? hw)
  obtain ⟨⟨entry, exec⟩, hexec, rfl⟩ := Timer.toOption_eq_some.mp hcall
  have hnear := executeAt_near (by rw [hs.options_eq]; exact hw) (hn ▸ hle) (hn ▸ hlt) hexec
  rw [hn] at hnear
  obtain ⟨-, hput⟩ := hnear
  have hfresh : ∀ y ∈ s.known, y ≠ ⟨n, s.calls, s.exec.currentTickCount⟩ := by
    rintro y hy rfl
    exact absurd (hacc.id_lt _ hy) (Nat.lt_irrefl _)
  have hheld : ∀ y ∈ held s.exec.timingWheelVec s.exec.timingTaskMap,
      y ≠ ⟨n, s.calls, s.exec.currentTickCount⟩ := fun y hy =>
    hfresh y (Multiset.mem_add.mpr (Or.inr hy))
  have hdue : s.dueTick w₀ n % w₀ = n % w₀ ∧ s.ticks ≤ s.dueTick w₀ n ∧
      s.dueTick w₀ n < s.ticks + w₀ := by
    have hge : s.exec.currentTickCount ≤ s.ticks := Nat.le_add_right _ _
    have hle' : s.ticks ≤ s.exec.currentTickCount + 1 := by unfold ticks; split <;> omega
    unfold dueTick
    split
    · exact ⟨rfl, ‹_›, by omega⟩
    · exact ⟨Nat.add_mod_right _ _, by omega, by omega⟩
  refine ⟨?_, ?_, ?_, ?_, ?_, ?_, Nat.lt_succ_self _⟩
  · intro p hp
    rw [ticks_executeAt hexec]
    rcases (put_inSlot hput).mp hp with hp | ⟨hp, -⟩
    · exact absurd rfl (hheld _ (mem_held.mpr (Or.inl ⟨0, p, hp⟩)))
    · cases hp
      exact hdue
  · intro hone k hk
    rcases (put_inMap hput).mp hk with hk | ⟨hk, -⟩
    · exact absurd rfl (hheld _ (mem_held.mpr (Or.inr ⟨k, hk⟩)))
    · exact absurd hk (by simp)
  · intro hx
    exact absurd rfl (hfresh _ (Multiset.mem_add.mpr (Or.inl (Multiset.mem_add.mpr (Or.inr hx)))))
  · intro r hr hx
    have hmem : r.entry ∈ s.known := Multiset.mem_add.mpr (Or.inl (Multiset.mem_add.mpr
      (Or.inl (List.mem_map_of_mem hr))))
    exact absurd hx (hfresh _ hmem)
  · exact Or.inr (Or.inr (Or.inl ⟨_, (put_inSlot hput).mpr (Or.inr ⟨rfl, rfl⟩)⟩))
  · intro y hy hid
    have hknown : known { s with exec := exec, calls := s.calls + 1 } =
        s.known + {⟨n, s.calls, s.exec.currentTickCount⟩} := by
      simp only [known, held_put hput, add_assoc]
    rw [hknown] at hy
    rcases Multiset.mem_add.mp hy with hy | hy
    · exact absurd hid (hacc.id_lt y hy).ne
    · exact Multiset.mem_singleton.mp hy

/-- The tick of a deadline at or after the start: no subtraction wraps around. -/
theorem virtualTp_div {exec : TimeWheelExecutor Call} {tp : ℤ} (hdt : 1 ≤ options.dt)
    (hcount : exec.dtCount = options.dtCount)
    (hn : (n : ℤ) = ((getTimestampNs tp : ℤ) - exec.startTimePoint) / options.dt) :
    exec.startTimePoint ≤ getTimestampNs tp ∧
      (exec.virtualTp tp : ℤ) = getTimestampNs tp - exec.startTimePoint ∧
      exec.virtualTp tp / exec.dtCount = n := by
  have hstart : exec.startTimePoint ≤ getTimestampNs tp := by
    by_contra hlt
    have hneg := Int.ediv_neg_of_neg_of_pos (a := (getTimestampNs tp : ℤ) - exec.startTimePoint)
      (b := options.dt) (by omega) (by omega)
    omega
  have hvirtual : (exec.virtualTp tp : ℤ) = getTimestampNs tp - exec.startTimePoint := by
    rw [TimeWheelExecutor.virtualTp_of_le hstart, Nat.cast_sub hstart]
  have hcast : (exec.dtCount : ℤ) = options.dt := by
    rw [hcount, Options.dtCount_cast (by omega)]
  refine ⟨hstart, hvirtual, ?_⟩
  rw [← hvirtual, ← hcast] at hn
  exact_mod_cast hn.symm

section Continuation

variable {fs : List Act} {s₁ : TimerLoop} {tp : ℤ}

/-- In every continuation past its tick, a near call has been run once, when its slot came round. -/
theorem ran_at_due (hv : ValidSizes options.wheelSize) (hw : options.wheelSize[0]? = some w₀)
    (hr : run step (TimerLoop.initial options) es = some s)
    (hn : s.exec.virtualTp tp / s.exec.dtCount = n) (hle : s.exec.currentTickCount ≤ n)
    (hlt : n < s.exec.currentTickCount + w₀) (hcall : step s (.executeAt tp) = some s₁)
    (hcont : run step s₁ fs = some u) (hlog : .logThrows ∉ es ++ fs) :
    Accounted u ∧ Tracked w₀ (s.dueTick w₀ n) ⟨n, s.calls, s.exec.currentTickCount⟩ u := by
  obtain ⟨hes, hfs⟩ : Act.logThrows ∉ es ∧ Act.logThrows ∉ fs := by simpa using hlog
  have hs := sound_run hv hr hes
  have hacc := accounted_run hr hes
  have htracked := tracked_of_near hv hw hs hacc hn hle hlt hcall
  have hlog₁ : Act.logThrows ∉ es ++ [.executeAt tp] := by simpa using hes
  have hr₁ := run_snoc_eq_some.mpr ⟨s, hr, hcall⟩
  refine (run_effects (P := fun s => Sound options s ∧ Accounted s ∧
    Tracked w₀ _ ⟨n, _, _⟩ s) ?_ ⟨sound_run hv hr₁ hlog₁, accounted_run hr₁ hlog₁, htracked⟩
    hcont hfs).2
  rintro s s' ⟨hs, hacc, h⟩ he
  exact ⟨hs.effect hv he, hacc.effect he, h.effect hv hw hs he⟩

/-- **Near-horizon timers are exact.** A call of `ExecuteAt` between two ticks, with the tick `t`
less than a turn of the first wheel ahead, has its task run exactly once by every continuation past
that tick, in the tick `t`: not before the deadline, and less than one `dt` after it. Of two such
tasks of one tick, the one called first is run first. -/
theorem near_horizon_exact (hv : ValidSizes options.wheelSize)
    (hw : options.wheelSize[0]? = some w₀) (hdt : 1 ≤ options.dt)
    (hr : run step (TimerLoop.initial options) es = some s) (hbetween : s.pc.BetweenTicks)
    {t : ℕ} (ht : (t : ℤ) = ((getTimestampNs tp : ℤ) - s.exec.startTimePoint) / options.dt)
    (hle : s.exec.currentTickCount ≤ t) (hlt : t < s.exec.currentTickCount + w₀)
    (hcall : step s (.executeAt tp) = some s₁) (hcont : run step s₁ fs = some u)
    (hlog : .logThrows ∉ es ++ fs) (hpast : t < u.exec.currentTickCount) :
    (∃ r, u.ran.filter (fun q => q.entry.task.id = s.calls) = [r] ∧ r.tick = t ∧
      r.entry = ⟨t, s.calls, s.exec.currentTickCount⟩ ∧
      (.shutdown ∉ es ++ fs → ∃ now, IsTimePoint now ∧
        s.exec.startTimePoint = getTimestampNs now ∧
        r.wakeUp = now + (t + 1) * options.dt)) ∧
    (getTimestampNs tp : ℤ) < s.exec.startTimePoint + (t + 1) * options.dt ∧
    s.exec.startTimePoint + (t + 1) * options.dt ≤ getTimestampNs tp + options.dt ∧
    ∀ r₁ ∈ u.ran, ∀ r₂ ∈ u.ran, r₁.tick = r₂.tick → Near w₀ r₁.entry → Near w₀ r₂.entry →
      r₁.entry.task.id < r₂.entry.task.id → [r₁, r₂].Sublist u.ran := by
  have hlogs := hlog
  rw [List.mem_append, not_or] at hlogs
  have hs := sound_run hv hr hlogs.1
  obtain ⟨hstart, hvirtual, hn⟩ := virtualTp_div hdt hs.dtCount_eq ht
  have hwindow : ¬ s.pc.InWindow := by
    cases hpc : s.pc <;> simp [hpc, Pc.BetweenTicks, Pc.InWindow] at hbetween ⊢
  have hdue : s.dueTick w₀ t = t := by
    rw [dueTick, ticks_of_not_window hwindow, if_pos hle]
  obtain ⟨hacc, htracked⟩ := ran_at_due hv hw hr hn hle hlt hcall hcont hlog
  rw [hdue] at htracked
  refine ⟨?_, ?_, ?_, ?_⟩
  · obtain ⟨r, hfilter, hmem, hentry, htick⟩ := htracked.ran_of_lt hacc hpast
    refine ⟨r, hfilter, htick, hentry, fun hshut => ?_⟩
    rw [List.mem_append, not_or] at hshut
    rcases clocked_run hv hr hlogs.1 hshut.1 with hunstarted | ⟨now, hclock⟩
    · rcases hunstarted.pc with hpc | hpc <;> simp [hpc, Pc.BetweenTicks] at hbetween
    · have hcont' : run step s (.executeAt tp :: fs) = some u :=
        run_cons_eq_some.mpr ⟨s₁, hcall, hcont⟩
      have hu := hclock.run hv hs hcont' (by simpa using hlogs.2) (by simpa using hshut.2)
      exact ⟨now, hclock.point, hclock.start, htick ▸ hu.ran r hmem⟩
  · have hdiv := Int.lt_ediv_add_one_mul_self ((getTimestampNs tp : ℤ) - s.exec.startTimePoint)
      (show 0 < options.dt by omega)
    rw [← ht] at hdiv
    omega
  · have hdiv := Int.ediv_mul_le ((getTimestampNs tp : ℤ) - s.exec.startTimePoint)
      (show options.dt ≠ 0 by omega)
    rw [← ht] at hdiv
    rw [add_one_mul]
    omega
  · intro r₁ h₁ r₂ h₂
    have hall : run step (TimerLoop.initial options) (es ++ .executeAt tp :: fs) = some u :=
      run_append_eq_some.mpr ⟨s, hr, run_cons_eq_some.mpr ⟨s₁, hcall, hcont⟩⟩
    exact (ordered_run hv hw hall (by simpa using hlog)).sublist h₁ h₂

/-- On a wheel of four slots, a task filed at the start for tick `0`. -/
theorem near_horizon_exact_first :
    ∃ s s₁ u : TimerLoop,
      run step (TimerLoop.initial { dt := 1, wheelSize := [4] }) [.start, .clock 0] = some s ∧
      step s (.executeAt 0) = some s₁ ∧
      run step s₁ [.loop, .loop, .loop, .loop, .loop, .taskThrows, .logReturns, .loop] = some u ∧
      ∃ r, u.ran.filter (fun q => q.entry.task.id = s.calls) = [r] ∧ r.tick = 0 := by
  have h : (run step (TimerLoop.initial { dt := 1, wheelSize := [4] }) [.start, .clock 0]).bind
      (fun s => (step s (.executeAt 0)).bind fun s₁ =>
        (run step s₁ [.loop, .loop, .loop, .loop, .loop, .taskThrows, .logReturns, .loop]).map
          fun u => (s.pc, s.exec.startTimePoint, s.exec.currentTickCount,
            u.exec.currentTickCount)) = some (.head, 0, 0, 1) := by
    decide +kernel
  obtain ⟨s, hr, h⟩ := Option.bind_eq_some_iff.mp h
  obtain ⟨s₁, hcall, h⟩ := Option.bind_eq_some_iff.mp h
  obtain ⟨u, hcont, h⟩ := Option.map_eq_some_iff.mp h
  simp only [Prod.mk.injEq] at h
  obtain ⟨hpc, hstart, hc, hu⟩ := h
  have hv : ValidSizes [4] := .single (by decide)
  obtain ⟨r, hfilter, htick, -⟩ := (near_horizon_exact (t := 0) hv
    (show [4][0]? = some 4 from rfl) (by decide) hr
    (by rw [hpc]; trivial) (by rw [hstart]; decide) (by rw [hc]) (by rw [hc]; decide) hcall hcont
    (by decide) (by rw [hu]; decide)).1
  exact ⟨s, s₁, u, hr, hcall, hcont, r, hfilter, htick⟩

/-- **A call in the window of a tick waits a turn if its tick is the one being run.** While the
tasks of the tick `c` run, the wheel stands at `c + 1` and the counter at `c`. A call made then,
with the tick `t` less than a turn ahead, has its task run at the first possible tick `max t (c +
1)` if and only if `t` is not `c` or the first wheel has one slot; otherwise it is run at `c + w_0`.
No logging call of the run throws: after one that does, the thread ends or a tick is left uncounted,
and nothing is said of the tick at which such a task is run. -/
theorem window_exact_iff (hv : ValidSizes options.wheelSize)
    (hw : options.wheelSize[0]? = some w₀)
    (hr : run step (TimerLoop.initial options) es = some s) (hwindow : s.pc.InWindow)
    {t : ℕ} (ht : s.exec.virtualTp tp / s.exec.dtCount = t)
    (hle : s.exec.currentTickCount ≤ t) (hlt : t < s.exec.currentTickCount + w₀)
    (hcall : step s (.executeAt tp) = some s₁) (hcont : run step s₁ fs = some u)
    (hlog : .logThrows ∉ es ++ fs)
    (hpast : max t (s.exec.currentTickCount + 1) < u.exec.currentTickCount) :
    ((∃ r ∈ u.ran, r.entry.task.id = s.calls ∧ r.tick = max t (s.exec.currentTickCount + 1)) ↔
      s.exec.currentTickCount < t ∨ w₀ = 1) ∧
    (¬ (s.exec.currentTickCount < t ∨ w₀ = 1) → ∀ r ∈ u.ran, r.entry.task.id = s.calls →
      r.tick = s.exec.currentTickCount + w₀) := by
  obtain ⟨hacc, htracked⟩ := ran_at_due hv hw hr ht hle hlt hcall hcont hlog
  have hticks : s.ticks = s.exec.currentTickCount + 1 := by simp [ticks, hwindow]
  have hdue : s.dueTick w₀ t = if s.exec.currentTickCount < t then t else t + w₀ := by
    simp only [dueTick, hticks, Nat.succ_le_iff]
  rw [hdue] at htracked
  have htick : ∀ r ∈ u.ran, r.entry.task.id = s.calls →
      r.tick = if s.exec.currentTickCount < t then t else t + w₀ := by
    intro r hr hid
    have hmem : r.entry ∈ u.known := Multiset.mem_add.mpr (Or.inl (Multiset.mem_add.mpr
      (Or.inl (List.mem_map_of_mem hr))))
    exact htracked.ran r hr (htracked.only _ hmem hid)
  refine ⟨⟨?_, ?_⟩, ?_⟩
  · rintro ⟨r, hr, hid, hmax⟩
    have hd := htick r hr hid
    split at hd <;> omega
  · intro h
    have hmax : (if s.exec.currentTickCount < t then t else t + w₀) =
        max t (s.exec.currentTickCount + 1) := by
      split <;> omega
    obtain ⟨r, -, hr, hentry, hd⟩ := htracked.ran_of_lt hacc (hmax ▸ hpast)
    exact ⟨r, hr, by rw [hentry], hd.trans hmax⟩
  · intro hnot r hr hid
    have hd := htick r hr hid
    split at hd <;> omega

/-- The run up to the body of the task of tick `0`, on a wheel of four slots. -/
def windowRun : List Act :=
  [.start, .clock 0, .executeAt 0, .loop, .loop, .loop, .loop, .loop]

/-- On a wheel of four slots, a task of tick `0` that files another task for tick `0`: when the tick
`1` is past, that task has not been run. -/
theorem window_delayed :
    ∃ s s₁ u : TimerLoop,
      run step (TimerLoop.initial { dt := 1, wheelSize := [4] }) windowRun = some s ∧
      s.pc.InWindow ∧ s.exec.currentTickCount = 0 ∧ s.exec.virtualTp 0 / 1 = 0 ∧
      step s (.executeAt 0) = some s₁ ∧
      run step s₁ [.taskReturns, .loop, .loop, .loop, .loop, .loop] = some u ∧
      max 0 (0 + 1) < u.exec.currentTickCount ∧
      ¬ ∃ r ∈ u.ran, r.entry.task.id = s.calls ∧ r.tick = max 0 (0 + 1) := by
  have h : (run step (TimerLoop.initial { dt := 1, wheelSize := [4] }) windowRun).bind
      (fun s => (step s (.executeAt 0)).bind fun s₁ =>
        (run step s₁ [.taskReturns, .loop, .loop, .loop, .loop, .loop]).map fun u =>
          ((s.pc, s.exec.currentTickCount, s.exec.virtualTp 0),
            (s.calls, u.exec.currentTickCount, u.ran))) =
      some ((.body [], 0, 0), (1, 2, [⟨0, 1, 0, 0, 0⟩])) := by
    decide +kernel
  obtain ⟨s, hr, h⟩ := Option.bind_eq_some_iff.mp h
  obtain ⟨s₁, hcall, h⟩ := Option.bind_eq_some_iff.mp h
  obtain ⟨u, hcont, h⟩ := Option.map_eq_some_iff.mp h
  simp only [Prod.mk.injEq] at h
  obtain ⟨⟨hpc, hc, hvirtual⟩, hcalls, hu, hran⟩ := h
  refine ⟨s, s₁, u, hr, by rw [hpc]; trivial, hc, by rw [hvirtual], hcall, hcont,
    by rw [hu]; decide, ?_⟩
  rw [hran, hcalls]
  decide

/-- In the same state, a task filed for tick `1`. -/
theorem window_exact_iff_next :
    ∃ s s₁ u : TimerLoop,
      run step (TimerLoop.initial { dt := 1, wheelSize := [4] }) windowRun = some s ∧
      step s (.executeAt 1) = some s₁ ∧
      run step s₁ [.taskReturns, .loop, .loop, .loop, .loop, .loop, .loop, .taskReturns, .loop] =
        some u ∧
      ∃ r ∈ u.ran, r.entry.task.id = s.calls ∧ r.tick = 1 := by
  have h : (run step (TimerLoop.initial { dt := 1, wheelSize := [4] }) windowRun).bind
      (fun s => (step s (.executeAt 1)).bind fun s₁ =>
        (run step s₁ [.taskReturns, .loop, .loop, .loop, .loop, .loop, .loop, .taskReturns,
          .loop]).map fun u => (s.pc, s.exec.virtualTp 1 / s.exec.dtCount,
            s.exec.currentTickCount, u.exec.currentTickCount)) = some (.body [], 1, 0, 2) := by
    decide +kernel
  obtain ⟨s, hr, h⟩ := Option.bind_eq_some_iff.mp h
  obtain ⟨s₁, hcall, h⟩ := Option.bind_eq_some_iff.mp h
  obtain ⟨u, hcont, h⟩ := Option.map_eq_some_iff.mp h
  simp only [Prod.mk.injEq] at h
  obtain ⟨hpc, htick, hc, hu⟩ := h
  have hv : ValidSizes [4] := .single (by decide)
  have hiff := (window_exact_iff hv (show [4][0]? = some 4 from rfl) hr (by rw [hpc]; trivial) htick
    (by rw [hc]; decide) (by rw [hc]; decide) hcall hcont (by decide) (by rw [hc, hu]; decide)).1
  obtain ⟨r, hr', hid, hmax⟩ := hiff.mpr (by rw [hc]; decide)
  rw [hc] at hmax
  exact ⟨s, s₁, u, hr, hcall, hcont, r, hr', hid, hmax⟩

end Continuation

end TimerLoop

end Ados.TimeWheel
