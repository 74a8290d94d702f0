import Ados.TimeWheel.LoopInvariant

/-!
# The order of the near tasks

A task whose call files it less than a turn of the first wheel ahead is appended to its slot. What
the map brings into a slot later is appended as well, but those tasks are not near: so the near
tasks of a slot, and of a tick, are in the order of their calls.

## Main definitions

* `Near w₀ e`: the tick of `e` was less than `w₀` ahead when it was filed
* `Before w₀ x y`: if both are near, the call of `x` came first
* `TimerLoop.Ordered`: the near tasks of every slot and of every tick are in the order of their
  calls

## Main results

* `TimerLoop.ordered_run`: every run keeps the order
-/

namespace Ados.TimeWheel

open Transition

/-- The tick of the task was less than `w₀` ahead when it was filed. -/
def Near (w₀ : ℕ) (e : Entry) : Prop :=
  e.task.madeAt ≤ e.tickCount ∧ e.tickCount < e.task.madeAt + w₀

/-- Of two near tasks, the call of the first came first. -/
def Before (w₀ : ℕ) (x y : Entry) : Prop := Near w₀ x → Near w₀ y → x.task.id < y.task.id

section Slots

variable {Task : Type} {vec vec' : List (TimingWheelTool Task)} {m m' : TimingTaskMap Task}
  {taskList : TaskList Task} {w w' : TimingWheelTool Task} {b : TaskList Task}

theorem TimingWheelTool.mem_drained {pos : ℕ} (h : b ∈ (w.drained pos).wheel) :
    b ∈ w.wheel ∨ b = [] :=
  List.mem_or_eq_of_mem_set h

/-- A list of the first wheel after a tick begins with one from before the tick, or with none; what
follows comes from the map, and only if there is one wheel. -/
theorem Ticks.firstLists (h : Ticks vec m taskList vec' m') (hw' : vec'[0]? = some w')
    (hb : b ∈ w'.wheel) :
    ∃ w b₀ r, vec[0]? = some w ∧ (b₀ ∈ w.wheel ∨ b₀ = []) ∧ b = b₀ ++ r ∧
      ∀ y ∈ r, vec.length = 1 ∧ InMap m m.pos y := by
  cases h with
  | @stay w above m taskList hl hstay =>
    obtain rfl : w.drained (w.currentPos + 1) = w' := by simpa using hw'
    exact ⟨w, b, [], rfl, TimingWheelTool.mem_drained hb, by simp, by simp⟩
  | @last w w'' m taskList hl hwrap hrefile =>
    obtain rfl : w'' = w' := by simpa using hw'
    obtain ⟨-, -, -, hslot, -⟩ := TimingWheelTool.refile_spec hrefile
    obtain ⟨p, hp⟩ := List.mem_iff_getElem?.mp hb
    rw [hslot] at hp
    obtain ⟨b₀, hb₀, rfl⟩ := Option.map_eq_some_iff.mp hp
    refine ⟨w, b₀, _, rfl, TimingWheelTool.mem_drained (List.mem_of_getElem? hb₀), rfl, ?_⟩
    intro y hy
    exact ⟨rfl, mem_taken.mp (List.mem_filter.mp hy).1⟩
  | @cascade w above m taskList dropped above' m' hl hwrap hne hticks =>
    obtain rfl : w.drained 0 = w' := by simpa using hw'
    exact ⟨w, b, [], rfl, TimingWheelTool.mem_drained hb, by simp, by simp⟩

end Slots

namespace TimerLoop

variable {options : Options} {s s' u : TimerLoop} {es : List Act} {w₀ : ℕ}

/-- The near tasks of every slot of the first wheel, and of every tick, are in the order of their
calls. With one wheel, no near task is in the map. -/
structure Ordered (w₀ : ℕ) (s : TimerLoop) : Prop where
  slots : ∀ w, s.exec.timingWheelVec[0]? = some w → ∀ b ∈ w.wheel, b.Pairwise (Before w₀)
  map : s.exec.timingWheelVec.length = 1 → ∀ k y, InMap s.exec.timingTaskMap k y → ¬ Near w₀ y
  history : s.history.Pairwise fun a b => a.1 = b.1 → Before w₀ a.2 b.2
  ran_lt : ∀ r ∈ s.ran, r.tick < s.ticks

theorem Ordered.initial : Ordered w₀ (initial options) := by
  have hnone : ∀ y, y ∉ held (TimerLoop.initial options).exec.timingWheelVec
      (TimerLoop.initial options).exec.timingTaskMap := by
    simp [TimerLoop.initial, held_initialized]
  refine ⟨fun w hw b hb => ?_, fun _ k y hy => ?_, List.Pairwise.nil, by simp [TimerLoop.initial]⟩
  · obtain rfl : b = [] := by
      refine List.eq_nil_iff_forall_not_mem.mpr fun y hy => ?_
      obtain ⟨p, hp⟩ := List.mem_iff_getElem?.mp hb
      exact hnone y (mem_held.mpr (Or.inl ⟨0, p, w, b, hw, hp, hy⟩))
    exact List.Pairwise.nil
  · exact absurd (mem_held.mpr (Or.inr ⟨k, hy⟩)) (hnone y)

/-- With one wheel, what is filed in the map is not near. -/
theorem not_near_of_map {exec exec' : TimeWheelExecutor Call} {n key id : ℕ}
    (hw : exec.options.wheelSize[0]? = some w₀)
    (h : Appends exec n ⟨id, exec.currentTickCount⟩ (.map key) exec') :
    ¬ Near w₀ ⟨n, id, exec.currentTickCount⟩ := by
  rintro ⟨hle, hlt⟩
  obtain ⟨ws, hws⟩ := exists_eq_cons hw
  have hlocated := (h.files hle).located
  simp only at hle hlt
  rw [hws, locate, if_pos (by omega)] at hlocated
  exact absurd hlocated (by simp)

/-- Filing appends to a list whose near tasks were all called before. -/
theorem Ordered.put_slots (h : Ordered w₀ s) (hacc : Accounted s)
    {vec : List (TimingWheelTool Call)} {m : TimingTaskMap Call} {place : Place} {n : ℕ}
    (hput : put s.exec.timingWheelVec s.exec.timingTaskMap place
      ⟨n, s.calls, s.exec.currentTickCount⟩ = .ok (vec, m)) :
    ∀ w, vec[0]? = some w → ∀ b ∈ w.wheel, b.Pairwise (Before w₀) := by
  intro w' hw' b hb
  cases place with
  | map key =>
    rw [(put_map hput).1] at hw'
    exact h.slots w' hw' b hb
  | slot ii pos =>
    obtain ⟨-, w, l, hw, hl, rfl⟩ := put_slot hput
    cases ii with
    | succ ii =>
      rw [List.getElem?_set_ne (Nat.succ_ne_zero ii)] at hw'
      exact h.slots w' hw' b hb
    | zero =>
      rw [List.getElem?_set_self (List.getElem?_eq_some_iff.mp hw).1] at hw'
      cases hw'
      rcases List.mem_or_eq_of_mem_set hb with hb | rfl
      · exact h.slots w hw b hb
      · refine List.pairwise_append.mpr
          ⟨h.slots w hw l (List.mem_of_getElem? hl), List.pairwise_singleton _ _, ?_⟩
        intro x hx y hy _ _
        obtain rfl := List.mem_singleton.mp hy
        exact hacc.id_lt x (Multiset.mem_add.mpr
          (Or.inr (mem_held.mpr (Or.inl ⟨0, pos, w, l, hw, hl, hx⟩))))

/-- A tick takes one list of the first wheel, and may append to one of them what is not near. -/
theorem Ordered.taken (h : Ordered w₀ s) {taskList : TaskList Call} {exec : TimeWheelExecutor Call}
    (hpc : s.pc = .lock) (htake : s.exec.takeTick = .ok (taskList, exec)) :
    Ordered w₀ { s with exec := exec, pc := .running taskList } := by
  obtain ⟨hticks, hrest⟩ := ticks_of_takeTick htake
  have hexec : exec.currentTickCount = s.exec.currentTickCount := by rw [hrest]
  have hcount : s.ticks = s.exec.currentTickCount :=
    ticks_of_not_window (by simp [hpc, Pc.InWindow])
  refine ⟨?_, ?_, ?_, ?_⟩
  · intro w' hw' b hb
    obtain ⟨w, b₀, r, hw, hb₀, rfl, hr⟩ := hticks.firstLists hw' hb
    have hsorted : b₀.Pairwise (Before w₀) := by
      rcases hb₀ with hb₀ | rfl
      · exact h.slots w hw b₀ hb₀
      · exact List.Pairwise.nil
    have hfar : ∀ y ∈ r, ¬ Near w₀ y := by
      intro y hy
      exact h.map (hr y hy).1 _ y (hr y hy).2
    refine List.pairwise_append.mpr ⟨hsorted, ?_, ?_⟩
    · exact List.pairwise_of_forall_mem_list fun x hx y _ hnear _ => absurd hnear (hfar x hx)
    · intro x _ y hy _ hnear
      exact absurd hnear (hfar y hy)
  · intro hone k y hy
    exact h.map (hticks.length ▸ hone) k y (hticks.inMap.mp hy).1
  · obtain ⟨w, hw, hl⟩ := hticks.head
    have hsorted := h.slots w (by rwa [← List.head?_eq_getElem?]) _ (List.mem_of_getElem? hl)
    have hran := h.history
    simp only [TimerLoop.history, hpc, Pc.rest, List.map_nil, List.append_nil] at hran
    refine List.pairwise_append.mpr ⟨hran, ?_, ?_⟩
    · simpa [List.pairwise_map, Pc.rest] using hsorted
    · intro a ha b hb heq
      obtain ⟨r, hr, rfl⟩ := List.mem_map.mp ha
      obtain ⟨y, -, rfl⟩ := List.mem_map.mp hb
      have hlt := h.ran_lt r hr
      simp only [hexec] at heq
      omega
  · intro r hr
    rw [ticks_taken hpc htake]
    exact Nat.lt_succ_of_lt (h.ran_lt r hr)

/-- A call appends its task to one list, behind the near tasks called before. -/
theorem Ordered.appended (hw : options.wheelSize[0]? = some w₀) (hs : Sound options s)
    (hacc : Accounted s) (h : Ordered w₀ s) {tp : ℤ} {entry : Option Entry}
    {exec : TimeWheelExecutor Call}
    (hexec : s.exec.executeAt tp ⟨s.calls, s.exec.currentTickCount⟩ = .ok (entry, exec)) :
    Ordered w₀ { s with exec := exec, calls := s.calls + 1 } := by
  have hcount : exec.currentTickCount = s.exec.currentTickCount := by rw [executeAt_rest hexec]
  have hhistory : TimerLoop.history { s with exec := exec, calls := s.calls + 1 } = s.history := by
    simp only [TimerLoop.history, hcount]
  rcases executeAt_appends hexec with ⟨-, -, rfl⟩ | ⟨-, -, -, place, happends⟩
  · exact ⟨h.slots, h.map, h.history, h.ran_lt⟩
  · have hlen : exec.timingWheelVec.length = s.exec.timingWheelVec.length := by
      simpa using congrArg List.length (put_digits happends.filed).1
    refine ⟨h.put_slots hacc happends.filed, ?_, hhistory ▸ h.history, ?_⟩
    · intro hone k y hy
      rcases (put_inMap happends.filed).mp hy with hy | ⟨rfl, rfl⟩
      · exact h.map (hlen ▸ hone) k y hy
      · exact not_near_of_map (by rw [hs.options_eq]; exact hw) happends
    · rw [ticks_executeAt hexec]
      exact h.ran_lt

theorem Ordered.effect (hw : options.wheelSize[0]? = some w₀)
    (hs : Sound options s) (hacc : Accounted s) (h : Ordered w₀ s) (he : Effect s s') :
    Ordered w₀ s' := by
  cases he with
  | quiet hq =>
    refine ⟨?_, ?_, ?_, ?_⟩
    · rw [hq.vec]; exact h.slots
    · rw [hq.vec, hq.map]; exact h.map
    · rw [TimerLoop.history, hq.ran, hq.rest, hq.count]; exact h.history
    · rw [hq.ran, hq.ticks]; exact h.ran_lt
  | taken hpc htake => exact h.taken hpc htake
  | count hpc =>
    have hran := h.history
    simp only [TimerLoop.history, hpc, Pc.rest, List.map_nil] at hran
    exact ⟨h.slots, h.map, hran, by rw [ticks_count hpc]; exact h.ran_lt⟩
  | @begins e rest hpc =>
    refine ⟨h.slots, h.map, ?_, ?_⟩
    · have hran := h.history
      simpa [TimerLoop.history, hpc, Pc.rest] using hran
    · intro r hr
      rw [ticks_begins hpc]
      rcases List.mem_append.mp hr with hr | hr
      · exact h.ran_lt r hr
      · obtain rfl := List.mem_singleton.mp hr
        simp [ticks, hpc, Pc.InWindow]
  | executeAt hexec => exact h.appended hw hs hacc hexec
  | join hpc =>
    obtain ⟨hwindow, hrest⟩ := not_window_of_join hpc
    have hran := h.history
    have hlt := h.ran_lt
    simp only [TimerLoop.history, hrest, List.map_nil] at hran
    rw [ticks_of_not_window hwindow] at hlt
    exact ⟨fun w hw => absurd hw (by simp), fun hone => absurd hone (by simp), hran, hlt⟩

/-- Every run keeps the near tasks in the order of their calls. -/
theorem ordered_run (hv : ValidSizes options.wheelSize) (hw : options.wheelSize[0]? = some w₀)
    (hr : run step (TimerLoop.initial options) es = some s) (hlog : .logThrows ∉ es) :
    Ordered w₀ s := by
  refine (run_effects (P := fun s => Sound options s ∧ Accounted s ∧ Ordered w₀ s) ?_
    ⟨.initial hv, .initial, .initial⟩ hr hlog).2.2
  rintro s s' ⟨hs, hacc, h⟩ he
  exact ⟨hs.effect hv he, hacc.effect he, h.effect hw hs hacc he⟩

/-- Of two near tasks run by one tick, the one whose call came first was run first. -/
theorem Ordered.sublist (h : Ordered w₀ s) {r₁ r₂ : Ran} (h₁ : r₁ ∈ s.ran) (h₂ : r₂ ∈ s.ran)
    (htick : r₁.tick = r₂.tick) (hnear₁ : Near w₀ r₁.entry) (hnear₂ : Near w₀ r₂.entry)
    (hid : r₁.entry.task.id < r₂.entry.task.id) : [r₁, r₂].Sublist s.ran := by
  have hran := List.pairwise_map.mp (List.pairwise_append.mp h.history).1
  refine (Bag.sublist_or_sublist h₁ h₂ ?_).resolve_right fun hsub => ?_
  · rintro rfl
    exact Nat.lt_irrefl _ hid
  · have hlt := List.pairwise_iff_forall_sublist.mp hran hsub htick.symm hnear₂ hnear₁
    exact Nat.lt_asymm hid hlt

end TimerLoop

end Ados.TimeWheel
