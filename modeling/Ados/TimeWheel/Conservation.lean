import Ados.TimeWheel.System

/-!
# Which timers are kept

A tick returns the list at the cursor of the first wheel. Every further wheel that it ticks is
emptied at its cursor as well, and that list is not filed again: `borrow_func` re-files only what
the last level takes from the map. So the tasks filed are those returned and those held, as long as
every wheel above the first is empty at its cursor whenever it is ticked.

## Main definitions

* `lost vec`: the tasks that a tick takes from the wheels above the first
* `Timer.Conserved`: the tasks filed are the tasks returned and the tasks held
* `Timer.KeepsTimers`: the event ticks no wheel above the first that has a task at its cursor
* `Timer.Accounted`: the tasks returned and the tasks held are among the tasks filed

## Main results

* `Ticks.held`: a tick returns one list and loses another
* `timers_conserved_iff`: a run conserves the timers exactly when every tick of it keeps them
* `Accounted.filter_returned`: no task is returned twice
-/

namespace Ados.TimeWheel

open Transition

variable {Task : Type}

/-- The list in the slot at the cursor. -/
def TimingWheelTool.atCursor (w : TimingWheelTool Task) : TaskList Task :=
  w.wheel[w.currentPos]?.getD []

/-- The tasks that a tick takes from the wheels above the first. -/
def lost : List (TimingWheelTool Task) → TaskList Task
  | [] => []
  | w :: above =>
    if w.currentPos + 1 = w.wheel.length then
      above.head?.elim [] TimingWheelTool.atCursor ++ lost above
    else []

/-- What the `borrow_func` of a wheel takes: the list at the cursor of the next wheel, or on the
last level the list of the map at its cursor. -/
def cascadeTakes (above : List (TimingWheelTool Task)) (m : TimingTaskMap Task) : TaskList Task :=
  above.head?.elim m.borrow.1 TimingWheelTool.atCursor

theorem lost_eq_nil_iff {vec : List (TimingWheelTool Task)} :
    lost vec = [] ↔ ∀ i w, Ticked vec (i + 1) → vec[i + 1]? = some w → w.atCursor = [] := by
  induction vec with
  | nil => simp [lost]
  | cons w above ih =>
    rw [lost]
    split
    · next hwrap =>
      rw [List.append_eq_nil_iff, ih]
      constructor
      · rintro ⟨hhead, htail⟩ i v hi hv
        cases i with
        | zero =>
          cases above with
          | nil => simp at hv
          | cons next rest =>
            obtain rfl : next = v := by simpa using hv
            exact hhead
        | succ i => exact htail i v hi.2 (by simpa using hv)
      · intro h
        refine ⟨?_, fun i v hi hv => h (i + 1) v ⟨hwrap, hi⟩ (by simpa using hv)⟩
        cases above with
        | nil => rfl
        | cons next rest => exact h 0 next ⟨hwrap, trivial⟩ rfl
    · next hstay => simp [Ticked, hstay]

@[simp] theorem heldInWheels_cons (w : TimingWheelTool Task) (vec : List (TimingWheelTool Task)) :
    heldInWheels (w :: vec) = Bag.slots w.wheel + heldInWheels vec := by
  simp [heldInWheels]

@[simp] theorem heldInWheels_nil : heldInWheels ([] : List (TimingWheelTool Task)) = 0 := rfl

section Tick

variable {vec vec' above above' : List (TimingWheelTool Task)} {m m' : TimingTaskMap Task}
  {taskList : TaskList Task} {w w' : TimingWheelTool Task}

theorem TimingWheelTool.slots_drained (h : w.wheel[w.currentPos]? = some taskList) (pos : ℕ) :
    Bag.slots w.wheel = Bag.slots (w.drained pos).wheel + taskList :=
  Bag.slots_set_nil h

/-- A tick returns the list of the first wheel and loses the lists of the further ones. -/
theorem Ticks.held (h : Ticks vec m taskList vec' m') :
    held vec m = held vec' m' + taskList + lost vec := by
  induction h with
  | @stay w above m taskList hl hstay =>
    simp only [TimeWheel.held, heldInWheels_cons, w.slots_drained hl (w.currentPos + 1), lost,
      if_neg hstay, Multiset.coe_nil, add_zero]
    abel
  | @last w w' m taskList hl hwrap hrefile =>
    obtain ⟨-, -, -, -, -, hbag⟩ := TimingWheelTool.refile_spec hrefile
    simp only [TimeWheel.held, heldInWheels_cons, heldInWheels_nil, w.slots_drained hl 0, hbag,
      Bag.keyed_erase m.lists m.pos, TimingTaskMap.borrow, lost, if_pos hwrap, List.head?_nil,
      Option.elim_none, List.append_nil, Multiset.coe_nil, add_zero]
    abel
  | @cascade w above m taskList dropped above' m' hl hwrap hne hticks ih =>
    obtain ⟨v, hv, hdropped⟩ := hticks.head
    have hcursor : above.head?.elim [] TimingWheelTool.atCursor = dropped := by
      simp [hv, TimingWheelTool.atCursor, hdropped]
    -- the list that the next wheel returns is dropped, on top of what is lost above it
    simp only [TimeWheel.held] at ih
    simp only [TimeWheel.held, heldInWheels_cons, w.slots_drained hl 0, lost, if_pos hwrap, hcursor,
      ← Multiset.coe_add]
    rw [add_assoc, ih]
    abel

/-- A cascade puts into its own wheel what it takes, unless it takes a task from a next wheel. -/
theorem borrowFunc_moves_iff
    (h : borrowFunc (tick above m) w above m = .ok (w', above', m')) :
    Bag.slots w'.wheel = Bag.slots w.wheel + cascadeTakes above m ↔
      above = [] ∨ cascadeTakes above m = [] := by
  cases above with
  | nil =>
    obtain ⟨v, hv, h⟩ := bind_eq_ok.mp h
    cases h
    simpa [cascadeTakes] using (TimingWheelTool.refile_spec hv).2.2.2.2.2
  | cons next rest =>
    obtain ⟨r, -, h⟩ := bind_eq_ok.mp h
    cases h
    simp

end Tick

/-- Filing adds the task to what is held. -/
theorem held_put {vec vec' : List (TimingWheelTool Task)} {m m' : TimingTaskMap Task}
    {place : Place} {e : TaskWithTimestamp Task} (h : put vec m place e = .ok (vec', m')) :
    held vec' m' = held vec m + {e} := by
  cases place with
  | map key =>
    obtain ⟨rfl, rfl⟩ := put_map h
    simp only [held, Bag.keyed_emplaceBack, add_assoc]
  | slot ii pos =>
    obtain ⟨rfl, w, l, hw, hl, rfl⟩ := put_slot h
    have hset : heldInWheels (vec.set ii { w with wheel := w.wheel.set pos (l ++ [e]) }) =
        heldInWheels vec + {e} := Bag.sum_map_set hw (Bag.slots_set_append hl e)
    rw [held, held, hset]
    abel

theorem held_makeWheels (startPos curScale : ℕ) (wheelSize : List ℕ) :
    heldInWheels (makeWheels startPos curScale wheelSize : List (TimingWheelTool Task)) = 0 := by
  induction wheelSize generalizing startPos curScale with
  | nil => rfl
  | cons w ws ih => simp [makeWheels, ih]

theorem held_initialized (options : Options) :
    held (TimeWheelExecutor.initialized options : TimeWheelExecutor Task).timingWheelVec
      (TimeWheelExecutor.initialized options).timingTaskMap = 0 := by
  simp [held, TimeWheelExecutor.initialized, TimeWheelExecutor.initializeWith, held_makeWheels]

/-! ## Runs -/

namespace Timer

/-- The tasks filed are the tasks returned and the tasks held, with multiplicity. -/
def Conserved (t : Timer) : Prop :=
  (t.filed : Multiset Entry) = (t.returned.map Prod.snd : List Entry) +
    held t.exec.timingWheelVec t.exec.timingTaskMap

instance (t : Timer) : Decidable t.Conserved := inferInstanceAs (Decidable (_ = _))

/-- No wheel above the first that this event ticks has a task at its cursor. -/
def KeepsTimers (t : Timer) (e : Event) : Prop :=
  e = .tick → ∀ i w, Ticked t.exec.timingWheelVec (i + 1) →
    t.exec.timingWheelVec[i + 1]? = some w → w.atCursor = []

variable {options : Options} {t t' : Timer} {e : Event} {es : List Event}

theorem conserved_initial : (initial options).Conserved := by
  simp [Conserved, initial, held_initialized]

/-- One step conserves the timers exactly when it keeps them. -/
theorem conserved_step (hc : t.Conserved) (hs : Step t e t') :
    t'.Conserved ↔ KeepsTimers t e := by
  unfold Conserved at hc
  cases hs with
  | start hinit hnow => exact ⟨fun _ h => absurd h (by simp), fun _ => hc⟩
  | executeAt he =>
    refine ⟨fun _ h => absurd h (by simp), ?_⟩
    intro _
    rcases executeAt_appends he with ⟨-, rfl, rfl⟩ | ⟨-, -, rfl, place, hf⟩
    · simpa [Conserved] using hc
    · simp only [Conserved, held_put hf.filed, Option.toList_some, ← Multiset.coe_add, hc,
        Multiset.coe_singleton, add_assoc]
  | @tick taskList exec hstart hpoint ht =>
    obtain ⟨hticks, -⟩ := ticks_of_takeTick ht
    have hheld := hticks.held
    have hmap : (taskList.map fun e => (t.exec.currentTickCount, e)).map Prod.snd = taskList := by
      simp
    simp only [KeepsTimers, forall_const, ← lost_eq_nil_iff]
    rw [Conserved]
    simp only [TimeWheelExecutor.countTick, List.map_append, hmap, ← Multiset.coe_add, hc, hheld]
    have hcomm : (↑(t.returned.map Prod.snd) + (held exec.timingWheelVec exec.timingTaskMap +
          ↑taskList + ↑(lost t.exec.timingWheelVec)) : Multiset Entry) =
        ↑(t.returned.map Prod.snd) + ↑taskList + held exec.timingWheelVec exec.timingTaskMap +
          ↑(lost t.exec.timingWheelVec) := by abel
    rw [hcomm, add_eq_left, Multiset.coe_eq_zero]

/-- **The timers are conserved exactly as long as no upper wheel is ticked with a task at its
cursor.** In a run the tasks filed are, at every state, the tasks returned and the tasks held, if
and only if every tick of the run finds the wheels `i ≥ 1` that it ticks empty at their cursors. A
single cascade puts into its own wheel what it takes if and only if it is the last level's or takes
nothing. -/
theorem timers_conserved_iff (hr : run step (initial options) es = some t) :
    (AllStates step Conserved (initial options) es ↔
      AllSteps step KeepsTimers (initial options) es) ∧
    ∀ (w w' : TimingWheelTool Call) (above above' : List (TimingWheelTool Call))
      (m m' : TimingTaskMap Call), borrowFunc (tick above m) w above m = .ok (w', above', m') →
      (Bag.slots w'.wheel = Bag.slots w.wheel + cascadeTakes above m ↔
        above = [] ∨ cascadeTakes above m = []) := by
  refine ⟨?_, fun _ _ _ _ _ _ h => borrowFunc_moves_iff h⟩
  refine allStates_iff_allSteps (I := fun _ => True) (fun _ _ _ _ _ => trivial) ?_ trivial
    conserved_initial hr
  exact fun s e u _ hc he => conserved_step hc (step_cases he)

/-- On two wheels of two slots, for a run whose only cascade finds nothing. -/
theorem timers_conserved_iff_two_wheels :
    ∃ t, run step (initial { dt := 1, wheelSize := [2, 2] })
      [.start 0, .executeAt 1, .tick, .tick] = some t ∧
      (AllStates step Conserved (initial { dt := 1, wheelSize := [2, 2] })
        [.start 0, .executeAt 1, .tick, .tick] ↔
      AllSteps step KeepsTimers (initial { dt := 1, wheelSize := [2, 2] })
        [.start 0, .executeAt 1, .tick, .tick]) := by
  obtain ⟨t, ht⟩ := Option.isSome_iff_exists.mp
    (show (run step (initial { dt := 1, wheelSize := [2, 2] })
      [.start 0, .executeAt 1, .tick, .tick]).isSome by decide +kernel)
  exact ⟨t, ht, (timers_conserved_iff ht).1⟩

/-- A task of the second wheel is lost when that wheel is ticked: on wheels of two slots the task
filed for tick `2` is neither returned nor held after two ticks. -/
theorem timer_lost :
    ∃ t, run step (initial { dt := 1, wheelSize := [2, 2] })
      [.start 0, .executeAt 2, .tick, .tick] = some t ∧ ¬ t.Conserved := by
  have h : ((run step (initial { dt := 1, wheelSize := [2, 2] })
      [.start 0, .executeAt 2, .tick, .tick]).map fun t => decide t.Conserved) = some false := by
    decide +kernel
  obtain ⟨t, ht, hc⟩ := Option.map_eq_some_iff.mp h
  exact ⟨t, ht, of_decide_eq_false hc⟩

/-! ## No task comes from nowhere -/

/-- The calls are told apart by their numbers, what has been returned or is held was filed, and no
task was filed at a later tick than the current one, or than the tick that returned it. -/
structure Accounted (t : Timer) : Prop where
  nodup : (t.filed.map (·.task.id)).Nodup
  id_lt : ∀ x ∈ t.filed, x.task.id < t.calls
  le : (t.returned.map Prod.snd : List Entry) +
    held t.exec.timingWheelVec t.exec.timingTaskMap ≤ (t.filed : Multiset Entry)
  madeAt_le : ∀ x ∈ t.filed, x.task.madeAt ≤ t.exec.currentTickCount
  returned : ∀ f x, (f, x) ∈ t.returned → x.task.madeAt ≤ f

theorem accounted_initial : (initial options).Accounted := by
  have h : (initial options).Conserved := conserved_initial
  exact ⟨List.nodup_nil, by simp [initial], h.ge, by simp [initial], by simp [initial]⟩

section Accounted

variable {x : Entry} {f : ℕ}

theorem Accounted.mem_of_returned (h : t.Accounted) (hx : (f, x) ∈ t.returned) : x ∈ t.filed :=
  Multiset.mem_of_le h.le (Multiset.mem_add.mpr
    (Or.inl (Multiset.mem_coe.mpr (List.mem_map.mpr ⟨(f, x), hx, rfl⟩))))

theorem Accounted.mem_of_held (h : t.Accounted)
    (hx : x ∈ held t.exec.timingWheelVec t.exec.timingTaskMap) : x ∈ t.filed :=
  Multiset.mem_of_le h.le (Multiset.mem_add.mpr (Or.inr hx))

theorem Accounted.filter_returned (h : t.Accounted) (hx : (f, x) ∈ t.returned) :
    t.returned.filter (fun r => r.2.task.id = x.task.id) = [(f, x)] := by
  have hnodup : ((t.returned.map Prod.snd).map (·.task.id)).Nodup :=
    Bag.nodup_map_of_le h.nodup (le_trans (Multiset.le_add_right _ _) h.le)
  rw [List.map_map] at hnodup
  exact Bag.filter_eq_singleton hnodup hx

end Accounted

/-- A call adds one task, of a number that none before it has. -/
theorem Accounted.filed_at (h : t.Accounted) {n : ℕ} {place : Place}
    {exec : TimeWheelExecutor Call}
    (hf : Appends t.exec n ⟨t.calls, t.exec.currentTickCount⟩ place exec) : Accounted { t with
      exec := exec, calls := t.calls + 1
      filed := t.filed ++ [⟨n, t.calls, t.exec.currentTickCount⟩] } := by
  have hcount : exec.currentTickCount = t.exec.currentTickCount := by rw [hf.rest]
  refine ⟨?_, ?_, ?_, ?_, h.returned⟩
  · rw [List.map_append, List.nodup_append]
    refine ⟨h.nodup, by simp, ?_⟩
    intro i hi j hj
    obtain ⟨x, hx, rfl⟩ := List.mem_map.mp hi
    obtain rfl : j = t.calls := by simpa using hj
    exact (h.id_lt x hx).ne
  · intro x hx
    rcases List.mem_append.mp hx with hx | hx
    · exact Nat.lt_succ_of_lt (h.id_lt x hx)
    · obtain rfl : x = ⟨n, t.calls, t.exec.currentTickCount⟩ := by simpa using hx
      exact Nat.lt_succ_self _
  · simp only [held_put hf.filed, ← Multiset.coe_add, ← add_assoc]
    exact add_le_add_left h.le _
  · intro x hx
    rw [hcount]
    rcases List.mem_append.mp hx with hx | hx
    · exact h.madeAt_le x hx
    · obtain rfl : x = ⟨n, t.calls, t.exec.currentTickCount⟩ := by simpa using hx
      exact Nat.le_refl _

/-- A tick moves tasks from those held to those returned, and loses some. -/
theorem Accounted.ticked (h : t.Accounted) {taskList : TaskList Call}
    {exec : TimeWheelExecutor Call} (ht : t.exec.takeTick = .ok (taskList, exec)) (tp : ℤ) :
    Accounted { t with
      exec := exec.countTick
      lastLoopTimePoint := tp
      returned := t.returned ++ taskList.map fun e => (t.exec.currentTickCount, e) } := by
  obtain ⟨hticks, hrest⟩ := ticks_of_takeTick ht
  have hcount : exec.currentTickCount = t.exec.currentTickCount := by rw [hrest]
  have hmap : (taskList.map fun e => (t.exec.currentTickCount, e)).map Prod.snd = taskList := by
    simp
  refine ⟨h.nodup, h.id_lt, le_trans ?_ h.le, ?_, ?_⟩
  · simp only [TimeWheelExecutor.countTick, List.map_append, hmap, ← Multiset.coe_add, hticks.held]
    rw [add_assoc, add_comm (taskList : Multiset Entry)]
    exact add_le_add_right (Multiset.le_add_right _ _) _
  · intro x hx
    simp only [TimeWheelExecutor.countTick, hcount]
    exact Nat.le_succ_of_le (h.madeAt_le x hx)
  · intro f x hx
    rcases List.mem_append.mp hx with hx | hx
    · exact h.returned f x hx
    · obtain ⟨y, hy, heq⟩ := List.mem_map.mp hx
      cases heq
      have hheld : x ∈ held t.exec.timingWheelVec t.exec.timingTaskMap := by
        rw [hticks.held]
        exact Multiset.mem_add.mpr (Or.inl (Multiset.mem_add.mpr (Or.inr hy)))
      exact h.madeAt_le x (h.mem_of_held hheld)

theorem Accounted.step (h : t.Accounted) (hs : Step t e t') : t'.Accounted := by
  cases hs with
  | start => exact ⟨h.nodup, h.id_lt, h.le, h.madeAt_le, h.returned⟩
  | executeAt he =>
    rcases executeAt_appends he with ⟨-, rfl, rfl⟩ | ⟨-, -, rfl, place, hf⟩
    · refine ⟨by simpa using h.nodup, ?_, by simpa using h.le, by simpa using h.madeAt_le,
        h.returned⟩
      intro x hx
      exact Nat.lt_succ_of_lt (h.id_lt x (by simpa using hx))
    · exact h.filed_at hf
  | tick _ _ ht => exact h.ticked ht _

theorem accounted_run (hr : run Timer.step (initial options) es = some t) : t.Accounted :=
  run_invariant (fun _ _ _ h he => h.step (step_cases he)) accounted_initial hr

end Timer

end Ados.TimeWheel
