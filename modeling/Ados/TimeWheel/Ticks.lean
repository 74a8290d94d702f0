import Ados.TimeWheel.Executor

/-!
# What a tick does

`tick` is a recursion through fallible functions. `Ticks` is its graph, one constructor for each way
a `Tick` can go: the cursor stays on its dial, the last wheel wraps and re-files from the map, a
lower wheel wraps and ticks the next one. The facts about ticks are inductions over this relation.

## Main definitions

* `Ticks vec m taskList vec' m'`: the graph of `tick`

## Main results

* `ticks_of_tick`: a `tick` without a fault is one of the three
* `Ticks.drop`: a tick reaches the wheels for which `Ticked` holds, and ticks them
* `refile_spec`: re-filing appends to each slot the tasks that belong to it, in order
* `Ticks.digits`, `Ticks.map`: a tick is one advance of the odometer, whose last carry takes a list
  out of the map and moves its cursor
-/

namespace Ados.TimeWheel

variable {Task : Type}

/-- What a sequence of fallible computations returned. -/
theorem bind_eq_ok {α β : Type} {x : Except Fault α} {f : α → Except Fault β} {b : β} :
    x.bind f = .ok b ↔ ∃ a, x = .ok a ∧ f a = .ok b := by
  cases x with
  | error e => simp [Except.bind]
  | ok a => simp [Except.bind]

namespace TimingWheelTool

/-- The wheel after `Tick` has emptied the slot at its cursor and moved the cursor to `pos`. -/
def drained (w : TimingWheelTool Task) (pos : ℕ) : TimingWheelTool Task :=
  { w with wheel := w.wheel.set w.currentPos [], currentPos := pos }

@[simp] theorem drained_currentPos (w : TimingWheelTool Task) (pos : ℕ) :
    (w.drained pos).currentPos = pos := rfl

@[simp] theorem drained_scale (w : TimingWheelTool Task) (pos : ℕ) :
    (w.drained pos).scale = w.scale := rfl

@[simp] theorem drained_wheel (w : TimingWheelTool Task) (pos : ℕ) :
    (w.drained pos).wheel = w.wheel.set w.currentPos [] := rfl

@[simp] theorem drained_refileIndex (w : TimingWheelTool Task) (pos : ℕ)
    (e : TaskWithTimestamp Task) : (w.drained pos).refileIndex e = w.refileIndex e := rfl

theorem take_eq_ok {w w' : TimingWheelTool Task} {taskList : TaskList Task} :
    w.take = .ok (taskList, w') ↔
      w.wheel[w.currentPos]? = some taskList ∧ w' = w.drained (w.currentPos + 1) := by
  unfold take drained
  cases w.wheel[w.currentPos]? with
  | none => simp
  | some l => simp [eq_comm]

theorem emplaceBack_eq_ok {w w' : TimingWheelTool Task} {pos : ℕ} {e : TaskWithTimestamp Task} :
    w.emplaceBack pos e = .ok w' ↔
      ∃ l, w.wheel[pos]? = some l ∧ w' = { w with wheel := w.wheel.set pos (l ++ [e]) } := by
  unfold emplaceBack
  cases w.wheel[pos]? with
  | none => simp
  | some l => simp [eq_comm]

theorem refile_cons_eq_ok {w w' : TimingWheelTool Task} {e : TaskWithTimestamp Task}
    {l : TaskList Task} :
    w.refile (e :: l) = .ok w' ↔
      w.scale ≠ 0 ∧ ∃ v, w.emplaceBack (w.refileIndex e) e = .ok v ∧
        v.refile l = .ok w' := by
  rw [refile]
  split <;> simp_all [bind_eq_ok]

/-- Re-filing appends to each slot the tasks that belong to it, in their order, and changes nothing
else; every task finds its slot. -/
theorem refile_spec {w w' : TimingWheelTool Task} {l : TaskList Task}
    (h : w.refile l = .ok w') :
    w'.currentPos = w.currentPos ∧ w'.scale = w.scale ∧ w'.wheel.length = w.wheel.length ∧
      (∀ p, w'.wheel[p]? =
        w.wheel[p]?.map (· ++ l.filter fun e => w.refileIndex e = p)) ∧
      (∀ e ∈ l, w.refileIndex e < w.wheel.length) ∧
      Bag.slots w'.wheel = Bag.slots w.wheel + l := by
  induction l generalizing w with
  | nil =>
    obtain rfl : w = w' := by simpa [refile] using h
    refine ⟨rfl, rfl, rfl, fun p => ?_, by simp, by simp⟩
    cases w.wheel[p]? <;> simp
  | cons e l ih =>
    obtain ⟨-, v, hv, h⟩ := refile_cons_eq_ok.mp h
    obtain ⟨b, hb, rfl⟩ := emplaceBack_eq_ok.mp hv
    obtain ⟨hlt, hget⟩ := List.getElem?_eq_some_iff.mp hb
    obtain ⟨hpos, hscale, hlen, hslot, hmem, hbag⟩ := ih h
    have hbehind : ∀ p, w'.wheel[p]? = (w.wheel.set (w.refileIndex e) (b ++ [e]))[p]?.map
        (· ++ l.filter fun x => w.refileIndex x = p) := hslot
    have hothers : ∀ x ∈ l, w.refileIndex x < (w.wheel.set (w.refileIndex e) (b ++ [e])).length :=
      hmem
    rw [List.length_set] at hothers
    refine ⟨hpos, hscale, by simpa using hlen, fun p => ?_, ?_, ?_⟩
    · rw [hbehind, List.getElem?_set]
      by_cases hp : w.refileIndex e = p
      · subst hp
        simp [hlt, hget]
      · simp [hp]
    · intro x hx
      rcases List.mem_cons.mp hx with rfl | hx
      · exact hlt
      · exact hothers x hx
    · rw [hbag, Bag.slots_set_append hb, add_assoc]
      rfl

end TimingWheelTool

open TimingWheelTool

/-- The graph of `tick`. -/
inductive Ticks : List (TimingWheelTool Task) → TimingTaskMap Task → TaskList Task →
    List (TimingWheelTool Task) → TimingTaskMap Task → Prop
  | stay {w above m taskList} :
      w.wheel[w.currentPos]? = some taskList → w.currentPos + 1 ≠ w.wheel.length →
      Ticks (w :: above) m taskList (w.drained (w.currentPos + 1) :: above) m
  | last {w w' m taskList} :
      w.wheel[w.currentPos]? = some taskList → w.currentPos + 1 = w.wheel.length →
      (w.drained 0).refile m.borrow.1 = .ok w' →
      Ticks [w] m taskList [w'] m.borrow.2
  | cascade {w above m taskList dropped above' m'} :
      w.wheel[w.currentPos]? = some taskList → w.currentPos + 1 = w.wheel.length →
      above ≠ [] → Ticks above m dropped above' m' →
      Ticks (w :: above) m taskList (w.drained 0 :: above') m'

theorem ticks_of_tick {vec vec' : List (TimingWheelTool Task)} {m m' : TimingTaskMap Task}
    {taskList : TaskList Task} (h : tick vec m = .ok (taskList, vec', m')) :
    Ticks vec m taskList vec' m' := by
  induction vec generalizing taskList vec' m' with
  | nil => simp [tick] at h
  | cons w above ih =>
    obtain ⟨⟨l, v⟩, htake, h⟩ := bind_eq_ok.mp h
    obtain ⟨hl, rfl⟩ := take_eq_ok.mp htake
    simp only [drained_currentPos, drained_wheel, List.length_set] at h
    split at h
    · next hwrap =>
      -- the cursor wraps: `borrow_func` runs with the cursor back at slot 0
      obtain ⟨⟨w', above', n⟩, hborrow, h⟩ := bind_eq_ok.mp h
      cases h
      cases above with
      | nil =>
        obtain ⟨v, hv, h⟩ := bind_eq_ok.mp hborrow
        cases h
        exact Ticks.last hl hwrap hv
      | cons next rest =>
        obtain ⟨⟨dropped, above', n⟩, hticked, h⟩ := bind_eq_ok.mp hborrow
        cases h
        exact Ticks.cascade hl hwrap (by simp) (ih hticked)
    · next hstay =>
      -- the cursor stays on the dial, and the wheels above are not touched
      cases h
      exact Ticks.stay hl hstay

/-! ## The cursors -/

@[simp] theorem digits_cons (w : TimingWheelTool Task) (vec : List (TimingWheelTool Task)) :
    digits (w :: vec) = ⟨w.currentPos, w.wheel.length⟩ :: digits vec := rfl

@[simp] theorem length_digits (vec : List (TimingWheelTool Task)) :
    (digits vec).length = vec.length := List.length_map _

/-- A wheel is ticked when the carry of the odometer reaches it. -/
theorem ticked_iff_carries {vec : List (TimingWheelTool Task)} {i : ℕ} :
    Ticked vec i ↔ i < vec.length ∧ Odometer.Carries (digits vec) i := by
  induction vec generalizing i with
  | nil => simp [Ticked]
  | cons w above ih =>
    cases i with
    | zero => simp [Ticked]
    | succ i =>
      simp only [Ticked, ih, digits_cons, Odometer.carries_cons_succ, List.length_cons,
        Nat.add_lt_add_iff_right]
      tauto

variable {vec vec' : List (TimingWheelTool Task)} {m m' : TimingTaskMap Task}
  {taskList : TaskList Task}

/-- A tick is one advance of the odometer. -/
theorem Ticks.digits (h : Ticks vec m taskList vec' m') :
    digits vec' = Odometer.advance (digits vec) := by
  induction h with
  | stay hl hstay => simp [Odometer.advance, hstay]
  | last hl hwrap hrefile =>
    obtain ⟨hpos, -, hlen, -⟩ := refile_spec hrefile
    simp [TimeWheel.digits, Odometer.advance, hpos, hlen, hwrap]
  | cascade hl hwrap _ _ ih => simp [Odometer.advance, hwrap, ih]

/-- The carry out of the last wheel takes the list at the cursor out of the map and moves the
cursor; without it the map stays. -/
theorem Ticks.map (h : Ticks vec m taskList vec' m') :
    m' = if Odometer.Carries (TimeWheel.digits vec) vec.length then m.borrow.2 else m := by
  induction h with
  | stay hl hstay => simp [hstay]
  | last hl hwrap hrefile => simp [hwrap]
  | cascade hl hwrap _ _ ih => simpa [hwrap] using ih

theorem Ticks.pos (h : Ticks vec m taskList vec' m') :
    m'.pos = m.pos + if Odometer.Carries (TimeWheel.digits vec) vec.length then 1 else 0 := by
  rw [h.map]
  split <;> simp [TimingTaskMap.borrow]

theorem Ticks.length (h : Ticks vec m taskList vec' m') : vec'.length = vec.length := by
  induction h with
  | stay hl hstay => rfl
  | last hl hwrap hrefile => rfl
  | cascade hl hwrap _ _ ih => simp [ih]

theorem Ticks.scales (h : Ticks vec m taskList vec' m') :
    vec'.map (·.scale) = vec.map (·.scale) := by
  induction h with
  | stay hl hstay => simp
  | last hl hwrap hrefile => simp [(refile_spec hrefile).2.1]
  | cascade hl hwrap _ _ ih => simp [ih]

/-- `Ticked` says which wheels a tick reaches: from the wheel `i` on, a tick that reaches it is a
tick of these wheels, and one that does not leaves them as they are. -/
theorem Ticks.drop (h : Ticks vec m taskList vec' m') (i : ℕ) :
    (Ticked vec i ∧ ∃ l, Ticks (vec.drop i) m l (vec'.drop i) m') ∨
      ¬ Ticked vec i ∧ vec'.drop i = vec.drop i := by
  induction h generalizing i with
  | stay hl hstay =>
    cases i with
    | zero => exact Or.inl ⟨trivial, _, .stay hl hstay⟩
    | succ i => exact Or.inr ⟨fun hi => hstay hi.1, rfl⟩
  | last hl hwrap hrefile =>
    cases i with
    | zero => exact Or.inl ⟨trivial, _, .last hl hwrap hrefile⟩
    | succ i => exact Or.inr ⟨fun hi => hi.2, rfl⟩
  | cascade hl hwrap hne hticks ih =>
    cases i with
    | zero => exact Or.inl ⟨trivial, _, .cascade hl hwrap hne hticks⟩
    | succ i =>
      rcases ih i with ⟨hi, htail⟩ | ⟨hi, htail⟩
      · exact Or.inl ⟨⟨hwrap, hi⟩, htail⟩
      · exact Or.inr ⟨fun hj => hi hj.2, htail⟩

/-- The list returned is the one at the cursor of the first wheel. -/
theorem Ticks.head (h : Ticks vec m taskList vec' m') :
    ∃ w, vec.head? = some w ∧ w.wheel[w.currentPos]? = some taskList := by
  cases h with
  | stay hl hstay => exact ⟨_, rfl, hl⟩
  | last hl hwrap hrefile => exact ⟨_, rfl, hl⟩
  | cascade hl hwrap _ _ => exact ⟨_, rfl, hl⟩

end Ados.TimeWheel
