import Ados.TimeWheel.System

/-!
# Where a task is held

A task is held in a slot of a wheel or in the map under a key. Filing adds one task at one place. A
tick empties the slots it drains and, when it carries out of the last wheel, moves the list at the
cursor of the map into the slots of that wheel.

## Main definitions

* `InSlot vec i p x`, `InMap m k x`: where the task `x` is held
* `Drains vec i p`: a tick empties the slot `p` of the wheel `i`

## Main results

* `put_inSlot`, `put_inMap`: what is held after filing
* `Ticks.inSlot`, `Ticks.inMap`: what is held after a tick
* `Ticks.mem_taskList_iff`, `Ticks.inFirst`: both for the first wheel, by the number of ticks
-/

namespace Ados.TimeWheel

variable {Task : Type}

/-- The task `x` is in the slot `p` of the wheel `i`. -/
def InSlot (vec : List (TimingWheelTool Task)) (i p : ℕ) (x : TaskWithTimestamp Task) : Prop :=
  ∃ w l, vec[i]? = some w ∧ w.wheel[p]? = some l ∧ x ∈ l

/-- The task `x` is in the list of the key `k`. -/
def InMap (m : TimingTaskMap Task) (k : ℕ) (x : TaskWithTimestamp Task) : Prop :=
  ∃ l, m.lists.lookup k = some l ∧ x ∈ l

/-- A tick of the first wheel empties the slot `p` of the wheel `i`. -/
def Drains (vec : List (TimingWheelTool Task)) (i p : ℕ) : Prop :=
  Ticked vec i ∧ vec[i]?.map (·.currentPos) = some p

variable {vec vec' : List (TimingWheelTool Task)} {m m' : TimingTaskMap Task}
  {taskList : TaskList Task} {w w' : TimingWheelTool Task} {i k p : ℕ}
  {e x : TaskWithTimestamp Task}

theorem InSlot.lt_length (h : InSlot vec i p x) : i < vec.length := by
  obtain ⟨w, -, hw, -⟩ := h
  exact (List.getElem?_eq_some_iff.mp hw).1

theorem mem_taken : x ∈ Bag.taken m.lists k ↔ InMap m k x := by
  unfold Bag.taken InMap
  cases m.lists.lookup k <;> simp

@[simp] theorem inSlot_cons_succ :
    InSlot (w :: vec) (i + 1) p x ↔ InSlot vec i p x := by simp [InSlot]

@[simp] theorem inSlot_cons_zero :
    InSlot (w :: vec) 0 p x ↔ ∃ l, w.wheel[p]? = some l ∧ x ∈ l := by simp [InSlot]

@[simp] theorem drains_cons_zero : Drains (w :: vec) 0 p ↔ w.currentPos = p := by
  simp [Drains, Ticked]

@[simp] theorem drains_cons_succ :
    Drains (w :: vec) (i + 1) p ↔ w.currentPos + 1 = w.wheel.length ∧ Drains vec i p := by
  simp [Drains, Ticked, and_assoc]

/-- The cursors alone decide which slots a tick drains. -/
theorem drains_iff_leaves (hi : i < vec.length) :
    Drains vec i p ↔ Odometer.Leaves (digits vec) i p := by
  simp [Drains, Odometer.Leaves, ticked_iff_carries, hi, digits]

theorem mem_held : x ∈ held vec m ↔ (∃ i p, InSlot vec i p x) ∨ ∃ k, InMap m k x := by
  rw [held, Multiset.mem_add, Bag.mem_keyed]
  refine or_congr ?_ Iff.rfl
  induction vec with
  | nil => simp [heldInWheels, InSlot]
  | cons w vec ih =>
    rw [← Nat.or_exists_add_one]
    simp only [inSlot_cons_zero, inSlot_cons_succ, ← ih, heldInWheels, List.map_cons,
      List.sum_cons, Multiset.mem_add, Bag.mem_slots_iff_getElem?]

/-! ## Filing -/

theorem put_inSlot {place : Place} (h : put vec m place e = .ok (vec', m')) :
    InSlot vec' i p x ↔ InSlot vec i p x ∨ place = .slot i p ∧ x = e := by
  cases place with
  | map key => simp [(put_map h).1]
  | slot ii pos =>
    obtain ⟨-, w, l, hw, hl, rfl⟩ := put_slot h
    obtain ⟨hlt, hget⟩ := List.getElem?_eq_some_iff.mp hw
    obtain ⟨hlt', hget'⟩ := List.getElem?_eq_some_iff.mp hl
    simp only [InSlot, List.getElem?_set, Place.slot.injEq]
    by_cases hi : ii = i
    · subst hi
      by_cases hp : pos = p
      · subst hp
        simp [hlt, hget, hlt', hget']
      · simp [hlt, hget, hp]
    · simp [hi]

theorem put_inMap {place : Place} (h : put vec m place e = .ok (vec', m')) :
    InMap m' k x ↔ InMap m k x ∨ place = .map k ∧ x = e := by
  cases place with
  | slot ii pos => simp [(put_slot h).1]
  | map key =>
    obtain ⟨-, rfl⟩ := put_map h
    by_cases hk : k = key
    · subst hk
      simp only [InMap, Bag.lookup_emplaceBack_self, Option.some.injEq, exists_eq_left',
        List.mem_append, List.mem_singleton, mem_taken, true_and]
    · simp [InMap, Bag.lookup_emplaceBack_ne hk, Ne.symm hk]

theorem put_mem_map {place : Place} (h : put vec m place e = .ok (vec', m')) :
    k ∈ m'.lists ↔ k ∈ m.lists ∨ place = .map k := by
  cases place with
  | slot ii pos => simp [(put_slot h).1]
  | map key =>
    obtain ⟨-, rfl⟩ := put_map h
    simp only [Bag.emplaceBack, AList.mem_insert, Place.map.injEq]
    tauto

/-! ## Ticks -/

/-- The list returned is the contents of the slot drained on the first wheel. -/
theorem Ticks.mem_taskList (h : Ticks vec m taskList vec' m') :
    x ∈ taskList ↔ ∃ p, Drains vec 0 p ∧ InSlot vec 0 p x := by
  obtain ⟨w, hw, hl⟩ := h.head
  cases vec with
  | nil => simp at hw
  | cons v vec =>
    obtain rfl : v = w := by simpa using hw
    simp [hl]

/-- Re-filing adds to each slot the tasks that belong to it. -/
theorem mem_refile (h : w.refile taskList = .ok w') :
    (∃ l, w'.wheel[p]? = some l ∧ x ∈ l) ↔
      (∃ l, w.wheel[p]? = some l ∧ x ∈ l) ∨ x ∈ taskList ∧ w.refileIndex x = p := by
  obtain ⟨-, -, -, hslot, hmem, -⟩ := TimingWheelTool.refile_spec h
  rw [hslot]
  constructor
  · rintro ⟨l, hl, hx⟩
    obtain ⟨b, hb, rfl⟩ := Option.map_eq_some_iff.mp hl
    rcases List.mem_append.mp hx with hx | hx
    · exact Or.inl ⟨b, hb, hx⟩
    · exact Or.inr (by simpa using hx)
  · rintro (⟨l, hl, hx⟩ | ⟨hx, rfl⟩)
    · exact ⟨_, by rw [hl]; rfl, List.mem_append_left _ hx⟩
    · have hlt := hmem x hx
      refine ⟨_, by rw [List.getElem?_eq_getElem hlt]; rfl, List.mem_append_right _ ?_⟩
      simpa using hx

/-- What a slot holds after a tick it held before, unless the tick drained it, or it is a slot of
the last wheel and the task comes from the list at the cursor of the map. -/
theorem Ticks.inSlot (h : Ticks vec m taskList vec' m') :
    InSlot vec' i p x ↔ InSlot vec i p x ∧ ¬ Drains vec i p ∨
      i + 1 = vec.length ∧ Odometer.Carries (TimeWheel.digits vec) vec.length ∧
        InMap m m.pos x ∧ ∃ w, vec[i]? = some w ∧ w.refileIndex x = p := by
  induction h generalizing i with
  | @stay w above m taskList hl hstay =>
    cases i with
    | zero => simp [Bag.exists_mem_set_nil, hstay]
    | succ i => simp [hstay]
  | @last w w' m taskList hl hwrap hrefile =>
    cases i with
    | succ i => simp [InSlot]
    | zero =>
      simp [mem_refile hrefile, Bag.exists_mem_set_nil, hwrap, TimingTaskMap.borrow, mem_taken]
  | @cascade w above m taskList dropped above' m' hl hwrap hne hticks ih =>
    cases i with
    | zero => simp [Bag.exists_mem_set_nil, hne]
    | succ i => simp [ih, hwrap]

/-- What the map holds after a tick it held before, outside the list that the carry takes out. -/
theorem Ticks.inMap (h : Ticks vec m taskList vec' m') :
    InMap m' k x ↔
      InMap m k x ∧ ¬ (Odometer.Carries (TimeWheel.digits vec) vec.length ∧ k = m.pos) := by
  rw [h.map]
  split
  · next hc =>
    by_cases hk : k = m.pos
    · subst hk
      simp [InMap, TimingTaskMap.borrow, hc, AList.lookup_erase]
    · simp [InMap, TimingTaskMap.borrow, hk, AList.lookup_erase_ne]
  · next hc => simp [hc]

theorem Ticks.mem_map (h : Ticks vec m taskList vec' m') :
    k ∈ m'.lists ↔
      k ∈ m.lists ∧ ¬ (Odometer.Carries (TimeWheel.digits vec) vec.length ∧ k = m.pos) := by
  rw [h.map]
  split
  · next hc => simp [TimingTaskMap.borrow, AList.mem_erase, hc, and_comm]
  · next hc => simp [hc]

/-! ## The first wheel -/

section First

variable {wheelSize : List ℕ} {c w₀ : ℕ}

theorem Aligned.drains_first (ha : Aligned wheelSize c vec m) (hw : wheelSize[0]? = some w₀) :
    Drains vec 0 p ↔ c % w₀ = p := by
  obtain ⟨w, hw, hpos, -⟩ := ha.head hw
  cases vec with
  | nil => simp at hw
  | cons v vec =>
    obtain rfl : v = w := by simpa using hw
    rw [drains_cons_zero, hpos]

/-- With one wheel the carry leaves the wheel at the end of each turn. -/
theorem Aligned.carries_single (ha : Aligned [w₀] c vec m) (hpos : 0 < w₀) :
    Odometer.Carries (TimeWheel.digits vec) vec.length ↔ w₀ ∣ c + 1 := by
  rw [ha.digits, ha.length]
  simp [startDigits, Odometer.after, Odometer.mod_succ_eq_size_iff hpos]

/-- A tick returns the list of the slot `c mod w_0`. -/
theorem Ticks.mem_taskList_iff (h : Ticks vec m taskList vec' m') (ha : Aligned wheelSize c vec m)
    (hw : wheelSize[0]? = some w₀) : x ∈ taskList ↔ InSlot vec 0 (c % w₀) x := by
  simp [h.mem_taskList, ha.drains_first hw]

/-- The first wheel keeps every other list. With one wheel, the end of a turn brings in the list at
the cursor of the map. -/
theorem Ticks.inFirst (h : Ticks vec m taskList vec' m') (ha : Aligned wheelSize c vec m)
    (hw : wheelSize[0]? = some w₀) (hpos : 0 < w₀) :
    InSlot vec' 0 p x ↔ InSlot vec 0 p x ∧ c % w₀ ≠ p ∨
      wheelSize = [w₀] ∧ w₀ ∣ c + 1 ∧ InMap m m.pos x ∧
        ∃ w, vec[0]? = some w ∧ w.refileIndex x = p := by
  rw [h.inSlot, ha.drains_first hw, ha.length]
  refine or_congr Iff.rfl ⟨?_, ?_⟩
  · rintro ⟨hlen, hc, hm, hx⟩
    obtain ⟨v, rfl⟩ := List.length_eq_one_iff.mp hlen.symm
    obtain rfl : v = w₀ := by simpa using hw
    rw [← ha.length, ha.carries_single hpos] at hc
    exact ⟨rfl, hc, hm, hx⟩
  · rintro ⟨rfl, hc, hm, hx⟩
    rw [← ha.length, ha.carries_single hpos, ha.length]
    exact ⟨rfl, hc, hm, hx⟩

end First

end Ados.TimeWheel
