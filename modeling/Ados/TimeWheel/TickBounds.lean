import Ados.TimeWheel.Geometry

/-!
# Ticks within bounds

`Tick` indexes `wheel[current_pos]` and compares with the size after it has moved the cursor. Every
wheel but the first starts at position `1`, which is not on a wheel of one slot: the first `Tick` of
such a wheel is out of range. It comes with the tick that completes the first turn of the wheels
below it.

## Main definitions

* `timerTicks n s`: `n` ticks, one after the other
* `EntersInBounds vec`: a `Tick` of the first wheel enters only wheels whose cursor is on them
* `FirstOneSlot wheelSize i`: the wheel `i + 1` is the first later one of one slot

## Main results

* `exists_tick_iff`: without a task to re-file, a tick has no fault exactly if it enters in bounds
* `ticks_in_bounds_iff`: `n` ticks are in bounds exactly if the first `Tick` of a later wheel of one
  slot is not among them
* `ticks_in_bounds_forall_iff`: all ticks are in bounds exactly if there is no such wheel
-/

namespace Ados.TimeWheel

open Odometer

variable {Task : Type}

/-! ## One tick -/

/-- Every wheel that a `Tick` of the first wheel reaches has its cursor on it. -/
def EntersInBounds (vec : List (TimingWheelTool Task)) : Prop :=
  ∀ i w, Ticked vec i → vec[i]? = some w → w.currentPos < w.wheel.length

theorem EntersInBounds.head {w : TimingWheelTool Task} {above : List (TimingWheelTool Task)}
    (h : EntersInBounds (w :: above)) : w.currentPos < w.wheel.length := h 0 w trivial rfl

theorem EntersInBounds.tail {w : TimingWheelTool Task} {above : List (TimingWheelTool Task)}
    (h : EntersInBounds (w :: above)) (hwrap : w.currentPos + 1 = w.wheel.length) :
    EntersInBounds above := fun i v hi hv => h (i + 1) v ⟨hwrap, hi⟩ hv

/-- A tick that has nothing to re-file returns, or indexes out of range. -/
theorem tick_ne_divByZero {vec : List (TimingWheelTool Task)} {m : TimingTaskMap Task}
    (hm : m.borrow.1 = []) : tick vec m ≠ .error .divByZero := by
  induction vec with
  | nil => simp [tick]
  | cons w above ih =>
    rw [tick]
    cases htake : w.take with
    | error fault =>
      have hfault : fault = .outOfRange := by
        unfold TimingWheelTool.take at htake
        split at htake
        · cases htake
          rfl
        · cases htake
      rw [hfault]
      simp [Except.bind]
    | ok r =>
      simp only [Except.bind]
      by_cases hwrap : r.2.currentPos = r.2.wheel.length
      · rw [if_pos hwrap]
        cases above with
        | nil => simp [borrowFunc, hm, TimingWheelTool.refile, Except.bind]
        | cons v rest =>
          rw [borrowFunc]
          cases htick : tick (v :: rest) m with
          | error fault =>
            intro heq
            apply ih
            rw [htick]
            simpa [Except.bind] using heq
          | ok b => simp [Except.bind]
      · rw [if_neg hwrap]
        simp

/-- A tick that enters in bounds and has nothing to re-file returns. -/
theorem EntersInBounds.exists_tick {vec : List (TimingWheelTool Task)} {m : TimingTaskMap Task}
    (hm : m.borrow.1 = []) (hne : vec ≠ []) (h : EntersInBounds vec) :
    ∃ r, tick vec m = .ok r := by
  induction vec with
  | nil => exact absurd rfl hne
  | cons w above ih =>
    obtain ⟨l, hl⟩ : ∃ l, w.wheel[w.currentPos]? = some l :=
      ⟨_, List.getElem?_eq_getElem h.head⟩
    have htake : w.take = .ok (l, w.drained (w.currentPos + 1)) :=
      TimingWheelTool.take_eq_ok.mpr ⟨hl, rfl⟩
    simp only [tick, htake, Except.bind, TimingWheelTool.drained_currentPos,
      TimingWheelTool.drained_wheel, List.length_set]
    by_cases hwrap : w.currentPos + 1 = w.wheel.length
    · simp only [if_pos hwrap]
      cases above with
      | nil =>
        simp only [borrowFunc, hm, TimingWheelTool.refile, Except.bind]
        exact ⟨_, rfl⟩
      | cons v rest =>
        obtain ⟨r, hr⟩ := ih (by simp) (h.tail hwrap)
        simp only [borrowFunc, hr, Except.bind]
        exact ⟨_, rfl⟩
    · simp only [if_neg hwrap]
      exact ⟨_, rfl⟩

/-- A tick that returns has entered in bounds. -/
theorem Ticks.entersInBounds {vec vec' : List (TimingWheelTool Task)} {m m' : TimingTaskMap Task}
    {l : TaskList Task} (h : Ticks vec m l vec' m') : EntersInBounds vec := by
  intro i w hi hw
  rcases h.drop i with ⟨-, l', hticks⟩ | ⟨hnot, -⟩
  · obtain ⟨v, hv, hget⟩ := hticks.head
    have heq : v = w := by
      rw [List.head?_drop, hw] at hv
      exact (Option.some_inj.mp hv).symm
    rw [← heq]
    exact (List.getElem?_eq_some_iff.mp hget).1
  · exact absurd hi hnot

/-- **A tick that has nothing to re-file has a fault exactly if it enters a wheel out of bounds**,
and the fault is the index. -/
theorem exists_tick_iff {vec : List (TimingWheelTool Task)} {m : TimingTaskMap Task}
    (hm : m.borrow.1 = []) (hne : vec ≠ []) :
    (∃ r, tick vec m = .ok r) ↔ EntersInBounds vec := by
  constructor
  · rintro ⟨⟨l, vec', m'⟩, hr⟩
    exact (ticks_of_tick hr).entersInBounds
  · intro h
    exact h.exists_tick hm hne

/-- An advance moves only digits that are on their dials. -/
def MovesInBounds (ds : List Digit) : Prop :=
  ∀ i d, Carries ds i → ds[i]? = some d → d.pos < d.size

/-- In bounds, as the digits say it. -/
theorem entersInBounds_iff {vec : List (TimingWheelTool Task)} :
    EntersInBounds vec ↔ MovesInBounds (digits vec) := by
  constructor
  · intro h i d hi hd
    obtain ⟨w, hw, rfl⟩ := Option.map_eq_some_iff.mp ((List.getElem?_map ..).symm.trans hd)
    obtain ⟨hlt, -⟩ := List.getElem?_eq_some_iff.mp hw
    exact h i w (ticked_iff_carries.mpr ⟨hlt, hi⟩) hw
  · intro h i w hi hw
    have hd : (digits vec)[i]? = some ⟨w.currentPos, w.wheel.length⟩ := by
      rw [digits, List.getElem?_map, hw]
      rfl
    exact h i _ (ticked_iff_carries.mp hi).2 hd

/-! ## Many ticks -/

namespace TimeWheelExecutor

/-- `n` ticks of the timer, one after the other. -/
def timerTicks : ℕ → TimeWheelExecutor Task → Except Fault (TimeWheelExecutor Task)
  | 0, s => .ok s
  | n + 1, s => (timerTicks n s).bind fun s => s.timerTick.bind fun r => .ok r.2

/-- What ticks keep of an executor that no task has been filed in. -/
structure Idle (ds : List Digit) (s : TimeWheelExecutor Task) : Prop where
  digits_eq : digits s.timingWheelVec = ds
  ne_nil : s.timingWheelVec ≠ []
  lists_eq : s.timingTaskMap.lists = ∅

variable {ds : List Digit} {s s' : TimeWheelExecutor Task} {n : ℕ}

theorem Idle.borrow (h : Idle ds s) : s.timingTaskMap.borrow.1 = [] := by
  rw [TimingTaskMap.borrow, h.lists_eq]
  rfl

/-- A tick of an idle executor moves the cursors, or is out of range. -/
theorem Idle.timerTick (h : Idle ds s) :
    (MovesInBounds ds ∧ ∃ r, s.timerTick = .ok r ∧ Idle (advance ds) r.2) ∨
      ¬ MovesInBounds ds ∧ s.timerTick = .error .outOfRange := by
  rw [← h.digits_eq, ← entersInBounds_iff]
  by_cases hin : EntersInBounds s.timingWheelVec
  · left
    obtain ⟨⟨l, vec, m⟩, hr⟩ := (exists_tick_iff h.borrow h.ne_nil).mpr hin
    refine ⟨hin, ?_⟩
    simp only [TimeWheelExecutor.timerTick, takeTick, hr, Except.bind]
    refine ⟨_, rfl, ?_, ?_, ?_⟩
    · show digits vec = _
      rw [(ticks_of_tick hr).digits]
    · show vec ≠ []
      intro hnil
      have hlen := (ticks_of_tick hr).length
      rw [hnil] at hlen
      exact h.ne_nil (List.length_eq_zero_iff.mp hlen.symm)
    · show m.lists = ∅
      rw [(ticks_of_tick hr).map]
      split
      · rw [TimingTaskMap.borrow, h.lists_eq]
        rfl
      · exact h.lists_eq
  · right
    refine ⟨hin, ?_⟩
    have hnot := mt (exists_tick_iff h.borrow h.ne_nil).mp hin
    simp only [TimeWheelExecutor.timerTick, takeTick]
    cases hr : tick s.timingWheelVec s.timingTaskMap with
    | ok r => exact absurd ⟨r, hr⟩ hnot
    | error fault =>
      cases fault with
      | outOfRange => rfl
      | divByZero => exact absurd hr (tick_ne_divByZero h.borrow)

/-- The ticks of an idle executor are in bounds as long as the advances are. -/
theorem Idle.timerTicks (h : Idle ds s) (n : ℕ) :
    ((∀ k < n, MovesInBounds (advance^[k] ds)) ∧
        ∃ t, s.timerTicks n = .ok t ∧ Idle (advance^[n] ds) t) ∨
      ¬ (∀ k < n, MovesInBounds (advance^[k] ds)) ∧ s.timerTicks n = .error .outOfRange := by
  induction n with
  | zero => exact Or.inl ⟨fun k hk => absurd hk (Nat.not_lt_zero k), s, rfl, h⟩
  | succ n ih =>
    rcases ih with ⟨hin, t, ht, hidle⟩ | ⟨hnot, ht⟩
    · simp only [TimeWheelExecutor.timerTicks, ht, Except.bind]
      rcases hidle.timerTick with ⟨hlast, r, hr, hidle'⟩ | ⟨hlast, hr⟩
      · refine Or.inl ⟨fun k hk => ?_, r.2, ?_, ?_⟩
        · rcases Nat.lt_succ_iff_lt_or_eq.mp hk with hk | rfl
          · exact hin k hk
          · exact hlast
        · rw [hr]
        · rw [Function.iterate_succ_apply']
          exact hidle'
      · refine Or.inr ⟨fun hall => hlast (hall n (Nat.lt_succ_self n)), ?_⟩
        rw [hr]
    · refine Or.inr ⟨fun hall => hnot fun k hk => hall k (Nat.lt_succ_of_lt hk), ?_⟩
      simp only [TimeWheelExecutor.timerTicks, ht, Except.bind]

theorem idle_initialized {options : Options} (hne : options.wheelSize ≠ []) :
    Idle (startDigits options.wheelSize) (initialized options : TimeWheelExecutor Task) where
  digits_eq := digits_makeWheels _
  ne_nil := by
    intro hnil
    have hlen : (digits (initialized options : TimeWheelExecutor Task).timingWheelVec).length =
        options.wheelSize.length := by
      show (digits (makeWheels 0 1 options.wheelSize : List (TimingWheelTool Task))).length = _
      rw [digits_makeWheels, length_startDigits]
    rw [hnil] at hlen
    exact hne (List.length_eq_zero_iff.mp hlen.symm)
  lists_eq := rfl

end TimeWheelExecutor

/-! ## The wheels of one slot -/

/-- The wheel `i + 1` has one slot, and the wheels between it and the first have more. -/
structure FirstOneSlot (wheelSize : List ℕ) (i : ℕ) : Prop where
  size_eq : wheelSize[i + 1]? = some 1
  ne_one : ∀ j < i, wheelSize[j + 1]? ≠ some 1

variable {wheelSize : List ℕ} {i n : ℕ}

theorem movesInBounds_of_proper {ds : List Digit} (h : Proper ds) : MovesInBounds ds :=
  fun _ d _ hd => h d (List.mem_of_getElem? hd)

/-- Without a later wheel of one slot the sizes are valid. -/
theorem validSizes_of_forall (hne : wheelSize ≠ []) (hpos : ∀ w ∈ wheelSize, 0 < w)
    (h : ∀ i, wheelSize[i + 1]? ≠ some 1) : ValidSizes wheelSize where
  ne_nil := hne
  head_pos := fun w hw => hpos w (List.mem_of_head? hw)
  tail_two := by
    intro w hw
    have hw0 := hpos w (List.mem_of_mem_tail hw)
    obtain ⟨i, hi⟩ := List.mem_iff_getElem?.mp hw
    have hne1 : w ≠ 1 := by
      rintro rfl
      rw [List.getElem?_tail] at hi
      exact h i hi
    omega

/-- There is a first later wheel of one slot, or none. -/
theorem exists_firstOneSlot (h : ∃ i, wheelSize[i + 1]? = some 1) :
    ∃ i, FirstOneSlot wheelSize i := by
  classical
  exact ⟨Nat.find h, Nat.find_spec h, fun j hj => Nat.find_min h hj⟩

namespace FirstOneSlot

theorem length_lt (h : FirstOneSlot wheelSize i) : i + 1 < wheelSize.length :=
  (List.getElem?_eq_some_iff.mp h.size_eq).1

/-- The wheels below it have valid sizes. -/
theorem validSizes_take (h : FirstOneSlot wheelSize i) (hpos : ∀ w ∈ wheelSize, 0 < w) :
    ValidSizes (wheelSize.take (i + 1)) := by
  apply validSizes_of_forall
  · intro hnil
    have hlen := congrArg List.length hnil
    rw [List.length_take, List.length_nil] at hlen
    have := h.length_lt
    omega
  · exact fun w hw => hpos w (List.mem_of_mem_take hw)
  · intro j hj
    rw [List.getElem?_take] at hj
    split at hj
    · exact h.ne_one j (by omega) hj
    · cases hj

theorem startDigits_eq (h : FirstOneSlot wheelSize i) :
    startDigits wheelSize = startDigits (wheelSize.take (i + 1)) ++
      ⟨1, 1⟩ :: (wheelSize.drop (i + 2)).map fun v => ⟨1, v⟩ := by
  obtain ⟨hlt, hget⟩ := List.getElem?_eq_some_iff.mp h.size_eq
  cases wheelSize with
  | nil => simp at hlt
  | cons w ws =>
    simp only [List.length_cons, List.getElem_cons_succ] at hlt hget
    have hdrop := List.take_append_drop i ws
    rw [List.drop_eq_getElem_cons (Nat.lt_of_succ_lt_succ hlt), hget] at hdrop
    nth_rewrite 1 [← hdrop]
    simp [startDigits]

theorem S_take (i : ℕ) : S (wheelSize.take (i + 1)) i = S wheelSize i := by
  rw [S, S, List.take_take, Nat.min_self]

theorem ahead_take (i : ℕ) : ahead (wheelSize.take (i + 1)) i = ahead wheelSize i := by
  apply Finset.sum_congr rfl
  intro j hj
  have hlt := Finset.mem_range.mp hj
  rw [S, S, List.take_take, Nat.min_eq_left (by omega)]

/-- The wheels below carry for the first time with the tick `S_i - ahead_i`. -/
theorem carries_iff (h : FirstOneSlot wheelSize i) (hpos : ∀ w ∈ wheelSize, 0 < w) (k : ℕ) :
    Carries (after (startDigits (wheelSize.take (i + 1))) k)
        (startDigits (wheelSize.take (i + 1))).length ↔
      S wheelSize i ∣ k + 1 + ahead wheelSize i := by
  have hlen : (startDigits (wheelSize.take (i + 1))).length = i + 1 := by
    rw [length_startDigits, List.length_take]
    have := h.length_lt
    omega
  have hi : i < (wheelSize.take (i + 1)).length := by
    rw [← length_startDigits, hlen]
    exact Nat.lt_succ_self i
  rw [hlen, carries_after_iff (startDigits_proper (h.validSizes_take hpos)), span_startDigits hi,
    lead_startDigits hi, S_take, ahead_take]

/-- Until then the digits from the wheel on stay where they are. -/
theorem iterate_advance (h : FirstOneSlot wheelSize i) (hpos : ∀ w ∈ wheelSize, 0 < w)
    (hn : n + ahead wheelSize i < S wheelSize i) :
    advance^[n] (startDigits wheelSize) = after (startDigits (wheelSize.take (i + 1))) n ++
      ⟨1, 1⟩ :: (wheelSize.drop (i + 2)).map fun v => ⟨1, v⟩ := by
  rw [h.startDigits_eq]
  apply iterate_advance_append (startDigits_proper (h.validSizes_take hpos))
  intro k hk hcarries
  have hdvd := (h.carries_iff hpos k).mp hcarries
  have := Nat.le_of_dvd (by omega) hdvd
  omega

/-- An advance before the first carry moves only the digits below, which are on their dials. -/
theorem movesInBounds (h : FirstOneSlot wheelSize i) (hpos : ∀ w ∈ wheelSize, 0 < w)
    (hn : n + 1 + ahead wheelSize i < S wheelSize i) :
    MovesInBounds (advance^[n] (startDigits wheelSize)) := by
  rw [h.iterate_advance hpos (by omega)]
  intro j d hj hd
  rcases Nat.lt_or_ge j (after (startDigits (wheelSize.take (i + 1))) n).length with hlt | hge
  · rw [List.getElem?_append_left hlt] at hd
    exact (startDigits_proper (h.validSizes_take hpos)).after n d (List.mem_of_getElem? hd)
  · have hcarries := (carries_append (Nat.le_refl _)).mp (hj.of_le hge)
    rw [length_after, h.carries_iff hpos] at hcarries
    have := Nat.le_of_dvd (by omega) hcarries
    omega

/-- The first carry moves the digit of the wheel, which is not on its dial. -/
theorem not_movesInBounds (h : FirstOneSlot wheelSize i) (hpos : ∀ w ∈ wheelSize, 0 < w)
    (hn : n + 1 + ahead wheelSize i = S wheelSize i) :
    ¬ MovesInBounds (advance^[n] (startDigits wheelSize)) := by
  rw [h.iterate_advance hpos (by omega)]
  intro hin
  have hcarries : Carries (after (startDigits (wheelSize.take (i + 1))) n)
      (after (startDigits (wheelSize.take (i + 1))) n).length := by
    rw [length_after, h.carries_iff hpos, hn]
  have hlt := hin _ ⟨1, 1⟩ ((carries_append (Nat.le_refl _)).mpr hcarries)
    (by rw [List.getElem?_append_right (Nat.le_refl _), Nat.sub_self]; rfl)
  exact Nat.lt_irrefl 1 hlt

theorem ahead_lt (h : FirstOneSlot wheelSize i) (hpos : ∀ w ∈ wheelSize, 0 < w) :
    ahead wheelSize i < S wheelSize i := by
  have hi : i < (wheelSize.take (i + 1)).length := by
    rw [List.length_take]
    have := h.length_lt
    omega
  have hlt := (h.validSizes_take hpos).ahead_lt hi
  rwa [S_take, ahead_take] at hlt

/-- The advances are in bounds until the first carry. -/
theorem forall_movesInBounds_iff (h : FirstOneSlot wheelSize i) (hpos : ∀ w ∈ wheelSize, 0 < w) :
    (∀ k < n, MovesInBounds (advance^[k] (startDigits wheelSize))) ↔
      n + ahead wheelSize i < S wheelSize i := by
  have hlt := h.ahead_lt hpos
  constructor
  · intro hall
    by_contra hge
    -- the advance that carries first is among the `n`
    have hk : S wheelSize i - ahead wheelSize i - 1 < n := by omega
    exact h.not_movesInBounds hpos (by omega) (hall _ hk)
  · intro hn k hk
    exact h.movesInBounds hpos (by omega)

end FirstOneSlot

/-- With valid sizes every advance is in bounds. -/
theorem ValidSizes.movesInBounds (hv : ValidSizes wheelSize) (k : ℕ) :
    MovesInBounds (advance^[k] (startDigits wheelSize)) := by
  have hiter := iterate_advance_after (startDigits_proper hv) 0 k
  rw [(startDigits_proper hv).after_zero] at hiter
  rw [hiter]
  exact movesInBounds_of_proper ((startDigits_proper hv).after _)

theorem forall_movesInBounds_iff (hne : wheelSize ≠ []) (hpos : ∀ w ∈ wheelSize, 0 < w) :
    (∀ k < n, MovesInBounds (advance^[k] (startDigits wheelSize))) ↔
      ∀ i, FirstOneSlot wheelSize i → n + ahead wheelSize i < S wheelSize i := by
  by_cases hex : ∃ i, wheelSize[i + 1]? = some 1
  · obtain ⟨i, hi⟩ := exists_firstOneSlot hex
    rw [hi.forall_movesInBounds_iff hpos]
    constructor
    · intro hn j hj
      have hij : i = j := by
        rcases Nat.lt_trichotomy i j with hlt | heq | hgt
        · exact absurd hi.size_eq (hj.ne_one i hlt)
        · exact heq
        · exact absurd hj.size_eq (hi.ne_one j hgt)
      rwa [← hij]
    · intro hall
      exact hall i hi
  · have hv := validSizes_of_forall hne hpos fun i hi => hex ⟨i, hi⟩
    constructor
    · intro _ i hi
      exact absurd ⟨i, hi.size_eq⟩ hex
    · intro _ k _
      exact hv.movesInBounds k

/-- **Ticks are in bounds exactly up to the first `Tick` of a later wheel of one slot.** After
`Initialize`, and without any task, `n` ticks index no wheel out of range, if and only if the first
such wheel `i + 1`, if there is one, has its first `Tick`, with the tick `S_i - ahead_i`, after
them. -/
theorem ticks_in_bounds_iff {options : Options} (hne : options.wheelSize ≠ [])
    (hpos : ∀ w ∈ options.wheelSize, 0 < w) (n : ℕ) :
    (TimeWheelExecutor.initialized options : TimeWheelExecutor Task).timerTicks n ≠
        .error .outOfRange ↔
      ∀ i, FirstOneSlot options.wheelSize i →
        n + ahead options.wheelSize i < S options.wheelSize i := by
  rw [← forall_movesInBounds_iff hne hpos]
  rcases (TimeWheelExecutor.idle_initialized hne).timerTicks n with ⟨hin, s, hs, -⟩ | ⟨hnot, hs⟩
  · rw [hs]
    exact iff_of_true (by simp) hin
  · rw [hs]
    exact iff_of_false (by simp) hnot

/-- Wheels of two, three and one slots: the last is ticked first with the fourth tick. -/
theorem ticks_in_bounds_iff_three :
    (TimeWheelExecutor.initialized { wheelSize := [2, 3, 1] } :
        TimeWheelExecutor Unit).timerTicks 3 ≠ .error .outOfRange ↔
      ∀ i, FirstOneSlot [2, 3, 1] i → 3 + ahead [2, 3, 1] i < S [2, 3, 1] i :=
  ticks_in_bounds_iff (by decide) (by decide) 3

/-- With two wheels of one slot, the first tick is out of range. -/
theorem first_tick_out_of_range :
    (TimeWheelExecutor.initialized { wheelSize := [1, 1] } : TimeWheelExecutor Unit).timerTicks 1 =
      .error .outOfRange := rfl

/-- All ticks are in bounds exactly if every later wheel has two slots at least. -/
theorem ticks_in_bounds_forall_iff {options : Options} (hne : options.wheelSize ≠ [])
    (hpos : ∀ w ∈ options.wheelSize, 0 < w) :
    (∀ n, (TimeWheelExecutor.initialized options : TimeWheelExecutor Task).timerTicks n ≠
        .error .outOfRange) ↔ ValidSizes options.wheelSize := by
  constructor
  · intro hall
    apply validSizes_of_forall hne hpos
    intro i hi
    obtain ⟨j, hj⟩ := exists_firstOneSlot ⟨i, hi⟩
    rcases (TimeWheelExecutor.idle_initialized hne : TimeWheelExecutor.Idle _
      (TimeWheelExecutor.initialized options : TimeWheelExecutor Task)).timerTicks
      (S options.wheelSize j) with ⟨hin, -⟩ | ⟨-, hs⟩
    · have hlt := (hj.forall_movesInBounds_iff hpos).mp hin
      omega
    · exact hall _ hs
  · intro hv n
    rcases (TimeWheelExecutor.idle_initialized hne : TimeWheelExecutor.Idle _
      (TimeWheelExecutor.initialized options : TimeWheelExecutor Task)).timerTicks n with
      ⟨-, s, hs, -⟩ | ⟨hnot, -⟩
    · rw [hs]
      simp
    · exact absurd (fun k _ => hv.movesInBounds k) hnot

end Ados.TimeWheel
