import Ados.TimeWheel.Ticks
import Mathlib.Algebra.BigOperators.Intervals
import Mathlib.Algebra.BigOperators.Ring.Finset
import Mathlib.Algebra.Order.BigOperators.GroupWithZero.List

/-!
# The odometer law of the wheels

Whatever the slots hold, the positions of the wheels are those of an odometer whose first digit
starts at `0` and whose other digits start at `1`: the wheel `i` is ahead of the multiples of
`S_{i-1} = w_0 * ... * w_{i-1}` by `S_0 + ... + S_{i-2}` ticks, and the cursor of the map is the
digit after the last.

## Main definitions

* `startDigits wheelSize`: the positions left by `Initialize`
* `S wheelSize k`: the product of the first `k + 1` sizes
* `ahead wheelSize i`: the sum of `S_0, ..., S_{i-1}`
* `WheelRun options n k s`: `s` is reached by `n` ticks of the first wheel, of which `k i` ticked
  the wheel `i`, with any filing and refilling in between

## Main results

* `WheelRun.aligned`: the wheels of a run are an odometer
* `odometer_law`: ticks, positions and the cursor of the map in closed form
-/

namespace Ados.TimeWheel

open Odometer

variable {Task : Type}

/-! ## Products of sizes -/

/-- `S_k = w_0 * ... * w_k`: the number of ticks in one turn of the wheels up to `k`. -/
def S (wheelSize : List ℕ) (k : ℕ) : ℕ := (wheelSize.take (k + 1)).prod

/-- How far the wheel `i + 1` runs ahead of the multiples of `S_i`: `S_0 + ... + S_{i-1}`. -/
def ahead (wheelSize : List ℕ) (i : ℕ) : ℕ := ∑ j ∈ Finset.range i, S wheelSize j

theorem S_cons_succ (w : ℕ) (wheelSize : List ℕ) (k : ℕ) :
    S (w :: wheelSize) (k + 1) = w * S wheelSize k := by
  simp [S]

theorem S_zero (w : ℕ) (wheelSize : List ℕ) : S (w :: wheelSize) 0 = w := by
  simp [S]

/-- The sizes, when the first one is known. -/
theorem exists_eq_cons {wheelSize : List ℕ} {w : ℕ} (h : wheelSize[0]? = some w) :
    ∃ ws, wheelSize = w :: ws :=
  List.head?_eq_some_iff.mp (List.head?_eq_getElem? ▸ h)

theorem S_succ {wheelSize : List ℕ} {k w : ℕ} (h : wheelSize[k + 1]? = some w) :
    S wheelSize (k + 1) = S wheelSize k * w := by
  have htake : wheelSize.take (k + 1 + 1) = wheelSize.take (k + 1) ++ [w] := by
    rw [List.take_add_one, h]
    rfl
  rw [S, htake, List.prod_append, List.prod_singleton]
  rfl

theorem ahead_succ (wheelSize : List ℕ) (i : ℕ) :
    ahead wheelSize (i + 1) = ahead wheelSize i + S wheelSize i :=
  Finset.sum_range_succ _ _

@[simp] theorem ahead_zero (wheelSize : List ℕ) : ahead wheelSize 0 = 0 := rfl

theorem ahead_cons_succ (w : ℕ) (wheelSize : List ℕ) (i : ℕ) :
    ahead (w :: wheelSize) (i + 1) = w + w * ahead wheelSize i := by
  simp only [ahead, Finset.sum_range_succ', S_zero, S_cons_succ, Finset.mul_sum]
  exact add_comm _ _

namespace ValidSizes

variable {wheelSize : List ℕ}

theorem single {w : ℕ} (hw : 0 < w) : ValidSizes [w] := ⟨by simp, by simpa using hw, by simp⟩

theorem pos (h : ValidSizes wheelSize) : ∀ w ∈ wheelSize, 0 < w := by
  intro w hw
  cases wheelSize with
  | nil => simp at hw
  | cons v ws =>
    rcases List.mem_cons.mp hw with rfl | hw
    · exact h.head_pos w rfl
    · have := h.tail_two w hw
      omega

theorem two_le (h : ValidSizes wheelSize) {i w : ℕ} (hi : wheelSize[i + 1]? = some w) : 2 ≤ w := by
  cases wheelSize with
  | nil => simp at hi
  | cons v ws => exact h.tail_two w (List.mem_of_getElem? (by simpa using hi))

theorem S_pos (h : ValidSizes wheelSize) (k : ℕ) : 0 < S wheelSize k :=
  List.prod_pos fun w hw => h.pos w (List.mem_of_mem_take hw)

/-- A wheel is ahead by less than one turn of the wheels below it. -/
theorem ahead_lt (h : ValidSizes wheelSize) {i : ℕ} (hi : i < wheelSize.length) :
    ahead wheelSize i < S wheelSize i := by
  induction i with
  | zero => exact h.S_pos 0
  | succ i ih =>
    have hw := List.getElem?_eq_getElem hi
    have h2 := h.two_le hw
    have := ih (by omega)
    rw [ahead_succ, S_succ hw]
    -- the lead grows by one turn, the turn at least doubles
    calc ahead wheelSize i + S wheelSize i < S wheelSize i * 2 := by omega
      _ ≤ S wheelSize i * wheelSize[i + 1] := Nat.mul_le_mul_left _ h2

end ValidSizes

/-! ## The positions left by `Initialize` -/

/-- The positions left by `Initialize`: the first wheel at `0`, every other one at `1`. -/
def startDigits : List ℕ → List Digit
  | [] => []
  | w :: wheelSize => ⟨0, w⟩ :: wheelSize.map fun v => ⟨1, v⟩

theorem digits_makeWheels_one (curScale : ℕ) (wheelSize : List ℕ) :
    digits (makeWheels 1 curScale wheelSize : List (TimingWheelTool Task)) =
      wheelSize.map fun v => ⟨1, v⟩ := by
  induction wheelSize generalizing curScale with
  | nil => rfl
  | cons w ws ih => simp [makeWheels, ih]

theorem digits_makeWheels (wheelSize : List ℕ) :
    digits (makeWheels 0 1 wheelSize : List (TimingWheelTool Task)) = startDigits wheelSize := by
  cases wheelSize with
  | nil => rfl
  | cons w ws => simp [makeWheels, startDigits, digits_makeWheels_one]

@[simp] theorem length_startDigits (wheelSize : List ℕ) :
    (startDigits wheelSize).length = wheelSize.length := by
  cases wheelSize <;> simp [startDigits]

theorem startDigits_proper {wheelSize : List ℕ} (h : ValidSizes wheelSize) :
    Proper (startDigits wheelSize) := by
  cases wheelSize with
  | nil => exact fun d hd => absurd hd (by simp [startDigits])
  | cons w ws =>
    intro d hd
    rcases List.mem_cons.mp hd with rfl | hd
    · exact h.head_pos w rfl
    · obtain ⟨v, hv, rfl⟩ := List.mem_map.mp hd
      exact h.tail_two v hv

theorem getElem?_startDigits_zero (wheelSize : List ℕ) :
    (startDigits wheelSize)[0]? = wheelSize[0]?.map fun v => ⟨0, v⟩ := by
  cases wheelSize <;> simp [startDigits]

theorem getElem?_startDigits_succ (wheelSize : List ℕ) (i : ℕ) :
    (startDigits wheelSize)[i + 1]? = wheelSize[i + 1]?.map fun v => ⟨1, v⟩ := by
  cases wheelSize <;> simp [startDigits]

/-- The span of a digit is the product of the sizes below it. -/
theorem span_map_one (wheelSize : List ℕ) (i : ℕ) (hi : i ≤ wheelSize.length) :
    span (wheelSize.map fun v => (⟨1, v⟩ : Digit)) i = (wheelSize.take i).prod := by
  induction wheelSize generalizing i with
  | nil =>
    obtain rfl : i = 0 := by simpa using hi
    simp
  | cons w ws ih =>
    cases i with
    | zero => simp
    | succ i => simp [span, ih i (by simpa using hi)]

theorem span_startDigits {wheelSize : List ℕ} {i : ℕ} (hi : i < wheelSize.length) :
    span (startDigits wheelSize) (i + 1) = S wheelSize i := by
  cases wheelSize with
  | nil => simp at hi
  | cons w ws =>
    have hle : i ≤ ws.length := by simpa using Nat.le_of_lt_succ hi
    simp [startDigits, span, S, span_map_one ws i hle]

theorem lead_map_one (wheelSize : List ℕ) (i : ℕ) (hi : i < wheelSize.length) :
    lead (wheelSize.map fun v => (⟨1, v⟩ : Digit)) (i + 1) = 1 + ahead wheelSize i := by
  induction wheelSize generalizing i with
  | nil => simp at hi
  | cons w ws ih =>
    cases i with
    | zero => simp [lead]
    | succ i =>
      rw [List.map_cons, lead, ih i (by simpa using hi), ahead_cons_succ]
      ring

theorem lead_startDigits {wheelSize : List ℕ} {i : ℕ} (hi : i < wheelSize.length) :
    lead (startDigits wheelSize) (i + 1) = ahead wheelSize i := by
  cases wheelSize with
  | nil => simp at hi
  | cons w ws =>
    cases i with
    | zero => simp [startDigits, lead]
    | succ i =>
      rw [startDigits, lead, lead_map_one ws i (by simpa using hi), ahead_cons_succ]
      ring

/-- The wheel `i + 1` has been ticked `(n + S_0 + ... + S_{i-1}) / S_i` times after `n` ticks; for
the last `i` this counts the moves of the map cursor. -/
theorem turns_startDigits {wheelSize : List ℕ} (h : ValidSizes wheelSize) (n : ℕ) {i : ℕ}
    (hi : i < wheelSize.length) :
    turns (startDigits wheelSize) n (i + 1) = (n + ahead wheelSize i) / S wheelSize i := by
  rw [turns_eq (startDigits_proper h), span_startDigits hi, lead_startDigits hi]

/-! ## Filing moves no cursor -/

theorem digits_set {vec : List (TimingWheelTool Task)} {ii : ℕ} {w w' : TimingWheelTool Task}
    (h : vec[ii]? = some w) (hpos : w'.currentPos = w.currentPos)
    (hlen : w'.wheel.length = w.wheel.length) : digits (vec.set ii w') = digits vec :=
  Bag.map_set_of_eq h (by rw [hpos, hlen])

/-- Filing a task moves no cursor. -/
theorem put_digits {vec vec' : List (TimingWheelTool Task)} {m m' : TimingTaskMap Task}
    {place : Place} {e : TaskWithTimestamp Task} (h : put vec m place e = .ok (vec', m')) :
    digits vec' = digits vec ∧ m'.pos = m.pos := by
  cases place with
  | map key =>
    cases h
    exact ⟨rfl, rfl⟩
  | slot ii pos =>
    simp only [put] at h
    split at h
    · exact absurd h (by simp)
    · next w hw =>
      obtain ⟨v, hv, h⟩ := bind_eq_ok.mp h
      cases h
      obtain ⟨l, -, rfl⟩ := TimingWheelTool.emplaceBack_eq_ok.mp hv
      exact ⟨digits_set hw rfl (by simp), rfl⟩

theorem executeAt_digits {s s' : TimeWheelExecutor Task} {tp : ℤ} {task : Task}
    {r : Option (TaskWithTimestamp Task)} (h : s.executeAt tp task = .ok (r, s')) :
    digits s'.timingWheelVec = digits s.timingWheelVec ∧
      s'.timingTaskMap.pos = s.timingTaskMap.pos := by
  unfold TimeWheelExecutor.executeAt at h
  dsimp only at h
  split at h
  · cases h
    exact ⟨rfl, rfl⟩
  · split at h
    · exact absurd h (by simp)
    · obtain ⟨place, -, h⟩ := bind_eq_ok.mp h
      obtain ⟨⟨vec, m⟩, hput, h⟩ := bind_eq_ok.mp h
      cases h
      exact put_digits hput

/-! ## Runs -/

/-- `s` is reached from the state left by `Initialize` by `n` ticks of the first wheel, of which
`k i` ticked the wheel `i`. In between, `ExecuteAt` may be called with any argument, and slots and
map may be given any contents. -/
inductive WheelRun (options : Options) : ℕ → (ℕ → ℕ) → TimeWheelExecutor Task → Prop
  | init : WheelRun options 0 (fun _ => 0) (.initialized options)
  | executeAt {n k s s' tp task r} : WheelRun options n k s →
      s.executeAt tp task = .ok (r, s') → WheelRun options n k s'
  | refill {n k s s'} : WheelRun options n k s →
      digits s'.timingWheelVec = digits s.timingWheelVec →
      s'.timingTaskMap.pos = s.timingTaskMap.pos → WheelRun options n k s'
  | tick {n k s s' taskList} :
      WheelRun options n k s → s.takeTick = .ok (taskList, s') →
      WheelRun options (n + 1)
        (fun i => k i + if Ticked s.timingWheelVec i then 1 else 0) s'

/-- The wheels and the map cursor are where `n` ticks bring them. -/
structure Aligned (wheelSize : List ℕ) (n : ℕ) (vec : List (TimingWheelTool Task))
    (m : TimingTaskMap Task) : Prop where
  digits : digits vec = after (startDigits wheelSize) n
  pos : m.pos = 1 + turns (startDigits wheelSize) n wheelSize.length

namespace Aligned

variable {wheelSize : List ℕ} {n : ℕ} {vec vec' : List (TimingWheelTool Task)}
  {m m' : TimingTaskMap Task} {taskList : TaskList Task}

theorem length (h : Aligned wheelSize n vec m) : vec.length = wheelSize.length := by
  have := congrArg List.length h.digits
  simpa using this

theorem initialized {options : Options} (hv : ValidSizes options.wheelSize) :
    Aligned options.wheelSize 0
      (TimeWheelExecutor.initialized options : TimeWheelExecutor Task).timingWheelVec
      (TimeWheelExecutor.initialized options : TimeWheelExecutor Task).timingTaskMap := by
  constructor
  · rw [(startDigits_proper hv).after_zero]
    exact digits_makeWheels _
  · -- the last wheel has not turned yet, although it started ahead
    obtain ⟨i, hi⟩ := Nat.exists_eq_succ_of_ne_zero
      (show options.wheelSize.length ≠ 0 by simpa using hv.ne_nil)
    rw [hi, turns_startDigits hv 0 (by omega), Nat.zero_add,
      Nat.div_eq_of_lt (hv.ahead_lt (by omega))]
    rfl

theorem congr (h : Aligned wheelSize n vec m) (hd : TimeWheel.digits vec' = TimeWheel.digits vec)
    (hp : m'.pos = m.pos) : Aligned wheelSize n vec' m' :=
  ⟨hd.trans h.digits, hp.trans h.pos⟩

theorem tick (hv : ValidSizes wheelSize) (h : Aligned wheelSize n vec m)
    (ht : Ticks vec m taskList vec' m') : Aligned wheelSize (n + 1) vec' m' := by
  constructor
  · rw [ht.digits, h.digits, advance_after (startDigits_proper hv)]
  · rw [ht.pos, h.pos, h.digits, h.length, turns_succ (startDigits_proper hv), Nat.add_assoc]

/-- The wheel `i`: its position, and its number of slots. -/
theorem getElem? (h : Aligned wheelSize n vec m) (i : ℕ) :
    (vec[i]?.map fun w => (⟨w.currentPos, w.wheel.length⟩ : Digit)) =
      (startDigits wheelSize)[i]?.map fun d =>
        ⟨(d.pos + turns (startDigits wheelSize) n i) % d.size, d.size⟩ := by
  rw [← getElem?_after, ← h.digits, TimeWheel.digits, List.getElem?_map]

theorem head (h : Aligned wheelSize n vec m) {w₀ : ℕ} (hw : wheelSize[0]? = some w₀) :
    ∃ w, vec[0]? = some w ∧ w.currentPos = n % w₀ ∧ w.wheel.length = w₀ := by
  have hd := h.getElem? 0
  rw [getElem?_startDigits_zero, hw] at hd
  obtain ⟨w, hw, heq⟩ := Option.map_eq_some_iff.mp hd
  obtain ⟨hpos, hlen⟩ := Digit.mk.inj heq
  exact ⟨w, hw, by simpa using hpos, hlen⟩

theorem upper (h : Aligned wheelSize n vec m) {i size : ℕ} (hw : wheelSize[i + 1]? = some size) :
    ∃ w, vec[i + 1]? = some w ∧ w.wheel.length = size ∧
      w.currentPos = (1 + turns (startDigits wheelSize) n (i + 1)) % size := by
  have hd := h.getElem? (i + 1)
  rw [getElem?_startDigits_succ, hw] at hd
  obtain ⟨w, hw, heq⟩ := Option.map_eq_some_iff.mp hd
  obtain ⟨hpos, hlen⟩ := Digit.mk.inj heq
  exact ⟨w, hw, hlen, hpos⟩

theorem currentPos_lt (hv : ValidSizes wheelSize) (h : Aligned wheelSize n vec m) :
    ∀ w ∈ vec, w.currentPos < w.wheel.length := by
  intro w hw
  have hmem : (⟨w.currentPos, w.wheel.length⟩ : Digit) ∈ after (startDigits wheelSize) n := by
    rw [← h.digits]
    exact List.mem_map_of_mem hw
  exact (startDigits_proper hv).after n _ hmem

end Aligned

theorem ticks_of_takeTick {s s' : TimeWheelExecutor Task} {taskList : TaskList Task}
    (h : s.takeTick = .ok (taskList, s')) :
    Ticks s.timingWheelVec s.timingTaskMap taskList s'.timingWheelVec s'.timingTaskMap ∧
      s' = { s with timingWheelVec := s'.timingWheelVec, timingTaskMap := s'.timingTaskMap } := by
  obtain ⟨⟨l, vec, m⟩, ht, h⟩ := bind_eq_ok.mp h
  cases h
  exact ⟨ticks_of_tick ht, rfl⟩

section Law

variable {options : Options} {n : ℕ} {k : ℕ → ℕ} {s : TimeWheelExecutor Task}

theorem WheelRun.aligned (hv : ValidSizes options.wheelSize) (h : WheelRun options n k s) :
    Aligned options.wheelSize n s.timingWheelVec s.timingTaskMap ∧
      ∀ i < options.wheelSize.length, k i = turns (startDigits options.wheelSize) n i := by
  induction h with
  | init =>
    refine ⟨.initialized hv, ?_⟩
    intro i hi
    cases i with
    | zero => simp
    | succ i =>
      rw [turns_startDigits hv 0 (by omega), Nat.zero_add,
        Nat.div_eq_of_lt (hv.ahead_lt (by omega))]
  | executeAt _ he ih =>
    obtain ⟨hd, hp⟩ := executeAt_digits he
    exact ⟨ih.1.congr hd hp, ih.2⟩
  | refill _ hd hp ih => exact ⟨ih.1.congr hd hp, ih.2⟩
  | tick _ ht ih =>
    obtain ⟨ha, hk⟩ := ih
    refine ⟨ha.tick hv (ticks_of_takeTick ht).1, ?_⟩
    intro i hi
    simp only [ticked_iff_carries, ha.length, hi, true_and, ha.digits]
    rw [hk i hi, turns_succ (startDigits_proper hv)]

/-- **The odometer law.** After `n` ticks of the first wheel the wheel `i ≥ 1` has been ticked
`k_i = (n + ∑_{1 ≤ j < i} S_{j-1}) / S_{i-1}` times and stands at `(k_i + 1) mod w_i`, the first
wheel stands at `n mod w_0`, every position is on its wheel, and the cursor of the map has passed
`1` by the number of turns of the last wheel. -/
theorem odometer_law (hv : ValidSizes options.wheelSize) (h : WheelRun options n k s) :
    (∀ i size, 1 ≤ i → options.wheelSize[i]? = some size →
      k i = (n + ∑ j ∈ Finset.Ico 1 i, S options.wheelSize (j - 1)) /
        S options.wheelSize (i - 1) ∧
      s.timingWheelVec[i]?.map (·.currentPos) = some ((k i + 1) % size)) ∧
    (∀ size, options.wheelSize[0]? = some size →
      s.timingWheelVec[0]?.map (·.currentPos) = some (n % size)) ∧
    (∀ w ∈ s.timingWheelVec, w.currentPos < w.wheel.length) ∧
    (∀ size, options.wheelSize = [size] → s.timingTaskMap.pos = 1 + n / size) ∧
    (∀ i size, 1 ≤ i → i + 1 = options.wheelSize.length → options.wheelSize[i]? = some size →
      s.timingTaskMap.pos = 1 + (k i + 1) / size) := by
  obtain ⟨ha, hk⟩ := h.aligned hv
  refine ⟨?_, ?_, ha.currentPos_lt hv, ?_, ?_⟩
  · intro i size hi hsize
    obtain ⟨i, rfl⟩ := Nat.exists_eq_add_of_le' hi
    obtain ⟨hlt, -⟩ := List.getElem?_eq_some_iff.mp hsize
    obtain ⟨w, hw, -, hpos⟩ := ha.upper hsize
    have hsum : ∑ j ∈ Finset.Ico 1 (i + 1), S options.wheelSize (j - 1) =
        ahead options.wheelSize i := by
      simp [Finset.sum_Ico_eq_sum_range, ahead]
    constructor
    · rw [hk _ hlt, turns_startDigits hv n (by omega), hsum, Nat.add_sub_cancel]
    · rw [hw, hk _ hlt, Nat.add_comm]
      exact congrArg some hpos
  · intro size hsize
    obtain ⟨w, hw, hpos, -⟩ := ha.head hsize
    rw [hw]
    exact congrArg some hpos
  · intro size hsize
    rw [ha.pos, hsize, show [size].length = 0 + 1 from rfl, ← hsize,
      turns_startDigits hv n (by simp [hsize]), ahead_zero, Nat.add_zero, hsize, S_zero]
  · intro i size hi hlen hsize
    obtain ⟨i, rfl⟩ := Nat.exists_eq_add_of_le' hi
    have hd : (startDigits options.wheelSize)[i + 1]? = some ⟨1, size⟩ := by
      rw [getElem?_startDigits_succ, hsize]
      rfl
    rw [ha.pos, ← hlen, turns_succ_eq hd, hk _ (by omega), Nat.add_comm (turns _ n (i + 1)) 1]

/-- Two ticks of wheels of two and three slots: the second one ticks the second wheel. -/
theorem odometer_law_two_wheels :
    ∃ (k : ℕ → ℕ) (s : TimeWheelExecutor Unit),
      WheelRun { dt := 1, wheelSize := [2, 3] } 2 k s ∧
      k 1 = (2 + ∑ j ∈ Finset.Ico 1 1, S [2, 3] (j - 1)) / S [2, 3] 0 ∧
      s.timingWheelVec[1]?.map (·.currentPos) = some ((k 1 + 1) % 3) := by
  have h : (((TimeWheelExecutor.initialized { dt := 1, wheelSize := [2, 3] } :
      TimeWheelExecutor Unit).takeTick.toOption.bind fun r =>
        r.2.takeTick.toOption).isSome) = true := by
    decide +kernel
  obtain ⟨⟨l₂, s₂⟩, h⟩ := Option.isSome_iff_exists.mp h
  obtain ⟨⟨l₁, s₁⟩, h₁, h₂⟩ := Option.bind_eq_some_iff.mp h
  have hok : ∀ {α : Type} {x : Except Fault α} {a : α}, x.toOption = some a → x = .ok a := by
    intro α x a hx
    cases x <;> simp_all [Except.toOption]
  have hrun := WheelRun.tick (WheelRun.tick .init (hok h₁)) (hok h₂)
  obtain ⟨hk, hpos⟩ := (odometer_law ⟨by simp, by simp, by simp⟩ hrun).1 1 3 (by decide) rfl
  exact ⟨_, s₂, hrun, hk, hpos⟩

end Law

end Ados.TimeWheel
