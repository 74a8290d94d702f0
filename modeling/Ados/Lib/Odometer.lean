import Mathlib.Algebra.BigOperators.Group.Finset.Basic
import Mathlib.Algebra.Order.Group.Nat
import Mathlib.Data.List.Basic
import Mathlib.Tactic.Ring

/-!
# Odometers

An odometer is a list of digits, each with a position on a dial of its own size. One advance moves
the first digit by one place; a digit that reaches its size goes back to `0` and advances the next
one. The digits may start at any position, so a later digit need not turn over together with the
product of the sizes below it: it is ahead by its `lead`.

## Main definitions

* `advance ds`: one advance of the first digit, with its carries
* `Carries ds i`: the next advance moves digit `i` (for `i = ds.length`: it runs over the end)
* `Leaves ds i p`: the next advance moves digit `i` away from the place `p`
* `turns ds n i`: how often digit `i` is moved by `n` advances
* `after ds n`: the odometer after `n` advances, digit by digit
* `span ds i`, `lead ds i`: the product of the sizes below `i`, and how far digit `i` is ahead

## Main results

* `advance_after`: the closed form is kept by an advance
* `turns_succ`: digit `i` is moved by the advances that carry into it and by no other
* `turns_eq`: `turns ds n i = (n + lead ds i) / span ds i`
* `carries_after_iff`: an advance carries into `i` when it completes a multiple of `span ds i`
* `leaves_after_iff`: an advance that carries into `i` moves it from the place of its number of
  moves
* `iterate_advance_append`: digits that have not carried yet leave those behind them alone
-/

/-- A digit: a position on a dial of `size` places. -/
structure Digit where
  pos : ℕ
  size : ℕ
  deriving DecidableEq, Repr

namespace Odometer

/-- One advance of the first digit, with its carries. -/
def advance : List Digit → List Digit
  | [] => []
  | d :: ds =>
    if d.pos + 1 = d.size then ⟨0, d.size⟩ :: advance ds else ⟨d.pos + 1, d.size⟩ :: ds

/-- The next advance moves digit `i`: every digit below it is at its last place. -/
def Carries : List Digit → ℕ → Prop
  | _, 0 => True
  | [], _ + 1 => False
  | d :: ds, i + 1 => d.pos + 1 = d.size ∧ Carries ds i

instance decidableCarries : ∀ (ds : List Digit) (i : ℕ), Decidable (Carries ds i)
  | [], 0 => isTrue trivial
  | _ :: _, 0 => isTrue trivial
  | [], _ + 1 => isFalse id
  | d :: ds, i + 1 =>
    have := decidableCarries ds i
    inferInstanceAs (Decidable (d.pos + 1 = d.size ∧ Carries ds i))

/-- The next advance moves digit `i` away from the place `p`. -/
def Leaves (ds : List Digit) (i p : ℕ) : Prop := Carries ds i ∧ ds[i]?.map (·.pos) = some p

/-- How often digit `i` is moved by `n` advances. -/
def turns : List Digit → ℕ → ℕ → ℕ
  | _, n, 0 => n
  | [], _, _ + 1 => 0
  | d :: ds, n, i + 1 => turns ds ((d.pos + n) / d.size) i

/-- The odometer after `n` advances. -/
def after : List Digit → ℕ → List Digit
  | [], _ => []
  | d :: ds, n => ⟨(d.pos + n) % d.size, d.size⟩ :: after ds ((d.pos + n) / d.size)

/-- Every digit is on its dial. -/
def Proper (ds : List Digit) : Prop := ∀ d ∈ ds, d.pos < d.size

/-- The number of advances between two moves of digit `i`. -/
def span : List Digit → ℕ → ℕ
  | _, 0 => 1
  | [], _ + 1 => 0
  | d :: ds, i + 1 => d.size * span ds i

/-- How many advances digit `i` is ahead of the multiples of its span. -/
def lead : List Digit → ℕ → ℕ
  | _, 0 => 0
  | [], _ + 1 => 0
  | d :: ds, i + 1 => d.pos + d.size * lead ds i

section Lemmas

variable {d : Digit} {ds : List Digit} {n i : ℕ}

@[simp] theorem carries_zero : Carries ds 0 := by cases ds <;> trivial

@[simp] theorem carries_cons_succ :
    Carries (d :: ds) (i + 1) ↔ d.pos + 1 = d.size ∧ Carries ds i := Iff.rfl

@[simp] theorem turns_zero : turns ds n 0 = n := by cases ds <;> rfl

@[simp] theorem turns_cons_succ :
    turns (d :: ds) n (i + 1) = turns ds ((d.pos + n) / d.size) i := rfl

@[simp] theorem after_nil : after [] n = [] := rfl

@[simp] theorem span_zero : span ds 0 = 1 := by cases ds <;> rfl

@[simp] theorem lead_zero : lead ds 0 = 0 := by cases ds <;> rfl

@[simp] theorem length_after : (after ds n).length = ds.length := by
  induction ds generalizing n with
  | nil => rfl
  | cons d ds ih => simp only [after, List.length_cons, ih]

theorem Proper.head (h : Proper (d :: ds)) : d.pos < d.size := h d (by simp)

theorem Proper.tail (h : Proper (d :: ds)) : Proper ds := fun e he => h e (by simp [he])

theorem Proper.after_zero (h : Proper ds) : after ds 0 = ds := by
  induction ds with
  | nil => rfl
  | cons d ds ih =>
    simp only [after, Nat.add_zero, Nat.mod_eq_of_lt h.head, Nat.div_eq_of_lt h.head, ih h.tail]

theorem Proper.after (h : Proper ds) (n : ℕ) : Proper (after ds n) := by
  induction ds generalizing n with
  | nil => exact fun d hd => absurd hd (by simp)
  | cons d ds ih =>
    intro e he
    rcases List.mem_cons.mp he with rfl | he
    · exact Nat.mod_lt _ (Nat.zero_lt_of_lt h.head)
    · exact ih h.tail _ e he

/-- The first digit moves with every advance. -/
theorem head?_advance (h : d.pos < d.size) :
    (advance (d :: ds)).head? = some ⟨(d.pos + 1) % d.size, d.size⟩ := by
  unfold advance
  split
  · next hwrap => simp [hwrap]
  · next hstay => simp [Nat.mod_eq_of_lt (show d.pos + 1 < d.size by omega)]

theorem map_size_advance : (advance ds).map Digit.size = ds.map Digit.size := by
  induction ds with
  | nil => rfl
  | cons d ds ih =>
    unfold advance
    split
    · rw [List.map_cons, List.map_cons, ih]
    · rfl

/-- A digit is at its last place exactly before the advance that completes its dial. -/
theorem mod_succ_eq_size_iff {m w : ℕ} (hw : 0 < w) : m % w + 1 = w ↔ w ∣ m + 1 := by
  constructor
  · intro h
    rw [← Nat.div_add_mod m w, Nat.add_assoc, h]
    exact Nat.dvd_add (Dvd.intro _ rfl) dvd_rfl
  · intro h
    have hlt := Nat.mod_lt m hw
    by_contra hne
    have h0 : (m + 1) % w = m % w + 1 := by
      rw [Nat.add_mod, Nat.mod_eq_of_lt (show m % w + 1 % w < w by
        have := Nat.mod_le 1 w
        omega)]
      rw [Nat.mod_eq_of_lt (show 1 < w by omega)]
    rw [Nat.mod_eq_zero_of_dvd h] at h0
    omega

theorem advance_after (h : Proper ds) (n : ℕ) : advance (after ds n) = after ds (n + 1) := by
  induction ds generalizing n with
  | nil => rfl
  | cons d ds ih =>
    have hw : 0 < d.size := Nat.zero_lt_of_lt h.head
    have hsucc : (d.pos + n + 1) / d.size = _ := Nat.succ_div
    simp only [after, advance, ← Nat.add_assoc]
    by_cases hd : (d.pos + n) % d.size + 1 = d.size
    · have hdvd := (mod_succ_eq_size_iff hw).mp hd
      rw [if_pos hd, ih h.tail, Nat.mod_eq_zero_of_dvd hdvd, hsucc, if_pos hdvd]
    · have hdvd := mt (mod_succ_eq_size_iff hw).mpr hd
      have hmod : (d.pos + n + 1) % d.size = (d.pos + n) % d.size + 1 := by
        have h1 := Nat.div_add_mod (d.pos + n) d.size
        have h2 := Nat.div_add_mod (d.pos + n + 1) d.size
        rw [hsucc, if_neg hdvd, Nat.add_zero] at h2
        omega
      rw [if_neg hd, hmod, hsucc, if_neg hdvd]
      rfl

theorem iterate_advance_after (h : Proper ds) (n k : ℕ) :
    advance^[k] (after ds n) = after ds (n + k) := by
  induction k with
  | zero => rfl
  | succ k ih =>
    rw [Function.iterate_succ_apply', ih, advance_after h]
    rfl

/-- Digit `i` is moved by the advances that carry into it and by no other. -/
theorem turns_succ (h : Proper ds) (n i : ℕ) :
    turns ds (n + 1) i = turns ds n i + if Carries (after ds n) i then 1 else 0 := by
  induction ds generalizing n i with
  | nil => cases i <;> simp [turns, Carries, after]
  | cons d ds ih =>
    cases i with
    | zero => simp
    | succ i =>
      have hw : 0 < d.size := Nat.zero_lt_of_lt h.head
      have hsucc : (d.pos + n + 1) / d.size = _ := Nat.succ_div
      simp only [after, turns_cons_succ, carries_cons_succ, mod_succ_eq_size_iff hw,
        ← Nat.add_assoc, hsucc]
      by_cases hd : d.size ∣ d.pos + n + 1
      · simp only [hd, if_true, true_and]
        exact ih h.tail _ i
      · simp [hd]

theorem getElem?_after (ds : List Digit) (n i : ℕ) :
    (after ds n)[i]? = ds[i]?.map fun d => ⟨(d.pos + turns ds n i) % d.size, d.size⟩ := by
  induction ds generalizing n i with
  | nil => simp
  | cons d ds ih =>
    cases i with
    | zero => simp [after]
    | succ i =>
      simp only [after, List.getElem?_cons_succ, turns_cons_succ]
      exact ih _ i

/-- The number of moves of a digit in closed form: nested floors collapse into one. -/
theorem turns_eq (h : Proper ds) (n i : ℕ) : turns ds n i = (n + lead ds i) / span ds i := by
  induction ds generalizing n i with
  | nil => cases i <;> simp [turns, span, lead]
  | cons d ds ih =>
    cases i with
    | zero => simp
    | succ i =>
      have hw : 0 < d.size := Nat.zero_lt_of_lt h.head
      rw [turns_cons_succ, ih h.tail]
      simp only [lead, span]
      -- the quotient of a quotient, and the multiple of `d.size` taken out of the inner one
      rw [← Nat.div_div_eq_div_mul, ← Nat.add_assoc, Nat.add_comm n d.pos,
        Nat.add_mul_div_left _ _ hw]

/-- A digit is moved when the digit below it completes its dial. -/
theorem turns_succ_eq (h : ds[i]? = some d) (n : ℕ) :
    turns ds n (i + 1) = (d.pos + turns ds n i) / d.size := by
  induction ds generalizing n i with
  | nil => simp at h
  | cons e ds ih =>
    cases i with
    | zero =>
      obtain rfl : e = d := by simpa using h
      simp
    | succ i =>
      rw [turns_cons_succ, turns_cons_succ]
      exact ih (by simpa using h) _

/-- A digit that carries is moved when the advances complete a multiple of its span. -/
theorem carries_after_iff (h : Proper ds) :
    Carries (after ds n) i ↔ span ds i ∣ n + 1 + lead ds i := by
  -- the next advance adds to the number of moves in the recursion and in the closed form
  have h1 := turns_succ h n i
  have hsucc : (n + lead ds i + 1) / span ds i = _ := Nat.succ_div
  rw [turns_eq h, turns_eq h, show n + 1 + lead ds i = n + lead ds i + 1 by omega, hsucc] at h1
  rw [show n + 1 + lead ds i = n + lead ds i + 1 by omega]
  by_cases hc : Carries (after ds n) i <;> by_cases hd : span ds i ∣ n + lead ds i + 1 <;>
    simp_all

/-- The advances that move a digit away from a place. -/
theorem leaves_after_iff (h : Proper ds) (hd : ds[i]? = some d) {p : ℕ} :
    Leaves (after ds n) i p ↔
      span ds i ∣ n + 1 + lead ds i ∧ (d.pos + (n + lead ds i) / span ds i) % d.size = p := by
  rw [Leaves, carries_after_iff h, getElem?_after, hd, turns_eq h]
  simp

/-- What carries into a digit carries into the digits below it. -/
theorem Carries.of_le {j : ℕ} (h : Carries ds i) (hj : j ≤ i) : Carries ds j := by
  induction ds generalizing i j with
  | nil =>
    cases i with
    | zero =>
      obtain rfl : j = 0 := Nat.le_zero.mp hj
      trivial
    | succ i => exact h.elim
  | cons d ds ih =>
    cases j with
    | zero => exact carries_zero
    | succ j =>
      cases i with
      | zero => exact absurd hj (Nat.not_succ_le_zero j)
      | succ i => exact ⟨h.1, ih h.2 (Nat.le_of_succ_le_succ hj)⟩

/-! ### Digits behind others -/

variable {es : List Digit}

/-- Whether a digit is moved depends on the digits below it. -/
theorem carries_append (hi : i ≤ ds.length) : Carries (ds ++ es) i ↔ Carries ds i := by
  induction ds generalizing i with
  | nil =>
    obtain rfl : i = 0 := Nat.le_zero.mp hi
    simp
  | cons d ds ih =>
    cases i with
    | zero => simp
    | succ i =>
      rw [List.cons_append, carries_cons_succ, carries_cons_succ,
        ih (Nat.le_of_succ_le_succ hi)]

/-- As long as they do not carry, digits move alone. -/
theorem advance_append (h : ¬ Carries ds ds.length) : advance (ds ++ es) = advance ds ++ es := by
  induction ds with
  | nil => exact absurd trivial h
  | cons d ds ih =>
    rw [List.cons_append, advance, advance]
    by_cases hwrap : d.pos + 1 = d.size
    · have htail : ¬ Carries ds ds.length := fun hc => h ⟨hwrap, hc⟩
      rw [if_pos hwrap, if_pos hwrap, ih htail, List.cons_append]
    · rw [if_neg hwrap, if_neg hwrap, List.cons_append]

/-- Until the digits below carry for the first time, the digits behind them stay. -/
theorem iterate_advance_append (h : Proper ds)
    (hn : ∀ k < n, ¬ Carries (after ds k) ds.length) :
    advance^[n] (ds ++ es) = after ds n ++ es := by
  induction n with
  | zero => rw [Function.iterate_zero_apply, h.after_zero]
  | succ n ih =>
    have hlast := hn n (Nat.lt_succ_self n)
    rw [← length_after (n := n)] at hlast
    rw [Function.iterate_succ_apply', ih fun k hk => hn k (Nat.lt_succ_of_lt hk),
      advance_append hlast, advance_after h]

end Lemmas

end Odometer
