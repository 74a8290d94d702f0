import Mathlib.Algebra.Order.Ring.Int
import Mathlib.Data.List.Basic
import Mathlib.Data.List.TakeWhile

/-!
# Numerals as the C library reads them

`strtol` with base ten skips blanks, takes a sign, and reads digits up to the first character that
is none; a value that does not fit a `long` is replaced by the nearest one that does. `atoi`
converts the result to an `int`, which keeps its low 32 bits. A text of which `strtol` reads
anything is a `Numeral` with something after it.

## Main definitions

* `strtol`, `atoi`: the two functions, for a 64-bit `long` and a 32-bit `int`
* `Numeral`: blanks, a sign, digits, and what follows them; `Numeral.text` and `Numeral.value`

## Main results

* `strtol_text`: `strtol` reads the value of a numeral, up to the range of `long`
* `exists_numeral`: a text that is not read as zero is a numeral
* `mem_range_atoi_iff`: when the result of `atoi` lies in a range of positive numbers
-/

namespace Numeral

/-- `isspace` of the C locale. -/
def isSpace (c : Char) : Bool := c = ' ' || (9 ≤ c.toNat && c.toNat ≤ 13)

/-- The value of a string of decimal digits. -/
def value (digits : List Char) : ℕ := Nat.ofDigitChars 10 digits 0

/-- The `long` nearest to an integer. -/
def toLong (z : ℤ) : ℤ := max (-2 ^ 63) (min z (2 ^ 63 - 1))

/-- The conversion of a `long` to an `int`. -/
def toInt (z : ℤ) : ℤ := (z + 2 ^ 31) % 2 ^ 32 - 2 ^ 31

/-- The value of the digits at the front of a text. -/
def readDigits (text : List Char) : ℕ := value (text.takeWhile Char.isDigit)

/-- `strtol(text, nullptr, 10)`. -/
def strtol (text : List Char) : ℤ :=
  let s := text.dropWhile isSpace
  if s.head? = some '-' then toLong (-readDigits s.tail)
  else if s.head? = some '+' then toLong (readDigits s.tail)
  else toLong (readDigits s)

/-- `atoi(text)`. -/
def atoi (text : List Char) : ℤ := toInt (strtol text)

/-! ## What is read of a text -/

/-- The sign of a numeral. -/
inductive Sign where
  | none | plus | minus
deriving DecidableEq

/-- How a sign is written. -/
def Sign.text : Sign → List Char
  | .none => []
  | .plus => ['+']
  | .minus => ['-']

/-- What a sign makes of the value of the digits. -/
def Sign.apply : Sign → ℕ → ℤ
  | .minus, n => -n
  | _, n => n

end Numeral

/-- A text that `strtol` reads a number of: digits that are not preceded by anything but blanks and
a sign, and that are followed by no further digit. -/
structure Numeral where
  blanks : List Char
  sign : Numeral.Sign
  digits : List Char
  tail : List Char
  isSpace_of_mem : ∀ c ∈ blanks, Numeral.isSpace c = true
  digits_ne_nil : digits ≠ []
  isDigit_of_mem : ∀ c ∈ digits, c.isDigit = true
  isDigit_head : ∀ c ∈ tail.head?, c.isDigit = false

namespace Numeral

/-- The whole text. -/
def text (n : Numeral) : List Char := n.blanks ++ (n.sign.text ++ (n.digits ++ n.tail))

/-- The number that is written. -/
def number (n : Numeral) : ℤ := n.sign.apply (value n.digits)

/-- A plain numeral is its digits. -/
structure IsPlain (n : Numeral) : Prop where
  blanks_eq : n.blanks = []
  sign_eq : n.sign = .none
  tail_eq : n.tail = []

theorem isSpace_eq_false_of_isDigit {c : Char} (h : c.isDigit = true) : isSpace c = false := by
  have hrange : 48 ≤ c.toNat ∧ c.toNat ≤ 57 := by
    simp only [Char.isDigit, Bool.and_eq_true, decide_eq_true_eq, ge_iff_le, UInt32.le_iff_toNat_le]
      at h
    exact h
  simp only [isSpace, Bool.or_eq_false_iff, Bool.and_eq_false_iff, decide_eq_false_iff_not]
  constructor
  · rintro rfl
    exact absurd hrange (by decide)
  · omega

/-- The digits at the front of digits and what follows them. -/
theorem takeWhile_digits {digits tail : List Char} (h : ∀ c ∈ digits, c.isDigit = true)
    (htail : ∀ c ∈ tail.head?, c.isDigit = false) :
    (digits ++ tail).takeWhile Char.isDigit = digits := by
  rw [List.takeWhile_append_of_pos h]
  cases tail with
  | nil => rw [List.takeWhile_nil, List.append_nil]
  | cons c rest =>
    have hc : ¬ c.isDigit = true := by simp [htail c rfl]
    rw [List.takeWhile_cons_of_neg hc, List.append_nil]

variable (n : Numeral)

theorem readDigits_digits : readDigits (n.digits ++ n.tail) = value n.digits := by
  rw [readDigits, takeWhile_digits n.isDigit_of_mem n.isDigit_head]

/-- The digits begin with a digit. -/
theorem exists_head_digits :
    ∃ c rest, n.digits ++ n.tail = c :: rest ∧ c.isDigit = true := by
  obtain ⟨c, rest, hdigits⟩ := List.exists_cons_of_ne_nil n.digits_ne_nil
  refine ⟨c, rest ++ n.tail, ?_, ?_⟩
  · rw [hdigits, List.cons_append]
  · apply n.isDigit_of_mem
    rw [hdigits]
    exact List.mem_cons_self

/-- `strtol` finds the sign after the blanks. -/
theorem dropWhile_text : n.text.dropWhile isSpace = n.sign.text ++ (n.digits ++ n.tail) := by
  obtain ⟨c, rest, hdigits, hc⟩ := n.exists_head_digits
  rw [text, List.dropWhile_append_of_pos n.isSpace_of_mem]
  cases n.sign with
  | none =>
    rw [Sign.text, List.nil_append, hdigits, List.dropWhile_cons_of_neg]
    simp [isSpace_eq_false_of_isDigit hc]
  | plus => rfl
  | minus => rfl

/-- **`strtol` reads the number that is written**, up to the range of `long`. -/
theorem strtol_text : strtol n.text = toLong n.number := by
  obtain ⟨c, rest, hdigits, hc⟩ := n.exists_head_digits
  rw [strtol, dropWhile_text, number]
  cases n.sign with
  | none =>
    have hminus : c ≠ '-' := by
      rintro rfl
      exact absurd hc (by decide)
    have hplus : c ≠ '+' := by
      rintro rfl
      exact absurd hc (by decide)
    have hread := n.readDigits_digits
    rw [hdigits] at hread
    simp [Sign.text, Sign.apply, hdigits, hminus, hplus, hread]
  | plus => simp [Sign.text, Sign.apply, readDigits_digits]
  | minus => simp [Sign.text, Sign.apply, readDigits_digits]

variable {n}

/-- A numeral that is written with digits only is plain. -/
theorem isPlain_of_isDigit (h : ∀ c ∈ n.text, c.isDigit = true) : n.IsPlain := by
  rw [text] at h
  constructor
  · apply List.eq_nil_iff_forall_not_mem.mpr
    intro c hc
    have hspace := isSpace_eq_false_of_isDigit (h c (List.mem_append_left _ hc))
    rw [n.isSpace_of_mem c hc] at hspace
    cases hspace
  · have hsign : ∀ c ∈ n.sign.text, c.isDigit = true := fun c hc =>
      h c (List.mem_append_right _ (List.mem_append_left _ hc))
    cases hs : n.sign with
    | none => rfl
    | plus =>
      rw [hs] at hsign
      exact absurd (hsign '+' List.mem_cons_self) (by decide)
    | minus =>
      rw [hs] at hsign
      exact absurd (hsign '-' List.mem_cons_self) (by decide)
  · cases htail : n.tail with
    | nil => rfl
    | cons c rest =>
      have hc : c ∈ n.tail := by
        rw [htail]
        exact List.mem_cons_self
      have hdigit : c.isDigit = true := by
        apply h
        exact List.mem_append_right _ (List.mem_append_right _ (List.mem_append_right _ hc))
      have hhead := n.isDigit_head c (by rw [htail]; rfl)
      rw [hdigit] at hhead
      cases hhead

theorem IsPlain.text_eq (h : n.IsPlain) : n.text = n.digits := by
  rw [text, h.blanks_eq, h.sign_eq, h.tail_eq, List.append_nil]
  rfl

theorem IsPlain.number_eq (h : n.IsPlain) : n.number = value n.digits := by
  rw [number, h.sign_eq]
  rfl

/-- The plain numeral of a string of digits. -/
def ofDigits (digits : List Char) (hne : digits ≠ []) (h : ∀ c ∈ digits, c.isDigit = true) :
    Numeral where
  blanks := []
  sign := .none
  digits := digits
  tail := []
  isSpace_of_mem := fun _ hc => absurd hc List.not_mem_nil
  digits_ne_nil := hne
  isDigit_of_mem := h
  isDigit_head := fun _ hc => by cases hc

theorem isPlain_ofDigits {digits : List Char} {hne : digits ≠ []}
    {h : ∀ c ∈ digits, c.isDigit = true} : (ofDigits digits hne h).IsPlain := ⟨rfl, rfl, rfl⟩

/-- Digits that are not read as zero are there. -/
theorem takeWhile_ne_nil_of_readDigits {s : List Char} (h : readDigits s ≠ 0) :
    s.takeWhile Char.isDigit ≠ [] := by
  intro hnil
  rw [readDigits, hnil] at h
  exact h rfl

/-- What follows the digits at the front does not begin with a digit. -/
theorem isDigit_head_dropWhile (s : List Char) :
    ∀ c ∈ (s.dropWhile Char.isDigit).head?, c.isDigit = false := by
  intro c hc
  have hnot := List.head?_dropWhile_not Char.isDigit s
  rw [Option.mem_def.mp hc] at hnot
  exact hnot

/-- The numeral of a text, from its parts. -/
def ofText (blanks : List Char) (sign : Sign) (s : List Char)
    (hblanks : ∀ c ∈ blanks, isSpace c = true) (h : readDigits s ≠ 0) : Numeral where
  blanks := blanks
  sign := sign
  digits := s.takeWhile Char.isDigit
  tail := s.dropWhile Char.isDigit
  isSpace_of_mem := hblanks
  digits_ne_nil := takeWhile_ne_nil_of_readDigits h
  isDigit_of_mem := fun _ hc => List.mem_takeWhile_imp hc
  isDigit_head := isDigit_head_dropWhile s

theorem text_ofText {blanks : List Char} {sign : Sign} {s : List Char}
    {hblanks : ∀ c ∈ blanks, isSpace c = true} {h : readDigits s ≠ 0} :
    (ofText blanks sign s hblanks h).text = blanks ++ (sign.text ++ s) := by
  show blanks ++ (sign.text ++ (s.takeWhile Char.isDigit ++ s.dropWhile Char.isDigit)) = _
  rw [List.takeWhile_append_dropWhile]

/-- A number that is not read as zero has digits that are not. -/
theorem readDigits_ne_zero {s : List Char} (sign : Sign)
    (h : toLong (sign.apply (readDigits s)) ≠ 0) : readDigits s ≠ 0 := by
  intro h0
  rw [h0] at h
  cases sign <;> exact h rfl

/-- **A text that is not read as zero is a numeral.** -/
theorem exists_numeral {s : List Char} (h : strtol s ≠ 0) : ∃ n : Numeral, n.text = s := by
  have hsplit := List.takeWhile_append_dropWhile (p := isSpace) (l := s)
  have hblanks : ∀ c ∈ s.takeWhile isSpace, isSpace c = true := fun _ hc =>
    List.mem_takeWhile_imp hc
  rw [strtol] at h
  split_ifs at h with hminus hplus
  · have hread := readDigits_ne_zero .minus h
    refine ⟨ofText _ .minus _ hblanks hread, ?_⟩
    rw [text_ofText, Sign.text, List.singleton_append, List.cons_head?_tail hminus, hsplit]
  · have hread := readDigits_ne_zero .plus h
    refine ⟨ofText _ .plus _ hblanks hread, ?_⟩
    rw [text_ofText, Sign.text, List.singleton_append, List.cons_head?_tail hplus, hsplit]
  · have hread := readDigits_ne_zero .none h
    refine ⟨ofText _ .none _ hblanks hread, ?_⟩
    rw [text_ofText, Sign.text, List.nil_append, hsplit]

/-! ## What `atoi` makes of a text -/

/-- The conversion to `int` takes a number into a range of positive integers exactly when the number
is a `long` whose low 32 bits lie in the range. -/
theorem toInt_toLong_mem_range {z a b : ℤ} (ha : 0 < a) (hb : b < 2 ^ 31) :
    a ≤ toInt (toLong z) ∧ toInt (toLong z) ≤ b ↔
      (-2 ^ 63 ≤ z ∧ z < 2 ^ 63) ∧ a ≤ z % 2 ^ 32 ∧ z % 2 ^ 32 ≤ b := by
  unfold toInt toLong
  omega

/-- `atoi` gives a positive number of a range for the numerals whose number is a `long` with its low
32 bits in the range, and for no other text. -/
theorem mem_range_atoi_iff {s : List Char} {a b : ℤ} (ha : 0 < a) (hb : b < 2 ^ 31) :
    a ≤ atoi s ∧ atoi s ≤ b ↔ ∃ n : Numeral, n.text = s ∧
      (-2 ^ 63 ≤ n.number ∧ n.number < 2 ^ 63) ∧ a ≤ n.number % 2 ^ 32 ∧
        n.number % 2 ^ 32 ≤ b := by
  constructor
  · intro h
    have hne : strtol s ≠ 0 := by
      intro h0
      rw [atoi, h0] at h
      exact absurd h.1 (not_le.mpr ha)
    obtain ⟨n, rfl⟩ := exists_numeral hne
    rw [atoi, strtol_text, toInt_toLong_mem_range ha hb] at h
    exact ⟨n, rfl, h⟩
  · rintro ⟨n, rfl, h⟩
    rw [atoi, strtol_text, toInt_toLong_mem_range ha hb]
    exact h

/-- `atoi` reads the value of digits, if it fits an `int`. -/
theorem atoi_digits {digits : List Char} (hne : digits ≠ []) (h : ∀ c ∈ digits, c.isDigit = true)
    (hlt : value digits < 2 ^ 31) : atoi digits = value digits := by
  have htext : (ofDigits digits hne h).text = digits := isPlain_ofDigits.text_eq
  have hnumber : (ofDigits digits hne h).number = value digits := isPlain_ofDigits.number_eq
  have hread : strtol digits = toLong (value digits) := by
    rw [← hnumber, ← strtol_text, htext]
  rw [atoi, hread]
  unfold toInt toLong
  omega

end Numeral
