import Ados.Lib.Call
import Ados.Lib.Numeral

/-!
# The scheduling policy of a thread

`SetCpuSchedForCurrentThread` reads a policy, and for the real-time policies a priority, from a text
of the options, and makes one call of `pthread_setschedparam`. The text is split at its first colon;
what follows the colon is handed to `atoi`. Texts are the characters up to the terminating NUL.

## Main definitions

* `SchedInterface`: what the operating system supplies, `linux` for one whose calls succeed
* `setCpuSchedForCurrentThread`: the function; its state is the list of the scheduling calls made
* `Documented`: the format of the comments in the source
* `Misread`: the texts after the colon that are no number of the range, but are read as one

## Main results

* `setCpuSched_returns_iff`: the texts that are accepted
* `setCpuSched_meets_iff`: exactly the documented format is accepted, unless a text is misread
-/

namespace Ados

open Numeral

/-- The scheduling policies. -/
inductive SchedPolicy where
  | other | fifo | rr
deriving DecidableEq

/-- The name of a policy in the options. -/
def SchedPolicy.text : SchedPolicy → String
  | .other => "SCHED_OTHER"
  | .fifo => "SCHED_FIFO"
  | .rr => "SCHED_RR"

/-- A call of `pthread_setschedparam` for the current thread. -/
structure SchedCall where
  policy : SchedPolicy
  schedPriority : ℤ
deriving DecidableEq

/-- The operating system: the ranges of priorities, and what `pthread_setschedparam` returns. -/
structure SchedInterface where
  priorityMin : SchedPolicy → ℤ
  priorityMax : SchedPolicy → ℤ
  setschedparam : SchedCall → ℤ

/-- Linux, where the real-time priorities are 1 to 99, when every scheduling call succeeds. -/
def linux : SchedInterface where
  priorityMin policy := if policy = .other then 0 else 1
  priorityMax policy := if policy = .other then 0 else 99
  setschedparam _ := 0

/-- The call of `pthread_setschedparam` with its check. -/
def SchedInterface.call (os : SchedInterface) (c : SchedCall) : Call String (List SchedCall) :=
  if os.setschedparam c = 0 then .returns [c]
  else
    .throws [c] ("Call 'pthread_setschedparam' get error, ret code '" ++
      toString (os.setschedparam c) ++ "'")

/-- The policy that is followed by a priority. -/
def schedPolicyOf (text : List Char) : Option SchedPolicy :=
  if text = SchedPolicy.fifo.text.toList then some .fifo
  else if text = SchedPolicy.rr.text.toList then some .rr
  else none

/-- The message for a priority outside the range. -/
def invalidPriority (os : SchedInterface) (policy : SchedPolicy) (schedPriority : ℤ) : String :=
  "Invalid sched priority '" ++ toString schedPriority ++ "', required range " ++
    toString (os.priorityMin policy) ++ "~" ++ toString (os.priorityMax policy)

/-- The priority is read and checked, and the call is made. -/
def setPriority (os : SchedInterface) (policy : SchedPolicy) (text : List Char) :
    Call String (List SchedCall) :=
  let schedPriority := atoi text
  if os.priorityMin policy ≤ schedPriority ∧ schedPriority ≤ os.priorityMax policy then
    os.call ⟨policy, schedPriority⟩
  else .throws [] (invalidPriority os policy schedPriority)

/-- `SetCpuSchedForCurrentThread`. -/
def setCpuSchedForCurrentThread (os : SchedInterface) (sched : String) :
    Call String (List SchedCall) :=
  if sched = "" then .returns []
  else if sched = SchedPolicy.other.text then os.call ⟨.other, 0⟩
  else
    match sched.toList.findIdx? (· == ':') with
    | none => .throws [] ("Invalid sched parm '" ++ sched ++ "'")
    | some pos =>
      if pos = sched.toList.length - 1 then .throws [] ("Invalid sched parm '" ++ sched ++ "'")
      else
        match schedPolicyOf (sched.toList.take pos) with
        | none => .throws [] ("Invalid sched parm '" ++ sched ++ "'")
        | some policy => setPriority os policy (sched.toList.drop (pos + 1))

/-! ## The two parts of the text -/

section Split

variable {os : SchedInterface} {sched : String} {policy : SchedPolicy} {text : List Char}

/-- A real-time policy with what stands for its priority. -/
def IsRealTime (sched : String) (policy : SchedPolicy) (text : List Char) : Prop :=
  policy ≠ .other ∧ sched.toList = policy.text.toList ++ ':' :: text

theorem colon_notMem_text (policy : SchedPolicy) : ':' ∉ policy.text.toList := by
  cases policy <;> decide

theorem schedPolicyOf_text (hpolicy : policy ≠ .other) :
    schedPolicyOf policy.text.toList = some policy := by
  cases policy with
  | other => exact absurd rfl hpolicy
  | fifo => decide
  | rr => decide

theorem text_of_schedPolicyOf {s : List Char} (h : schedPolicyOf s = some policy) :
    policy ≠ .other ∧ s = policy.text.toList := by
  unfold schedPolicyOf at h
  split_ifs at h with hfifo hrr
  · cases h
    exact ⟨by decide, hfifo⟩
  · cases h
    exact ⟨by decide, hrr⟩

theorem IsRealTime.colon_mem (h : IsRealTime sched policy text) : ':' ∈ sched.toList := by
  rw [h.2]
  exact List.mem_append_right _ List.mem_cons_self

theorem IsRealTime.ne_empty (h : IsRealTime sched policy text) : sched ≠ "" := by
  rintro rfl
  exact absurd h.colon_mem (by decide)

theorem IsRealTime.ne_other (h : IsRealTime sched policy text) :
    sched ≠ SchedPolicy.other.text := by
  rintro rfl
  exact absurd h.colon_mem (colon_notMem_text _)

/-- The first colon is the one after the policy. -/
theorem IsRealTime.findIdx? (h : IsRealTime sched policy text) :
    sched.toList.findIdx? (· == ':') = some policy.text.toList.length := by
  have hnone : policy.text.toList.findIdx? (· == ':') = none := by
    rw [List.findIdx?_eq_none_iff]
    intro c hc
    have hne : c ≠ ':' := fun he => colon_notMem_text policy (he ▸ hc)
    simp [hne]
  rw [h.2, List.findIdx?_append, hnone, List.findIdx?_cons]
  simp

/-- The text is split in one way only. -/
theorem IsRealTime.unique {policy' : SchedPolicy} {text' : List Char}
    (h : IsRealTime sched policy text) (h' : IsRealTime sched policy' text') :
    policy = policy' ∧ text = text' := by
  have hlength : policy.text.toList.length = policy'.text.toList.length :=
    Option.some_inj.mp (h.findIdx?.symm.trans h'.findIdx?)
  obtain ⟨hname, hrest⟩ := List.append_inj (h.2.symm.trans h'.2) hlength
  have hpolicy := schedPolicyOf_text h.1
  rw [hname, schedPolicyOf_text h'.1] at hpolicy
  constructor
  · exact (Option.some_inj.mp hpolicy).symm
  · exact (List.cons.inj hrest).2

/-- A text without a priority is refused. -/
theorem setCpuSched_nil (h : IsRealTime sched policy []) :
    setCpuSchedForCurrentThread os sched = .throws [] ("Invalid sched parm '" ++ sched ++ "'") := by
  rw [setCpuSchedForCurrentThread, if_neg h.ne_empty, if_neg h.ne_other]
  have hlast : policy.text.toList.length = sched.toList.length - 1 := by simp [h.2]
  simp only [h.findIdx?, if_pos hlast]

/-- A real-time policy that is followed by something: the rest is read as a priority. -/
theorem setCpuSched_cons (h : IsRealTime sched policy text) (htext : text ≠ []) :
    setCpuSchedForCurrentThread os sched = setPriority os policy text := by
  have hpos := List.length_pos_of_ne_nil htext
  have hlast : policy.text.toList.length ≠ sched.toList.length - 1 := by
    rw [h.2, List.length_append, List.length_cons]
    omega
  have htake : sched.toList.take policy.text.toList.length = policy.text.toList := by
    rw [h.2, List.take_left]
  have hdrop : sched.toList.drop (policy.text.toList.length + 1) = text := by
    rw [h.2, List.drop_append, List.drop_of_length_le (Nat.le_succ _)]
    simp
  rw [setCpuSchedForCurrentThread, if_neg h.ne_empty, if_neg h.ne_other]
  simp only [h.findIdx?, if_neg hlast, htake, schedPolicyOf_text h.1, hdrop]

/-- A text that is neither empty, nor the policy without a priority, nor a real-time policy and a
rest, is refused. -/
theorem setCpuSched_invalid (hempty : sched ≠ "") (hother : sched ≠ SchedPolicy.other.text)
    (h : ∀ policy text, ¬ IsRealTime sched policy text) :
    setCpuSchedForCurrentThread os sched = .throws [] ("Invalid sched parm '" ++ sched ++ "'") := by
  rw [setCpuSchedForCurrentThread, if_neg hempty, if_neg hother]
  cases hfind : sched.toList.findIdx? (· == ':') with
  | none => rfl
  | some pos =>
    obtain ⟨hlt, hcolon, -⟩ := List.findIdx?_eq_some_iff_getElem.mp hfind
    have hsplit : sched.toList = sched.toList.take pos ++ ':' :: sched.toList.drop (pos + 1) := by
      have heq : sched.toList[pos] = ':' := by simpa using hcolon
      rw [← heq, ← List.drop_eq_getElem_cons hlt, List.take_append_drop]
    dsimp only
    cases hpolicy : schedPolicyOf (sched.toList.take pos) with
    | none => exact ite_self _
    | some policy =>
      obtain ⟨hne, htake⟩ := text_of_schedPolicyOf hpolicy
      rw [htake] at hsplit
      exact absurd ⟨hne, hsplit⟩ (h policy _)

end Split

/-! ## The documented format -/

/-- The format of the comments: nothing, `SCHED_OTHER`, or a real-time policy, a colon and the
digits of a priority in the range. -/
inductive Documented (sched : String) : Prop where
  | empty (h : sched = "")
  | other (h : sched = "SCHED_OTHER")
  | realTime (policy : SchedPolicy) (digits : List Char) (h : IsRealTime sched policy digits)
      (ne_nil : digits ≠ []) (isDigit : ∀ c ∈ digits, c.isDigit = true)
      (pos : 1 ≤ value digits) (le : value digits ≤ 99)

/-- A text is misread that stands for a number which `atoi` brings into the range, but is not the
digits of a number in the range: there are blanks, a sign or other characters around the digits, or
the number differs from one in the range by a multiple of `2 ^ 32`. -/
def Misread (text : List Char) : Prop :=
  ∃ n : Numeral, n.text = text ∧ (-2 ^ 63 ≤ n.number ∧ n.number < 2 ^ 63) ∧
    (1 ≤ n.number % 2 ^ 32 ∧ n.number % 2 ^ 32 ≤ 99) ∧ ¬ (n.IsPlain ∧ n.number ≤ 99)

/-- What the format says of the function on a text: it accepts the documented texts and no others,
sets what is written, and makes no scheduling call when it throws. -/
structure MeetsFormat (sched : String) : Prop where
  returns_iff : (∃ calls, setCpuSchedForCurrentThread linux sched = .returns calls) ↔
    Documented sched
  sets : ∀ policy digits, IsRealTime sched policy digits → (∀ c ∈ digits, c.isDigit = true) →
    1 ≤ value digits → value digits ≤ 99 →
      setCpuSchedForCurrentThread linux sched = .returns [⟨policy, value digits⟩]
  no_call : ∀ calls what, setCpuSchedForCurrentThread linux sched = .throws calls what → calls = []

section Linux

variable {sched : String} {policy : SchedPolicy} {text digits : List Char}

theorem linux_call (c : SchedCall) : linux.call c = .returns [c] := if_pos rfl

/-- On Linux a priority is accepted in the range 1 to 99. -/
theorem setPriority_linux (hpolicy : policy ≠ .other) :
    setPriority linux policy text =
      if 1 ≤ atoi text ∧ atoi text ≤ 99 then .returns [⟨policy, atoi text⟩]
      else .throws [] (invalidPriority linux policy (atoi text)) := by
  have hmin : linux.priorityMin policy = 1 := if_neg hpolicy
  have hmax : linux.priorityMax policy = 99 := if_neg hpolicy
  simp only [setPriority, hmin, hmax, linux_call]

theorem atoi_nil : atoi [] = 0 := by decide

/-- The texts that are accepted. -/
theorem setCpuSched_returns_iff :
    (∃ calls, setCpuSchedForCurrentThread linux sched = .returns calls) ↔
      sched = "" ∨ sched = SchedPolicy.other.text ∨
        ∃ policy text, IsRealTime sched policy text ∧ 1 ≤ atoi text ∧ atoi text ≤ 99 := by
  constructor
  · rintro ⟨calls, h⟩
    by_contra hcon
    rw [not_or, not_or] at hcon
    obtain ⟨hempty, hother, hrange⟩ := hcon
    by_cases hrt : ∃ policy text, IsRealTime sched policy text
    · obtain ⟨policy, text, hrt⟩ := hrt
      by_cases htext : text = []
      · subst htext
        rw [setCpuSched_nil hrt] at h
        cases h
      · have hout : ¬ (1 ≤ atoi text ∧ atoi text ≤ 99) := fun hin =>
          hrange ⟨policy, text, hrt, hin⟩
        rw [setCpuSched_cons hrt htext, setPriority_linux hrt.1, if_neg hout] at h
        cases h
    · rw [setCpuSched_invalid hempty hother fun policy text h => hrt ⟨policy, text, h⟩] at h
      cases h
  · rintro (rfl | rfl | ⟨policy, text, hrt, hrange⟩)
    · exact ⟨[], rfl⟩
    · exact ⟨[⟨.other, 0⟩], by decide⟩
    · have htext : text ≠ [] := by
        rintro rfl
        rw [atoi_nil] at hrange
        exact absurd hrange (by decide)
      refine ⟨[⟨policy, atoi text⟩], ?_⟩
      rw [setCpuSched_cons hrt htext, setPriority_linux hrt.1, if_pos hrange]

/-- A documented priority is set as it is written. -/
theorem setCpuSched_digits (h : IsRealTime sched policy digits)
    (hdigit : ∀ c ∈ digits, c.isDigit = true) (hpos : 1 ≤ value digits) (hle : value digits ≤ 99) :
    setCpuSchedForCurrentThread linux sched = .returns [⟨policy, value digits⟩] := by
  have hne : digits ≠ [] := by
    rintro rfl
    exact absurd hpos (by decide)
  have hread : atoi digits = value digits := atoi_digits hne hdigit (by omega)
  have hrange : 1 ≤ (value digits : ℤ) ∧ (value digits : ℤ) ≤ 99 := by omega
  rw [setCpuSched_cons h hne, setPriority_linux h.1, hread, if_pos hrange]

/-- No scheduling call is made when the function throws. -/
theorem setCpuSched_no_call {calls : List SchedCall} {what : String}
    (h : setCpuSchedForCurrentThread linux sched = .throws calls what) : calls = [] := by
  by_cases hempty : sched = ""
  · subst hempty
    cases h
  by_cases hother : sched = SchedPolicy.other.text
  · rw [setCpuSchedForCurrentThread, if_neg hempty, if_pos hother, linux_call] at h
    cases h
  by_cases hrt : ∃ policy text, IsRealTime sched policy text
  · obtain ⟨policy, text, hrt⟩ := hrt
    by_cases htext : text = []
    · subst htext
      rw [setCpuSched_nil hrt] at h
      cases h
      rfl
    · rw [setCpuSched_cons hrt htext, setPriority_linux hrt.1] at h
      split_ifs at h
      cases h
      rfl
  · rw [setCpuSched_invalid hempty hother fun policy text h => hrt ⟨policy, text, h⟩] at h
    cases h
    rfl

/-- A misread text is accepted although it is not documented. -/
theorem Misread.not_returns_iff (h : IsRealTime sched policy text) (hmis : Misread text) :
    (∃ calls, setCpuSchedForCurrentThread linux sched = .returns calls) ∧ ¬ Documented sched := by
  obtain ⟨n, htext, hlong, hrange, hplain⟩ := hmis
  constructor
  · apply setCpuSched_returns_iff.mpr
    refine Or.inr (Or.inr ⟨policy, text, h, ?_⟩)
    exact (mem_range_atoi_iff (by decide) (by decide)).mpr ⟨n, htext, hlong, hrange⟩
  · intro hdoc
    cases hdoc with
    | empty he => exact h.ne_empty he
    | other ho => exact h.ne_other ho
    | realTime policy' digits h' hne hdigit hpos hle =>
      obtain ⟨-, rfl⟩ := h.unique h'
      have hp : n.IsPlain := n.isPlain_of_isDigit (by rwa [htext])
      have hdigits : n.digits = text := by rw [← hp.text_eq, htext]
      apply hplain
      refine ⟨hp, ?_⟩
      rw [hp.number_eq, hdigits]
      exact_mod_cast hle

/-- An accepted text that is not misread is documented. -/
theorem documented_of_not_misread (h : IsRealTime sched policy text) (hmis : ¬ Misread text)
    (hrange : 1 ≤ atoi text ∧ atoi text ≤ 99) : Documented sched := by
  obtain ⟨n, htext, hlong, hin⟩ :=
    (mem_range_atoi_iff (by decide : (0 : ℤ) < 1) (by decide)).mp hrange
  have hplain : n.IsPlain ∧ n.number ≤ 99 := by
    by_contra hcon
    exact hmis ⟨n, htext, hlong, hin, hcon⟩
  have hdigits : n.digits = text := by rw [← hplain.1.text_eq, htext]
  have hnumber := hplain.1.number_eq
  rw [hdigits] at hnumber
  have hle := hplain.2
  apply Documented.realTime policy text h
  · rw [← hdigits]
    exact n.digits_ne_nil
  · rw [← hdigits]
    exact n.isDigit_of_mem
  · omega
  · omega

/-- **The documented format is accepted exactly** on the texts that are not misread: whatever
follows a real-time policy and a colon is read as a number of the range only if it is one. -/
theorem setCpuSched_meets_iff (sched : String) :
    MeetsFormat sched ↔ ∀ policy text, IsRealTime sched policy text → ¬ Misread text := by
  constructor
  · intro h policy text hrt hmis
    obtain ⟨hreturns, hnot⟩ := hmis.not_returns_iff hrt
    exact hnot (h.returns_iff.mp hreturns)
  · intro h
    constructor
    · constructor
      · intro hreturns
        rcases setCpuSched_returns_iff.mp hreturns with he | ho | ⟨policy, text, hrt, hrange⟩
        · exact .empty he
        · exact .other ho
        · exact documented_of_not_misread hrt (h policy text hrt) hrange
      · intro hdoc
        cases hdoc with
        | empty he => exact setCpuSched_returns_iff.mpr (Or.inl he)
        | other ho => exact setCpuSched_returns_iff.mpr (Or.inr (Or.inl ho))
        | realTime policy digits hrt hne hdigit hpos hle =>
          exact ⟨_, setCpuSched_digits hrt hdigit hpos hle⟩
    · intro policy digits hrt hdigit hpos hle
      exact setCpuSched_digits hrt hdigit hpos hle
    · intro calls what hthrows
      exact setCpuSched_no_call hthrows

/-- A priority of `2 ^ 32 + 10` is out of the range, and is set as 10. -/
theorem setCpuSched_not_meets : setCpuSchedForCurrentThread linux "SCHED_FIFO:4294967306" =
    .returns [⟨.fifo, 10⟩] ∧ ¬ Documented "SCHED_FIFO:4294967306" := by
  have hrt : IsRealTime "SCHED_FIFO:4294967306" .fifo "4294967306".toList := by
    constructor <;> decide
  have hread : atoi "4294967306".toList = 10 := by decide
  constructor
  · rw [setCpuSched_cons hrt (by decide), setPriority_linux hrt.1, hread]
    exact if_pos (by decide)
  · intro hdoc
    cases hdoc with
    | empty h => exact absurd h (by decide)
    | other h => exact absurd h (by decide)
    | realTime policy digits h hne hdigit hpos hle =>
      obtain ⟨-, rfl⟩ := hrt.unique h
      exact absurd hle (by decide)

end Linux

end Ados
