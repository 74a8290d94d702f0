import Ados.Common.ThreadTool
import Mathlib.Data.List.TakeWhile

/-!
# How an executor sets up its thread

The thread of an executor sets its name, its CPUs and its scheduling policy, in this order and in
one `try` block: the first of them that throws is logged, those after it are left out, and the
thread goes on. A thread name of Linux has at most fifteen bytes; of a longer one the first eight
and the last five are kept, with two dots between them, and this is done from a length of fifteen
on.

Names are the bytes of a `std::string`; what is handed to the system ends before the first NUL. A
`cpu_set_t` has `CPU_SETSIZE` bits, and `CPU_SET` leaves out what is beyond. Logging is assumed not
to throw.

## Main definitions

* `realName`, `threadName`: the name that is set, and as the system reads it
* `CpuSet`, `cpuSet`: the CPUs of a thread
* `ThreadInterface`, `ThreadSettings`, `ThreadOptions`: the operating system, the settings of a
  thread, and what the options of an executor say of them
* `setNameForCurrentThread`, `bindCpuForCurrentThread`, `setUpThread`: the functions, and the `try`
  block
* `Asked`, `AsWritten`: what the options ask for, and the thread that has it

## Main results

* `length_realName_le`: no name is too long for the system
* `threadName_eq_iff`: which names are set to the same
* `threadName_eq_self_iff`: which names are kept
* `setUpThread_cases`: how the set-up ends
* `as_written_iff`: exactly when the thread has what its options ask for
-/

namespace Ados

open Numeral

/-- The bytes of a `std::string`. -/
abbrev Bytes := List UInt8

/-- The bytes of a text in ASCII. -/
def ascii (text : String) : Bytes := text.toList.map fun c => UInt8.ofNat c.toNat

/-- `".."`. -/
def dots : Bytes := ascii ".."

/-- The last `n` bytes. -/
def lastBytes (n : ℕ) (name : Bytes) : Bytes := name.drop (name.length - n)

/-- The name that `SetNameForCurrentThread` hands to the system. -/
def realName (name : Bytes) : Bytes :=
  if name.length < 15 then name else name.take 8 ++ dots ++ lastBytes 5 name

/-- A C string ends before its first NUL. -/
def cString (text : Bytes) : Bytes := text.takeWhile (· ≠ 0)

/-- The name as the system reads it. -/
def threadName (name : Bytes) : Bytes := cString (realName name)

/-- `cpu_set_t`, of `CPU_SETSIZE` bits. -/
abbrev CpuSet := BitVec 1024

/-- `CPU_SET` for each element of a list, after `CPU_ZERO`. -/
def cpuSet (l : List UInt32) : CpuSet :=
  l.foldl (fun cpuset cpuIdx => cpuset ||| BitVec.twoPow 1024 cpuIdx.toNat) 0#1024

/-- The operating system: beside the scheduling calls, the number of CPUs and what
`pthread_setaffinity_np` returns. -/
structure ThreadInterface extends SchedInterface where
  hardwareConcurrency : UInt32
  setaffinity : CpuSet → ℤ

/-- What has been set for a thread: without CPUs it has those it was created with, and of the calls
of `pthread_setschedparam` the last one that was taken counts. -/
structure ThreadSettings where
  name : Bytes := []
  cpus : Option CpuSet := none
  sched : List SchedCall := []
deriving DecidableEq

/-- What the options of an executor, and its name, say of the thread. -/
structure ThreadOptions where
  name : Bytes
  threadSchedPolicy : String := ""
  threadBindCpu : List UInt32 := []
deriving DecidableEq

/-- `SetNameForCurrentThread`. -/
def setNameForCurrentThread (name : Bytes) (t : ThreadSettings) : Call String ThreadSettings :=
  .returns { t with name := threadName name }

/-- The check of one index. -/
def checkCpuIdx (os : ThreadInterface) (cpuIdx : UInt32) (t : ThreadSettings) :
    Call String ThreadSettings :=
  if cpuIdx < os.hardwareConcurrency then .returns t
  else
    .throws t ("Invalid cpu index '" ++ toString cpuIdx ++ "', max cpu idx is '" ++
      toString os.hardwareConcurrency ++ "'")

/-- The call of `pthread_setaffinity_np` with its check. -/
def setAffinity (os : ThreadInterface) (cpuset : CpuSet) (t : ThreadSettings) :
    Call String ThreadSettings :=
  if os.setaffinity cpuset = 0 then .returns { t with cpus := some cpuset }
  else
    .throws t ("Call 'pthread_setaffinity_np' get error, ret code '" ++
      toString (os.setaffinity cpuset) ++ "'")

/-- `BindCpuForCurrentThread`. -/
def bindCpuForCurrentThread (os : ThreadInterface) (l : List UInt32) (t : ThreadSettings) :
    Call String ThreadSettings :=
  if l = [] then .returns t
  else (Call.forEach (checkCpuIdx os) l t).andThen (setAffinity os (cpuSet l))

/-- `SetCpuSchedForCurrentThread`, on the settings of the thread. It throws at the first call that
is not taken, which sets nothing. -/
def schedule (os : ThreadInterface) (sched : String) (t : ThreadSettings) :
    Call String ThreadSettings :=
  match setCpuSchedForCurrentThread os.toSchedInterface sched with
  | .returns calls => .returns { t with sched := t.sched ++ calls }
  | .throws _ what => .throws t what
  | .terminates => .terminates

/-- The `try` block of an executor of the class `cls`, with what is logged. -/
def setUpThread (os : ThreadInterface) (cls : String) (o : ThreadOptions) (t : ThreadSettings) :
    Call String (ThreadSettings × List String) :=
  match ((setNameForCurrentThread o.name t).andThen
      (bindCpuForCurrentThread os o.threadBindCpu)).andThen (schedule os o.threadSchedPolicy) with
  | .returns t => .returns (t, [])
  | .throws t what =>
    .returns (t, ["Set thread policy for " ++ cls ++ " get exception, " ++ what])
  | .terminates => .terminates

/-! ## Names -/

section Names

variable {name name' : Bytes}

theorem length_lastBytes {n : ℕ} (h : n ≤ name.length) : (lastBytes n name).length = n := by
  rw [lastBytes, List.length_drop]
  omega

theorem realName_of_lt (h : name.length < 15) : realName name = name := if_pos h

theorem realName_of_le (h : 15 ≤ name.length) :
    realName name = name.take 8 ++ dots ++ lastBytes 5 name := if_neg (Nat.not_lt.mpr h)

theorem length_realName (h : 15 ≤ name.length) : (realName name).length = 15 := by
  have hlast := length_lastBytes (n := 5) (le_trans (by decide) h)
  rw [realName_of_le h, List.length_append, List.length_append, hlast, List.length_take]
  have hdots : dots.length = 2 := rfl
  omega

/-- The system takes a name of fifteen bytes at most, and every name is made so. -/
theorem length_realName_le (name : Bytes) : (realName name).length ≤ 15 := by
  rcases Nat.lt_or_ge name.length 15 with h | h
  · rw [realName_of_lt h]
    exact h.le
  · exact (length_realName h).le

/-- Two long names are set to the same if their first eight and their last five bytes are. -/
theorem realName_eq_iff_of_le (h : 15 ≤ name.length) (h' : 15 ≤ name'.length) :
    realName name = realName name' ↔
      name.take 8 = name'.take 8 ∧ lastBytes 5 name = lastBytes 5 name' := by
  rw [realName_of_le h, realName_of_le h']
  constructor
  · intro heq
    have hlen : (lastBytes 5 name).length = (lastBytes 5 name').length := by
      rw [length_lastBytes (le_trans (by decide) h), length_lastBytes (le_trans (by decide) h')]
    obtain ⟨hfirst, hlast⟩ := List.append_inj' heq hlen
    exact ⟨(List.append_inj' hfirst rfl).1, hlast⟩
  · rintro ⟨hfirst, hlast⟩
    rw [hfirst, hlast]

theorem cString_eq_self_iff {text : Bytes} : cString text = text ↔ 0 ∉ text := by
  rw [cString, List.takeWhile_eq_self_iff]
  constructor
  · intro h h0
    simpa using h 0 h0
  · intro h c hc
    have hne : c ≠ 0 := fun he => h (he ▸ hc)
    simpa using hne

theorem zero_notMem_realName (h : 0 ∉ name) : 0 ∉ realName name := by
  rw [realName]
  split
  · exact h
  · simp only [List.mem_append, not_or]
    refine ⟨⟨fun h0 => h (List.mem_of_mem_take h0), by decide⟩, fun h0 => ?_⟩
    exact h (List.mem_of_mem_drop h0)

theorem threadName_eq_realName (h : 0 ∉ name) : threadName name = realName name :=
  cString_eq_self_iff.mpr (zero_notMem_realName h)

/-- **Two names are set to the same** exactly if they are the same, or if both have fifteen bytes or
more, and agree in the first eight and in the last five. -/
theorem threadName_eq_iff (h : 0 ∉ name) (h' : 0 ∉ name') :
    threadName name = threadName name' ↔ name = name' ∨
      (15 ≤ name.length ∧ 15 ≤ name'.length) ∧
        name.take 8 = name'.take 8 ∧ lastBytes 5 name = lastBytes 5 name' := by
  rw [threadName_eq_realName h, threadName_eq_realName h']
  rcases Nat.lt_or_ge name.length 15 with hs | hl
  · rcases Nat.lt_or_ge name'.length 15 with hs' | hl'
    · rw [realName_of_lt hs, realName_of_lt hs']
      exact ⟨Or.inl, fun hor => hor.resolve_right fun hlong => absurd hs (by omega)⟩
    · have hne : ∀ n : Bytes, n.length = name.length → realName name' ≠ n := by
        rintro n hn rfl
        rw [length_realName hl'] at hn
        omega
      rw [realName_of_lt hs]
      constructor
      · intro heq
        exact absurd heq.symm (hne name rfl)
      · rintro (rfl | ⟨⟨hl, -⟩, -⟩) <;> omega
  · rcases Nat.lt_or_ge name'.length 15 with hs' | hl'
    · rw [realName_of_lt hs']
      constructor
      · intro heq
        have hlen := length_realName hl
        rw [heq] at hlen
        omega
      · rintro (rfl | ⟨⟨-, hl'⟩, -⟩) <;> omega
    · rw [realName_eq_iff_of_le hl hl']
      constructor
      · exact fun heq => Or.inr ⟨⟨hl, hl'⟩, heq⟩
      · rintro (rfl | ⟨-, heq⟩)
        · exact ⟨rfl, rfl⟩
        · exact heq

/-- The threads of the executors `nxpilot_a_wheel` and `nxpilot_b_wheel` have one name. -/
theorem threadName_eq_wheels :
    threadName (ascii "nxpilot_a_wheel") = threadName (ascii "nxpilot_b_wheel") := by
  refine (threadName_eq_iff ?_ ?_).mpr (Or.inr ?_)
  · decide
  · decide
  · decide

/-- A name is kept if it has less than fifteen bytes, or fifteen with dots in the right place. -/
structure NameKept (name : Bytes) : Prop where
  noNul : 0 ∉ name
  fits : name.length < 15 ∨ name.length = 15 ∧ (name.drop 8).take 2 = dots

theorem realName_eq_self_iff : realName name = name ↔
    name.length < 15 ∨ name.length = 15 ∧ (name.drop 8).take 2 = dots := by
  rcases Nat.lt_or_ge name.length 15 with hs | hl
  · simp [realName_of_lt hs, hs]
  constructor
  · intro heq
    have hlen := length_realName hl
    have hdots : ((realName name).drop 8).take 2 = dots := by
      rw [realName_of_le hl, List.append_assoc, List.drop_append_of_le_length (by simp; omega),
        List.drop_of_length_le (by simp)]
      rfl
    rw [heq] at hlen hdots
    exact Or.inr ⟨hlen, hdots⟩
  · rintro (hs | ⟨hlen, hdots⟩)
    · omega
    have hlast : lastBytes 5 name = (name.drop 8).drop 2 := by
      rw [lastBytes, hlen, List.drop_drop]
    rw [realName_of_le hl, ← hdots, hlast, List.append_assoc, List.take_append_drop,
      List.take_append_drop]

theorem threadName_eq_self_iff : threadName name = name ↔ NameKept name := by
  constructor
  · intro heq
    have hzero : 0 ∉ name := by
      rw [← heq]
      exact fun h0 => by simpa using List.mem_takeWhile_imp h0
    rw [threadName_eq_realName hzero] at heq
    exact ⟨hzero, realName_eq_self_iff.mp heq⟩
  · rintro ⟨hzero, hfits⟩
    rw [threadName_eq_realName hzero]
    exact realName_eq_self_iff.mpr hfits

end Names

/-! ## CPUs -/

section Cpus

variable {os : ThreadInterface} {l : List UInt32} {t : ThreadSettings}

/-- The set has the CPUs of the list, but for those beyond its size. -/
theorem getLsbD_cpuSet (l : List UInt32) (i : ℕ) :
    (cpuSet l).getLsbD i = true ↔ i < 1024 ∧ ∃ cpuIdx ∈ l, cpuIdx.toNat = i := by
  have hfold : ∀ (l : List UInt32) (cpuset : CpuSet),
      (l.foldl (fun cpuset cpuIdx => cpuset ||| BitVec.twoPow 1024 cpuIdx.toNat) cpuset).getLsbD i =
        true ↔ cpuset.getLsbD i = true ∨ i < 1024 ∧ ∃ cpuIdx ∈ l, cpuIdx.toNat = i := by
    intro l
    induction l with
    | nil => simp
    | cons cpuIdx l ih =>
      intro cpuset
      rw [List.foldl_cons, ih, BitVec.getLsbD_or, Bool.or_eq_true, BitVec.getLsbD_twoPow,
        Bool.and_eq_true, decide_eq_true_iff, decide_eq_true_iff, or_assoc]
      simp only [List.mem_cons, exists_eq_or_imp]
      constructor
      · rintro (hset | ⟨hlt, rfl⟩ | ⟨hlt, hmem⟩)
        · exact Or.inl hset
        · exact Or.inr ⟨hlt, Or.inl rfl⟩
        · exact Or.inr ⟨hlt, Or.inr hmem⟩
      · rintro (hset | ⟨hlt, rfl | hmem⟩)
        · exact Or.inl hset
        · exact Or.inr (Or.inl ⟨hlt, rfl⟩)
        · exact Or.inr (Or.inr ⟨hlt, hmem⟩)
  rw [cpuSet, hfold]
  simp

/-- The set is that of the list. -/
def IsSetOf (cpuset : CpuSet) (l : List UInt32) : Prop :=
  ∀ i, cpuset.getLsbD i = true ↔ ∃ cpuIdx ∈ l, cpuIdx.toNat = i

theorem isSetOf_cpuSet_iff : IsSetOf (cpuSet l) l ↔ ∀ cpuIdx ∈ l, cpuIdx.toNat < 1024 := by
  constructor
  · intro h cpuIdx hmem
    exact ((getLsbD_cpuSet l _).mp ((h _).mpr ⟨cpuIdx, hmem, rfl⟩)).1
  · intro h i
    rw [getLsbD_cpuSet]
    constructor
    · exact And.right
    · rintro ⟨cpuIdx, hmem, rfl⟩
      exact ⟨h cpuIdx hmem, cpuIdx, hmem, rfl⟩

/-- The CPUs of the list are there, and the system takes them. -/
structure CpusTaken (os : ThreadInterface) (l : List UInt32) : Prop where
  lt : ∀ cpuIdx ∈ l, cpuIdx < os.hardwareConcurrency
  taken : l ≠ [] → os.setaffinity (cpuSet l) = 0

/-- The check of the indices changes nothing. -/
theorem checkCpuIdx_post (l : List UInt32) (t : ThreadSettings) :
    (Call.forEach (checkCpuIdx os) l t).Post
      (fun t' => t' = t ∧ ∀ cpuIdx ∈ l, cpuIdx < os.hardwareConcurrency)
      (fun t' => t' = t ∧ ∃ cpuIdx ∈ l, ¬ cpuIdx < os.hardwareConcurrency) False := by
  have hstep : ∀ done cpuIdx rest t', l = done ++ cpuIdx :: rest →
      (t' = t ∧ ∀ cpuIdx ∈ done, cpuIdx < os.hardwareConcurrency) →
      (checkCpuIdx os cpuIdx t').Post
        (fun t' => t' = t ∧ ∀ i ∈ done ++ [cpuIdx], i < os.hardwareConcurrency)
        (fun t' => t' = t ∧ ∃ i ∈ l, ¬ i < os.hardwareConcurrency) False := by
    rintro done cpuIdx rest t' rfl ⟨rfl, hdone⟩
    unfold checkCpuIdx
    split
    · next hlt => exact ⟨rfl, List.forall_mem_append.mpr ⟨hdone, by simpa using hlt⟩⟩
    · next hge => exact ⟨rfl, cpuIdx, by simp, hge⟩
  exact Call.post_forEach
    (I := fun done t' => t' = t ∧ ∀ cpuIdx ∈ done, cpuIdx < os.hardwareConcurrency) hstep
    ⟨rfl, by simp⟩

/-- The CPUs are bound as a whole, or not at all. -/
theorem bindCpu_post (l : List UInt32) (t : ThreadSettings) :
    (bindCpuForCurrentThread os l t).Post
      (fun t' => t' = { t with cpus := if l = [] then t.cpus else some (cpuSet l) } ∧
        CpusTaken os l)
      (fun t' => t' = t ∧ ¬ CpusTaken os l) False := by
  unfold bindCpuForCurrentThread
  by_cases hl : l = []
  · subst hl
    exact ⟨rfl, by simp, by simp⟩
  simp only [if_neg hl]
  refine Call.Post.andThen (P := fun t' => t' = t ∧ ∀ cpuIdx ∈ l, cpuIdx < os.hardwareConcurrency)
    ((checkCpuIdx_post l t).imp (fun t' ht => ht) ?_ id) ?_
  · rintro t' ⟨rfl, cpuIdx, hmem, hge⟩
    exact ⟨rfl, fun htaken => hge (htaken.lt cpuIdx hmem)⟩
  · rintro t' ⟨rfl, hlt⟩
    unfold setAffinity
    split
    · next hret => exact ⟨rfl, hlt, fun _ => hret⟩
    · next hret => exact ⟨rfl, fun htaken => hret (htaken.taken hl)⟩

end Cpus

/-! ## The set-up -/

section SetUp

variable {os : ThreadInterface} {cls : String} {o : ThreadOptions} {t : ThreadSettings}
  {calls : List SchedCall} {sched : String}

/-- The scheduling calls that a documented text asks for. -/
inductive Asked (sched : String) : List SchedCall → Prop
  | nothing : sched = "" → Asked sched []
  | other : sched = SchedPolicy.other.text → Asked sched [⟨.other, 0⟩]
  | realTime (policy digits) : IsRealTime sched policy digits → digits ≠ [] →
      (∀ c ∈ digits, c.isDigit = true) → 1 ≤ Numeral.value digits → Numeral.value digits ≤ 99 →
      Asked sched [⟨policy, Numeral.value digits⟩]

/-- The priorities of the system are those of Linux. -/
structure LinuxRange (os : SchedInterface) : Prop where
  min : os.priorityMin = linux.priorityMin
  max : os.priorityMax = linux.priorityMax

/-- The call is made, and the system takes it or not. -/
theorem call_post (os : SchedInterface) (c : SchedCall) :
    (os.call c).Post (fun calls => calls = [c] ∧ os.setschedparam c = 0)
      (fun calls => calls = [c] ∧ os.setschedparam c ≠ 0) False := by
  unfold SchedInterface.call
  split
  · exact ⟨rfl, ‹_›⟩
  · exact ⟨rfl, ‹_›⟩

/-- A documented text: the call is made that it asks for. -/
theorem Asked.post {os : SchedInterface} (h : Asked sched calls) (hrange : LinuxRange os) :
    (setCpuSchedForCurrentThread os sched).Post
      (fun made => made = calls ∧ ∀ c ∈ calls, os.setschedparam c = 0)
      (fun _ => ¬ ∀ c ∈ calls, os.setschedparam c = 0) False := by
  have hcall : ∀ c, (os.call c).Post (fun made => made = [c] ∧ ∀ d ∈ [c], os.setschedparam d = 0)
      (fun _ => ¬ ∀ d ∈ [c], os.setschedparam d = 0) False := by
    intro c
    refine (call_post os c).imp ?_ ?_ id
    · rintro made ⟨rfl, hret⟩
      exact ⟨rfl, List.forall_mem_singleton.mpr hret⟩
    · rintro made ⟨rfl, hret⟩ hall
      exact hret (hall c List.mem_cons_self)
  cases h with
  | nothing h =>
    subst h
    exact ⟨rfl, by simp⟩
  | other h =>
    subst h
    rw [setCpuSchedForCurrentThread, if_neg (by decide), if_pos rfl]
    exact hcall _
  | realTime policy digits hrt hne hdigit hpos hle =>
    have hread := atoi_digits hne hdigit (by omega)
    have hin : 1 ≤ (value digits : ℤ) ∧ (value digits : ℤ) ≤ 99 := by omega
    rw [setCpuSched_cons hrt hne, setPriority, hread, hrange.min, hrange.max]
    simp only [linux, if_neg hrt.1]
    rw [if_pos hin]
    exact hcall _

theorem schedule_post (h : Asked sched calls) (hrange : LinuxRange os.toSchedInterface) :
    (schedule os sched t).Post
      (fun t' => t' = { t with sched := t.sched ++ calls } ∧ ∀ c ∈ calls, os.setschedparam c = 0)
      (fun t' => t' = t ∧ ¬ ∀ c ∈ calls, os.setschedparam c = 0) False := by
  have hpost := h.post hrange
  unfold schedule
  cases hcall : setCpuSchedForCurrentThread os.toSchedInterface sched with
  | returns made =>
    rw [hcall] at hpost
    obtain ⟨rfl, hret⟩ := hpost
    exact ⟨rfl, hret⟩
  | throws made what =>
    rw [hcall] at hpost
    exact ⟨rfl, hpost⟩
  | terminates =>
    rw [hcall] at hpost
    exact hpost

/-- How the set-up of a new thread ends: the name is set in any case, the policy only if the CPUs
have been bound. -/
inductive SetUpEnds (os : ThreadInterface) (o : ThreadOptions) (calls : List SchedCall) :
    ThreadSettings → List String → Prop
  | done : CpusTaken os o.threadBindCpu → (∀ c ∈ calls, os.setschedparam c = 0) →
      SetUpEnds os o calls
        ⟨threadName o.name, if o.threadBindCpu = [] then none else some (cpuSet o.threadBindCpu),
          calls⟩ []
  | noSched {text} : CpusTaken os o.threadBindCpu → (¬ ∀ c ∈ calls, os.setschedparam c = 0) →
      SetUpEnds os o calls
        ⟨threadName o.name, if o.threadBindCpu = [] then none else some (cpuSet o.threadBindCpu),
          []⟩ [text]
  | noCpus {text} : ¬ CpusTaken os o.threadBindCpu →
      SetUpEnds os o calls ⟨threadName o.name, none, []⟩ [text]

theorem setUpThread_cases (h : Asked o.threadSchedPolicy calls)
    (hrange : LinuxRange os.toSchedInterface) :
    ∃ t log, setUpThread os cls o {} = .returns (t, log) ∧ SetUpEnds os o calls t log := by
  have hbind : (bindCpuForCurrentThread os o.threadBindCpu { name := threadName o.name }).Post
      _ _ False := bindCpu_post _ _
  unfold setUpThread
  simp only [setNameForCurrentThread, Call.andThen]
  cases hcpu : bindCpuForCurrentThread os o.threadBindCpu { name := threadName o.name } with
  | terminates =>
    rw [hcpu] at hbind
    exact hbind.elim
  | throws t what =>
    rw [hcpu] at hbind
    obtain ⟨rfl, hnot⟩ := hbind
    exact ⟨_, _, rfl, .noCpus hnot⟩
  | returns t =>
    rw [hcpu] at hbind
    obtain ⟨rfl, htaken⟩ := hbind
    have hsched : (schedule os o.threadSchedPolicy ⟨threadName o.name,
        if o.threadBindCpu = [] then none else some (cpuSet o.threadBindCpu), []⟩).Post _ _ False :=
      schedule_post h hrange
    dsimp only
    split
    · next t' heq =>
      rw [heq] at hsched
      obtain ⟨rfl, hret⟩ := hsched
      exact ⟨_, _, rfl, .done htaken hret⟩
    · next t' what heq =>
      rw [heq] at hsched
      obtain ⟨rfl, hret⟩ := hsched
      exact ⟨_, _, rfl, .noSched htaken hret⟩
    · next heq =>
      rw [heq] at hsched
      exact hsched.elim

/-- The thread has the name, the CPUs and the policy that its options ask for. -/
structure AsWritten (o : ThreadOptions) (calls : List SchedCall) (t : ThreadSettings) : Prop where
  name : t.name = o.name
  cpus : o.threadBindCpu ≠ [] → ∃ cpuset, t.cpus = some cpuset ∧ IsSetOf cpuset o.threadBindCpu
  sched : t.sched = calls

theorem cpusTaken_nil (h : o.threadBindCpu = []) : CpusTaken os o.threadBindCpu := by
  rw [h]
  exact ⟨by simp, by simp⟩

theorem SetUpEnds.asWritten_iff {log : List String} (h : SetUpEnds os o calls t log) :
    AsWritten o calls t ↔ NameKept o.name ∧ (CpusTaken os o.threadBindCpu ∧
      ∀ cpuIdx ∈ o.threadBindCpu, cpuIdx.toNat < 1024) ∧
        ∀ c ∈ calls, os.setschedparam c = 0 := by
  cases h with
  | done htaken hret =>
    constructor
    · intro hw
      refine ⟨threadName_eq_self_iff.mp hw.name, ⟨htaken, ?_⟩, hret⟩
      by_cases hl : o.threadBindCpu = []
      · simp [hl]
      · obtain ⟨cpuset, hset, his⟩ := hw.cpus hl
        rw [if_neg hl] at hset
        cases hset
        exact isSetOf_cpuSet_iff.mp his
    · rintro ⟨hname, ⟨-, hlt⟩, -⟩
      refine ⟨threadName_eq_self_iff.mpr hname, fun hl => ?_, rfl⟩
      exact ⟨_, if_neg hl, isSetOf_cpuSet_iff.mpr hlt⟩
  | noSched htaken hret =>
    constructor
    · intro hw
      have hnil : [] = calls := hw.sched
      subst hnil
      exact absurd (by simp) hret
    · exact fun hs => absurd hs.2.2 hret
  | noCpus hnot =>
    constructor
    · intro hw
      by_cases hl : o.threadBindCpu = []
      · exact absurd (cpusTaken_nil hl) hnot
      · obtain ⟨cpuset, hset, -⟩ := hw.cpus hl
        cases hset
    · exact fun hs => absurd hs.2.1.1 hnot

/-- **The thread has what its options ask for** exactly if its name is kept, its CPUs are there and
in the first 1024, and the system takes both calls. -/
theorem as_written_iff (h : Asked o.threadSchedPolicy calls)
    (hrange : LinuxRange os.toSchedInterface) :
    (∃ t log, setUpThread os cls o {} = .returns (t, log) ∧ AsWritten o calls t) ↔
      NameKept o.name ∧ (CpusTaken os o.threadBindCpu ∧
        ∀ cpuIdx ∈ o.threadBindCpu, cpuIdx.toNat < 1024) ∧
          ∀ c ∈ calls, os.setschedparam c = 0 := by
  obtain ⟨t, log, hcall, hends⟩ : ∃ t log, setUpThread os cls o {} = .returns (t, log) ∧
      SetUpEnds os o calls t log := setUpThread_cases h hrange
  rw [← hends.asWritten_iff, hcall]
  constructor
  · rintro ⟨t', log', heq, hw⟩
    cases heq
    exact hw
  · exact fun hw => ⟨t, log, rfl, hw⟩

/-- Linux with four CPUs, when every call succeeds. -/
def linuxOfFour : ThreadInterface where
  toSchedInterface := linux
  hardwareConcurrency := 4
  setaffinity _ := 0

/-- The options of a guard thread on the CPUs 1 and 3. -/
def guardOptions : ThreadOptions where
  name := ascii "nxpilot_guard"
  threadSchedPolicy := "SCHED_RR:80"
  threadBindCpu := [3, 1]

/-- The guard thread gets its name, its CPUs and its priority. -/
theorem as_written_guard :
    ∃ t log, setUpThread linuxOfFour "GuardThreadExecutor" guardOptions {} = .returns (t, log) ∧
      AsWritten guardOptions [⟨.rr, 80⟩] t := by
  have hrt : IsRealTime "SCHED_RR:80" .rr "80".toList := by
    constructor <;> decide
  have hdigit : ∀ c ∈ "80".toList, c.isDigit = true := by simp
  have hasked : Asked "SCHED_RR:80" [⟨.rr, 80⟩] :=
    .realTime _ _ hrt (by decide) hdigit (by decide) (by decide)
  refine (as_written_iff hasked ⟨rfl, rfl⟩).mpr ⟨?_, ⟨?_, by simp [guardOptions]⟩, ?_⟩
  · exact ⟨by decide, by decide⟩
  · exact ⟨by simp [guardOptions, linuxOfFour], fun _ => rfl⟩
  · exact fun _ _ => rfl

end SetUp

end Ados
