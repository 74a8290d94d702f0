import Ados.Core.Registry
import Ados.TimeWheel.Executor
import Mathlib.Data.List.Induction

/-!
# The grammar of the configuration

`Initialize` accepts at most one main thread entry, then at most one guard thread entry, then time
wheel entries under names that are not in use. The first pass finds the places of the single entries
by an index of 32 bits, which is `0` again after `2 ^ 32` entries: a main thread entry is where it
has to be at every multiple of `2 ^ 32`.

## Main definitions

* `mainThreadName`, `guardThreadName`: the effective names, configured or default
* `Placed`: every single entry is where the index allows it
* `Grammar`: the lists that `Initialize` is to accept
* `Wrapped`: a list that is accepted after the index has wrapped around
* `mainAfter`: a main thread entry behind `n` time wheel entries and before others
* `ExecutorManager.AcceptsGrammar`: `Initialize` returns for the grammar and throws for the rest

## Main results

* `exists_checkOptions_iff`, `found`: which lists pass the first pass, and what it finds
* `grammar_iff`: the grammar is what is accepted, without a wrap-around
* `ExecutorManager.acceptsGrammar_iff_not_wrapped`: the lists that it gets wrong
* `ExecutorManager.accepts_grammar_iff`: `Initialize` accepts exactly the grammar among the lists of
  `n` entries if and only if `n` is `2 ^ 32` at most
-/

namespace Ados.Core

open Transition

variable {Node : Type} {l done rest : List (ExecutorOptions Node)} {o : ExecutorOptions Node}
  {c c' : OptionsCheck Node}

/-! ## The first pass -/

/-- The name of the last entry of a type, or the default if there is none. -/
def effectiveName (type defaultName : String) (l : List (ExecutorOptions Node)) : String :=
  ((l.filter fun o => o.type = type).getLast?.map (·.name)).getD defaultName

def mainThreadName (l : List (ExecutorOptions Node)) : String :=
  effectiveName "main_thread" "nxpilot_main" l

def guardThreadName (l : List (ExecutorOptions Node)) : String :=
  effectiveName "guard_thread" "nxpilot_guard" l

def HasMainThread (l : List (ExecutorOptions Node)) : Prop := ∃ o ∈ l, o.type = "main_thread"

/-- What the first pass has found when `l` is behind it. -/
structure Found (l : List (ExecutorOptions Node)) (c : OptionsCheck Node) : Prop where
  idx : c.idx = l.length % 2 ^ 32
  detected : c.detectedMainThreadOptions = true ↔ HasMainThread l
  mainThread : c.mainThreadName = mainThreadName l
  guardThread : c.guardThreadName = guardThreadName l

/-- The index allows an entry behind the entries `done`. -/
structure Fits (done : List (ExecutorOptions Node)) (o : ExecutorOptions Node) : Prop where
  mainThread : o.type = "main_thread" → done.length % 2 ^ 32 = 0
  guardThread : o.type = "guard_thread" →
    done.length % 2 ^ 32 = 0 ∧ ¬ HasMainThread done ∨
      done.length % 2 ^ 32 = 1 ∧ HasMainThread done

/-- The index allows every entry where it is. -/
def Placed (l : List (ExecutorOptions Node)) : Prop :=
  ∀ done o rest, l = done ++ o :: rest → Fits done o

theorem effectiveName_concat (type defaultName : String) (l : List (ExecutorOptions Node))
    (o : ExecutorOptions Node) :
    effectiveName type defaultName (l ++ [o]) =
      if o.type = type then o.name else effectiveName type defaultName l := by
  unfold effectiveName
  split
  · next h => simp [h]
  · next h => simp [h]

theorem hasMainThread_concat :
    HasMainThread (l ++ [o]) ↔ HasMainThread l ∨ o.type = "main_thread" := by
  simp [HasMainThread, or_and_right, exists_or]

theorem placed_nil : Placed ([] : List (ExecutorOptions Node)) := by
  intro done o rest h
  simp at h

theorem placed_concat : Placed (l ++ [o]) ↔ Placed l ∧ Fits l o := by
  constructor
  · intro h
    refine ⟨fun done p rest hl => h done p (rest ++ [o]) ?_, h l o [] rfl⟩
    rw [hl, List.append_assoc, List.cons_append]
  · rintro ⟨hl, ho⟩ done p rest h
    rcases List.eq_nil_or_concat rest with rfl | ⟨rest, q, rfl⟩
    · obtain ⟨rfl, hp⟩ := List.append_inj' h rfl
      obtain rfl := List.singleton_inj.mp hp
      exact ho
    · rw [List.concat_eq_append, ← List.cons_append, ← List.append_assoc] at h
      exact hl done p rest (List.append_inj' h rfl).1

theorem found_nil : Found ([] : List (ExecutorOptions Node)) {} := by
  refine ⟨rfl, ?_, rfl, rfl⟩
  simp [HasMainThread]

theorem Found.nextIdx (h : Found l c) : c.nextIdx = (l ++ [o]).length % 2 ^ 32 := by
  rw [OptionsCheck.nextIdx, h.idx, List.length_append, List.length_singleton]
  omega

/-- The body of the first pass accepts an entry exactly if it is at the index where it has to be. -/
theorem exists_checkOption_iff : (∃ c', checkOption c o = .ok c') ↔
    (o.type = "main_thread" → c.idx = 0) ∧
      (o.type = "guard_thread" →
        c.idx = 0 ∧ c.detectedMainThreadOptions = false ∨
          c.idx = 1 ∧ c.detectedMainThreadOptions = true) := by
  unfold checkOption
  by_cases hmain : o.type = "main_thread"
  · by_cases hidx : c.idx = 0
    · simp [hmain, hidx]
    · simp [hmain, hidx]
  by_cases hguard : o.type = "guard_thread"
  · by_cases hplace : c.idx = 0 ∧ c.detectedMainThreadOptions = false ∨
        c.idx = 1 ∧ c.detectedMainThreadOptions = true
    · simp only [if_neg hmain, if_pos hguard, if_pos hplace]
      simp [hmain, hplace]
    · simp only [if_neg hmain, if_pos hguard, if_neg hplace]
      simp [hguard, hplace]
  · simp [hmain, hguard]

theorem Found.fits_iff (h : Found l c) : (∃ c', Core.checkOption c o = .ok c') ↔ Fits l o := by
  rw [exists_checkOption_iff, ← Bool.not_eq_true, h.detected, h.idx]
  exact ⟨fun hfits => ⟨hfits.1, hfits.2⟩, fun hfits => ⟨hfits.mainThread, hfits.guardThread⟩⟩

/-- What the body of the first pass has found behind an entry. -/
theorem Found.checkOption (h : Found l c) (hc : checkOption c o = .ok c') :
    Found (l ++ [o]) c' := by
  unfold Core.checkOption at hc
  by_cases hmain : o.type = "main_thread"
  · rw [if_pos hmain] at hc
    split at hc
    · cases hc
      refine ⟨h.nextIdx, ?_, ?_, ?_⟩
      · simp [hasMainThread_concat, hmain]
      · rw [mainThreadName, effectiveName_concat, if_pos hmain]
      · rw [h.guardThread, guardThreadName, guardThreadName, effectiveName_concat,
          if_neg (by simp [hmain])]
    · cases hc
  rw [if_neg hmain] at hc
  have hdetected : c.detectedMainThreadOptions = true ↔ HasMainThread (l ++ [o]) := by
    rw [h.detected, hasMainThread_concat, or_iff_left hmain]
  have hname : c.mainThreadName = mainThreadName (l ++ [o]) := by
    rw [h.mainThread, mainThreadName, mainThreadName, effectiveName_concat, if_neg hmain]
  by_cases hguard : o.type = "guard_thread"
  · rw [if_pos hguard] at hc
    split at hc
    · cases hc
      refine ⟨h.nextIdx, hdetected, hname, ?_⟩
      rw [guardThreadName, effectiveName_concat, if_pos hguard]
    · cases hc
  · rw [if_neg hguard] at hc
    cases hc
    refine ⟨h.nextIdx, hdetected, hname, ?_⟩
    rw [h.guardThread, guardThreadName, guardThreadName, effectiveName_concat, if_neg hguard]

/-- What the first pass has found when it has passed a list. -/
theorem found (hc : checkOptions l = .ok c) : Found l c := by
  induction l using List.reverseRecOn generalizing c with
  | nil =>
    cases hc
    exact found_nil
  | append_singleton l o ih =>
    rw [checkOptions_concat] at hc
    cases hl : checkOptions l with
    | error what =>
      rw [hl] at hc
      cases hc
    | ok b =>
      rw [hl] at hc
      exact (ih hl).checkOption hc

/-- **The lists that pass the first pass**: every entry is where the index allows it. -/
theorem exists_checkOptions_iff : (∃ c, checkOptions l = .ok c) ↔ Placed l := by
  induction l using List.reverseRecOn with
  | nil => exact iff_of_true ⟨{}, rfl⟩ placed_nil
  | append_singleton l o ih =>
    rw [placed_concat, ← ih, checkOptions_concat]
    constructor
    · rintro ⟨c', hc'⟩
      cases hl : checkOptions l with
      | error what =>
        rw [hl] at hc'
        cases hc'
      | ok b =>
        rw [hl] at hc'
        exact ⟨⟨b, rfl⟩, (found hl).fits_iff.mp ⟨c', hc'⟩⟩
    · rintro ⟨⟨b, hb⟩, ho⟩
      rw [hb]
      exact (found hb).fits_iff.mpr ho

/-! ## The lists that are accepted -/

/-- Every entry is of a known type. -/
def KnownTypes (l : List (ExecutorOptions Node)) : Prop :=
  ∀ o ∈ l, o.type = "main_thread" ∨ o.type = "guard_thread" ∨ o.type = "time_wheel"

/-- The names of the time wheel entries are pairwise distinct and differ from both effective
names. -/
structure DistinctNames (l : List (ExecutorOptions Node)) : Prop where
  nodup : ((timeWheels l).map (·.name)).Nodup
  mainThread : ∀ o ∈ timeWheels l, o.name ≠ mainThreadName l
  guardThread : ∀ o ∈ timeWheels l, o.name ≠ guardThreadName l

theorem Found.nodup_labels_iff (h : Found l c) (hne : mainThreadName l ≠ guardThreadName l) :
    ((labels c l).map Prod.snd).Nodup ↔ DistinctNames l := by
  have hlabels : (labels c l).map Prod.snd =
      mainThreadName l :: guardThreadName l :: (timeWheels l).map (·.name) := by
    simp only [labels, List.map_cons, List.map_map, h.mainThread, h.guardThread]
    rfl
  rw [hlabels, List.nodup_cons, List.nodup_cons]
  simp only [List.mem_cons, List.mem_map, not_or, not_exists, not_and]
  constructor
  · rintro ⟨⟨-, hmain⟩, hguard, hnodup⟩
    exact ⟨hnodup, hmain, hguard⟩
  · intro hnames
    exact ⟨⟨hne, hnames.mainThread⟩, hnames.guardThread, hnames.nodup⟩

/-- With two effective names and executors that do not throw by themselves, what is accepted is a
matter of places, types and names. -/
theorem exists_accepts_iff {faults : InitializeFaults Node}
    (hfaults : ∀ type name options, faults type name options = none)
    (hne : Placed l → mainThreadName l ≠ guardThreadName l) :
    (∃ c, Accepts faults (.decodes l) c) ↔ Placed l ∧ KnownTypes l ∧ DistinctNames l := by
  constructor
  · rintro ⟨c, hc⟩
    have hcheck : checkOptions l = .ok c := hc.placed
    have hplaced : Placed l := exists_checkOptions_iff.mp ⟨c, hcheck⟩
    exact ⟨hplaced, hc.types, ((found hcheck).nodup_labels_iff (hne hplaced)).mp hc.names⟩
  · rintro ⟨hplaced, htypes, hnames⟩
    obtain ⟨c, hc⟩ := exists_checkOptions_iff.mpr hplaced
    have hnodup := ((found hc).nodup_labels_iff (hne hplaced)).mpr hnames
    exact ⟨c, by simp, hc, htypes, hnodup, hfaults .., hfaults .., fun o _ => hfaults ..⟩

/-! ## The grammar -/

/-- At most one main thread entry, then at most one guard thread entry, then time wheel entries. -/
def Shaped (l : List (ExecutorOptions Node)) : Prop :=
  ∃ (main guard : Option (ExecutorOptions Node)) (wheels : List (ExecutorOptions Node)),
    l = main.toList ++ guard.toList ++ wheels ∧ (∀ o ∈ main, o.type = "main_thread") ∧
      (∀ o ∈ guard, o.type = "guard_thread") ∧ ∀ o ∈ wheels, o.type = "time_wheel"

/-- The lists that `Initialize` is to accept. -/
structure Grammar (l : List (ExecutorOptions Node)) : Prop where
  shaped : Shaped l
  names : DistinctNames l

/-- An entry behind the entries `done` is not preceded by what has to come later. -/
structure Leads (done : List (ExecutorOptions Node)) (o : ExecutorOptions Node) : Prop where
  mainThread : o.type = "main_thread" → done = []
  guardThread : o.type = "guard_thread" → done = [] ∨ ∃ p, done = [p] ∧ p.type = "main_thread"

def Leading (l : List (ExecutorOptions Node)) : Prop :=
  ∀ done o rest, l = done ++ o :: rest → Leads done o

/-- There is a single entry behind `2 ^ 32` entries at least. -/
def Overflows (l : List (ExecutorOptions Node)) : Prop :=
  ∃ done o rest, l = done ++ o :: rest ∧ 2 ^ 32 ≤ done.length ∧
    (o.type = "main_thread" ∨ o.type = "guard_thread")

theorem leads_nil : Leads [] o := ⟨fun _ => rfl, fun _ => Or.inl rfl⟩

theorem leads_of_time_wheel (h : o.type = "time_wheel") : Leads done o := by
  constructor
  · simp [h]
  · simp [h]

theorem Shaped.leading (h : Shaped l) : Leading l := by
  obtain ⟨main, guard, wheels, rfl, hmain, hguard, hwheels⟩ := h
  intro done o rest hl
  have hwheel : ∀ {pre}, wheels = pre ++ o :: rest → Leads done o := fun heq =>
    leads_of_time_wheel (hwheels o (by simp [heq]))
  rcases done with _ | ⟨d, done⟩
  · exact leads_nil
  cases main with
  | none =>
    cases guard with
    | none => exact hwheel hl
    | some g => exact hwheel (List.cons.inj hl).2
  | some m =>
    obtain ⟨rfl, htail⟩ := List.cons.inj hl
    cases guard with
    | none => exact hwheel htail
    | some g =>
      rcases done with _ | ⟨d, done⟩
      · obtain ⟨rfl, -⟩ := List.cons.inj htail
        constructor
        · intro ho
          simp [hguard g rfl] at ho
        · exact fun _ => Or.inr ⟨m, rfl, hmain m rfl⟩
      · exact hwheel (List.cons.inj htail).2

theorem Shaped.knownTypes (h : Shaped l) : KnownTypes l := by
  obtain ⟨main, guard, wheels, rfl, hmain, hguard, hwheels⟩ := h
  intro o ho
  rcases List.mem_append.mp ho with ho | ho
  · rcases List.mem_append.mp ho with ho | ho
    · exact Or.inl (hmain o (Option.mem_toList.mp ho))
    · exact Or.inr (Or.inl (hguard o (Option.mem_toList.mp ho)))
  · exact Or.inr (Or.inr (hwheels o ho))

/-- Behind other entries there are time wheel entries, unless a guard thread entry follows that of
the main thread. -/
theorem Leading.time_wheel (pre : List (ExecutorOptions Node)) (h : Leading (pre ++ l))
    (ht : KnownTypes (pre ++ l)) (hne : pre ≠ [])
    (hguard : ∀ p, pre = [p] → p.type = "main_thread" →
      ∀ o ∈ l.head?, o.type ≠ "guard_thread") :
    ∀ o ∈ l, o.type = "time_wheel" := by
  intro o ho
  obtain ⟨done, rest, rfl⟩ := List.append_of_mem ho
  have hleads : Leads (pre ++ done) o := h (pre ++ done) o rest (List.append_assoc ..).symm
  have hnil : pre ++ done ≠ [] := List.append_ne_nil_of_left_ne_nil hne done
  rcases ht o (by simp) with hm | hg | hw
  · exact absurd (hleads.mainThread hm) hnil
  · rcases hleads.guardThread hg with heq | ⟨p, heq, hp⟩
    · exact absurd heq hnil
    · rcases List.append_eq_singleton_iff.mp heq with ⟨heq, -⟩ | ⟨rfl, rfl⟩
      · exact absurd heq hne
      · exact absurd hg (hguard p rfl hp o rfl)
  · exact hw

theorem Leading.shaped (h : Leading l) (ht : KnownTypes l) : Shaped l := by
  cases l with
  | nil => exact ⟨none, none, [], rfl, by simp, by simp, by simp⟩
  | cons x rest =>
    rcases ht x (List.mem_cons_self ..) with hm | hg | hw
    · cases rest with
      | nil => exact ⟨some x, none, [], rfl, by simpa using hm, by simp, by simp⟩
      | cons y rest =>
        by_cases hy : y.type = "guard_thread"
        · exact ⟨some x, some y, rest, rfl, by simpa using hm, by simpa using hy,
            Leading.time_wheel [x, y] h ht (by simp) (by simp)⟩
        · exact ⟨some x, none, y :: rest, rfl, by simpa using hm, by simp,
            Leading.time_wheel [x] h ht (by simp) (by simpa using fun _ => hy)⟩
    · exact ⟨none, some x, rest, rfl, by simp, by simpa using hg,
        Leading.time_wheel [x] h ht (by simp) (by simp [hg])⟩
    · exact ⟨none, none, x :: rest, rfl, by simp, by simp, List.forall_mem_cons.mpr
        ⟨hw, Leading.time_wheel [x] h ht (by simp) (by simp [hw])⟩⟩

/-- **The grammar** is what is accepted, without a single entry behind `2 ^ 32` others. -/
theorem grammar_iff : Grammar l ↔
    (Placed l ∧ KnownTypes l ∧ DistinctNames l) ∧ ¬ Overflows l := by
  constructor
  · rintro ⟨hshaped, hnames⟩
    have hleading := hshaped.leading
    refine ⟨⟨fun done o rest hl => ?_, hshaped.knownTypes, hnames⟩, ?_⟩
    · have hleads := hleading done o rest hl
      constructor
      · intro ho
        simp [hleads.mainThread ho]
      · intro ho
        rcases hleads.guardThread ho with rfl | ⟨p, rfl, hp⟩
        · simp [HasMainThread]
        · simp [HasMainThread, hp]
    · rintro ⟨done, o, rest, hl, hlen, ho⟩
      have hleads := hleading done o rest hl
      rcases ho with ho | ho
      · simp [hleads.mainThread ho] at hlen
      · rcases hleads.guardThread ho with rfl | ⟨p, rfl, -⟩
        · simp at hlen
        · simp at hlen
  · rintro ⟨⟨hplaced, htypes, hnames⟩, hover⟩
    refine ⟨Leading.shaped (fun done o rest hl => ?_) htypes, hnames⟩
    have hfits := hplaced done o rest hl
    -- in front of a single entry the index is the number of entries
    have hlen : o.type = "main_thread" ∨ o.type = "guard_thread" → done.length < 2 ^ 32 := by
      intro ho
      by_contra hle
      exact hover ⟨done, o, rest, hl, Nat.not_lt.mp hle, ho⟩
    constructor
    · intro ho
      have hzero := hfits.mainThread ho
      rw [Nat.mod_eq_of_lt (hlen (Or.inl ho))] at hzero
      exact List.length_eq_zero_iff.mp hzero
    · intro ho
      have hplace := hfits.guardThread ho
      rw [Nat.mod_eq_of_lt (hlen (Or.inr ho))] at hplace
      rcases hplace with ⟨hzero, -⟩ | ⟨hone, hmain⟩
      · exact Or.inl (List.length_eq_zero_iff.mp hzero)
      · obtain ⟨p, rfl⟩ := List.length_eq_one_iff.mp hone
        exact Or.inr ⟨p, rfl, by simpa [HasMainThread] using hmain⟩

/-- A list that is accepted after the index has wrapped around: there is a main thread or a guard
thread entry behind `2 ^ 32` others or more, every such entry is where the index, modulo `2 ^ 32`,
allows it, and types and names are as they have to be. -/
structure Wrapped (l : List (ExecutorOptions Node)) : Prop where
  overflows : Overflows l
  placed : Placed l
  types : KnownTypes l
  names : DistinctNames l

/-- A list that is accepted after a wrap-around has more than `2 ^ 32` entries. -/
theorem Wrapped.lt_length (h : Wrapped l) : 2 ^ 32 < l.length := by
  obtain ⟨done, o, rest, rfl, hlen, -⟩ := h.overflows
  rw [List.length_append, List.length_cons]
  omega

/-! ## Lists that are accepted behind the wrap-around -/

section MainAfter

variable (options : Option Node)

/-- The time wheel entry `timer<i>`. -/
def timer (i : ℕ) : ExecutorOptions Node := ⟨"timer" ++ i.repr, "time_wheel", options⟩

/-- `n` time wheel entries, the first of them `timer<first>`. -/
def timers (first n : ℕ) : List (ExecutorOptions Node) := (List.range' first n).map (timer options)

def mainEntry : ExecutorOptions Node := ⟨"main", "main_thread", none⟩

/-- A main thread entry behind `n` time wheel entries, and `k` more behind it. -/
def mainAfter (n k : ℕ) : List (ExecutorOptions Node) :=
  timers options 0 n ++ [mainEntry] ++ timers options n k

variable {options : Option Node} {n k first : ℕ}

theorem length_timers : (timers options first n).length = n := by
  rw [timers, List.length_map, List.length_range']

theorem type_of_mem_timers (h : o ∈ timers options first n) : o.type = "time_wheel" := by
  obtain ⟨i, -, rfl⟩ := List.mem_map.mp h
  rfl

theorem timer_name_injective (i j : ℕ) (h : (timer options i).name = (timer options j).name) :
    i = j := by
  have hrepr : i.repr = j.repr := (String.append_right_inj "timer").mp h
  have hdigits : Nat.toDigits 10 i = Nat.toDigits 10 j := String.ofList_injective hrepr
  rw [← Nat.ofDigitChars_ten_toDigits (n := i), hdigits, Nat.ofDigitChars_ten_toDigits]

/-- The name of a timer begins with a `t`. -/
theorem name_ne_of_mem_timers (h : o ∈ timers options first n) {name : String}
    (hname : name.toList.head? ≠ some 't') : o.name ≠ name := by
  obtain ⟨i, -, rfl⟩ := List.mem_map.mp h
  rintro rfl
  apply hname
  rw [timer, String.toList_append]
  rfl

/-- Among the entries of another type than the time wheels' there is at most the main entry. -/
theorem filter_mainAfter {type : String} (htype : type ≠ "time_wheel") :
    (mainAfter options n k).filter (fun o => o.type = type) =
      [mainEntry].filter fun o => o.type = type := by
  have hnone : ∀ first n, (timers options first n).filter (fun o => o.type = type) = [] := by
    intro first n
    refine List.filter_eq_nil_iff.mpr fun o ho => ?_
    simpa [type_of_mem_timers ho] using htype.symm
  rw [mainAfter, List.filter_append, List.filter_append, hnone, hnone, List.nil_append,
    List.append_nil]

theorem mainThreadName_mainAfter : mainThreadName (mainAfter options n k) = "main" := by
  rw [mainThreadName, effectiveName, filter_mainAfter (by decide)]
  rfl

theorem guardThreadName_mainAfter :
    guardThreadName (mainAfter options n k) = "nxpilot_guard" := by
  rw [guardThreadName, effectiveName, filter_mainAfter (by decide)]
  rfl

theorem timeWheels_mainAfter : timeWheels (mainAfter options n k) = timers options 0 (n + k) := by
  have hall : ∀ first n, timeWheels (timers options first n) = timers options first n := by
    intro first n
    refine List.filter_eq_self.mpr fun o ho => ?_
    simp [type_of_mem_timers ho]
  rw [mainAfter, timeWheels_append, timeWheels_append, hall, hall,
    timeWheels_cons_of_ne (show "main_thread" ≠ "time_wheel" by decide), timeWheels_nil,
    List.append_nil, timers, timers, timers, ← List.map_append]
  congr 1
  have h : List.range' 0 n ++ List.range' (0 + n) k = List.range' 0 (n + k) := List.range'_append_1
  rwa [Nat.zero_add] at h

theorem distinctNames_mainAfter : DistinctNames (mainAfter options n k) := by
  constructor
  · rw [timeWheels_mainAfter, timers, List.map_map]
    exact List.Nodup.map timer_name_injective List.nodup_range'
  · rw [timeWheels_mainAfter, mainThreadName_mainAfter]
    exact fun o ho => name_ne_of_mem_timers ho (by decide)
  · rw [timeWheels_mainAfter, guardThreadName_mainAfter]
    exact fun o ho => name_ne_of_mem_timers ho (by decide)

/-- Time wheel entries may follow whatever is placed. -/
theorem Placed.append_timers (h : Placed l) : Placed (l ++ timers options first n) := by
  induction n with
  | zero => simpa [timers] using h
  | succ n ih =>
    rw [timers, List.range'_concat, List.map_append, ← List.append_assoc]
    refine placed_concat.mpr ⟨ih, ?_⟩
    constructor
    · exact fun ho => absurd ho (show "time_wheel" ≠ "main_thread" by decide)
    · exact fun ho => absurd ho (show "time_wheel" ≠ "guard_thread" by decide)

/-- A main thread entry behind a multiple of `2 ^ 32` time wheel entries is taken for the first. -/
theorem wrapped_mainAfter (hle : 2 ^ 32 ≤ n) (hn : n % 2 ^ 32 = 0) :
    Wrapped (mainAfter options n k) := by
  refine ⟨?_, ?_, ?_, distinctNames_mainAfter⟩
  · refine ⟨timers options 0 n, mainEntry, timers options n k, ?_, ?_, Or.inl rfl⟩
    · rw [mainAfter, List.append_assoc, List.singleton_append]
    · rwa [length_timers]
  · refine Placed.append_timers (placed_concat.mpr ⟨?_, ?_⟩)
    · exact Placed.append_timers placed_nil
    · refine ⟨fun _ => ?_, fun ho => absurd ho (show "main_thread" ≠ "guard_thread" by decide)⟩
      rwa [length_timers]
  · intro o ho
    rcases List.mem_append.mp ho with ho | ho
    · rcases List.mem_append.mp ho with ho | ho
      · exact Or.inr (Or.inr (type_of_mem_timers ho))
      · exact Or.inl (congrArg ExecutorOptions.type (List.mem_singleton.mp ho))
    · exact Or.inr (Or.inr (type_of_mem_timers ho))

theorem length_mainAfter : (mainAfter options n k).length = n + 1 + k := by
  rw [mainAfter, List.length_append, List.length_append, length_timers, length_timers,
    List.length_singleton]

theorem mainThreadName_ne_mainAfter :
    mainThreadName (mainAfter options n k) ≠ guardThreadName (mainAfter options n k) := by
  rw [mainThreadName_mainAfter, guardThreadName_mainAfter]
  decide

end MainAfter

namespace ExecutorManager

variable {m : ExecutorManager Node} {faults : InitializeFaults Node} {es : List (Act Node)}

/-- `Initialize` returns for the lists of the grammar, and throws for all others. -/
structure AcceptsGrammar (faults : InitializeFaults Node) (m : ExecutorManager Node)
    (l : List (ExecutorOptions Node)) : Prop where
  returns_iff : (∃ t, m.initializeWith (.decodes l) faults = .returns t) ↔ Grammar l
  throws : ¬ Grammar l → ∃ t what, m.initializeWith (.decodes l) faults = .throws t what

/-- With two effective names an `Initialize` that does not return throws. -/
theorem exists_throws (hne : Placed l → mainThreadName l ≠ guardThreadName l)
    (h : ¬ ∃ t, initializeWith (.decodes l) faults {} = .returns t) :
    ∃ t what, initializeWith (.decodes l) faults {} = .throws t what := by
  have hpost : (initializeWith (.decodes l) faults {}).Post _ _ _ := initializeWith_post
  cases hcall : initializeWith (.decodes l) faults {} with
  | returns t => exact absurd ⟨t, hcall⟩ h
  | throws t what => exact ⟨t, what, rfl⟩
  | terminates =>
    rw [hcall] at hpost
    obtain ⟨c, hc, heq⟩ : SharesName l := hpost
    rw [(found hc).mainThread, (found hc).guardThread] at heq
    exact absurd heq (hne (exists_checkOptions_iff.mp ⟨c, hc⟩))

/-- When the manager is in `kPreInit`, no executor throws by itself and the effective names of a
list that passes the first pass differ, `Initialize` returns for the grammar and throws for the
rest, but for the lists accepted after a wrap-around. -/
theorem acceptsGrammar_iff_not_wrapped (hr : run step {} es = some m) (hstate : m.state = .preInit)
    (hfaults : ∀ type name options, faults type name options = none)
    (hne : Placed l → mainThreadName l ≠ guardThreadName l) :
    AcceptsGrammar faults m l ↔ ¬ Wrapped l := by
  obtain rfl := (kept_run hr).fresh hstate
  have hreturns : (∃ t, initializeWith (.decodes l) faults {} = .returns t) ↔
      Placed l ∧ KnownTypes l ∧ DistinctNames l := by
    rw [exists_returns_iff, exists_accepts_iff hfaults hne]
  constructor
  · intro h hwrapped
    have hgrammar : Grammar l := h.returns_iff.mp
      (hreturns.mpr ⟨hwrapped.placed, hwrapped.types, hwrapped.names⟩)
    exact (grammar_iff.mp hgrammar).2 hwrapped.overflows
  · intro h
    have hover : Placed l ∧ KnownTypes l ∧ DistinctNames l → ¬ Overflows l := fun hl ho =>
      h ⟨ho, hl.1, hl.2.1, hl.2.2⟩
    have hiff : (∃ t, initializeWith (.decodes l) faults {} = .returns t) ↔ Grammar l := by
      rw [hreturns, grammar_iff, and_iff_left_of_imp hover]
    exact ⟨hiff, fun hl => exists_throws hne (mt hiff.mp hl)⟩

/-- **`Initialize` accepts exactly the grammar among the lists of `n` entries if and only if `n` is
`2 ^ 32` at most.** The manager is in `kPreInit`, no executor throws by itself, and the effective
names of a list that passes the first pass differ. With more entries the 32-bit index wraps around,
and a main thread entry behind `2 ^ 32` time wheel entries is accepted. -/
theorem accepts_grammar_iff (hr : run step {} es = some m) (hstate : m.state = .preInit) (n : ℕ) :
    (∀ (faults : InitializeFaults Node) (l : List (ExecutorOptions Node)), l.length = n →
      (∀ type name options, faults type name options = none) →
      (Placed l → mainThreadName l ≠ guardThreadName l) → AcceptsGrammar faults m l) ↔
        n ≤ 2 ^ 32 := by
  constructor
  · intro h
    by_contra hlt
    have hwrapped : Wrapped (mainAfter (none : Option Node) (2 ^ 32) (n - (2 ^ 32 + 1))) :=
      wrapped_mainAfter (Nat.le_refl _) (Nat.mod_self _)
    have hlen : (mainAfter (none : Option Node) (2 ^ 32) (n - (2 ^ 32 + 1))).length = n := by
      rw [length_mainAfter, Nat.add_sub_cancel' (Nat.succ_le_of_lt (Nat.not_le.mp hlt))]
    have haccepts := h (fun _ _ _ => none) _ hlen (fun _ _ _ => rfl)
      fun _ => mainThreadName_ne_mainAfter
    exact (acceptsGrammar_iff_not_wrapped hr hstate (fun _ _ _ => rfl)
      fun _ => mainThreadName_ne_mainAfter).mp haccepts hwrapped
  · rintro hle faults l rfl hfaults hne
    exact (acceptsGrammar_iff_not_wrapped hr hstate hfaults hne).mpr fun hwrapped =>
      absurd hwrapped.lt_length (Nat.not_lt.mpr hle)

/-- A single time wheel entry. -/
theorem accepts_grammar_iff_timer :
    AcceptsGrammar (fun _ _ _ => none) {} [⟨"timer", "time_wheel", (none : Option Unit)⟩] :=
  (accepts_grammar_iff (show run step ({} : ExecutorManager Unit) [] = some {} from rfl) rfl 1).mpr
    (by decide) _ _ rfl (fun _ _ _ => rfl) fun _ => by decide

/-- A main thread entry behind `2 ^ 32` time wheels of one slot is taken for the first entry. -/
theorem accepts_main_thread_last :
    ∃ t : ExecutorManager TimeWheel.Options,
      ¬ Grammar (mainAfter (some { wheelSize := [1] } : Option TimeWheel.Options) (2 ^ 32) 0) ∧
      mainThreadName (mainAfter (some { wheelSize := [1] } : Option TimeWheel.Options) (2 ^ 32) 0) ≠
        guardThreadName
          (mainAfter (some { wheelSize := [1] } : Option TimeWheel.Options) (2 ^ 32) 0) ∧
      initializeWith
          (.decodes (mainAfter (some { wheelSize := [1] } : Option TimeWheel.Options) (2 ^ 32) 0))
          (fun _ _ _ => none) {} = .returns t := by
  generalize (some { wheelSize := [1] } : Option TimeWheel.Options) = options
  have hwrapped : Wrapped (mainAfter options (2 ^ 32) 0) :=
    wrapped_mainAfter (Nat.le_refl _) (Nat.mod_self _)
  obtain ⟨t, ht⟩ := exists_returns_iff.mpr ((exists_accepts_iff (fun _ _ _ => rfl)
    fun _ => mainThreadName_ne_mainAfter).mpr
      ⟨hwrapped.placed, hwrapped.types, hwrapped.names⟩)
  exact ⟨t, fun h => (grammar_iff.mp h).2 hwrapped.overflows, mainThreadName_ne_mainAfter, ht⟩

end ExecutorManager

end Ados.Core
