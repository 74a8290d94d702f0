import Ados.Common.LogTool
import Ados.Lib.Ledger
import Mathlib.Data.List.Perm.Basic

/-!
# What becomes of the calls of `Log`

However the calls of the threads are interleaved, each of them ends once, with its line or with an
exception, and the lines of a thread are in the order of its calls. Which of the two it is depends
on what `current_zone()` returned first, of all calls of all threads: after a zone every call prints
its line, and after a null pointer every call ends with an exception, for ever.

A call ends within six statements of its own thread. That its thread waits for another one, at the
guard of the static zone or at the lock of `stderr`, is not modelled: both are single statements.

## Main definitions

* `logged`: the calls of a run, with the thread and the arguments of each
* `endedCalls`, `InCall`: the calls that have ended, and that of a thread in progress
* `Books`: the threads keep the books of a `Ledger`

## Main results

* `LoggerThreads.one_line_each`: every call is in progress, or has ended once
* `LoggerThreads.zone_decides`: lines or exceptions, depending on the zone
* `LoggerThreads.log_ends`: a call ends within six statements of its thread
-/

namespace Ados

open Transition

/-- The call in which a thread is. -/
def Pc.logCall : Pc → Option LogCall
  | .outside => none
  | .tid c | .now c | .currentZone c | .assertZone c | .zt c | .print c => some c

/-- The statements up to the end of the call in which a thread is. -/
def Pc.left : Pc → ℕ
  | .outside => 0
  | .tid _ => 6
  | .now _ => 5
  | .currentZone _ => 4
  | .assertZone _ => 3
  | .zt _ => 2
  | .print _ => 1

theorem Pc.left_le (pc : Pc) : pc.left ≤ 6 := by
  cases pc <;> simp [Pc.left]

namespace LoggerThreads

/-- The thread that calls `Log`, and the arguments. -/
def Act.logged : Act → Option (ℕ × LogArgs)
  | .log i args => some (i, args)
  | _ => none

/-- The calls of a run, in the order in which they begin. -/
def logged (es : List Act) : List (ℕ × LogArgs) := es.filterMap Act.logged

/-- The calls that have printed their lines, and those that have thrown. -/
def endedCalls (s : LoggerThreads) : List ℕ :=
  s.lines.map (fun r => r.call.call) ++ s.thrown.map Prod.fst

/-- The number of the call in which the thread `i` is. -/
def current (s : LoggerThreads) (i : ℕ) : Option ℕ := (s.threads i).pc.logCall.map LogCall.call

/-- The thread `i` is in the call `n`. -/
def InCall (s : LoggerThreads) (i n : ℕ) : Prop := s.current i = some n

instance (s : LoggerThreads) (i n : ℕ) : Decidable (s.InCall i n) :=
  inferInstanceAs (Decidable (_ = _))

variable {gettid : ℕ → ℕ} {s s' t : LoggerThreads} {a : Act} {es fs : List Act} {i n : ℕ}

/-! ## The books -/

/-- What becomes of a call: its line, or what it throws. -/
abbrev Outcome := Printed ⊕ String

/-- The ledger `b` has the calls of the threads, and the lines and exceptions as outcomes. -/
structure Books (s : LoggerThreads) (b : Ledger ℕ LogArgs Outcome) : Prop where
  current : b.current = s.current
  args : ∀ i c, (s.threads i).pc.logCall = some c → b.calls[c.call]? = some (i, c.args)
  lines : s.lines = b.ended.filterMap fun e => e.2.getLeft?
  thrown : s.thrown = b.ended.filterMap fun e => e.2.getRight?.map fun what => (e.1, what)
  printed : ∀ n r, (n, .inl r) ∈ b.ended →
    r.call.call = n ∧ b.calls[n]? = some (r.thread, r.call.args) ∧
      r.line = format r.call.args r.line.zt r.line.tid
  length : s.calls.length = b.calls.length

theorem books_new : Books {} {} where
  current := rfl
  args _ _ h := absurd h (by simp [Pc.logCall])
  lines := rfl
  thrown := rfl
  printed _ _ h := absurd h (by simp)
  length := rfl

variable {b : Ledger ℕ LogArgs Outcome} {c c' : LogCall} {v : LogThread} {pc : Pc}

/-- From `b`, the ledger comes to the books of `s'`, with the calls `new`. -/
def Answered (b : Ledger ℕ LogArgs Outcome) (s' : LoggerThreads) (new : List (ℕ × LogArgs)) :
    Prop :=
  ∃ gs b', run Ledger.step b gs = some b' ∧ Books s' b' ∧ b'.calls = b.calls ++ new

/-- The other threads are in the calls in which they were. -/
theorem current_update (hs : s'.threads = Function.update s.threads i v) :
    s'.current = Function.update s.current i (v.pc.logCall.map LogCall.call) := by
  funext j
  by_cases hj : j = i
  · subst hj
    simp [LoggerThreads.current, hs]
  · simp [LoggerThreads.current, hs, hj]

theorem current_eq (hpc : (s.threads i).pc = pc) : s.current i = pc.logCall.map LogCall.call := by
  rw [LoggerThreads.current, hpc]

/-- The thread goes on in its call. -/
theorem Books.moves (h : Books s b) (hs : s'.threads = Function.update s.threads i v)
    (hpc : (s.threads i).pc = pc) (hc : pc.logCall = some c) (hv : v.pc.logCall = some c')
    (hcall : c'.call = c.call) (hargs : c'.args = c.args) (hcalls : s'.calls = s.calls)
    (hlines : s'.lines = s.lines) (hthrown : s'.thrown = s.thrown) : Answered b s' [] := by
  refine ⟨[], b, rfl, ?_, (List.append_nil _).symm⟩
  constructor
  case current =>
    have hsame : v.pc.logCall.map LogCall.call = s.current i := by
      rw [current_eq hpc, hv, hc, Option.map_some, hcall]
      rfl
    rw [current_update hs, hsame, Function.update_eq_self, h.current]
  case args =>
    intro j d hd
    by_cases hj : j = i
    · subst hj
      rw [hs, Function.update_self, hv] at hd
      cases hd
      rw [hcall, hargs]
      exact h.args j c (hpc ▸ hc)
    · rw [hs, Function.update_of_ne hj] at hd
      exact h.args j d hd
  case lines => exact hlines.trans h.lines
  case thrown => exact hthrown.trans h.thrown
  case printed => exact h.printed
  case length => rw [hcalls, h.length]

/-- The thread begins a call. -/
theorem Books.begins {args : LogArgs} (h : Books s b)
    (hs : s'.threads = Function.update s.threads i v) (hpc : (s.threads i).pc = .outside)
    (hv : v.pc.logCall = some { call := s.calls.length, args := args })
    (hcalls : s'.calls = s.calls ++ [i]) (hlines : s'.lines = s.lines)
    (hthrown : s'.thrown = s.thrown) : Answered b s' [(i, args)] := by
  have hnone : b.current i = none := by
    rw [h.current, current_eq hpc]
    rfl
  have hlt : ∀ {m : ℕ} {x : ℕ × LogArgs}, b.calls[m]? = some x →
      (b.calls ++ [(i, args)])[m]? = some x := by
    intro m x hm
    rw [List.getElem?_append_left (List.getElem?_eq_some_iff.mp hm).1]
    exact hm
  refine ⟨[.start i args], _, (run_singleton _ _).trans (Ledger.step_start hnone), ?_, rfl⟩
  constructor
  case current =>
    rw [current_update hs, hv, ← h.current, ← h.length]
    rfl
  case args =>
    intro j d hd
    by_cases hj : j = i
    · subst hj
      rw [hs, Function.update_self, hv] at hd
      cases hd
      rw [h.length]
      exact List.getElem?_concat_length
    · rw [hs, Function.update_of_ne hj] at hd
      exact hlt (h.args j d hd)
  case lines => exact hlines.trans h.lines
  case thrown => exact hthrown.trans h.thrown
  case printed =>
    intro n r hr
    obtain ⟨hcall, hmade, hline⟩ := h.printed n r hr
    exact ⟨hcall, hlt hmade, hline⟩
  case length => simp [hcalls, h.length]

/-- The call of the thread ends. -/
theorem Books.ends {o : Outcome} (h : Books s b) (hs : s'.threads = Function.update s.threads i v)
    (hpc : (s.threads i).pc = pc) (hc : pc.logCall = some c) (hv : v.pc.logCall = none)
    (hcalls : s'.calls = s.calls) (hlines : s'.lines = s.lines ++ o.getLeft?.toList)
    (hthrown : s'.thrown = s.thrown ++ (o.getRight?.map fun what => (c.call, what)).toList)
    (hline : ∀ r, o = .inl r → r.thread = i ∧ r.call = c ∧
      r.line = format c.args r.line.zt r.line.tid) : Answered b s' [] := by
  have hcur : b.current i = some c.call := by
    rw [h.current, current_eq hpc, hc]
    rfl
  refine ⟨[.finish i o], _, (run_singleton _ _).trans (Ledger.step_finish hcur), ?_,
    (List.append_nil _).symm⟩
  constructor
  case current =>
    rw [current_update hs, hv, ← h.current]
    rfl
  case args =>
    intro j d hd
    by_cases hj : j = i
    · subst hj
      rw [hs, Function.update_self, hv] at hd
      cases hd
    · rw [hs, Function.update_of_ne hj] at hd
      exact h.args j d hd
  case lines =>
    rw [hlines, h.lines, List.filterMap_append]
    cases o <;> rfl
  case thrown =>
    rw [hthrown, h.thrown, List.filterMap_append]
    cases o <;> rfl
  case printed =>
    intro n r hr
    rcases List.mem_append.mp hr with hr | hr
    · exact h.printed n r hr
    · obtain ⟨rfl, rfl⟩ := Prod.mk.inj (List.mem_singleton.mp hr)
      obtain ⟨hthread, hrc, hfields⟩ := hline r rfl
      subst hthread hrc
      exact ⟨rfl, h.args _ _ (hpc ▸ hc), hfields⟩
  case length => rw [hcalls, h.length]

/-- Every step of the threads is kept in the books. -/
theorem Books.step (h : Books s b) (hs : Step gettid s a s') :
    Answered b s' a.logged.toList := by
  cases hs with
  | log hpc => exact h.begins rfl hpc rfl rfl rfl rfl
  | tid hpc => exact h.moves rfl hpc rfl rfl rfl rfl rfl rfl rfl
  | keepsNow hpc _ => exact h.moves rfl hpc rfl rfl rfl rfl rfl rfl rfl
  | readsClock hpc _ => exact h.moves rfl hpc rfl rfl rfl rfl rfl rfl rfl
  | keepsZone hpc _ => exact h.moves rfl hpc rfl rfl rfl rfl rfl rfl rfl
  | findsZone hpc _ => exact h.moves rfl hpc rfl rfl rfl rfl rfl rfl rfl
  | asserts hpc _ => exact h.moves rfl hpc rfl rfl rfl rfl rfl rfl rfl
  | zt hpc _ _ => exact h.moves rfl hpc rfl rfl rfl rfl rfl rfl rfl
  | @zoneThrows i c what hpc _ =>
    exact h.ends (o := .inr what) rfl hpc rfl rfl rfl (List.append_nil _).symm rfl (by simp)
  | @assertThrows i c hpc _ =>
    exact h.ends (o := .inr cannotGetTimeZone) rfl hpc rfl rfl rfl (List.append_nil _).symm rfl
      (by simp)
  | @prints i c zt tid hpc _ _ =>
    refine h.ends (o := .inl ⟨i, c, format c.args zt tid⟩) rfl hpc rfl rfl rfl rfl
      (List.append_nil _).symm fun r hr => ?_
    cases hr
    exact ⟨rfl, rfl, rfl⟩

/-- The books of a run. -/
theorem run_books (h : Books s b) (hr : run (step gettid) s es = some t) :
    Answered b t (logged es) := by
  induction es generalizing s b with
  | nil =>
    cases hr
    exact ⟨[], b, rfl, h, (List.append_nil _).symm⟩
  | cons a es ih =>
    obtain ⟨u, hu, hr⟩ := run_cons_eq_some.mp hr
    obtain ⟨gs, b', hgs, hb', hcalls⟩ := h.step (step_cases hu)
    obtain ⟨gs', b'', hgs', hb'', hcalls'⟩ := ih hb' hr
    refine ⟨gs ++ gs', b'', run_append_eq_some.mpr ⟨b', hgs, hgs'⟩, hb'', ?_⟩
    rw [hcalls', hcalls, List.append_assoc]
    cases a <;> rfl

/-! ## Every call ends once -/

/-- Results and exceptions in two lists are those of one list. -/
theorem perm_map_filterMap {f : Printed → ℕ} {l : List (ℕ × Outcome)}
    (h : ∀ n r, (n, .inl r) ∈ l → f r = n) :
    ((l.filterMap fun e => e.2.getLeft?).map f ++
      (l.filterMap fun e => e.2.getRight?.map fun what => (e.1, what)).map Prod.fst).Perm
        (l.map Prod.fst) := by
  induction l with
  | nil => exact .refl _
  | cons e l ih =>
    have hrest := ih fun n r hr => h n r (List.mem_cons_of_mem e hr)
    obtain ⟨n, o⟩ := e
    cases o with
    | inl r =>
      obtain rfl : f r = n := h n r (List.mem_cons_self ..)
      exact hrest.cons _
    | inr what => exact List.perm_middle.trans (hrest.cons n)

theorem Books.endedCalls_perm (h : Books s b) : s.endedCalls.Perm b.numbers := by
  rw [endedCalls, h.lines, h.thrown]
  exact perm_map_filterMap fun n r hr => (h.printed n r hr).1

/-- The line is that of its call. -/
def LineOf (gettid : ℕ → ℕ) (es : List Act) (r : Printed) : Prop :=
  (logged es)[r.call.call]? = some (r.thread, r.call.args) ∧
    r.line = format r.call.args r.line.zt (gettid r.thread)

theorem lineOf_of_books (h : Books s b) (hcalls : b.calls = logged es)
    (hr : run (step gettid) {} es = some s) : ∀ r ∈ s.lines, LineOf gettid es r := by
  intro r hmem
  have hended : r ∈ b.ended.filterMap fun e => e.2.getLeft? := h.lines ▸ hmem
  obtain ⟨⟨n, o⟩, hno, ho⟩ := List.mem_filterMap.mp hended
  obtain rfl : o = .inl r := Sum.getLeft?_eq_some_iff.mp ho
  obtain ⟨rfl, hmade, hfields⟩ := h.printed n r hno
  rw [hcalls] at hmade
  rw [tid_of_line hr hmem] at hfields
  exact ⟨hmade, hfields⟩

/-- Every line shows the arguments of its call. -/
theorem run_lineOf (hr : run (step gettid) {} es = some s) :
    ∀ r ∈ s.lines, LineOf gettid es r := by
  obtain ⟨gs, b, hgs, hb, hcalls⟩ := run_books books_new hr
  exact lineOf_of_books hb hcalls hr

/-- The threads of two calls are the same. -/
def SameThread (es : List Act) (m n : ℕ) : Prop :=
  (logged es)[m]?.map Prod.fst = (logged es)[n]?.map Prod.fst

/-- **Every call is in progress, or has ended once**, with an exception or its own line, and the
lines of a thread, as the exceptions, are in the order of its calls. -/
theorem one_line_each (hr : run (step gettid) {} es = some s) :
    s.endedCalls.Nodup ∧
      (∀ n, n ∈ s.endedCalls ↔ n < (logged es).length ∧ ∀ i, ¬ s.InCall i n) ∧
      (∀ r ∈ s.lines, LineOf gettid es r) ∧
      (s.lines.Pairwise fun r r' => r.thread = r'.thread → r.call.call < r'.call.call) ∧
      s.thrown.Pairwise fun e e' => SameThread es e.1 e'.1 → e.1 < e'.1 := by
  obtain ⟨gs, b, hgs, hb, hcalls⟩ := run_books books_new hr
  have hkept : b.Kept := Ledger.run_kept hgs
  have hlogged : b.calls = logged es := hcalls
  have horder := List.pairwise_map.mp hkept.order
  refine ⟨hb.endedCalls_perm.nodup_iff.mpr hkept.nodup, fun n => ?_,
    lineOf_of_books hb hlogged hr, ?_, ?_⟩
  · rw [hb.endedCalls_perm.mem_iff, hkept.mem_numbers_iff, hlogged, Ledger.IsOpen, hb.current,
      not_exists]
    rfl
  · rw [hb.lines]
    refine List.pairwise_filterMap.mpr
      (horder.imp_of_mem fun {e e'} he he' hlt r hr r' hr' hi => ?_)
    have hr := Sum.getLeft?_eq_some_iff.mp hr
    have hr' := Sum.getLeft?_eq_some_iff.mp hr'
    obtain ⟨hcall, hmade, -⟩ := hb.printed e.1 r (hr ▸ he)
    obtain ⟨hcall', hmade', -⟩ := hb.printed e'.1 r' (hr' ▸ he')
    rw [hcall, hcall']
    apply hlt
    simp only [Ledger.caller, hmade, hmade', Option.map_some, hi]
  · rw [hb.thrown]
    refine List.pairwise_filterMap.mpr (horder.imp fun {e e'} hlt x hx x' hx' hi => ?_)
    obtain ⟨what, -, rfl⟩ := Option.map_eq_some_iff.mp hx
    obtain ⟨what', -, rfl⟩ := Option.map_eq_some_iff.mp hx'
    apply hlt
    rw [Ledger.caller, Ledger.caller, hlogged]
    exact hi

/-- Two threads log; for the first of them `current_zone()` throws, for the second it returns. -/
def twoThreads : List Act :=
  [.log 0 ⟨2, 7, 3, "main.cc", "main", "ready"⟩, .log 1 ⟨9, 4, 5, "run.cc", "run", "lost"⟩,
    .next 1, .next 0, .clock 0 1, .clock 1 2, .zone 0 (.error "no database"),
    .zone 1 (.ok (some "UTC")), .next 1, .next 1, .next 1]

theorem one_line_each_two_threads :
    ∃ s, run (step fun i => i) {} twoThreads = some s ∧ s.thrown = [(0, "no database")] ∧
      (∀ n, n ∈ s.endedCalls ↔ n < (logged twoThreads).length ∧ ∀ i, ¬ s.InCall i n) ∧
      ∀ r ∈ s.lines, LineOf (fun i => i) twoThreads r := by
  have h : ((run (step fun i => i) {} twoThreads).map fun s => s.thrown) =
      some [(0, "no database")] := by
    decide +kernel
  obtain ⟨s, hs, hthrown⟩ := Option.map_eq_some_iff.mp h
  obtain ⟨-, hmem, hlines, -⟩ := one_line_each hs
  exact ⟨s, hs, hthrown, hmem, hlines⟩

/-! ## Lines or exceptions -/

/-- What `current_zone()` returned, if it did. -/
def Act.found : Act → Option (Option String)
  | .zone _ (.ok z) => some z
  | _ => none

/-- What `current_zone()` threw, if it did. -/
def Act.failed : Act → Option String
  | .zone _ (.error what) => some what
  | _ => none

/-- What the calls of `current_zone()` returned. -/
def found (es : List Act) : List (Option String) := es.filterMap Act.found

/-- What the calls of `current_zone()` threw. -/
def failed (es : List Act) : List String := es.filterMap Act.failed

theorem found_cons (a : Act) (es : List Act) : found (a :: es) = a.found.toList ++ found es := by
  simp only [found, List.filterMap_cons]
  cases a.found <;> rfl

theorem failed_cons (a : Act) (es : List Act) :
    failed (a :: es) = a.failed.toList ++ failed es := by
  simp only [failed, List.filterMap_cons]
  cases a.failed <;> rfl

/-- A zoned time is in the zone that was found. -/
def Zoned (s : LoggerThreads) : Prop :=
  ∀ i z, (s.threads i).locals.zt = some z → s.currentZone = some (some z.zone)

/-- A zoned time is old, or made in the zone that was found. -/
theorem Step.zt_of_zt {z : ZonedTime} (hs : Step gettid s a s')
    (hz : (s'.threads i).locals.zt = some z) :
    (s.threads i).locals.zt = some z ∨ s.currentZone = some (some z.zone) := by
  by_cases hi : i = a.thread
  · subst hi
    cases hs with
    | zt _ hzone _ =>
      simp only [setThread, Act.thread, Function.update_self] at hz
      rcases Option.or_eq_some_iff.mp hz with hold | ⟨-, hnew⟩
      · exact .inl hold
      · cases hnew
        exact .inr hzone
    | _ => exact .inl (by simpa [setThread, throws, Act.thread] using hz)
  · exact .inl (hs.threads_of_ne hi ▸ hz)

theorem Zoned.step (h : s.Zoned) (hs : Step gettid s a s') : s'.Zoned := by
  intro i z hz
  rcases hs.zt_of_zt hz with hz | hzone
  · exact hs.currentZone_kept (h i z hz)
  · exact hs.currentZone_kept hzone

theorem run_zoned (hr : run (step gettid) {} es = some s) : s.Zoned :=
  run_invariant (fun _ _ _ h hs => h.step (step_cases hs)) (fun _ _ h => absurd h (by simp)) hr

/-- Every line shows the zone that was found. -/
theorem zone_of_line {r : Printed} (hr : run (step gettid) {} es = some s) (hmem : r ∈ s.lines) :
    s.currentZone = some (some r.line.zt.zone) :=
  run_zoned hr r.thread r.line.zt ((run_correct hr).lines r hmem).zt_eq

/-- The static variable holds what `current_zone()` returned. -/
theorem Step.found_eq (hs : Step gettid s a s') :
    s'.currentZone.toList = s.currentZone.toList ++ a.found.toList := by
  cases hs with
  | findsZone _ hnone =>
    rw [hnone]
    rfl
  | _ => exact (List.append_nil _).symm

theorem run_found (hr : run (step gettid) s es = some t) :
    t.currentZone.toList = s.currentZone.toList ++ found es := by
  induction es generalizing s with
  | nil =>
    cases hr
    exact (List.append_nil _).symm
  | cons a es ih =>
    obtain ⟨u, hu, hr⟩ := run_cons_eq_some.mp hr
    rw [ih hr, (step_cases hu).found_eq, List.append_assoc, found_cons]

/-- Once there is a zone, no call throws. -/
theorem Step.thrown_of_zone {zone : String} (hs : Step gettid s a s')
    (hzone : s.currentZone = some (some zone)) : s'.thrown = s.thrown := by
  cases hs with
  | zoneThrows _ hnone => exact absurd (hnone.symm.trans hzone) (by simp)
  | assertThrows _ hnull => exact absurd (hnull.symm.trans hzone) (by simp)
  | _ => rfl

/-- Before there is a zone or a null pointer, a call throws what `current_zone()` throws. -/
theorem Step.thrown_of_none (hs : Step gettid s a s') (hnone : s.currentZone = none) :
    s'.thrown.map Prod.snd = s.thrown.map Prod.snd ++ a.failed.toList := by
  cases hs with
  | zoneThrows _ _ => simp [throws, Act.failed]
  | assertThrows _ hnull => exact absurd (hnull.symm.trans hnone) (by simp)
  | _ => exact (List.append_nil _).symm

/-- After a null pointer a call throws what the assertion throws. -/
theorem Step.thrown_of_null (hs : Step gettid s a s') (hnull : s.currentZone = some none) :
    ∃ new, s'.thrown = s.thrown ++ new ∧ ∀ e ∈ new, e.2 = cannotGetTimeZone := by
  cases hs with
  | zoneThrows _ hnone => exact absurd (hnone.symm.trans hnull) (by simp)
  | assertThrows _ _ => exact ⟨[_], rfl, by simp⟩
  | _ => exact ⟨[], (List.append_nil _).symm, by simp⟩

/-- As long as `current_zone()` throws, its exceptions are those of the calls. -/
theorem run_failed (hr : run (step gettid) s es = some t) (hnone : t.currentZone = none) :
    t.thrown.map Prod.snd = s.thrown.map Prod.snd ++ failed es := by
  induction es generalizing s with
  | nil =>
    cases hr
    exact (List.append_nil _).symm
  | cons a es ih =>
    obtain ⟨u, hu, hr⟩ := run_cons_eq_some.mp hr
    have hfound := run_found (run_cons_eq_some.mpr ⟨u, hu, hr⟩)
    rw [hnone] at hfound
    have hs : s.currentZone = none := by
      cases hzone : s.currentZone with
      | none => rfl
      | some zone => simp [hzone] at hfound
    rw [ih hr, (step_cases hu).thrown_of_none hs, List.append_assoc, failed_cons]

/-- Once there is a zone, no call throws, in the whole run. -/
theorem run_thrown_of_zone {zone : String} (hr : run (step gettid) s fs = some t)
    (hzone : s.currentZone = some (some zone)) : t.thrown = s.thrown := by
  refine (run_invariant (P := fun u => u.thrown = s.thrown ∧ u.currentZone = some (some zone)) ?_
    ⟨rfl, hzone⟩ hr).1
  rintro u a v ⟨hthrown, hzone⟩ hv
  have hs := step_cases hv
  exact ⟨(hs.thrown_of_zone hzone).trans hthrown, hs.currentZone_kept hzone⟩

/-- After a null pointer calls throw what the assertion throws, in the whole run. -/
theorem run_thrown_of_null (hr : run (step gettid) s fs = some t)
    (hnull : s.currentZone = some none) :
    ∃ new, t.thrown = s.thrown ++ new ∧ ∀ e ∈ new, e.2 = cannotGetTimeZone := by
  refine (run_invariant (P := fun u => u.currentZone = some none ∧
    ∃ new, u.thrown = s.thrown ++ new ∧ ∀ e ∈ new, e.2 = cannotGetTimeZone) ?_
    ⟨hnull, [], (List.append_nil _).symm, by simp⟩ hr).2
  rintro u a v ⟨hnull, new, hthrown, hnew⟩ hv
  have hs := step_cases hv
  obtain ⟨more, hmore, hall⟩ := hs.thrown_of_null hnull
  refine ⟨hs.currentZone_kept hnull, new ++ more, ?_, fun e he => ?_⟩
  · rw [hmore, hthrown, List.append_assoc]
  · rcases List.mem_append.mp he with he | he
    · exact hnew e he
    · exact hall e he

/-- What has been found is what will be. -/
theorem currentZone_of_run {zone : Option String} (hr : run (step gettid) s fs = some t)
    (hzone : s.currentZone = some zone) : t.currentZone = some zone :=
  run_invariant (fun _ _ _ h hs => (step_cases hs).currentZone_kept h) hzone hr

/-- **Lines or exceptions.** `current_zone()` returns once at most, and decides for all calls of all
threads: before that no line is printed, and a call that ends throws what `current_zone()` throws;
after a null pointer no line is printed ever, and a call that ends throws what the assertion throws;
after a zone no call throws, and every line shows this zone. -/
theorem zone_decides (hr : run (step gettid) {} es = some s)
    (hr' : run (step gettid) s fs = some t) :
    (found es = [] ∧ s.lines = [] ∧ s.thrown.map Prod.snd = failed es) ∨
      (found es = [none] ∧ t.lines = [] ∧
        ∃ new, t.thrown = s.thrown ++ new ∧ ∀ e ∈ new, e.2 = cannotGetTimeZone) ∨
      ∃ zone, found es = [some zone] ∧ t.thrown = s.thrown ∧
        ∀ r ∈ t.lines, r.line.zt.zone = zone := by
  have hfound : s.currentZone.toList = found es := run_found hr
  have hall : run (step gettid) {} (es ++ fs) = some t := run_append_eq_some.mpr ⟨s, hr, hr'⟩
  cases hzone : s.currentZone with
  | none =>
    refine .inl ⟨by rw [← hfound, hzone]; rfl, ?_, run_failed hr hzone⟩
    refine List.eq_nil_iff_forall_not_mem.mpr fun r hmem => ?_
    exact absurd (hzone.symm.trans (zone_of_line hr hmem)) (by simp)
  | some found =>
    cases found with
    | none =>
      refine .inr (.inl ⟨by rw [← hfound, hzone]; rfl, ?_, run_thrown_of_null hr' hzone⟩)
      refine List.eq_nil_iff_forall_not_mem.mpr fun r hmem => ?_
      have hnull := currentZone_of_run hr' hzone
      exact absurd (hnull.symm.trans (zone_of_line hall hmem)) (by simp)
    | some zone =>
      refine .inr (.inr ⟨zone, by rw [← hfound, hzone]; rfl, run_thrown_of_zone hr' hzone, ?_⟩)
      intro r hmem
      have hline := (currentZone_of_run hr' hzone).symm.trans (zone_of_line hall hmem)
      exact (Option.some.inj (Option.some.inj hline)).symm

/-- After a zone was found, a call of the thread whose first call threw prints its line. -/
theorem zone_decides_two_threads :
    ∃ s t, run (step fun i => i) {} twoThreads = some s ∧
      run (step fun i => i) s (.log 0 ⟨2, 9, 3, "main.cc", "main", "done"⟩ ::
        List.replicate 6 (.next 0)) = some t ∧
      t.thrown = s.thrown ∧ ∀ r ∈ t.lines, r.line.zt.zone = "UTC" := by
  have h : (run (step fun i => i) {} (twoThreads ++ .log 0 ⟨2, 9, 3, "main.cc", "main", "done"⟩ ::
      List.replicate 6 (.next 0))).isSome = true := by
    decide +kernel
  obtain ⟨t, ht⟩ := Option.isSome_iff_exists.mp h
  obtain ⟨s, hs, hst⟩ := run_append_eq_some.mp ht
  have hfound : found twoThreads = [some "UTC"] := rfl
  refine ⟨s, t, hs, hst, ?_⟩
  rcases zone_decides hs hst with ⟨hnone, -⟩ | ⟨hnull, -⟩ | ⟨zone, hzone, hthrown, hlines⟩
  · exact absurd (hfound.symm.trans hnone) (by simp)
  · exact absurd (hfound.symm.trans hnull) (by simp)
  · obtain rfl : "UTC" = zone := by simpa using hfound.symm.trans hzone
    exact ⟨hthrown, hlines⟩

/-! ## How long a call takes -/

/-- What has been printed and thrown stays. -/
theorem Step.endedCalls_subset (hs : Step gettid s a s') : s.endedCalls ⊆ s'.endedCalls := by
  have hlines : s.lines <+: s'.lines := by
    cases hs with
    | prints _ _ _ => exact List.prefix_append _ _
    | _ => exact List.prefix_rfl
  have hthrown : s.thrown <+: s'.thrown := by
    cases hs with
    | zoneThrows _ _ => exact List.prefix_append _ _
    | assertThrows _ _ => exact List.prefix_append _ _
    | _ => exact List.prefix_rfl
  intro n hn
  rcases List.mem_append.mp hn with hn | hn
  · exact List.mem_append_left _ (List.map_subset _ hlines.subset hn)
  · exact List.mem_append_right _ (List.map_subset _ hthrown.subset hn)

/-- A thread in a call comes nearer to its end with every statement, and the call ends with the
last. -/
theorem Step.goes_on (hs : Step gettid s a s') (hin : s.InCall a.thread n) :
    n ∈ s'.endedCalls ∨
      s'.InCall a.thread n ∧ (s'.threads a.thread).pc.left + 1 = (s.threads a.thread).pc.left := by
  have hmoves : ∀ {i : ℕ} {v : LogThread} {c c' : LogCall} {pc : Pc}, s.InCall i n →
      (s.threads i).pc = pc → pc.logCall = some c →
      s'.threads = Function.update s.threads i v → v.pc.logCall = some c' → c'.call = c.call →
      v.pc.left + 1 = pc.left →
      n ∈ s'.endedCalls ∨
        s'.InCall i n ∧ (s'.threads i).pc.left + 1 = (s.threads i).pc.left := by
    intro i v c c' pc hin hpc hc hthreads hv hcall hleft
    refine .inr ⟨?_, ?_⟩
    · rw [InCall, current_eq hpc, hc] at hin
      rw [InCall, current_update hthreads, Function.update_self, hv]
      exact (congrArg some hcall).trans hin
    · rw [hthreads, Function.update_self, hpc]
      exact hleft
  have hcall : ∀ {i : ℕ} {c : LogCall} {pc : Pc}, s.InCall i n → (s.threads i).pc = pc →
      pc.logCall = some c → c.call = n := by
    intro i c pc hin hpc hc
    rw [InCall, current_eq hpc, hc] at hin
    exact Option.some.inj hin
  cases hs with
  | log hpc =>
    rw [Act.thread, InCall, current_eq hpc] at hin
    cases hin
  | tid hpc => exact hmoves hin hpc rfl rfl rfl rfl rfl
  | keepsNow hpc _ => exact hmoves hin hpc rfl rfl rfl rfl rfl
  | readsClock hpc _ => exact hmoves hin hpc rfl rfl rfl rfl rfl
  | keepsZone hpc _ => exact hmoves hin hpc rfl rfl rfl rfl rfl
  | findsZone hpc _ => exact hmoves hin hpc rfl rfl rfl rfl rfl
  | asserts hpc _ => exact hmoves hin hpc rfl rfl rfl rfl rfl
  | zt hpc _ _ => exact hmoves hin hpc rfl rfl rfl rfl rfl
  | zoneThrows hpc _ => exact .inl (by simp [endedCalls, throws, hcall hin hpc rfl])
  | assertThrows hpc _ => exact .inl (by simp [endedCalls, throws, hcall hin hpc rfl])
  | prints hpc _ _ => exact .inl (by simp [endedCalls, hcall hin hpc rfl])

/-- What the statements of its thread are to a call, in a run: each is one of the six, or the call
has ended and stays so. The other threads leave it where it is. -/
theorem run_goes_on (hr : run (step gettid) s fs = some t) (hin : s.InCall i n) :
    n ∈ t.endedCalls ∨ t.InCall i n ∧
      (t.threads i).pc.left + fs.countP (fun a => a.thread = i) = (s.threads i).pc.left := by
  induction fs generalizing s with
  | nil =>
    cases hr
    exact .inr ⟨hin, rfl⟩
  | cons a fs ih =>
    obtain ⟨u, hu, hr⟩ := run_cons_eq_some.mp hr
    have hs := step_cases hu
    by_cases hi : a.thread = i
    · subst hi
      rcases hs.goes_on hin with hended | ⟨hin', hleft⟩
      · exact .inl (run_invariant (P := fun v => n ∈ v.endedCalls)
          (fun _ _ _ h hv => (step_cases hv).endedCalls_subset h) hended hr)
      · refine (ih hr hin').imp_right fun ⟨hin'', hcount⟩ => ⟨hin'', ?_⟩
        simp only [List.countP_cons, decide_true, if_true]
        omega
    · have hthread := hs.threads_of_ne (Ne.symm hi)
      have hin' : u.InCall i n := by
        rw [InCall, LoggerThreads.current, hthread]
        exact hin
      refine (ih hr hin').imp_right fun ⟨hin'', hcount⟩ => ⟨hin'', ?_⟩
      simpa [List.countP_cons, hi, hthread] using hcount

/-- **A call ends within six statements of its own thread**, whatever the other threads do, and
until then its thread is before one of them. The guard of the static zone and the lock of `stderr`
are not modelled, and this does not say how long the thread waits there. -/
theorem log_ends (hr : run (step gettid) {} es = some s) (hin : s.InCall i n)
    (hr' : run (step gettid) s fs = some t) :
    n ∈ t.endedCalls ∨
      t.InCall i n ∧ fs.countP (fun a => a.thread = i) < 6 ∧
        ∃ a : Act, a.thread = i ∧ (step gettid t a).isSome := by
  refine (run_goes_on hr' hin).imp_right fun ⟨hin', hcount⟩ => ⟨hin', ?_, ?_⟩
  · have hfirst := (s.threads i).pc.left_le
    have hlast : 0 < (t.threads i).pc.left := by
      rw [InCall, LoggerThreads.current] at hin'
      cases hpc : (t.threads i).pc with
      | outside => simp [hpc, Pc.logCall] at hin'
      | _ => simp [Pc.left]
    omega
  · have hall : run (step gettid) {} (es ++ fs) = some t := run_append_eq_some.mpr ⟨s, hr, hr'⟩
    refine exists_step hall fun hpc => ?_
    rw [InCall, current_eq hpc] at hin'
    cases hin'

/-- A call of `Log` that is before the declaration of `now`, with another thread at work. -/
theorem log_ends_two_threads :
    ∃ s t, run (step fun i => i) {} (twoThreads.take 3) = some s ∧
      run (step fun i => i) s ((twoThreads.drop 3).take 4) = some t ∧
      (1 ∈ t.endedCalls ∨ t.InCall 1 1 ∧
        ((twoThreads.drop 3).take 4).countP (fun a => a.thread = 1) < 6 ∧
          ∃ a : Act, a.thread = 1 ∧ (step (fun i => i) t a).isSome) := by
  have h : ((run (step fun i => i) {} (twoThreads.take 3)).map fun s => s.current 1) =
      some (some 1) := by
    decide +kernel
  have hmore : (run (step fun i => i) {}
      (twoThreads.take 3 ++ (twoThreads.drop 3).take 4)).isSome = true := by
    decide +kernel
  obtain ⟨s, hs, hin⟩ := Option.map_eq_some_iff.mp h
  obtain ⟨t, ht⟩ := Option.isSome_iff_exists.mp hmore
  obtain ⟨u, hu, hut⟩ := run_append_eq_some.mp ht
  obtain rfl : s = u := Option.some.inj (hs.symm.trans hu)
  exact ⟨s, t, hs, hut, log_ends hs hin hut⟩

end LoggerThreads

end Ados
