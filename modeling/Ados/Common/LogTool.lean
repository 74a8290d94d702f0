import Ados.Lib.Run
import Mathlib.Data.Int.Notation
import Mathlib.Logic.Function.Basic

/-!
# The default logger

Any number of threads call `Log` of a `Logger` that has its default functions, and the calls are
interleaved at the statements of `LogFormatter::Format`. The thread id, the time and the zoned time
are `thread_local` and the zone is `static`: a variable is initialised by the first call that passes
its declaration, the others find it as it is.

The clock shows any time, and `current_zone()` returns a zone or a null pointer, or it throws, and
then the next call tries again. A call prints its line, or ends with an exception.

## Main definitions

* `lvlName`, `Line`, `Line.text`: what a line is made of, and its text
* `ThreadLocals`, `Pc`, `LoggerThreads`: the variables, the places in `Format`, and the threads with
  the lines that are printed
* `Act`, `step`, `Step`: the steps, and what each can do

## Main results

* `LoggerThreads.shows_reading_iff`: a line shows a reading of the call that printed it exactly if
  the call is the first of its thread
* `LoggerThreads.tid_of_line`: the thread id in a line is always right
* `LoggerThreads.same_time`: all lines of a thread show one time
* `LoggerThreads.exists_step`: a call that has begun can always go on
-/

namespace Ados

open Transition

/-! ## Lines -/

/-- `kLvlNameArray`. -/
def lvlNameArray : List String := ["Trace", "Debug", "Info", "Warn", "Error", "Fatal"]

/-- A level above the last one counts as the last. -/
def clampLvl (lvl : ℕ) : ℕ :=
  if lvlNameArray.length ≤ lvl then lvlNameArray.length - 1 else lvl

/-- The level is an index of `kLvlNameArray`. -/
theorem clampLvl_lt (lvl : ℕ) : clampLvl lvl < lvlNameArray.length := by
  unfold clampLvl
  split
  · decide
  · omega

def lvlName (lvl : ℕ) : String := lvlNameArray.get ⟨clampLvl lvl, clampLvl_lt lvl⟩

/-- The arguments of `Log`. -/
structure LogArgs where
  lvl : ℕ
  line : ℕ
  column : ℕ
  fileName : String
  functionName : String
  logData : String
  deriving DecidableEq

/-- A time point, in nanoseconds, with the zone in which it is shown. -/
structure ZonedTime where
  zone : String
  time : ℤ
  deriving DecidableEq

/-- The arguments of `std::format`. -/
structure Line where
  zt : ZonedTime
  lvl : String
  tid : ℕ
  fileName : String
  line : ℕ
  column : ℕ
  logData : String
  deriving DecidableEq

/-- What `Format` makes of its arguments and the variables `zt` and `tid`. -/
def format (args : LogArgs) (zt : ZonedTime) (tid : ℕ) : Line where
  zt := zt
  lvl := lvlName args.lvl
  tid := tid
  fileName := args.fileName
  line := args.line
  column := args.column
  logData := args.logData

/-- The first fields of a line, up to the thread id; `showTime` is `"{:%Y-%m-%d %H:%M:%S}"`. -/
def Line.head (showTime : ZonedTime → String) (l : Line) : String :=
  "[" ++ showTime l.zt ++ "][" ++ l.lvl ++ "][" ++ toString l.tid ++ "]"

/-- `"[{:%Y-%m-%d %H:%M:%S}][{}][{}][{}:{}:{}]{} "`. -/
def Line.text (showTime : ZonedTime → String) (l : Line) : String :=
  l.head showTime ++ ("[" ++ l.fileName ++ ":" ++ toString l.line ++ ":" ++ toString l.column ++
    "]" ++ l.logData ++ " ")

/-- `fprintf` ends the text at its first null character. -/
def cStr (text : String) : List Char := text.toList.takeWhile (· != Char.ofNat 0)

/-- `"%s\n"`. -/
def stderrText (text : String) : List Char := cStr text ++ "\n".toList

/-- There is no null character in the text. -/
def lacksNull (text : String) : Bool := text.toList.all (· != Char.ofNat 0)

theorem lacksNull_append (s t : String) : lacksNull (s ++ t) = (lacksNull s && lacksNull t) := by
  rw [lacksNull, String.toList_append, List.all_append, lacksNull, lacksNull]

theorem cStr_append {s t : String} (h : lacksNull s = true) :
    cStr (s ++ t) = s.toList ++ cStr t := by
  rw [cStr, String.toList_append, List.takeWhile_append_of_pos (List.all_eq_true.mp h), cStr]

theorem lacksNull_lvlName (lvl : ℕ) : lacksNull (lvlName lvl) = true := by
  have hall : lvlNameArray.all lacksNull = true := by decide
  exact List.all_eq_true.mp hall _ (List.get_mem _ _)

theorem lacksNull_toString (n : ℕ) : lacksNull (toString n) = true := by
  refine List.all_eq_true.mpr fun c hc => bne_iff_ne.mpr ?_
  have hdigits : c ∈ Nat.toDigits 10 n := by
    simpa [Nat.repr] using hc
  have hdigit : c.isDigit = true :=
    Nat.isDigit_of_mem_toDigits (by decide) (by decide) hdigits
  rintro rfl
  exact absurd hdigit (by decide)

/-- The time, the level and the thread id are printed whatever the file name and the data are. -/
theorem head_prefix_stderrText {showTime : ZonedTime → String} (args : LogArgs) (zt : ZonedTime)
    (tid : ℕ) (h : lacksNull (showTime zt) = true) :
    ((format args zt tid).head showTime).toList <+:
      stderrText ((format args zt tid).text showTime) := by
  have hhead : lacksNull ((format args zt tid).head showTime) = true := by
    simp only [Line.head, format, lacksNull_append, lacksNull_lvlName, lacksNull_toString, h]
    decide
  rw [stderrText, Line.text, cStr_append hhead, List.append_assoc]
  exact List.prefix_append _ _

/-! ## Threads -/

/-- The variables of a thread, unset until their declaration is passed. -/
structure ThreadLocals where
  tid : Option ℕ := none
  now : Option ℤ := none
  zt : Option ZonedTime := none
  deriving DecidableEq

/-- A call of `Log`: its number among all calls, its arguments, and the time it read off the clock,
if it has read the clock. -/
structure LogCall where
  call : ℕ
  args : LogArgs
  taken : Option ℤ := none
  deriving DecidableEq

/-- Where a thread is: outside of `Log`, or in a call of it. -/
inductive Pc where
  | outside
  /-- before the declaration of `tid` -/
  | tid (c : LogCall)
  /-- before the declaration of `now` -/
  | now (c : LogCall)
  /-- before the declaration of `current_zone` -/
  | currentZone (c : LogCall)
  /-- before the assertion -/
  | assertZone (c : LogCall)
  /-- before the declaration of `zt` -/
  | zt (c : LogCall)
  /-- before the line is formatted and printed -/
  | print (c : LogCall)
  deriving DecidableEq

structure LogThread where
  locals : ThreadLocals := {}
  pc : Pc := .outside
  deriving DecidableEq

/-- A printed line, with the thread and the call that printed it. -/
structure Printed where
  thread : ℕ
  call : LogCall
  line : Line
  deriving DecidableEq

/-- What the assertion throws. -/
def cannotGetTimeZone : String := "Cannot get time zone"

/-- The threads, and the static variable `current_zone`, which is unset, null or a zone. The history
is that of the calls, each known by its thread, of the lines, and of the exceptions with the number
of the call that threw. -/
structure LoggerThreads where
  threads : ℕ → LogThread := fun _ => {}
  currentZone : Option (Option String) := none
  calls : List ℕ := []
  lines : List Printed := []
  thrown : List (ℕ × String) := []

namespace LoggerThreads

inductive Act where
  /-- the thread `i` calls `Log` -/
  | log (i : ℕ) (args : LogArgs)
  /-- the thread `i` initialises `now`, the clock showing `tp` -/
  | clock (i : ℕ) (tp : ℤ)
  /-- the thread `i` initialises `current_zone`, unless `current_zone()` throws -/
  | zone (i : ℕ) (r : Except String (Option String))
  /-- the next statement of the thread `i`, if it is neither -/
  | next (i : ℕ)

/-- The thread that calls `Log`. -/
def Act.caller : Act → Option ℕ
  | .log i _ => some i
  | _ => none

/-- The threads of the calls, in the order in which the calls begin. -/
def callers (es : List Act) : List ℕ := es.filterMap Act.caller

def setThread (s : LoggerThreads) (i : ℕ) (t : LogThread) : LoggerThreads :=
  { s with threads := Function.update s.threads i t }

/-- The call `c` of the thread `i` ends with an exception. -/
def throws (s : LoggerThreads) (i : ℕ) (c : LogCall) (what : String) : LoggerThreads :=
  { s.setThread i { s.threads i with pc := .outside } with thrown := s.thrown ++ [(c.call, what)] }

/-- The next statement of the thread `i`. -/
def next (gettid : ℕ → ℕ) (s : LoggerThreads) (i : ℕ) : Option LoggerThreads :=
  let t := s.threads i
  match t.pc with
  | .outside => none
  | .tid c =>
    let tid := t.locals.tid.or (some (gettid i))
    some (s.setThread i { locals := { t.locals with tid := tid }, pc := .now c })
  | .now c =>
    -- the variable keeps the reading of an earlier call, and the clock is not read
    if t.locals.now.isSome then some (s.setThread i { t with pc := .currentZone c }) else none
  | .currentZone c =>
    -- found by a call of this or of another thread
    if s.currentZone.isSome then some (s.setThread i { t with pc := .assertZone c }) else none
  | .assertZone c =>
    s.currentZone.map fun
      | some _ => s.setThread i { t with pc := .zt c }
      | none => s.throws i c cannotGetTimeZone
  | .zt c =>
    match s.currentZone, t.locals.now with
    | some (some zone), some now =>
      let zt := t.locals.zt.or (some { zone := zone, time := now })
      some (s.setThread i { locals := { t.locals with zt := zt }, pc := .print c })
    | _, _ => none
  | .print c =>
    match t.locals.zt, t.locals.tid with
    | some zt, some tid =>
      -- `std::format` and `fprintf` read variables of the thread only
      let line : Printed := { thread := i, call := c, line := format c.args zt tid }
      some { s.setThread i { t with pc := .outside } with lines := s.lines ++ [line] }
    | _, _ => none

/-- One step; `gettid i` is the id of the thread `i`. -/
def step (gettid : ℕ → ℕ) (s : LoggerThreads) : Act → Option LoggerThreads
  | .log i args =>
    match (s.threads i).pc with
    | .outside =>
      let c : LogCall := { call := s.calls.length, args := args }
      some { s.setThread i { s.threads i with pc := .tid c } with calls := s.calls ++ [i] }
    | _ => none
  | .clock i tp =>
    let t := s.threads i
    match t.pc, t.locals.now with
    | .now c, none =>
      some (s.setThread i
        { locals := { t.locals with now := some tp }
          pc := .currentZone { c with taken := some tp } })
    | _, _ => none
  | .zone i r =>
    match (s.threads i).pc, s.currentZone with
    | .currentZone c, none =>
      match r with
      | .ok zone =>
        some { s.setThread i { s.threads i with pc := .assertZone c } with
          currentZone := some zone }
      -- the variable stays unset, and `now` set
      | .error what => some (s.throws i c what)
    | _, _ => none
  | .next i => s.next gettid i

/-- What one step can do. -/
inductive Step (gettid : ℕ → ℕ) (s : LoggerThreads) : Act → LoggerThreads → Prop
  | log {i args} : (s.threads i).pc = .outside →
      Step gettid s (.log i args)
        { s.setThread i
            { s.threads i with pc := .tid { call := s.calls.length, args := args } } with
          calls := s.calls ++ [i] }
  | tid {i c} : (s.threads i).pc = .tid c →
      Step gettid s (.next i)
        (s.setThread i
          { locals := { (s.threads i).locals with
              tid := (s.threads i).locals.tid.or (some (gettid i)) }
            pc := .now c })
  | keepsNow {i c now} : (s.threads i).pc = .now c → (s.threads i).locals.now = some now →
      Step gettid s (.next i) (s.setThread i { s.threads i with pc := .currentZone c })
  | readsClock {i c tp} : (s.threads i).pc = .now c → (s.threads i).locals.now = none →
      Step gettid s (.clock i tp)
        (s.setThread i
          { locals := { (s.threads i).locals with now := some tp }
            pc := .currentZone { c with taken := some tp } })
  | keepsZone {i c zone} : (s.threads i).pc = .currentZone c → s.currentZone = some zone →
      Step gettid s (.next i) (s.setThread i { s.threads i with pc := .assertZone c })
  | findsZone {i c zone} : (s.threads i).pc = .currentZone c → s.currentZone = none →
      Step gettid s (.zone i (.ok zone))
        { s.setThread i { s.threads i with pc := .assertZone c } with currentZone := some zone }
  | zoneThrows {i c what} : (s.threads i).pc = .currentZone c → s.currentZone = none →
      Step gettid s (.zone i (.error what)) (s.throws i c what)
  | asserts {i c zone} : (s.threads i).pc = .assertZone c → s.currentZone = some (some zone) →
      Step gettid s (.next i) (s.setThread i { s.threads i with pc := .zt c })
  | assertThrows {i c} : (s.threads i).pc = .assertZone c → s.currentZone = some none →
      Step gettid s (.next i) (s.throws i c cannotGetTimeZone)
  | zt {i c zone now} : (s.threads i).pc = .zt c → s.currentZone = some (some zone) →
      (s.threads i).locals.now = some now →
      Step gettid s (.next i)
        (s.setThread i
          { locals := { (s.threads i).locals with
              zt := (s.threads i).locals.zt.or (some { zone := zone, time := now }) }
            pc := .print c })
  | prints {i c zt tid} : (s.threads i).pc = .print c → (s.threads i).locals.zt = some zt →
      (s.threads i).locals.tid = some tid →
      Step gettid s (.next i)
        { s.setThread i { s.threads i with pc := .outside } with
          lines := s.lines ++ [{ thread := i, call := c, line := format c.args zt tid }] }

variable {gettid : ℕ → ℕ} {s s' t : LoggerThreads} {a : Act} {es : List Act} {i : ℕ}

theorem next_cases (h : s.next gettid i = some s') : Step gettid s (.next i) s' := by
  simp only [next] at h
  split at h
  · cases h
  · next hpc =>
    cases h
    exact .tid hpc
  · next hpc =>
    split at h
    · next hnow =>
      cases h
      obtain ⟨now, hnow⟩ := Option.isSome_iff_exists.mp hnow
      exact .keepsNow hpc hnow
    · cases h
  · next hpc =>
    split at h
    · next hzone =>
      cases h
      obtain ⟨zone, hzone⟩ := Option.isSome_iff_exists.mp hzone
      exact .keepsZone hpc hzone
    · cases h
  · next hpc =>
    obtain ⟨zone, hzone, rfl⟩ := Option.map_eq_some_iff.mp h
    cases zone with
    | some zone => exact .asserts hpc hzone
    | none => exact .assertThrows hpc hzone
  · next hpc =>
    split at h
    · next hzone hnow =>
      cases h
      exact .zt hpc hzone hnow
    · cases h
  · next hpc =>
    split at h
    · next hzt htid =>
      cases h
      exact .prints hpc hzt htid
    · cases h

theorem step_cases (h : step gettid s a = some s') : Step gettid s a s' := by
  cases a with
  | log i args =>
    simp only [step] at h
    split at h
    · next hpc =>
      cases h
      exact .log hpc
    · cases h
  | clock i tp =>
    simp only [step] at h
    split at h
    · next hpc hnow =>
      cases h
      exact .readsClock hpc hnow
    · cases h
  | zone i r =>
    simp only [step] at h
    split at h
    · next hpc hzone =>
      cases r with
      | ok zone =>
        cases h
        exact .findsZone hpc hzone
      | error what =>
        cases h
        exact .zoneThrows hpc hzone
    · cases h
  | next i => exact next_cases h

/-! ## What a step leaves alone -/

/-- The thread that takes the step. -/
def Act.thread : Act → ℕ
  | .log i _ | .clock i _ | .zone i _ | .next i => i

theorem Step.threads_of_ne (hs : Step gettid s a s') (hi : i ≠ a.thread) :
    s'.threads i = s.threads i := by
  cases hs <;> exact Function.update_of_ne hi _ _

theorem Step.calls_eq (hs : Step gettid s a s') : s'.calls = s.calls ++ a.caller.toList := by
  cases hs with
  | log _ => rfl
  | _ => exact (List.append_nil _).symm

/-- The static variable is initialised once. -/
theorem Step.currentZone_kept {zone : Option String} (hs : Step gettid s a s')
    (hzone : s.currentZone = some zone) : s'.currentZone = some zone := by
  cases hs with
  | findsZone _ hnone => exact absurd (hnone.symm.trans hzone) (by simp)
  | _ => exact hzone

/-- The zoned time of a thread is initialised once. -/
theorem Step.zt_kept {z : ZonedTime} (hs : Step gettid s a s')
    (hz : (s.threads i).locals.zt = some z) : (s'.threads i).locals.zt = some z := by
  by_cases hi : i = a.thread
  · subst hi
    cases hs with
    | zt _ _ _ =>
      simp only [Act.thread] at hz
      simp [setThread, Act.thread, hz]
    | _ => simpa [setThread, throws, Act.thread] using hz
  · rw [hs.threads_of_ne hi]
    exact hz

/-! ## Which call reads the clock -/

section Call

variable {calls new : List ℕ} {now : Option ℤ} {tp : ℤ} {c : LogCall}

/-- The call of the thread `i` has not passed the declaration of `now`, which is unset unless there
was a call of the thread before. -/
structure Entered (calls : List ℕ) (i : ℕ) (now : Option ℤ) (c : LogCall) : Prop where
  caller : calls[c.call]? = some i
  taken : c.taken = none
  now_eq_none_iff : now = none ↔ i ∉ calls.take c.call

/-- The call of the thread `i` has passed the declaration of `now`, and has read the clock there
unless there was a call of the thread before. -/
structure Timed (calls : List ℕ) (i : ℕ) (tp : ℤ) (c : LogCall) : Prop where
  caller : calls[c.call]? = some i
  taken : c.taken = if i ∈ calls.take c.call then none else some tp

/-- What later calls leave of the list of those before a call. -/
theorem take_append_of_caller (hc : calls[c.call]? = some i) :
    (calls ++ new).take c.call = calls.take c.call := by
  obtain ⟨hlt, -⟩ := List.getElem?_eq_some_iff.mp hc
  exact List.take_append_of_le_length (Nat.le_of_lt hlt)

theorem caller_append (hc : calls[c.call]? = some i) : (calls ++ new)[c.call]? = some i := by
  obtain ⟨hlt, -⟩ := List.getElem?_eq_some_iff.mp hc
  rw [List.getElem?_append_left hlt]
  exact hc

theorem Entered.append (h : Entered calls i now c) : Entered (calls ++ new) i now c where
  caller := caller_append h.caller
  taken := h.taken
  now_eq_none_iff := by
    rw [take_append_of_caller h.caller]
    exact h.now_eq_none_iff

theorem Timed.append (h : Timed calls i tp c) : Timed (calls ++ new) i tp c where
  caller := caller_append h.caller
  taken := by
    rw [take_append_of_caller h.caller]
    exact h.taken

/-- A call that finds `now` set takes no reading. -/
theorem Entered.keeps (h : Entered calls i now c) (hnow : now = some tp) :
    Timed calls i tp c where
  caller := h.caller
  taken := by
    have hmem : i ∈ calls.take c.call := by
      by_contra hfirst
      exact absurd (hnow.symm.trans (h.now_eq_none_iff.mpr hfirst)) (by simp)
    rw [if_pos hmem]
    exact h.taken

/-- A call that finds `now` unset reads the clock, and is the first of its thread. -/
theorem Entered.reads (h : Entered calls i now c) (hnow : now = none) :
    Timed calls i tp { c with taken := some tp } where
  caller := h.caller
  taken := (if_neg (h.now_eq_none_iff.mp hnow)).symm

/-- The reading is the time of `now` exactly if the call is the first of its thread. -/
theorem Timed.taken_eq_iff (h : Timed calls i tp c) :
    c.taken = some tp ↔ i ∉ calls.take c.call := by
  rw [h.taken]
  split
  · next hmem => simp [hmem]
  · next hfirst => simp [hfirst]

end Call

/-! ## The invariant -/

/-- The call of the thread `i` has passed the declarations of `tid` and `now`. -/
structure Passed (calls : List ℕ) (i : ℕ) (v : ThreadLocals) (c : LogCall) : Prop where
  tid_isSome : v.tid.isSome
  timed : ∃ tp, v.now = some tp ∧ Timed calls i tp c

/-- Which variables are set, and what `now` holds, where a thread is. -/
def Reached (calls : List ℕ) (currentZone : Option (Option String)) (i : ℕ) (v : ThreadLocals) :
    Pc → Prop
  | .outside => v.now = none ↔ i ∉ calls
  | .tid c => Entered calls i v.now c
  | .now c => v.tid.isSome ∧ Entered calls i v.now c
  | .currentZone c => Passed calls i v c
  | .assertZone c => Passed calls i v c ∧ currentZone.isSome
  | .zt c => Passed calls i v c ∧ ∃ zone, currentZone = some (some zone)
  | .print c => Passed calls i v c ∧ v.zt.isSome

/-- What holds of the thread `i`. -/
structure ThreadCorrect (gettid : ℕ → ℕ) (s : LoggerThreads) (i : ℕ) : Prop where
  tid_eq : ∀ tid, (s.threads i).locals.tid = some tid → tid = gettid i
  zt_time : ∀ z, (s.threads i).locals.zt = some z → (s.threads i).locals.now = some z.time
  reached : Reached s.calls s.currentZone i (s.threads i).locals (s.threads i).pc

/-- What holds of a printed line: it shows the zoned time and the id of the thread that printed
it, and the reading of the call if it is the first of the thread. -/
structure LineCorrect (gettid : ℕ → ℕ) (s : LoggerThreads) (r : Printed) : Prop where
  zt_eq : (s.threads r.thread).locals.zt = some r.line.zt
  tid_eq : r.line.tid = gettid r.thread
  timed : Timed s.calls r.thread r.line.zt.time r.call

/-- What holds in every state that is reached. -/
structure Correct (gettid : ℕ → ℕ) (s : LoggerThreads) : Prop where
  threads : ∀ i, s.ThreadCorrect gettid i
  lines : ∀ r ∈ s.lines, s.LineCorrect gettid r

theorem correct_new (gettid : ℕ → ℕ) : Correct gettid {} where
  threads i := {
    tid_eq := fun tid h => absurd h (by simp)
    zt_time := fun z h => absurd h (by simp)
    reached := by simp [Reached] }
  lines r hr := absurd hr (by simp)

section Passed

variable {calls new : List ℕ} {zone zone' : Option (Option String)} {v : ThreadLocals}
  {c : LogCall} {pc : Pc}

/-- A call may end where `now` is set. -/
theorem Passed.outside (h : Passed calls i v c) : Reached calls zone i v .outside := by
  obtain ⟨tp, hnow, htimed⟩ := h.timed
  have hmem : i ∈ calls := List.mem_of_getElem? htimed.caller
  simp [Reached, hnow, hmem]

theorem Passed.append (h : Passed calls i v c) : Passed (calls ++ new) i v c := by
  obtain ⟨tp, hnow, htimed⟩ := h.timed
  exact ⟨h.tid_isSome, tp, hnow, htimed.append⟩

/-- Where a thread is holds on when other threads call `Log`, and when the zone is found. -/
theorem Reached.frame (h : Reached calls zone i v pc) (hi : i ∉ new)
    (hzone : ∀ z, zone = some z → zone' = some z) : Reached (calls ++ new) zone' i v pc := by
  cases pc with
  | outside =>
    have hmem : i ∈ calls ++ new ↔ i ∈ calls := by simp [hi]
    exact h.trans (not_congr hmem.symm)
  | tid c => exact Entered.append h
  | now c => exact ⟨h.1, h.2.append⟩
  | currentZone c => exact Passed.append h
  | assertZone c =>
    obtain ⟨z, hz⟩ := Option.isSome_iff_exists.mp h.2
    exact ⟨h.1.append, Option.isSome_iff_exists.mpr ⟨z, hzone z hz⟩⟩
  | zt c =>
    obtain ⟨z, hz⟩ := h.2
    exact ⟨h.1.append, z, hzone _ hz⟩
  | print c => exact ⟨h.1.append, h.2⟩

end Passed

/-- What holds of a thread holds on when another thread takes a step. -/
theorem ThreadCorrect.of_ne (h : s.ThreadCorrect gettid i) (hs : Step gettid s a s')
    (hi : i ≠ a.thread) : s'.ThreadCorrect gettid i := by
  have hthread := hs.threads_of_ne hi
  have hnew : i ∉ a.caller.toList := by
    cases a with
    | log j args =>
      have hne : i ≠ j := hi
      simp [Act.caller, hne]
    | _ => simp [Act.caller]
  constructor
  · rw [hthread]
    exact h.tid_eq
  · rw [hthread]
    exact h.zt_time
  · rw [hthread, hs.calls_eq]
    exact h.reached.frame hnew fun z => hs.currentZone_kept

/-- Where the thread is, for the place `pc`. -/
theorem ThreadCorrect.reached_at {pc : Pc} (h : s.ThreadCorrect gettid i)
    (hpc : (s.threads i).pc = pc) : Reached s.calls s.currentZone i (s.threads i).locals pc :=
  hpc ▸ h.reached

theorem threadCorrect_of_eq {t : LogThread} (ht : s'.threads i = t)
    (htid : ∀ tid, t.locals.tid = some tid → tid = gettid i)
    (hzt : ∀ z, t.locals.zt = some z → t.locals.now = some z.time)
    (hreached : Reached s'.calls s'.currentZone i t.locals t.pc) : s'.ThreadCorrect gettid i := by
  subst ht
  exact ⟨htid, hzt, hreached⟩

/-- A thread that goes to another place, with its variables as they are. -/
theorem ThreadCorrect.moves {pc : Pc} (h : s.ThreadCorrect gettid i)
    (ht : s'.threads i = { s.threads i with pc := pc })
    (hreached : Reached s'.calls s'.currentZone i (s.threads i).locals pc) :
    s'.ThreadCorrect gettid i :=
  threadCorrect_of_eq ht h.tid_eq h.zt_time hreached

/-- What holds of a thread holds on when it takes a step. -/
theorem ThreadCorrect.acts (h : s.ThreadCorrect gettid a.thread) (hs : Step gettid s a s') :
    s'.ThreadCorrect gettid a.thread := by
  cases hs with
  | @log i args hpc =>
    have hout := h.reached_at hpc
    refine h.moves (Function.update_self ..) ?_
    exact {
      caller := List.getElem?_concat_length
      taken := rfl
      now_eq_none_iff := by
        rw [List.take_left]
        exact hout }
  | @tid i c hpc =>
    have hentered := h.reached_at hpc
    refine threadCorrect_of_eq (Function.update_self ..) (fun tid htid => ?_) h.zt_time ?_
    · rcases Option.or_eq_some_iff.mp htid with hold | ⟨-, hnew⟩
      · exact h.tid_eq tid hold
      · exact (Option.some.inj hnew).symm
    · exact ⟨by simp, hentered⟩
  | @keepsNow i c tp hpc hnow =>
    obtain ⟨htid, hentered⟩ := h.reached_at hpc
    exact h.moves (Function.update_self ..) ⟨htid, tp, hnow, hentered.keeps hnow⟩
  | @readsClock i c tp hpc hnow =>
    obtain ⟨htid, hentered⟩ := h.reached_at hpc
    refine threadCorrect_of_eq (Function.update_self ..) h.tid_eq (fun z hz => ?_) ?_
    · exact absurd (hnow.symm.trans (h.zt_time z hz)) (by simp)
    · exact ⟨htid, tp, rfl, hentered.reads hnow⟩
  | @keepsZone i c zone hpc hzone =>
    have hpassed := h.reached_at hpc
    have hset : s.currentZone.isSome := Option.isSome_iff_exists.mpr ⟨zone, hzone⟩
    exact h.moves (Function.update_self ..) ⟨hpassed, hset⟩
  | @findsZone i c zone hpc hnone =>
    exact h.moves (Function.update_self ..) ⟨h.reached_at hpc, rfl⟩
  | @zoneThrows i c what hpc hnone =>
    have hpassed : Passed _ _ _ _ := h.reached_at hpc
    exact h.moves (Function.update_self ..) hpassed.outside
  | @asserts i c zone hpc hzone =>
    obtain ⟨hpassed, -⟩ := h.reached_at hpc
    exact h.moves (Function.update_self ..) ⟨hpassed, zone, hzone⟩
  | @assertThrows i c hpc hzone =>
    obtain ⟨hpassed, -⟩ := h.reached_at hpc
    exact h.moves (Function.update_self ..) hpassed.outside
  | @zt i c zone now hpc hzone hnow =>
    obtain ⟨hpassed, -⟩ := h.reached_at hpc
    refine threadCorrect_of_eq (Function.update_self ..) h.tid_eq (fun z hz => ?_) ?_
    · rcases Option.or_eq_some_iff.mp hz with hold | ⟨-, hnew⟩
      · exact h.zt_time z hold
      · cases hnew
        exact hnow
    · exact ⟨⟨hpassed.tid_isSome, hpassed.timed⟩, by simp⟩
  | @prints i c zt tid hpc hzt htid =>
    obtain ⟨hpassed, -⟩ := h.reached_at hpc
    exact h.moves (Function.update_self ..) hpassed.outside

theorem LineCorrect.step {r : Printed} (h : s.LineCorrect gettid r) (hs : Step gettid s a s') :
    s'.LineCorrect gettid r where
  zt_eq := hs.zt_kept h.zt_eq
  tid_eq := h.tid_eq
  timed := by
    rw [hs.calls_eq]
    exact h.timed.append

/-- What a call is about to print is correct. -/
theorem ThreadCorrect.line {c : LogCall} {zt : ZonedTime} {tid : ℕ} (h : s.ThreadCorrect gettid i)
    (hpc : (s.threads i).pc = .print c) (hzt : (s.threads i).locals.zt = some zt)
    (htid : (s.threads i).locals.tid = some tid) :
    s.LineCorrect gettid { thread := i, call := c, line := format c.args zt tid } where
  zt_eq := hzt
  tid_eq := h.tid_eq tid htid
  timed := by
    obtain ⟨hpassed, -⟩ := h.reached_at hpc
    obtain ⟨tp, hnow, htimed⟩ := hpassed.timed
    obtain rfl : zt.time = tp := Option.some.inj ((h.zt_time zt hzt).symm.trans hnow)
    exact htimed

theorem Correct.step (h : s.Correct gettid) (hs : Step gettid s a s') : s'.Correct gettid where
  threads i := by
    by_cases hi : i = a.thread
    · subst hi
      exact (h.threads a.thread).acts hs
    · exact (h.threads i).of_ne hs hi
  lines r hr := by
    refine LineCorrect.step ?_ hs
    cases hs with
    | @prints i c zt tid hpc hzt htid =>
      rcases List.mem_append.mp hr with hr | hr
      · exact h.lines r hr
      · obtain rfl := List.mem_singleton.mp hr
        exact (h.threads i).line hpc hzt htid
    | _ => exact h.lines r hr

theorem run_correct (hr : run (step gettid) {} es = some s) : s.Correct gettid :=
  run_invariant (fun _ _ _ h hs => h.step (step_cases hs)) (correct_new gettid) hr

/-- The calls are those of the run. -/
theorem run_calls (hr : run (step gettid) s es = some t) : t.calls = s.calls ++ callers es := by
  induction es generalizing s with
  | nil =>
    cases hr
    exact (List.append_nil _).symm
  | cons a es ih =>
    obtain ⟨u, hu, hr⟩ := run_cons_eq_some.mp hr
    rw [ih hr, (step_cases hu).calls_eq, List.append_assoc]
    cases a <;> rfl

/-! ## The time of a line -/

/-- The line shows a reading that its call took of the clock, and the id of its thread. -/
def ShowsReading (gettid : ℕ → ℕ) (r : Printed) : Prop :=
  r.call.taken = some r.line.zt.time ∧ r.line.tid = gettid r.thread

instance (gettid : ℕ → ℕ) (r : Printed) : Decidable (ShowsReading gettid r) :=
  inferInstanceAs (Decidable (_ ∧ _))

/-- The call that printed the line is the first call of its thread. -/
def OfFirstCall (es : List Act) (r : Printed) : Prop :=
  r.thread ∉ (callers es).take r.call.call

instance (es : List Act) (r : Printed) : Decidable (OfFirstCall es r) :=
  inferInstanceAs (Decidable (_ ∉ _))

theorem tid_of_line {r : Printed} (hr : run (step gettid) {} es = some s) (hmem : r ∈ s.lines) :
    r.line.tid = gettid r.thread :=
  ((run_correct hr).lines r hmem).tid_eq

/-- **A line shows a reading of its own call exactly if the call is the first of its thread.** -/
theorem shows_reading_iff {r : Printed} (hr : run (step gettid) {} es = some s)
    (hmem : r ∈ s.lines) :
    (callers es)[r.call.call]? = some r.thread ∧
      (ShowsReading gettid r ↔ OfFirstCall es r) := by
  have hcalls : s.calls = callers es := run_calls hr
  have htimed := ((run_correct hr).lines r hmem).timed
  rw [hcalls] at htimed
  refine ⟨htimed.caller, ?_⟩
  rw [ShowsReading, htimed.taken_eq_iff]
  exact and_iff_left (tid_of_line hr hmem)

/-- The first call of a thread prints the time that it read off the clock. -/
theorem shows_reading_first :
    ∃ s r, run (step fun i => i) {} [.log 0 ⟨2, 7, 3, "main.cc", "main", "ready"⟩, .next 0,
        .clock 0 1, .zone 0 (.ok (some "UTC")), .next 0, .next 0, .next 0] = some s ∧
      r ∈ s.lines ∧ ShowsReading (fun i => i) r := by
  have h : ((run (step fun i => i) {} [.log 0 ⟨2, 7, 3, "main.cc", "main", "ready"⟩, .next 0,
      .clock 0 1, .zone 0 (.ok (some "UTC")), .next 0, .next 0, .next 0]).map fun s => s.lines) =
        some [⟨0, ⟨0, ⟨2, 7, 3, "main.cc", "main", "ready"⟩, some 1⟩,
          ⟨⟨"UTC", 1⟩, "Info", 0, "main.cc", 7, 3, "ready"⟩⟩] := by
    decide +kernel
  obtain ⟨s, hs, hlines⟩ := Option.map_eq_some_iff.mp h
  have hmem := hlines ▸ List.mem_singleton_self _
  exact ⟨s, _, hs, hmem, (shows_reading_iff hs hmem).2.mpr (by decide)⟩

/-- The second call of a thread does not read the clock, and prints the time of the first. -/
theorem second_line_shows_first_time :
    ∃ s r, run (step fun i => i) {} ([.log 0 ⟨2, 7, 3, "main.cc", "main", "ready"⟩, .next 0,
        .clock 0 1, .zone 0 (.ok (some "UTC")), .next 0, .next 0, .next 0] ++
        .log 0 ⟨2, 9, 3, "main.cc", "main", "done"⟩ :: List.replicate 6 (.next 0)) = some s ∧
      r ∈ s.lines ∧ r.call.call = 1 ∧ r.call.taken = none ∧ r.line.zt.time = 1 ∧
      ¬ ShowsReading (fun i => i) r := by
  have h : ((run (step fun i => i) {} ([.log 0 ⟨2, 7, 3, "main.cc", "main", "ready"⟩, .next 0,
      .clock 0 1, .zone 0 (.ok (some "UTC")), .next 0, .next 0, .next 0] ++
      .log 0 ⟨2, 9, 3, "main.cc", "main", "done"⟩ :: List.replicate 6 (.next 0))).map
        fun s => s.lines.drop 1) =
        some [⟨0, ⟨1, ⟨2, 9, 3, "main.cc", "main", "done"⟩, none⟩,
          ⟨⟨"UTC", 1⟩, "Info", 0, "main.cc", 9, 3, "done"⟩⟩] := by
    decide +kernel
  obtain ⟨s, hs, hlines⟩ := Option.map_eq_some_iff.mp h
  have hmem := List.mem_of_mem_drop (hlines ▸ List.mem_singleton_self _)
  exact ⟨s, _, hs, hmem, rfl, rfl, rfl, by decide⟩

/-- **All lines of a thread show one time.** -/
theorem same_time {r r' : Printed} (hr : run (step gettid) {} es = some s) (hmem : r ∈ s.lines)
    (hmem' : r' ∈ s.lines) (hthread : r.thread = r'.thread) : r.line.zt = r'.line.zt := by
  have hzt := ((run_correct hr).lines r hmem).zt_eq
  have hzt' := ((run_correct hr).lines r' hmem').zt_eq
  rw [hthread] at hzt
  exact Option.some.inj (hzt.symm.trans hzt')

/-- **A call that has begun can always go on.** -/
theorem exists_step (hr : run (step gettid) {} es = some s) (hpc : (s.threads i).pc ≠ .outside) :
    ∃ a : Act, a.thread = i ∧ (step gettid s a).isSome := by
  have hthread := (run_correct hr).threads i
  cases h : (s.threads i).pc with
  | outside => exact absurd h hpc
  | tid c => exact ⟨.next i, rfl, by simp [step, next, h]⟩
  | now c =>
    cases hnow : (s.threads i).locals.now with
    | none => exact ⟨.clock i 0, rfl, by simp [step, h, hnow]⟩
    | some tp => exact ⟨.next i, rfl, by simp [step, next, h, hnow]⟩
  | currentZone c =>
    cases hzone : s.currentZone with
    | none => exact ⟨.zone i (.ok none), rfl, by simp [step, h, hzone]⟩
    | some zone => exact ⟨.next i, rfl, by simp [step, next, h, hzone]⟩
  | assertZone c =>
    obtain ⟨-, hset⟩ := hthread.reached_at h
    obtain ⟨zone, hzone⟩ := Option.isSome_iff_exists.mp hset
    exact ⟨.next i, rfl, by simp [step, next, h, hzone]⟩
  | zt c =>
    obtain ⟨hpassed, zone, hzone⟩ := hthread.reached_at h
    obtain ⟨tp, hnow, -⟩ := hpassed.timed
    exact ⟨.next i, rfl, by simp [step, next, h, hzone, hnow]⟩
  | print c =>
    obtain ⟨hpassed, hset⟩ := hthread.reached_at h
    obtain ⟨zt, hzt⟩ := Option.isSome_iff_exists.mp hset
    obtain ⟨tid, htid⟩ := Option.isSome_iff_exists.mp hpassed.tid_isSome
    exact ⟨.next i, rfl, by simp [step, next, h, hzt, htid]⟩

end LoggerThreads

end Ados
