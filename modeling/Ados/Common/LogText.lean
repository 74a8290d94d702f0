import Ados.Common.LogLines
import Ados.Lib.Delimited

/-!
# What `stderr` tells

The default logger writes its lines to `stderr`. What is written tells which lines there were, with
all fields of each as they are written (the message up to its first null character, or with the
blank that follows it), as long as no file name has a `]`, a null character or an end of a line, and
no message an end of a line: then the fields end where they seem to end. A message with an end of a
line can pass for the lines of other calls.

## Main definitions

* `Shown`: what can be seen of a line
* `IsField`, `LogArgs.Legible`: texts that do not pass for something else
* `LoggerThreads.stderr`: what is written

## Main results

* `LoggerThreads.stderr_eq_iff`: the text tells the lines
* `stderrText_forged`: a message that passes for the line of another call
-/

namespace Ados

open Transition

/-- The fields of a line, as far as they are written. -/
structure Shown where
  time : String
  lvl : String
  tid : ℕ
  fileName : String
  line : ℕ
  column : ℕ
  /-- with the blank that follows, if there is no null character before it -/
  logData : List Char
  deriving DecidableEq

/-- What is written of a line. -/
def Line.shown (showTime : ZonedTime → String) (l : Line) : Shown where
  time := showTime l.zt
  lvl := l.lvl
  tid := l.tid
  fileName := l.fileName
  line := l.line
  column := l.column
  logData := cStr (l.logData ++ " ")

/-- The text ends no field and no line. -/
structure IsField (text : String) : Prop where
  bracket : ']' ∉ text.toList
  newline : '\n' ∉ text.toList
  null : lacksNull text = true

instance (text : String) : Decidable (IsField text) :=
  decidable_of_iff (']' ∉ text.toList ∧ '\n' ∉ text.toList ∧ lacksNull text = true)
    ⟨fun ⟨hbracket, hnewline, hnull⟩ => ⟨hbracket, hnewline, hnull⟩,
      fun h => ⟨h.bracket, h.newline, h.null⟩⟩

/-- The message ends no line, and the file name no field. -/
structure LogArgs.Legible (args : LogArgs) : Prop where
  fileName : IsField args.fileName
  logData : '\n' ∉ cStr (args.logData ++ " ")

instance (args : LogArgs) : Decidable args.Legible :=
  decidable_of_iff (IsField args.fileName ∧ '\n' ∉ cStr (args.logData ++ " "))
    ⟨fun ⟨hname, hdata⟩ => ⟨hname, hdata⟩, fun h => ⟨h.fileName, h.logData⟩⟩

/-- The same of the fields of a line. -/
structure Line.Legible (showTime : ZonedTime → String) (l : Line) : Prop where
  time : IsField (showTime l.zt)
  lvl : IsField l.lvl
  fileName : IsField l.fileName
  logData : '\n' ∉ cStr (l.logData ++ " ")

theorem IsField.append {text text' : String} (h : IsField text) (h' : IsField text') :
    IsField (text ++ text') where
  bracket := by simpa using ⟨h.bracket, h'.bracket⟩
  newline := by simpa using ⟨h.newline, h'.newline⟩
  null := by rw [lacksNull_append, h.null, h'.null, Bool.and_true]

/-! ## One line -/

/-- `[{}:{}:{}]`. -/
def Line.place (l : Line) : String :=
  "[" ++ l.fileName ++ ":" ++ toString l.line ++ ":" ++ toString l.column ++ "]"

variable {showTime : ZonedTime → String} {l l' : Line}

theorem notMem_toDigits {c : Char} (n : ℕ) (hc : c.isDigit = false) : c ∉ Nat.toDigits 10 n := by
  intro hmem
  have hdigit : c.isDigit = true := Nat.isDigit_of_mem_toDigits (by decide) (by decide) hmem
  exact absurd (hdigit.symm.trans hc) (by simp)

theorem notMem_toString {c : Char} (n : ℕ) (hc : c.isDigit = false) :
    c ∉ (toString n).toList := by
  simpa [Nat.repr] using notMem_toDigits n hc

theorem toList_toString_inj {m n : ℕ} : (toString m).toList = (toString n).toList ↔ m = n := by
  constructor
  · intro h
    have hdigits : Nat.toDigits 10 m = Nat.toDigits 10 n := by simpa [Nat.repr] using h
    rw [← Nat.ofDigitChars_ten_toDigits (n := m), hdigits, Nat.ofDigitChars_ten_toDigits]
  · rintro rfl
    rfl

theorem isField_toString (n : ℕ) : IsField (toString n) where
  bracket := notMem_toString n rfl
  newline := notMem_toString n rfl
  null := lacksNull_toString n

/-- The levels are fields. -/
theorem isField_lvlName (lvl : ℕ) : IsField (lvlName lvl) := by
  have hall : lvlNameArray.all fun name => IsField name := by decide
  have hmem : lvlName lvl ∈ lvlNameArray := List.get_mem _ _
  exact of_decide_eq_true (List.all_eq_true.mp hall _ hmem)

/-- The characters of the file name, the line and the column. -/
def Line.position (l : Line) : List Char :=
  l.fileName.toList ++ ':' :: ((toString l.line).toList ++ ':' :: (toString l.column).toList)

/-- The characters of a line but the last. -/
def Line.block (showTime : ZonedTime → String) (l : Line) : List Char :=
  '[' :: ((showTime l.zt).toList ++ ']' ::
    ('[' :: (l.lvl.toList ++ ']' ::
      ('[' :: ((toString l.tid).toList ++ ']' ::
        ('[' :: (l.position ++ ']' :: cStr (l.logData ++ " "))))))))

theorem stderrText_append {text text' : String} (h : lacksNull text = true) :
    stderrText (text ++ text') = text.toList ++ stderrText text' := by
  rw [stderrText, cStr_append h, List.append_assoc, stderrText]

theorem stderrText_of_lacksNull {text : String} (h : lacksNull text = true) :
    stderrText text = text.toList ++ "\n".toList := by
  have hempty : stderrText (text ++ "") = text.toList ++ stderrText "" := stderrText_append h
  rw [String.append_empty] at hempty
  exact hempty

/-- There is no null character before the message. -/
theorem stderrText_text (h : l.Legible showTime) :
    stderrText (l.text showTime) = l.block showTime ++ ['\n'] := by
  have htext : l.text showTime = l.head showTime ++ l.place ++ (l.logData ++ " ") := by
    simp only [Line.text, Line.place, String.append_assoc]
  have hnull : lacksNull (l.head showTime ++ l.place) = true := by
    simp only [Line.head, Line.place, lacksNull_append, lacksNull_toString, h.time.null, h.lvl.null,
      h.fileName.null]
    decide
  rw [htext, stderrText_append hnull, stderrText]
  simp [Line.head, Line.place, Line.block, Line.position]

/-- The line and the column add nothing but digits and `:` to the file name. -/
theorem notMem_position {c : Char} (hname : c ∉ l.fileName.toList) (hdigit : c.isDigit = false)
    (hcolon : c ≠ ':') : c ∉ l.position := by
  simp only [Line.position, List.mem_append, List.mem_cons, not_or]
  exact ⟨hname, hcolon, notMem_toString _ hdigit, hcolon, notMem_toString _ hdigit⟩

theorem newline_notMem_block (h : l.Legible showTime) : '\n' ∉ l.block showTime := by
  have htid : '\n' ∉ Nat.toDigits 10 l.tid := notMem_toDigits _ rfl
  have hposition : '\n' ∉ l.position := notMem_position h.fileName.newline rfl (by simp)
  simp [Line.block, h.time.newline, h.lvl.newline, htid, hposition, h.logData]

/-- A file name may have a `:`, the line and the column have none. -/
theorem position_eq_iff : l.position = l'.position ↔
    l.fileName = l'.fileName ∧ l.line = l'.line ∧ l.column = l'.column := by
  have hcolon : ∀ n : ℕ, ':' ∉ (toString n).toList := fun n => notMem_toString n rfl
  have hsplit : ∀ m : Line, m.position =
      (m.fileName.toList ++ ':' :: (toString m.line).toList) ++ ':' :: (toString m.column).toList :=
    fun m => by simp [Line.position]
  rw [hsplit l, hsplit l', Delimited.back_eq_iff (hcolon _) (hcolon _),
    Delimited.back_eq_iff (hcolon _) (hcolon _), String.toList_inj, toList_toString_inj,
    toList_toString_inj, and_assoc]

/-- Every field ends at the next `]`. -/
theorem block_eq_iff (h : l.Legible showTime) (h' : l'.Legible showTime) :
    l.block showTime = l'.block showTime ↔ l.shown showTime = l'.shown showTime := by
  have htid : ∀ m : Line, ']' ∉ (toString m.tid).toList := fun m => notMem_toString _ rfl
  have hfields : l.shown showTime = l'.shown showTime ↔
      showTime l.zt = showTime l'.zt ∧ l.lvl = l'.lvl ∧ l.tid = l'.tid ∧
        (l.fileName = l'.fileName ∧ l.line = l'.line ∧ l.column = l'.column) ∧
          cStr (l.logData ++ " ") = cStr (l'.logData ++ " ") := by
    simp only [Line.shown, Shown.mk.injEq, and_assoc]
  have hposition : ∀ {m : Line}, m.Legible showTime → ']' ∉ m.position := fun hm =>
    notMem_position hm.fileName.bracket rfl (by simp)
  rw [hfields, Line.block, Line.block, List.cons_inj_right,
    Delimited.front_eq_iff h.time.bracket h'.time.bracket, List.cons_inj_right,
    Delimited.front_eq_iff h.lvl.bracket h'.lvl.bracket, List.cons_inj_right,
    Delimited.front_eq_iff (htid l) (htid l'), List.cons_inj_right,
    Delimited.front_eq_iff (hposition h) (hposition h'),
    position_eq_iff, String.toList_inj, String.toList_inj, toList_toString_inj]

/-- **Any line can be forged.** A call whose message contains an end of a line writes what two calls
would write, the second with any time, level and thread id. -/
theorem stderrText_forged (h : l.Legible showTime) (hdata : lacksNull l.logData = true) :
    stderrText (Line.text showTime { l with
      logData := l.logData ++ (" \n" ++ (l'.head showTime ++ (l'.place ++ l'.logData))) }) =
    stderrText (l.text showTime) ++ stderrText (l'.text showTime) := by
  have hnull : lacksNull (l.text showTime) = true := by
    simp only [Line.text, Line.head, lacksNull_append, lacksNull_toString, h.time.null, h.lvl.null,
      h.fileName.null, hdata]
    decide
  have hend : lacksNull (l.text showTime ++ "\n") = true := by
    rw [lacksNull_append, hnull]
    decide
  have htext : Line.text showTime { l with
      logData := l.logData ++ (" \n" ++ (l'.head showTime ++ (l'.place ++ l'.logData))) } =
      l.text showTime ++ "\n" ++ l'.text showTime := by
    have hblank : " \n" = " " ++ "\n" := by decide
    simp only [Line.text, Line.head, Line.place, hblank, String.append_assoc]
  rw [htext, stderrText_append hend, stderrText_of_lacksNull hnull, String.toList_append]

/-! ## All lines -/

namespace LoggerThreads

/-- What is written to `stderr`. -/
def stderr (showTime : ZonedTime → String) (s : LoggerThreads) : List Char :=
  s.lines.flatMap fun r => stderrText (r.line.text showTime)

variable {gettid gettid' : ℕ → ℕ} {s t : LoggerThreads} {es fs : List Act}

/-- The lines of legible calls are legible. -/
theorem LineOf.legible {r : Printed} (h : LineOf gettid es r) (htime : ∀ zt, IsField (showTime zt))
    (hes : ∀ c ∈ logged es, c.2.Legible) : r.line.Legible showTime := by
  obtain ⟨hmade, hline⟩ := h
  have hargs := hes _ (List.mem_of_getElem? hmade)
  rw [hline]
  exact {
    time := htime _
    lvl := isField_lvlName _
    fileName := hargs.fileName
    logData := hargs.logData }

theorem stderr_of_legible (h : ∀ r ∈ s.lines, r.line.Legible showTime) :
    s.stderr showTime = s.lines.flatMap fun r => r.line.block showTime ++ ['\n'] :=
  List.flatMap_congr fun r hmem => stderrText_text (h r hmem)

/-- **What is written tells the lines.** Two runs of loggers that are given legible file names and
messages write the same exactly if they print lines that are shown the same, in the same order. -/
theorem stderr_eq_iff (hr : run (step gettid) {} es = some s)
    (hr' : run (step gettid') {} fs = some t) (htime : ∀ zt, IsField (showTime zt))
    (hes : ∀ c ∈ logged es, c.2.Legible) (hfs : ∀ c ∈ logged fs, c.2.Legible) :
    s.stderr showTime = t.stderr showTime ↔
      (s.lines.map fun r => r.line.shown showTime) =
        t.lines.map fun r => r.line.shown showTime := by
  have hlines : ∀ r ∈ s.lines, r.line.Legible showTime := fun r hmem =>
    (run_lineOf hr r hmem).legible htime hes
  have hlines' : ∀ r ∈ t.lines, r.line.Legible showTime := fun r hmem =>
    (run_lineOf hr' r hmem).legible htime hfs
  rw [stderr_of_legible hlines, stderr_of_legible hlines']
  exact Delimited.lines_eq_iff (fun r hmem => newline_notMem_block (hlines r hmem))
    (fun r hmem => newline_notMem_block (hlines' r hmem))
    fun r hmem r' hmem' => block_eq_iff (hlines r hmem) (hlines' r' hmem')

/-- The first nanoseconds, in UTC. -/
def showFirst (zt : ZonedTime) : String :=
  "1970-01-01 00:00:00.00000000" ++ toString zt.time.toNat

/-- The line that one of two threads prints, and that of a process with one thread. -/
theorem stderr_eq_two_processes :
    ∃ s t, run (step fun i => i) {} twoThreads = some s ∧
      run (step fun _ => 1) {} [.log 0 ⟨5, 4, 5, "run.cc", "main", "lost"⟩, .next 0, .clock 0 2,
        .zone 0 (.ok (some "UTC")), .next 0, .next 0, .next 0] = some t ∧
      s.stderr showFirst = t.stderr showFirst := by
  have h : ((run (step fun i => i) {} twoThreads).map fun s =>
      s.lines.map fun r => r.line.shown showFirst) =
        some [⟨"1970-01-01 00:00:00.000000002", "Fatal", 1, "run.cc", 4, 5, "lost ".toList⟩] := by
    decide +kernel
  have h' : ((run (step fun _ => 1) {} [.log 0 ⟨5, 4, 5, "run.cc", "main", "lost"⟩, .next 0,
      .clock 0 2, .zone 0 (.ok (some "UTC")), .next 0, .next 0, .next 0]).map fun s =>
      s.lines.map fun r => r.line.shown showFirst) =
        some [⟨"1970-01-01 00:00:00.000000002", "Fatal", 1, "run.cc", 4, 5, "lost ".toList⟩] := by
    decide +kernel
  obtain ⟨s, hs, hlines⟩ := Option.map_eq_some_iff.mp h
  obtain ⟨t, ht, hlines'⟩ := Option.map_eq_some_iff.mp h'
  refine ⟨s, t, hs, ht, (stderr_eq_iff hs ht ?_ ?_ ?_).mpr (hlines.trans hlines'.symm)⟩
  · exact fun zt => IsField.append (by decide) (isField_toString _)
  · intro c hc
    have hcases : c = (0, ⟨2, 7, 3, "main.cc", "main", "ready"⟩) ∨
        c = (1, ⟨9, 4, 5, "run.cc", "run", "lost"⟩) := by
      simpa [logged, twoThreads, Act.logged, eq_comm] using hc
    rcases hcases with rfl | rfl
    · decide
    · decide
  · intro c hc
    have hcases : c = (0, ⟨5, 4, 5, "run.cc", "main", "lost"⟩) := by
      simpa [logged, Act.logged, eq_comm] using hc
    subst hcases
    decide

end LoggerThreads

end Ados
