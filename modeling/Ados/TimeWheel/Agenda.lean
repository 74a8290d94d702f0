import Ados.Lib.Agenda
import Ados.TimeWheel.Schedule

/-!
# The agenda of an executor

An executor is meant to be an agenda: it is given tasks with their dates, and hands each of them out
on its date. As long as every call of `ExecuteAt` is in reach, on a hierarchy of one wheel or less
than a turn of the first wheel ahead, it is one for the tasks filed in time: a call enters its task,
and a tick is the end of a day. The date of a task is its `fireTick`, which is the tick asked for
unless a key lost a carry.

## Main definitions

* `Timer.agenda t`: the agenda that the executor stands for
* `Timer.InReach`: a call that the first wheel or its map can serve
* `Timer.FirstOnly`: nothing else is held outside of these

## Main results

* `Timer.agenda_run`: a run whose calls are in reach is a run of the agenda
* `Timer.punctual_run`: in such a run no task filed in time is lost, late or early
-/

namespace Ados.TimeWheel

open Transition

/-- What a tick loses is held by a wheel above the first. -/
theorem inSlot_of_lost {Task : Type} {vec : List (TimingWheelTool Task)}
    {x : TaskWithTimestamp Task} (h : x ∈ lost vec) : ∃ i p, InSlot vec (i + 1) p x := by
  induction vec with
  | nil => simp [lost] at h
  | cons w above ih =>
    rw [lost] at h
    split at h
    · rcases List.mem_append.mp h with h | h
      · cases above with
        | nil => simp at h
        | cons next rest =>
          refine ⟨0, next.currentPos, next, next.atCursor, rfl, ?_, h⟩
          cases hl : next.wheel[next.currentPos]? with
          | none => simp [TimingWheelTool.atCursor, hl] at h
          | some l => simp [TimingWheelTool.atCursor, hl]
      · obtain ⟨i, p, hin⟩ := ih h
        exact ⟨i + 1, p, inSlot_cons_succ.mpr hin⟩
    · simp at h

namespace Timer

/-- The tasks filed in time: those held are pending, those returned are delivered. -/
def agenda (t : Timer) : Agenda Entry where
  now := t.exec.currentTickCount
  pending := (held t.exec.timingWheelVec t.exec.timingTaskMap).filter TaskWithTimestamp.InTime
  entered := (t.filed : Multiset Entry).filter TaskWithTimestamp.InTime
  delivered := (t.returned : Multiset (ℕ × Entry)).filter fun r => r.2.InTime

/-- There is one wheel, or the task of the call is less than a turn of the first wheel ahead. -/
def InReach (wheelSize : List ℕ) (t : Timer) (ev : Event) : Prop :=
  wheelSize.length = 1 ∨ ∀ tp, ev = .executeAt tp →
    t.exec.virtualTp tp / t.exec.dtCount < t.exec.currentTickCount + S wheelSize 0

/-- No task filed in time is held above the first wheel, nor in the map unless there is one wheel.
-/
structure FirstOnly (wheelSize : List ℕ) (t : Timer) : Prop where
  upper : ∀ i p e, InSlot t.exec.timingWheelVec (i + 1) p e → ¬ e.InTime
  map : wheelSize.length ≠ 1 → ∀ k e, InMap t.exec.timingTaskMap k e → ¬ e.InTime

variable {options : Options} {w₀ : ℕ} {t t' : Timer} {ev : Event} {es : List Event} {e : Entry}

theorem agenda_initial : (initial options).agenda = {} := by
  have h : held (initial options).exec.timingWheelVec (initial options).exec.timingTaskMap = 0 :=
    held_initialized options
  simp only [agenda, h]
  rfl

theorem firstOnly_initial : FirstOnly options.wheelSize (initial options) := by
  have hnone : ∀ x, x ∉ held (initial options).exec.timingWheelVec
      (initial options).exec.timingTaskMap := by simp [initial, held_initialized]
  exact ⟨fun i p e h => absurd (mem_held.mpr (Or.inl ⟨_, p, h⟩)) (hnone e),
    fun _ k e h => absurd (mem_held.mpr (Or.inr ⟨k, h⟩)) (hnone e)⟩

/-- Filing keeps to the first wheel, if the call is in reach. -/
theorem FirstOnly.filed_at (hw : options.wheelSize[0]? = some w₀) (hs : Sound options t)
    (h : FirstOnly options.wheelSize t) {n : ℕ} {place : Place} {exec : TimeWheelExecutor Call}
    (hf : Appends t.exec n ⟨t.calls, t.exec.currentTickCount⟩ place exec)
    (hreach : options.wheelSize.length = 1 ∨ n < t.exec.currentTickCount + w₀) :
    FirstOnly options.wheelSize { t with
      exec := exec, calls := t.calls + 1
      filed := t.filed ++ [⟨n, t.calls, t.exec.currentTickCount⟩] } := by
  have hopt : t.exec.options.wheelSize = options.wheelSize := by rw [hs.options_eq]
  constructor
  · intro i p e hin htime
    rcases hreach with hone | hnear
    · have hlt := hin.lt_length
      have hlen := congrArg List.length (put_digits hf.filed).1
      simp only [length_digits, hs.aligned.length, hone] at hlen
      rw [hlen] at hlt
      omega
    · rcases (put_inSlot hf.filed).mp hin with hin | ⟨hplace, rfl⟩
      · exact h.upper i p e hin htime
      · have hfirst := (hf.files htime).near (hopt ▸ hw) hnear
        exact absurd (hplace.symm.trans hfirst) (by simp)
  · intro hlen k e hin htime
    rcases (put_inMap hf.filed).mp hin with hin | ⟨hplace, rfl⟩
    · exact h.map hlen k e hin htime
    · have hfirst := (hf.files htime).near (hopt ▸ hw) (hreach.resolve_left hlen)
      exact absurd (hplace.symm.trans hfirst) (by simp)

/-- A tick loses no task filed in time. -/
theorem FirstOnly.not_inTime_of_lost {wheelSize : List ℕ} (h : FirstOnly wheelSize t)
    (he : e ∈ lost t.exec.timingWheelVec) : ¬ e.InTime := by
  obtain ⟨i, p, hin⟩ := inSlot_of_lost he
  exact h.upper i p e hin

theorem FirstOnly.ticked (h : FirstOnly options.wheelSize t) (hs : Sound options t)
    {taskList : TaskList Call} {exec : TimeWheelExecutor Call}
    (ht : t.exec.takeTick = .ok (taskList, exec)) (tp : ℤ) (returned : List (ℕ × Entry)) :
    FirstOnly options.wheelSize { t with
      exec := exec.countTick, lastLoopTimePoint := tp, returned := returned } := by
  obtain ⟨hticks, -⟩ := ticks_of_takeTick ht
  constructor
  · intro i p e hin
    rcases hticks.inSlot.mp hin with ⟨hin, -⟩ | ⟨hlast, -, hmap, -⟩
    · exact h.upper i p e hin
    · rw [hs.aligned.length] at hlast
      exact h.map (by omega) _ e hmap
  · intro hlen k e hin
    exact h.map hlen k e (hticks.inMap.mp hin).1

/-- A task that is held and was filed in time is not due before the current tick. -/
theorem FirstOnly.le_fireTick (hv : ValidSizes options.wheelSize)
    (hw : options.wheelSize[0]? = some w₀) (hs : Sound options t)
    (hsched : Scheduled options.wheelSize w₀ t) (h : FirstOnly options.wheelSize t)
    (he : e ∈ held t.exec.timingWheelVec t.exec.timingTaskMap) (htime : e.InTime) :
    t.exec.currentTickCount ≤ fireTick options.wheelSize e := by
  by_cases hlen : options.wheelSize.length = 1
  · obtain ⟨w, hsizes⟩ := List.length_eq_one_iff.mp hlen
    obtain rfl : w = w₀ := by simpa [hsizes] using hw
    have hpos : 0 < w := hv.pos w (by simp [hsizes])
    have hle := hsched.le_fireTick_of_single hsizes hpos hs htime he
    rwa [hsizes]
  · rcases mem_held.mp he with ⟨i, p, hin⟩ | ⟨k, hin⟩
    · cases i with
      | zero => exact (hsched.slot p e hin htime).2.1
      | succ i => exact absurd htime (h.upper i p e hin)
    · exact absurd htime (h.map hlen k e hin)

/-- What is known of a run whose calls are in reach. -/
structure OnAgenda (options : Options) (w₀ : ℕ) (t : Timer) : Prop where
  sound : Sound options t
  scheduled : Scheduled options.wheelSize w₀ t
  firstOnly : FirstOnly options.wheelSize t

/-- A call that files its task in time enters it in the agenda. -/
theorem OnAgenda.enter (hv : ValidSizes options.wheelSize) (hw : options.wheelSize[0]? = some w₀)
    (h : OnAgenda options w₀ t') {n : ℕ} {place : Place} {exec : TimeWheelExecutor Call}
    (hf : Appends t.exec n ⟨t.calls, t.exec.currentTickCount⟩ place exec)
    (ht' : t' = { t with
      exec := exec, calls := t.calls + 1
      filed := t.filed ++ [⟨n, t.calls, t.exec.currentTickCount⟩] })
    (htime : TaskWithTimestamp.InTime ⟨n, t.calls, t.exec.currentTickCount⟩) :
    Agenda.step (fireTick options.wheelSize) t.agenda
      (.enter ⟨n, t.calls, t.exec.currentTickCount⟩) = some t'.agenda := by
  have hheld : held t'.exec.timingWheelVec t'.exec.timingTaskMap =
      held t.exec.timingWheelVec t.exec.timingTaskMap +
        {⟨n, t.calls, t.exec.currentTickCount⟩} := by
    rw [ht']; exact held_put hf.filed
  have hcount : t'.exec.currentTickCount = t.exec.currentTickCount := by
    rw [ht', hf.rest]
  have hle := h.firstOnly.le_fireTick hv hw h.sound h.scheduled
    (hheld ▸ Multiset.mem_add.mpr (Or.inr (Multiset.mem_singleton_self _))) htime
  rw [hcount] at hle
  have hfiled : t'.filed = t.filed ++ [⟨n, t.calls, t.exec.currentTickCount⟩] := by rw [ht']
  have hreturned : t'.returned = t.returned := by rw [ht']
  have hsingle : ({⟨n, t.calls, t.exec.currentTickCount⟩} : Multiset Entry).filter
      TaskWithTimestamp.InTime = {⟨n, t.calls, t.exec.currentTickCount⟩} :=
    Multiset.filter_eq_self.mpr (by simpa using htime)
  rw [Agenda.step_enter (s := t.agenda) hle]
  simp only [agenda, hheld, hcount, hfiled, hreturned, ← Multiset.coe_add, Multiset.coe_singleton,
    Multiset.filter_add, hsingle]

/-- A call that files its task too late is no event of the agenda. -/
theorem agenda_eq_of_not_inTime {n : ℕ} {place : Place} {exec : TimeWheelExecutor Call}
    (hf : Appends t.exec n ⟨t.calls, t.exec.currentTickCount⟩ place exec)
    (htime : ¬ TaskWithTimestamp.InTime ⟨n, t.calls, t.exec.currentTickCount⟩) : agenda { t with
      exec := exec, calls := t.calls + 1
      filed := t.filed ++ [⟨n, t.calls, t.exec.currentTickCount⟩] } = t.agenda := by
  have hcount : exec.currentTickCount = t.exec.currentTickCount := by rw [hf.rest]
  have hsingle : ({⟨n, t.calls, t.exec.currentTickCount⟩} : Multiset Entry).filter
      TaskWithTimestamp.InTime = 0 := Multiset.filter_eq_nil.mpr (by simpa using htime)
  simp only [agenda, hcount, held_put hf.filed, ← Multiset.coe_add, Multiset.coe_singleton,
    Multiset.filter_add, hsingle, add_zero]

/-- A tick delivers what the agenda has for its date. -/
theorem OnAgenda.next (hv : ValidSizes options.wheelSize) (hw : options.wheelSize[0]? = some w₀)
    (h : OnAgenda options w₀ t) (h' : OnAgenda options w₀ t') {taskList : TaskList Call}
    {exec : TimeWheelExecutor Call} (ht : t.exec.takeTick = .ok (taskList, exec)) {tp : ℤ}
    (ht' : t' = { t with
      exec := exec.countTick
      lastLoopTimePoint := tp
      returned := t.returned ++ taskList.map fun e => (t.exec.currentTickCount, e) }) :
    Agenda.step (fireTick options.wheelSize) t.agenda .next = some t'.agenda := by
  obtain ⟨hticks, hrest⟩ := ticks_of_takeTick ht
  have hcount : t'.exec.currentTickCount = t.exec.currentTickCount + 1 := by
    rw [ht', hrest]
    rfl
  have hfiled : t'.filed = t.filed := by rw [ht']
  have hreturned : t'.returned =
      t.returned ++ taskList.map fun e => (t.exec.currentTickCount, e) := by rw [ht']
  have hlost : (lost t.exec.timingWheelVec : Multiset Entry).filter TaskWithTimestamp.InTime = 0 :=
    Multiset.filter_eq_nil.mpr fun e he => h.firstOnly.not_inTime_of_lost he
  have hheld : t.agenda.pending = t'.agenda.pending +
      (taskList : Multiset Entry).filter TaskWithTimestamp.InTime := by
    simp only [agenda, hticks.held, Multiset.filter_add, hlost, add_zero]
    rw [ht']
    rfl
  have htaken : ∀ e ∈ (taskList : Multiset Entry).filter TaskWithTimestamp.InTime,
      fireTick options.wheelSize e = t.exec.currentTickCount := by
    intro e he
    obtain ⟨he, htime⟩ := Multiset.mem_filter.mp he
    have hmem : (t.exec.currentTickCount, e) ∈ t'.returned := by
      rw [hreturned]
      exact List.mem_append_right _ (List.mem_map_of_mem he)
    exact (h'.scheduled.returned _ e hmem htime).symm
  have hkept : ∀ e ∈ t'.agenda.pending, fireTick options.wheelSize e ≠ t.exec.currentTickCount := by
    intro e he
    obtain ⟨he, htime⟩ := Multiset.mem_filter.mp he
    have hle := h'.firstOnly.le_fireTick hv hw h'.sound h'.scheduled he htime
    omega
  have hmap : ((taskList.map fun e => (t.exec.currentTickCount, e) : List (ℕ × Entry)) :
      Multiset (ℕ × Entry)).filter (fun r => r.2.InTime) =
        ((taskList : Multiset Entry).filter TaskWithTimestamp.InTime).map
          fun e => (t.exec.currentTickCount, e) := by
    rw [← Multiset.map_coe, Multiset.filter_map]
    rfl
  rw [Agenda.step_next (s := t.agenda) hheld htaken hkept]
  simp only [agenda, hcount, hfiled, hreturned, ← Multiset.coe_add, Multiset.filter_add, hmap]

/-- One step in reach is one event of the agenda, or none. -/
theorem OnAgenda.step (hv : ValidSizes options.wheelSize) (hw : options.wheelSize[0]? = some w₀)
    (h : OnAgenda options w₀ t) (hq : InReach options.wheelSize t ev) (hstep : Step t ev t') :
    ∃ fs, run (Agenda.step (fireTick options.wheelSize)) t.agenda fs = some t'.agenda ∧
      OnAgenda options w₀ t' := by
  have hsound := h.sound.step hv hstep
  have hsched := h.scheduled.step hv hw h.sound hstep
  cases hstep with
  | start => exact ⟨[], rfl, hsound, hsched, ⟨h.firstOnly.upper, h.firstOnly.map⟩⟩
  | @executeAt tp entry exec he =>
    rcases executeAt_appends he with ⟨-, rfl, rfl⟩ | ⟨-, -, rfl, place, hf⟩
    · refine ⟨[], ?_, hsound, hsched, ⟨h.firstOnly.upper, h.firstOnly.map⟩⟩
      simp [agenda]
    · obtain ⟨ws, hws⟩ := exists_eq_cons hw
      have hreach := hq.imp_right fun hnear => hnear tp rfl
      rw [hws, S_zero, ← hws] at hreach
      have h' : OnAgenda options w₀ _ :=
        ⟨hsound, hsched, h.firstOnly.filed_at hw h.sound hf hreach⟩
      by_cases htime : TaskWithTimestamp.InTime
          ⟨t.exec.virtualTp tp / t.exec.dtCount, t.calls, t.exec.currentTickCount⟩
      · exact ⟨[.enter _], (run_singleton _ _).trans (h'.enter hv hw hf rfl htime), h'⟩
      · exact ⟨[], congrArg some (agenda_eq_of_not_inTime hf htime).symm, h'⟩
  | tick _ _ ht =>
    have h' : OnAgenda options w₀ _ := ⟨hsound, hsched, h.firstOnly.ticked h.sound ht _ _⟩
    exact ⟨[.next], (run_singleton _ _).trans (h.next hv hw h' ht rfl), h'⟩

/-- **An executor in reach is an agenda.** A run whose calls are in reach is a run of the agenda,
with `fireTick` for the dates. -/
theorem agenda_run (hv : ValidSizes options.wheelSize)
    (hr : run Timer.step (initial options) es = some t)
    (hq : AllSteps Timer.step (InReach options.wheelSize) (initial options) es) :
    ∃ fs, run (Agenda.step (fireTick options.wheelSize)) {} fs = some t.agenda := by
  obtain ⟨w₀, ws, hsizes⟩ := List.exists_cons_of_ne_nil hv.ne_nil
  have hw : options.wheelSize[0]? = some w₀ := by rw [hsizes]; rfl
  have hstep : ∀ s ev u a, (a = s.agenda ∧ OnAgenda options w₀ s) →
      InReach options.wheelSize s ev → Timer.step s ev = some u →
      ∃ fs b, run (Agenda.step (fireTick options.wheelSize)) a fs = some b ∧
        b = u.agenda ∧ OnAgenda options w₀ u := by
    rintro s ev u a ⟨rfl, h⟩ hreach hu
    obtain ⟨fs, hfs, hu⟩ := h.step hv hw hreach (step_cases hu)
    exact ⟨fs, _, hfs, rfl, hu⟩
  obtain ⟨fs, a, hfs, rfl, -⟩ := run_simulation hstep
    ⟨agenda_initial.symm, .initial hv, scheduled_initial, firstOnly_initial⟩ hq hr
  exact ⟨fs, hfs⟩

/-- In such a run no task filed in time is lost, late or early. -/
theorem punctual_run (hv : ValidSizes options.wheelSize)
    (hr : run Timer.step (initial options) es = some t)
    (hq : AllSteps Timer.step (InReach options.wheelSize) (initial options) es) :
    t.agenda.Punctual (fireTick options.wheelSize) := by
  obtain ⟨fs, hfs⟩ := agenda_run hv hr hq
  exact Agenda.run_punctual hfs

/-- With one wheel every run is in reach. -/
theorem inReach_of_single {w : ℕ} (hsizes : options.wheelSize = [w]) :
    AllSteps Timer.step (InReach options.wheelSize) (initial options) es :=
  allSteps_of_forall (fun _ _ => Or.inl (by simp [hsizes])) _ es

end Timer

end Ados.TimeWheel
