import Ados.TimeWheel.Deadlines

/-!
# A hierarchy of one wheel

With one wheel of `w` slots no tick loses a task, and every task filed in time is returned once: not
before its call, not after its tick, at its tick or one turn earlier. The keys of the map stay at or
ahead of its cursor as long as tasks are filed in time. A negative `dt` is cast to `2 ^ 63` or more,
so that from the tick `2` on a call that files its task does so for the tick `0` or `1`; the
difference to the current tick wraps around, and on a wheel of one slot the wrapped sum that is the
key is the tick itself, behind the cursor.

## Main definitions

* `Timer.FilesInTime`: a call of `ExecuteAt` that files its task does so in time
* `Timer.Delivers`: no key is behind the cursor, nothing is lost, and every task filed in time is
  returned once, when it should be

## Main results

* `Timer.delivers_iff`: every state of a run delivers exactly if the wheel has two slots or more, or
  every call files in time
-/

namespace Ados.TimeWheel

open Transition

/-- The place of a task that is not filed in time, on one wheel: it is no key behind the cursor
exactly if the wheel has two slots or more. -/
theorem locate_stale {w n c : ℕ} {place : Place} (hw : 0 < w) (hlt : n < c) (hc : c < 2 ^ 64)
    (h : locate 0 [w] (wrap64 (n - c)) c = .ok place) :
    (∀ key, place = .map key → 1 + c / w ≤ key) ↔ w ≠ 1 := by
  obtain ⟨d, hd, hsum⟩ : ∃ d, wrap64 (n - c) = d ∧ d + c = 2 ^ 64 + n := by
    refine ⟨_, rfl, ?_⟩
    unfold wrap64
    omega
  rw [hd, locate] at h
  split at h
  · next hslot =>
    cases h
    exact iff_of_true (fun key hkey => absurd hkey (by simp)) (by omega)
  · next hmap =>
    rw [if_neg hw.ne', locate] at h
    cases h
    simp only [Place.map.injEq, forall_eq']
    have hquot : 0 < d / w := Nat.div_pos (Nat.not_lt.mp hmap) hw
    by_cases hone : w = 1
    · subst hone
      simp only [Nat.div_one]
      omega
    · have hadd : d / w + c / w ≤ (d + c) / w := Nat.div_add_div_le_add_div
      have hhalf : (d + c) / w ≤ (d + c) / 2 := Nat.div_le_div_left (by omega) (by decide)
      rw [Nat.mod_eq_of_lt (by omega)]
      omega

namespace Timer

/-- A call of `ExecuteAt` that files its task does so for the current tick or a later one. -/
def FilesInTime (t : Timer) (ev : Event) : Prop :=
  ∀ tp, ev = .executeAt tp →
    t.exec.currentTickCount * t.exec.dtCount % 2 ^ 64 ≤ t.exec.virtualTp tp →
    t.exec.currentTickCount ≤ t.exec.virtualTp tp / t.exec.dtCount

/-- No key of the map is behind its cursor. -/
def KeysAhead (t : Timer) : Prop :=
  ∀ k ∈ t.exec.timingTaskMap.lists, t.exec.timingTaskMap.pos ≤ k

/-- No key is behind the cursor, the tasks filed are those returned and those held, and a task filed
in time whose tick is past has been returned exactly once: not before its call, not after its tick,
and at a tick congruent to its own, which is that tick or one turn earlier. -/
structure Delivers (w : ℕ) (t : Timer) : Prop where
  keys : t.KeysAhead
  conserved : t.Conserved
  once : ∀ e ∈ t.filed, e.InTime → e.tickCount < t.exec.currentTickCount →
    ∃ f, t.returned.filter (fun r => r.2.task.id = e.task.id) = [(f, e)] ∧
      e.task.madeAt ≤ f ∧ f ≤ e.tickCount ∧ f ≡ e.tickCount [MOD w] ∧
      (e.tickCount - f = 0 ∨ e.tickCount - f = w)

variable {options : Options} {w : ℕ} {t t' : Timer} {ev : Event} {es : List Event}

/-- With a `dt` that is not negative every call files in time. -/
theorem filesInTime_of_nonneg (hdt : 0 ≤ options.dt) (hs : Sound options t)
    (hstep : Step t ev t') : FilesInTime t ev := by
  rintro tp rfl hle
  cases hstep with
  | executeAt he =>
    rcases executeAt_cases (hs.noWrap hdt) he with ⟨hlt, -, -⟩ | ⟨-, -, -, place, hf⟩
    · rw [Nat.mod_eq_of_lt (hs.noWrap hdt)] at hle
      omega
    · exact hf.le

/-- A call that files its task keeps the keys ahead of the cursor exactly if it files in time or the
wheel has two slots or more. -/
theorem keysAhead_of_appends (hsizes : options.wheelSize = [w]) (hw : 0 < w) (hs : Sound options t)
    (h : t.KeysAhead) {tp : ℤ} {place : Place} {exec : TimeWheelExecutor Call} {filed : List Entry}
    (hle : t.exec.currentTickCount * t.exec.dtCount % 2 ^ 64 ≤ t.exec.virtualTp tp)
    (hpos : 0 < t.exec.dtCount)
    (hf : Appends t.exec (t.exec.virtualTp tp / t.exec.dtCount)
      ⟨t.calls, t.exec.currentTickCount⟩ place exec) :
    KeysAhead { t with exec := exec, calls := t.calls + 1, filed := filed } ↔
      (w = 1 → FilesInTime t (.executeAt tp)) := by
  have hcursor : exec.timingTaskMap.pos = t.exec.timingTaskMap.pos := (put_digits hf.filed).2
  have hplace : KeysAhead { t with exec := exec, calls := t.calls + 1, filed := filed } ↔
      ∀ key, place = .map key → t.exec.timingTaskMap.pos ≤ key := by
    simp only [KeysAhead, put_mem_map hf.filed, hcursor]
    exact ⟨fun hall key hkey => hall key (Or.inr hkey),
      fun hnew k hk => hk.elim (h k) (hnew k)⟩
  rw [hplace]
  by_cases htime : t.exec.currentTickCount ≤ t.exec.virtualTp tp / t.exec.dtCount
  · refine iff_of_true ?_ fun _ tp' htp _ => by cases htp; exact htime
    rintro key rfl
    exact hs.pos_le_key hsizes hw (hf.files htime)
  · have hdt : options.dt ≠ 0 := Options.dtCount_pos_iff.mp (hs.dtCount_eq ▸ hpos)
    have hlocated := hf.located
    rw [hs.options_eq, hsizes] at hlocated
    rw [hs.pos_single hsizes hw,
      locate_stale hw (Nat.not_le.mp htime) (hs.count_lt hdt) hlocated]
    exact ⟨fun hne hone => absurd hone hne, fun hkeep hone => htime (hkeep hone tp rfl hle)⟩

/-- One step keeps the keys ahead of the cursor exactly if it files in time, or the wheel has two
slots or more. -/
theorem keysAhead_step (hsizes : options.wheelSize = [w]) (hw : 0 < w) (hs : Sound options t)
    (h : t.KeysAhead) (hstep : Step t ev t') :
    t'.KeysAhead ↔ (w = 1 → FilesInTime t ev) := by
  cases hstep with
  | start => exact iff_of_true h fun _ _ htp => absurd htp (by simp)
  | @executeAt tp entry exec he =>
    rcases executeAt_appends he with ⟨hlate, -, rfl⟩ | ⟨hle, hpos, -, place, hf⟩
    · refine iff_of_true h fun _ tp' htp hle => ?_
      cases htp
      omega
    · exact keysAhead_of_appends hsizes hw hs h hle hpos hf
  | tick _ _ ht =>
    refine iff_of_true ?_ fun _ _ htp => absurd htp (by simp)
    obtain ⟨hticks, -⟩ := ticks_of_takeTick ht
    intro k hk
    obtain ⟨hk, hne⟩ := hticks.mem_map.mp hk
    have hle := h k hk
    have hcursor := hticks.pos
    simp only [TimeWheelExecutor.countTick, hcursor]
    split
    · next hcarry =>
      have : k ≠ t.exec.timingTaskMap.pos := fun heq => hne ⟨hcarry, heq⟩
      omega
    · exact hle

/-- With one wheel nothing is lost. -/
theorem conserved_of_single (hsizes : options.wheelSize = [w]) (hs : Sound options t)
    (h : t.Conserved) (hstep : Step t ev t') : t'.Conserved := by
  refine (conserved_step h hstep).mpr fun _ i v _ hv => ?_
  have hlen := hs.aligned.length
  rw [hsizes, List.length_singleton] at hlen
  have hlt := (List.getElem?_eq_some_iff.mp hv).1
  omega

/-- With one wheel, a task filed in time whose tick is past has been returned once, when it should
be. -/
theorem returned_once_of_single (hsizes : options.wheelSize = [w]) (hw : 0 < w)
    (hr : run Timer.step (initial options) es = some t) {e : Entry} (he : e ∈ t.filed)
    (htime : e.InTime) (hlt : e.tickCount < t.exec.currentTickCount) :
    ∃ f, t.returned.filter (fun r => r.2.task.id = e.task.id) = [(f, e)] ∧
      e.task.madeAt ≤ f ∧ f ≤ e.tickCount ∧ f ≡ e.tickCount [MOD w] ∧
      (e.tickCount - f = 0 ∨ e.tickCount - f = w) := by
  obtain ⟨hfire, hturn⟩ := fireTick_le hw htime
  have hret := returned_of_single hsizes hw hr he htime (lt_of_le_of_lt hfire hlt)
  exact ⟨fireTick [w] e, (accounted_run hr).filter_returned hret, madeAt_le_fireTick hw htime,
    hfire, fireTick_mod w e, hturn⟩

theorem delivers_initial (w : ℕ) : Delivers w (initial options) :=
  ⟨fun k hk => absurd hk (AList.notMem_empty k), conserved_initial, by simp [initial]⟩

/-- One step of a run goes on delivering exactly if it files in time, or the wheel has two slots or
more. -/
theorem delivers_step (hsizes : options.wheelSize = [w]) (hw : 0 < w)
    (hr : run Timer.step (initial options) es = some t) (h : Delivers w t)
    (hstep : Timer.step t ev = some t') : Delivers w t' ↔ (w = 1 → FilesInTime t ev) := by
  have hv : ValidSizes options.wheelSize := hsizes ▸ .single hw
  have hs := Sound.run hv (.initial hv) hr
  rw [← keysAhead_step hsizes hw hs h.keys (step_cases hstep)]
  constructor
  · exact fun h => h.keys
  · intro hkeys
    refine ⟨hkeys, conserved_of_single hsizes hs h.conserved (step_cases hstep), ?_⟩
    intro e he htime hlt
    exact returned_once_of_single hsizes hw (run_snoc_eq_some.mpr ⟨t, hr, hstep⟩) he htime hlt

/-- With a `dt` that is not negative every call of a run files in time. -/
theorem filesInTime_run (hv : ValidSizes options.wheelSize) (hdt : 0 ≤ options.dt)
    (hr : run Timer.step (initial options) es = some t) :
    AllSteps Timer.step FilesInTime (initial options) es :=
  allSteps_of_run hr fun _ _ _ _ _ hs hstep _ =>
    filesInTime_of_nonneg hdt (Sound.run hv (.initial hv) hs) (step_cases hstep)

/-- **A hierarchy of one wheel delivers exactly as long as no call of a wheel of one slot files
behind the current tick.** In every state of a run no key of the map is behind its cursor, nothing
is lost or duplicated, and every task filed in time is returned once, not after its tick, if and
only if the wheel has two slots or more or every call that files its task does so for the current
tick or a later one. With a `dt` that is not negative every call does. -/
theorem delivers_iff (hsizes : options.wheelSize = [w]) (hw : 1 ≤ w)
    (hr : run Timer.step (initial options) es = some t) :
    (AllStates Timer.step (Delivers w) (initial options) es ↔
      AllSteps Timer.step (fun t ev => w = 1 → FilesInTime t ev) (initial options) es) ∧
    (0 ≤ options.dt → AllSteps Timer.step FilesInTime (initial options) es) := by
  have hreach : ∀ s ev u, (∃ fs, run Timer.step (initial options) fs = some s) →
      Timer.step s ev = some u → ∃ fs, run Timer.step (initial options) fs = some u :=
    fun s ev u ⟨fs, hfs⟩ hu => ⟨fs ++ [ev], run_snoc_eq_some.mpr ⟨s, hfs, hu⟩⟩
  constructor
  · refine allStates_iff_allSteps hreach ?_ ⟨[], rfl⟩ (delivers_initial w) hr
    rintro s ev u ⟨fs, hfs⟩ h hu
    exact delivers_step hsizes hw hfs h hu
  · exact fun hdt => filesInTime_run (hsizes ▸ .single hw) hdt hr

/-- On a wheel of two slots, a task filed for tick `2` at tick `0` goes through the map. -/
theorem delivers_iff_two_slots :
    ∃ t, run Timer.step (initial { dt := 1, wheelSize := [2] })
      [.start 0, .executeAt 2, .tick, .tick, .tick] = some t ∧ t.exec.currentTickCount = 3 ∧
      t.filed = [⟨2, 0, 0⟩] ∧ Delivers 2 t := by
  have h : ((run Timer.step (initial { dt := 1, wheelSize := [2] })
      [.start 0, .executeAt 2, .tick, .tick, .tick]).map fun t =>
        (t.exec.currentTickCount, t.filed)) = some (3, [⟨2, 0, 0⟩]) := by
    decide +kernel
  obtain ⟨t, ht, h⟩ := Option.map_eq_some_iff.mp h
  obtain ⟨hc, hfiled⟩ := Prod.mk.inj h
  have hall := (delivers_iff rfl (by decide) ht).1.mpr
    (allSteps_of_forall (fun _ _ htwo => absurd htwo (by decide)) _ _)
  exact ⟨t, ht, hc, hfiled, hall.last ht⟩

/-- With a `dt` of `-1000` ns and a wheel of one slot, the task that is filed for `Now()` at tick
`2` goes under the key `0`, when the cursor of the map is at `3`. -/
theorem key_behind_cursor :
    ∃ t, run Timer.step (initial { dt := -1000, wheelSize := [1] })
      [.start 1700000000000000000, .tick, .tick, .executeAt 1699999999999998000] = some t ∧
      t.exec.currentTickCount = 2 ∧ t.exec.timingTaskMap.pos = 3 ∧
      0 ∈ t.exec.timingTaskMap.lists ∧ ¬ Delivers 1 t := by
  have h : ((run Timer.step (initial { dt := -1000, wheelSize := [1] })
      [.start 1700000000000000000, .tick, .tick, .executeAt 1699999999999998000]).map fun t =>
        (t.exec.currentTickCount, t.exec.timingTaskMap.pos,
          decide (0 ∈ t.exec.timingTaskMap.lists))) = some (2, 3, true) := by
    decide +kernel
  obtain ⟨t, ht, hval⟩ := Option.map_eq_some_iff.mp h
  simp only [Prod.mk.injEq, decide_eq_true_eq] at hval
  obtain ⟨hc, hpos, hkey⟩ := hval
  refine ⟨t, ht, hc, hpos, hkey, fun hd => ?_⟩
  have hle := hd.keys 0 hkey
  rw [hpos] at hle
  exact absurd hle (by decide)

end Timer

end Ados.TimeWheel
