import Ados.TimeWheel.Clock
import Ados.TimeWheel.NearHorizon

/-!
# A task that files itself

The executor has no periodic timers: a task that is to run again calls `ExecuteAt(Now() + p)` in its
own body. While the body runs the counter stands at its tick and the first wheel is past it, so the
call files the task `p / dt` ticks after the tick that runs it; if `p` is shorter than `dt`, in the
slot just left.

## Main definitions

* `SelfFiling`, `SelfFiling.step`: a loop with such a task, against everything else that happens
* `period`: the ticks between two runs of the task
* `SelfFiling.Periodic`: where the task is, and when it has been run

## Main results

* `SelfFiling.periodic_exact`: filed less than a turn ahead, and while no logging call throws, the
  task runs at every tick `first + i * period` and at no other, and wakes up without drift
-/

namespace Ados.TimeWheel

open Transition

/-- The number of the task whose body the timer thread is in. -/
def TimerLoop.bodyId (s : TimerLoop) : Option ℕ :=
  match s.pc with
  | .body _ => s.ran.getLast?.map fun r => r.entry.task.id
  | _ => none

/-- A loop with a task that files itself: the numbers of the calls that have filed it, the last one
apart. -/
structure SelfFiling where
  loop : TimerLoop
  earlier : List ℕ := []
  last : ℕ

inductive SelfAct where
  /-- the body of the task calls `ExecuteAt(Now() + p)` -/
  | again
  /-- a step of the loop, of another task, or of a caller -/
  | other (a : Act)
  deriving DecidableEq, Repr

namespace SelfFiling

open TimerLoop

/-- The numbers of the calls that have filed the task. -/
def ids (m : SelfFiling) : List ℕ := m.earlier ++ [m.last]

/-- The runs of the task. -/
def runs (m : SelfFiling) : List Ran := m.loop.ran.filter fun r => r.entry.task.id ∈ m.ids

/-- The body of the task files it once, before it returns or throws. -/
def step (p : ℕ) (m : SelfFiling) : SelfAct → Option SelfFiling
  | .again =>
    if m.loop.bodyId = some m.last then
      m.loop.exec.now.bind fun now =>
        if IsTimePoint (now + p) then
          (TimerLoop.step m.loop (.executeAt (now + p))).map fun s =>
            { loop := s, earlier := m.ids, last := m.loop.calls }
        else none
    else none
  | .other a =>
    if m.loop.bodyId = some m.last ∧ (a = .taskReturns ∨ a = .taskThrows) then none
    else (TimerLoop.step m.loop a).map fun s => { m with loop := s }

/-- What one step can do. -/
inductive Step (p : ℕ) (m : SelfFiling) : SelfAct → SelfFiling → Prop
  | again {now s} : m.loop.bodyId = some m.last → m.loop.exec.now = some now →
      IsTimePoint (now + p) → TimerLoop.step m.loop (.executeAt (now + p)) = some s →
      Step p m .again { loop := s, earlier := m.ids, last := m.loop.calls }
  | other {a s} : ¬ (m.loop.bodyId = some m.last ∧ (a = .taskReturns ∨ a = .taskThrows)) →
      TimerLoop.step m.loop a = some s → Step p m (.other a) { m with loop := s }

theorem step_cases {p : ℕ} {m m' : SelfFiling} {a : SelfAct} (h : step p m a = some m') :
    Step p m a m' := by
  cases a with
  | again =>
    simp only [step] at h
    split at h
    · next hbody =>
      obtain ⟨now, hnow, h⟩ := Option.bind_eq_some_iff.mp h
      split at h
      · next hpoint =>
        obtain ⟨s, hs, rfl⟩ := Option.map_eq_some_iff.mp h
        exact .again hbody hnow hpoint hs
      · exact absurd h (by simp)
    · exact absurd h (by simp)
  | other a =>
    simp only [step] at h
    split at h
    · exact absurd h (by simp)
    · next hbody =>
      obtain ⟨s, hs, rfl⟩ := Option.map_eq_some_iff.mp h
      exact .other hbody hs

end SelfFiling

/-! ## The bodies of tasks -/

namespace TimerLoop

variable {s s' : TimerLoop} {a : Act}

theorem bodyId_eq_some {id : ℕ} (h : s.bodyId = some id) :
    s.pc.InWindow ∧ ∃ r ∈ s.ran, r.entry.task.id = id := by
  unfold bodyId at h
  split at h
  · next rest hpc =>
    obtain ⟨r, hr, hid⟩ := Option.map_eq_some_iff.mp h
    exact ⟨by simp [hpc, Pc.InWindow], r, List.mem_of_getLast? hr, hid⟩
  · exact absurd h (by simp)

theorem bodyId_of_ne (h : ∀ rest, s.pc ≠ .body rest) : s.bodyId = none := by
  unfold bodyId
  split
  · next hpc => exact absurd hpc (h _)
  · rfl

/-- What a step does to the tasks run and to the body that runs. -/
inductive BodyStep (s : TimerLoop) (a : Act) (s' : TimerLoop) : Prop
  /-- a task begins -/
  | begins (e : Entry) : e ∈ s.pc.rest → s.bodyId = none →
      s'.ran = s.ran ++ [⟨s.exec.currentTickCount, s.lastLoopTimePoint, e⟩] →
      s'.bodyId = some e.task.id → s'.exec.currentTickCount = s.exec.currentTickCount →
      BodyStep s a s'
  /-- no body runs after the step -/
  | idle : s'.ran = s.ran → s'.bodyId = none →
      (s.bodyId = none ∨ a = .taskReturns ∨ a = .taskThrows) → BodyStep s a s'
  /-- the body goes on -/
  | stays : s'.ran = s.ran → s'.bodyId = s.bodyId →
      s'.exec.currentTickCount = s.exec.currentTickCount → BodyStep s a s'

theorem Step.body (hs : Step s a s') : BodyStep s a s' := by
  cases hs with
  | @begins e rest hpc =>
    refine .begins e ?_ (bodyId_of_ne (by simp [hpc])) rfl ?_ rfl
    · simp [hpc, Pc.rest]
    · simp [bodyId]
  | returns hpc => exact .idle rfl (bodyId_of_ne (by simp)) (.inr (.inl rfl))
  | throws hpc => exact .idle rfl (bodyId_of_ne (by simp)) (.inr (.inr rfl))
  | exit hpc _ | enter hpc _ | slice hpc _ | again hpc _ _ | wake hpc _ | empty hpc _
  | taken hpc _ _ | count hpc | clock hpc _ | logged hpc | outerLogged hpc | logThrows hpc
  | start _ hpc =>
    exact .idle rfl (bodyId_of_ne (by simp)) (.inl (bodyId_of_ne (by simp [hpc])))
  | join _ hpc =>
    refine .idle rfl (bodyId_of_ne (by simp)) (.inl (bodyId_of_ne ?_))
    rcases hpc with hpc | hpc <;> simp [hpc]
  | executeAt hexec =>
    refine .stays rfl rfl ?_
    rw [executeAt_rest hexec]
  | initializeAgain | startRejected _ | shutdownAgain _ | shutdown _ _ =>
    exact .stays rfl rfl rfl

theorem Accounted.id_lt_of_ran (h : Accounted s) {r : Ran} (hr : r ∈ s.ran) :
    r.entry.task.id < s.calls :=
  h.id_lt _ (Multiset.mem_add.mpr (.inl (Multiset.mem_add.mpr (.inl (List.mem_map_of_mem hr)))))

/-- A task run and a task still to be run in the tick are of different calls. -/
theorem Accounted.id_ne (h : Accounted s) {r : Ran} {e : Entry} (hr : r ∈ s.ran)
    (he : e ∈ s.pc.rest) : r.entry.task.id ≠ e.task.id := by
  have hnodup := h.nodup
  rw [known, Multiset.map_add, Multiset.map_add, Multiset.nodup_add, Multiset.nodup_add] at hnodup
  have hrun := Multiset.mem_map_of_mem (fun x : Entry => x.task.id)
    (Multiset.mem_coe.mpr (List.mem_map_of_mem (f := Ran.entry) hr))
  have htaken := Multiset.mem_map_of_mem (fun x : Entry => x.task.id) (Multiset.mem_coe.mpr he)
  intro heq
  exact Multiset.disjoint_left.mp hnodup.1.2.2 hrun (heq ▸ htaken)

end TimerLoop

/-! ## The runs of the task -/

/-- The ticks between two runs of a task that files itself `p` ahead. -/
def period (w₀ dt p : ℕ) : ℕ := if p < dt then w₀ else p / dt

namespace SelfFiling

open TimerLoop

/-- The task filed last is tracked to the tick that is due, and has been run only if its body runs;
the tasks filed before it have been run at the ticks before. -/
structure Periodic (w₀ first period : ℕ) (m : SelfFiling) : Prop where
  filed : ∃ x : Entry, x.task.id = m.last ∧
    Tracked w₀ (first + m.earlier.length * period) x m.loop ∧
      ∀ r ∈ m.loop.ran, r.entry = x → m.loop.bodyId = some m.last
  earlier : ∀ id ∈ m.earlier, ∃ r ∈ m.loop.ran, r.entry.task.id = id
  body : m.loop.bodyId = some m.last →
    m.loop.exec.currentTickCount = first + m.earlier.length * period
  runs : m.runs.map Ran.tick =
    (List.range (m.earlier.length + if m.loop.bodyId = some m.last then 1 else 0)).map
      fun i => first + i * period

variable {options : Options} {w₀ first d p : ℕ} {m m' : SelfFiling} {s : TimerLoop} {a : Act}

theorem runs_of_ran (hran : s.ran = m.loop.ran) : runs { m with loop := s } = m.runs := by
  rw [runs, hran]
  rfl

theorem runs_append {r : Ran} (hran : s.ran = m.loop.ran ++ [r]) :
    runs { m with loop := s } = m.runs ++ if r.entry.task.id ∈ m.ids then [r] else [] := by
  rw [runs, hran, List.filter_append, List.filter_singleton, Bool.cond_decide]
  rfl

/-- A call that is yet to be made has no runs. -/
theorem runs_again (hran : s.ran = m.loop.ran)
    (hlt : ∀ r ∈ m.loop.ran, r.entry.task.id < m.loop.calls) :
    runs { loop := s, earlier := m.ids, last := m.loop.calls } = m.runs := by
  rw [runs, hran]
  refine List.filter_congr fun r hr => ?_
  have hne := (hlt r hr).ne
  simp [ids, hne]

/-- A task begins: the one filed last at its tick, or another one. -/
theorem Periodic.begun (h : Periodic w₀ first d m) (hacc : Accounted m.loop)
    (htracked : ∀ x, Tracked w₀ (first + m.earlier.length * d) x m.loop →
      Tracked w₀ (first + m.earlier.length * d) x s)
    {e : Entry} (he : e ∈ m.loop.pc.rest) (hnone : m.loop.bodyId = none)
    (hran : s.ran =
      m.loop.ran ++ [⟨m.loop.exec.currentTickCount, m.loop.lastLoopTimePoint, e⟩])
    (hbody : s.bodyId = some e.task.id)
    (hcount : s.exec.currentTickCount = m.loop.exec.currentTickCount) :
    Periodic w₀ first d { m with loop := s } := by
  obtain ⟨x, hx, ht, hbefore⟩ := h.filed
  have hruns := h.runs
  simp only [hnone, reduceCtorEq, if_false, Nat.add_zero] at hruns
  have hearlier : ∀ id ∈ m.earlier, ∃ r ∈ s.ran, r.entry.task.id = id := by
    intro id hid
    obtain ⟨r, hr, hrid⟩ := h.earlier id hid
    exact ⟨r, hran ▸ List.mem_append_left _ hr, hrid⟩
  by_cases hlast : e.task.id = m.last
  · have hmem : e ∈ m.loop.known := Multiset.mem_add.mpr (.inl (Multiset.mem_add.mpr (.inr he)))
    obtain rfl := ht.only e hmem (hlast.trans hx.symm)
    have htick := ht.rest he
    refine ⟨⟨e, hx, htracked e ht, fun _ _ _ => hbody.trans (congrArg some hlast)⟩, hearlier,
      fun _ => hcount.trans htick, ?_⟩
    rw [runs_append hran, if_pos (by simp [ids, hlast])]
    simp only [hbody, hlast, if_true, List.map_append, hruns, List.range_succ, List.map_cons,
      List.map_nil, htick]
  · have hother : e.task.id ∉ m.ids := by
      intro hmem
      rcases List.mem_append.mp hmem with hmem | hmem
      · obtain ⟨r, hr, hrid⟩ := h.earlier _ hmem
        exact hacc.id_ne hr he hrid
      · exact hlast (List.mem_singleton.mp hmem)
    have hne : s.bodyId ≠ some m.last := by simpa [hbody] using hlast
    refine ⟨⟨x, hx, htracked x ht, fun r hr hrx => ?_⟩, hearlier, fun hb => absurd hb hne, ?_⟩
    · rw [hran] at hr
      rcases List.mem_append.mp hr with hr | hr
      · exact absurd (hbefore r hr hrx) (by simp [hnone])
      · obtain rfl := List.mem_singleton.mp hr
        obtain rfl : e = x := hrx
        exact absurd hx hlast
    · rw [runs_append hran, if_neg hother, List.append_nil, hruns]
      simp only [hne, if_false, Nat.add_zero]

/-- A step of the rest of the loop. The body of the task does not end without having filed it again.
-/
theorem Periodic.other (hv : ValidSizes options.wheelSize)
    (hw : options.wheelSize[0]? = some w₀) (hs : InService options m.loop)
    (h : Periodic w₀ first d m) (hstep : TimerLoop.Step m.loop a s) (hlog : a ≠ .logThrows)
    (hends : ¬ (m.loop.bodyId = some m.last ∧ (a = .taskReturns ∨ a = .taskThrows))) :
    Periodic w₀ first d { m with loop := s } := by
  have htracked : ∀ x, Tracked w₀ (first + m.earlier.length * d) x m.loop →
      Tracked w₀ (first + m.earlier.length * d) x s := fun x hx =>
    (hstep.invariant (P := fun t => Sound options t ∧ Tracked w₀ _ x t)
      (fun _ _ ht he => ⟨ht.1.effect hv he, ht.2.effect hv hw ht.1 he⟩) ⟨hs.sound, hx⟩ hlog).2
  obtain ⟨x, hx, ht, hbefore⟩ := h.filed
  cases hstep.body with
  | begins e he hnone hran hbody hcount =>
    exact h.begun hs.accounted htracked he hnone hran hbody hcount
  | idle hran hnone hor =>
    have hne : m.loop.bodyId ≠ some m.last := by
      intro hb
      rcases hor with hor | hor
      · simp [hor] at hb
      · exact hends ⟨hb, hor⟩
    have hruns := h.runs
    simp only [hne, if_false] at hruns
    refine ⟨⟨x, hx, htracked x ht, fun r hr hrx => ?_⟩, ?_, fun hb => ?_, ?_⟩
    · exact absurd (hbefore r (hran ▸ hr) hrx) hne
    · rw [hran]; exact h.earlier
    · simp [hnone] at hb
    · simpa only [runs_of_ran hran, hnone, reduceCtorEq, if_false] using hruns
  | stays hran hsame hcount =>
    refine ⟨⟨x, hx, htracked x ht, ?_⟩, ?_, ?_, ?_⟩
    · rw [hran, hsame]; exact hbefore
    · rw [hran]; exact h.earlier
    · rw [hsame, hcount]; exact h.body
    · simpa only [runs_of_ran hran, hsame] using h.runs

/-- In the body of a task in service, `Now() + p` lies `p / dt` ticks ahead, and no product wraps
around. -/
theorem deadline_again (hdt : 1 ≤ options.dt) (hs : InService options s)
    (hwindow : s.pc.InWindow) {now : ℤ} (hnow : s.exec.now = some now)
    (hpoint : IsTimePoint (now + p)) :
    s.exec.virtualTp (now + p) / s.exec.dtCount =
      s.exec.currentTickCount + p / options.dtCount := by
  rcases hs.clock with hclock | ⟨start, hclock⟩
  · rcases hclock.pc with hpc | hpc <;> simp [hpc, Pc.InWindow] at hwindow
  · have hread := hs.now_eq hclock
    have hcast : (s.exec.dtCount : ℤ) = options.dt := by
      rw [hs.sound.dtCount_eq, Options.dtCount_cast (by omega)]
    rw [hnow, Option.some_inj, ← hcast] at hread
    rw [← hs.sound.dtCount_eq]
    refine TimeWheelExecutor.virtualTp_now_div hnow ?_ (by omega)
    have hstart := hclock.point
    rw [← Nat.cast_mul] at hread
    unfold IsTimePoint at hpoint hstart
    omega

/-- In the window of a tick the slot of the tick itself has just been left. -/
theorem dueTick_again (hdt : 1 ≤ options.dt) (hwindow : s.pc.InWindow) :
    s.dueTick w₀ (s.exec.currentTickCount + p / options.dtCount) =
      s.exec.currentTickCount + period w₀ options.dtCount p := by
  have hticks : s.ticks = s.exec.currentTickCount + 1 := by simp [ticks, hwindow]
  rw [dueTick, period, hticks]
  have hpos : 0 < options.dtCount := Options.dtCount_pos_iff.mpr (by omega)
  by_cases hp : p < options.dtCount
  · rw [if_pos hp, Nat.div_eq_of_lt hp, if_neg (by omega), Nat.add_zero]
  · have hdiv := Nat.div_pos (Nat.not_lt.mp hp) hpos
    rw [if_neg hp, if_pos (by omega)]

/-- The body files the task for the tick a period later: what runs is the old filing, and the new
one has a number that no task run has. -/
theorem Periodic.again (hv : ValidSizes options.wheelSize)
    (hw : options.wheelSize[0]? = some w₀) (hdt : 1 ≤ options.dt) (hp : p / options.dtCount < w₀)
    (hs : InService options m.loop) (h : Periodic w₀ first (period w₀ options.dtCount p) m)
    (hbody : m.loop.bodyId = some m.last) {now : ℤ} (hnow : m.loop.exec.now = some now)
    (hpoint : IsTimePoint (now + p))
    (hcall : TimerLoop.step m.loop (.executeAt (now + p)) = some s) :
    Periodic w₀ first (period w₀ options.dtCount p)
      { loop := s, earlier := m.ids, last := m.loop.calls } := by
  obtain ⟨hwindow, hran⟩ := bodyId_eq_some hbody
  have hticked := tracked_of_near hv hw hs.sound hs.accounted
    (deadline_again hdt hs hwindow hnow hpoint) (Nat.le_add_right _ _) (by omega) hcall
  rw [dueTick_again hdt hwindow] at hticked
  have hlen : m.ids.length = m.earlier.length + 1 := by simp [ids]
  have hdue : first + m.ids.length * period w₀ options.dtCount p =
      m.loop.exec.currentTickCount + period w₀ options.dtCount p := by
    rw [h.body hbody, hlen, Nat.add_mul, Nat.one_mul, Nat.add_assoc]
  obtain ⟨hsran, hsbody⟩ : s.ran = m.loop.ran ∧ s.bodyId = m.loop.bodyId := by
    obtain ⟨⟨entry, exec⟩, -, rfl⟩ := Timer.toOption_eq_some.mp hcall
    exact ⟨rfl, rfl⟩
  obtain ⟨x, hx, ht, -⟩ := h.filed
  have hlt := fun r hr => hs.accounted.id_lt_of_ran (r := r) hr
  have hnext : s.bodyId ≠ some m.loop.calls := by
    rw [hsbody, hbody, Ne, Option.some_inj, ← hx]
    exact ht.id_lt.ne
  refine ⟨⟨_, rfl, hdue ▸ hticked, fun r hr hrx => ?_⟩, ?_, fun hb => absurd hb hnext, ?_⟩
  · exact absurd (hlt r (hsran ▸ hr)) (by simp [hrx])
  · intro id hid
    rw [hsran]
    rcases List.mem_append.mp hid with hid | hid
    · exact h.earlier id hid
    · exact (List.mem_singleton.mp hid) ▸ hran
  · have hruns := h.runs
    simp only [hbody, if_true, ← hlen] at hruns
    simp only [runs_again hsran hlt, hruns, hnext, if_false, Nat.add_zero]

/-- A step keeps the loop in service, and the task periodic. -/
theorem Step.periodic (hv : ValidSizes options.wheelSize)
    (hw : options.wheelSize[0]? = some w₀) (hdt : 1 ≤ options.dt) (hp : p / options.dtCount < w₀)
    (hs : InService options m.loop) (h : Periodic w₀ first (period w₀ options.dtCount p) m)
    {b : SelfAct} (hstep : Step p m b m') (hlog : b ≠ .other .logThrows)
    (hshut : b ≠ .other .shutdown) :
    InService options m'.loop ∧ Periodic w₀ first (period w₀ options.dtCount p) m' := by
  cases hstep with
  | again hbody hnow hpoint hcall =>
    exact ⟨hs.step hv (TimerLoop.step_cases hcall) (by simp) (by simp),
      h.again hv hw hdt hp hs hbody hnow hpoint hcall⟩
  | other hends hstep =>
    have hlog' : ∀ a, SelfAct.other a ≠ .other .logThrows → a ≠ .logThrows :=
      fun a hne heq => hne (congrArg _ heq)
    have hshut' : ∀ a, SelfAct.other a ≠ .other .shutdown → a ≠ .shutdown :=
      fun a hne heq => hne (congrArg _ heq)
    exact ⟨hs.step hv (TimerLoop.step_cases hstep) (hlog' _ hlog) (hshut' _ hshut),
      h.other hv hw hs (TimerLoop.step_cases hstep) (hlog' _ hlog) hends⟩

variable {es : List Act} {fs : List SelfAct} {u : SelfFiling} {s₁ : TimerLoop} {tp : ℤ} {n : ℕ}

theorem periodic_run (hv : ValidSizes options.wheelSize)
    (hw : options.wheelSize[0]? = some w₀) (hdt : 1 ≤ options.dt) (hp : p / options.dtCount < w₀)
    (hs : InService options m.loop) (h : Periodic w₀ first (period w₀ options.dtCount p) m)
    (hr : run (step p) m fs = some u) (hlog : .other .logThrows ∉ fs)
    (hshut : .other .shutdown ∉ fs) :
    InService options u.loop ∧ Periodic w₀ first (period w₀ options.dtCount p) u := by
  refine run_invariant_of_mem (P := fun m => InService options m.loop ∧
    Periodic w₀ first (period w₀ options.dtCount p) m) ?_ ⟨hs, h⟩ hr
  intro m b m' h hb hm
  exact (step_cases hm).periodic hv hw hdt hp h.1 h.2 (fun heq => hlog (heq ▸ hb))
    fun heq => hshut (heq ▸ hb)

/-- The first call files the task, which has no runs yet. -/
theorem periodic_first (hv : ValidSizes options.wheelSize)
    (hw : options.wheelSize[0]? = some w₀) (hs : InService options s)
    (hn : s.exec.virtualTp tp / s.exec.dtCount = n) (hle : s.exec.currentTickCount ≤ n)
    (hlt : n < s.exec.currentTickCount + w₀) (hcall : TimerLoop.step s (.executeAt tp) = some s₁) :
    Periodic w₀ (s.dueTick w₀ n) d { loop := s₁, last := s.calls } := by
  have htracked := tracked_of_near hv hw hs.sound hs.accounted hn hle hlt hcall
  obtain ⟨hsran, hsbody⟩ : s₁.ran = s.ran ∧ s₁.bodyId = s.bodyId := by
    obtain ⟨⟨entry, exec⟩, -, rfl⟩ := Timer.toOption_eq_some.mp hcall
    exact ⟨rfl, rfl⟩
  have hfresh : ∀ r ∈ s₁.ran, r.entry.task.id < s.calls := fun r hr =>
    hs.accounted.id_lt_of_ran (hsran ▸ hr)
  have hnone : s₁.bodyId ≠ some s.calls := by
    intro hb
    obtain ⟨-, r, hr, hid⟩ := bodyId_eq_some hb
    exact (hfresh r hr).ne hid
  refine ⟨⟨_, rfl, by simpa using htracked, fun r hr hrx => ?_⟩, by simp,
    fun hb => absurd hb hnone, ?_⟩
  · exact absurd (hfresh r hr) (by simp [hrx])
  · have hruns : runs { loop := s₁, last := s.calls } = [] := by
      refine List.filter_eq_nil_iff.mpr fun r hr => ?_
      simpa [ids] using (hfresh r hr).ne
    simp [hruns, hnone]

/-- A tick that is counted has run the task, if it was due. -/
theorem Periodic.count_le (hacc : Accounted m.loop) (h : Periodic w₀ first d m) :
    m.loop.exec.currentTickCount ≤ first + m.earlier.length * d := by
  obtain ⟨x, hx, ht, hbefore⟩ := h.filed
  by_contra hlt
  obtain ⟨r, -, hr, hrx, -⟩ := ht.ran_of_lt hacc (Nat.not_le.mp hlt)
  exact hlt (h.body (hbefore r hr hrx)).le

/-- **A task that files itself is periodic.** A task is filed less than a turn of the first wheel
ahead, and files itself again with `ExecuteAt(Now() + p)` each time its body runs, `p` being less
than a turn. In every run without `Shutdown` in which no logging call throws, whatever other tasks
and callers do, it runs exactly at the ticks `first + i * period`, once at each, all of them that
are past, in their order; each wakes up at the first reading of the clock and `dt` times the ticks
up to it. The period is `p / dt` ticks, or a whole turn of the wheel if `p` is shorter than `dt`. -/
theorem periodic_exact (hv : ValidSizes options.wheelSize)
    (hw : options.wheelSize[0]? = some w₀) (hdt : 1 ≤ options.dt) (hp : p / options.dtCount < w₀)
    (hr : run TimerLoop.step (initial options) es = some s)
    (hn : s.exec.virtualTp tp / s.exec.dtCount = n) (hle : s.exec.currentTickCount ≤ n)
    (hlt : n < s.exec.currentTickCount + w₀) (hcall : TimerLoop.step s (.executeAt tp) = some s₁)
    (hcont : run (step p) { loop := s₁, last := s.calls } fs = some u)
    (hlog : .logThrows ∉ es ∧ .other .logThrows ∉ fs)
    (hshut : .shutdown ∉ es ∧ .other .shutdown ∉ fs) :
    ∃ k, u.runs.map Ran.tick =
        (List.range k).map (fun i => s.dueTick w₀ n + i * period w₀ options.dtCount p) ∧
      (∀ i, s.dueTick w₀ n + i * period w₀ options.dtCount p < u.loop.exec.currentTickCount →
        i < k) ∧
      (u.runs ≠ [] → ∃ now, IsTimePoint now ∧ u.loop.exec.startTimePoint = getTimestampNs now ∧
        ∀ r ∈ u.runs, r.wakeUp = now + (r.tick + 1) * options.dt) := by
  have hs := inService_run hv hr hlog.1 hshut.1
  have hs₁ := hs.step hv (TimerLoop.step_cases hcall) (by simp) (by simp)
  obtain ⟨hu, h⟩ := periodic_run hv hw hdt hp hs₁ (periodic_first hv hw hs hn hle hlt hcall) hcont
    hlog.2 hshut.2
  refine ⟨_, h.runs, fun i hi => ?_, fun hne => ?_⟩
  · have hmul := lt_of_lt_of_le hi (h.count_le hu.accounted)
    have hlt := Nat.lt_of_mul_lt_mul_right (Nat.lt_of_add_lt_add_left hmul)
    omega
  · rcases hu.clock with hclock | ⟨now, hclock⟩
    · exact absurd (by simp [runs, hclock.ran]) hne
    · exact ⟨now, hclock.point, hclock.start, fun r hr =>
        hclock.ran r (List.mem_filter.mp hr).1⟩

/-- A task on a wheel of four slots, which files itself one tick ahead. -/
theorem periodic_exact_every_tick :
    ∃ s s₁ u, run TimerLoop.step (initial { dt := 1, wheelSize := [4] }) [.start, .clock 7] =
        some s ∧
      TimerLoop.step s (.executeAt 7) = some s₁ ∧
      run (step 1) { loop := s₁, last := s.calls } (List.replicate 5 (.other .loop) ++
        [.again, .other .taskReturns] ++ List.replicate 6 (.other .loop)) = some u ∧
      ∃ k, u.runs.map Ran.tick = (List.range k).map (fun i => s.dueTick 4 0 + i * period 4 1 1) ∧
        ∀ i, s.dueTick 4 0 + i * period 4 1 1 < u.loop.exec.currentTickCount → i < k := by
  have h : (run TimerLoop.step (initial { dt := 1, wheelSize := [4] }) [.start, .clock 7]).bind
      (fun s => (TimerLoop.step s (.executeAt 7)).bind fun s₁ =>
        (run (step 1) { loop := s₁, last := s.calls } (List.replicate 5 (.other .loop) ++
          [.again, .other .taskReturns] ++ List.replicate 6 (.other .loop))).map
            fun u => (s.exec.virtualTp 7, s.exec.currentTickCount, u.runs.map Ran.tick)) =
        some (0, 0, [0, 1]) := by
    decide +kernel
  obtain ⟨s, hr, h⟩ := Option.bind_eq_some_iff.mp h
  obtain ⟨s₁, hcall, h⟩ := Option.bind_eq_some_iff.mp h
  obtain ⟨u, hcont, h⟩ := Option.map_eq_some_iff.mp h
  simp only [Prod.mk.injEq] at h
  obtain ⟨hvirtual, hc, -⟩ := h
  obtain ⟨k, hruns, hall, -⟩ := periodic_exact (n := 0) (.single (by decide))
    (show [4][0]? = some 4 from rfl) (by decide) (show 1 / 1 < 4 by decide) hr
    (by rw [hvirtual, Nat.zero_div])
    (by rw [hc]) (by rw [hc]; decide) hcall hcont (by decide) (by decide)
  exact ⟨s, s₁, u, hr, hcall, hcont, k, hruns, hall⟩

end SelfFiling

end Ados.TimeWheel
