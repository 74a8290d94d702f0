import Ados.Core.Process
import Ados.Lib.Bag

/-!
# Signals and the exit of the process

`global_core_ptr` is null until the core has been constructed and again from the last line of the
try block on; when an exception leaves the try block it keeps the address of a core that is
destroyed. While it is null a handler raises its signal again and again, and on the main thread that
ends only with the pointer, which the main thread does not write any more.

## Main definitions

* `Process.Orderly`: how the handlers, the core and the point in `main` belong together
* `Process.Dangling`: a handler uses the core that has been destroyed
* `Process.Trapped`: a handler interrupts the main thread that will not return
* `Process.rank`: what is left to do until `main` returns, when no signal comes

## Main results

* `Process.orderly_run`: every run keeps the order
* `Process.value_set_once`, `Process.signal_ends`: what signals do while the core lives
* `Process.exit_code_iff`, `Process.can_exit_iff`: what the exit code says, and when there is none
* `Process.dangling_iff`: which handlers use the core that has been destroyed

All of them are about runs whose file names the main thread and the guard thread executor
differently. With one name for both, `Initialize` terminates the program, or throws where the guard
thread executor does.
-/

namespace Ados.Core

open Transition

variable {Node : Type}

/-! ## What the calls leave alone -/

namespace AdosCore

variable {c : AdosCore Node}

/-- The flags that `Initialize` and `Start` neither read nor write. -/
structure SameFlags (c t : AdosCore Node) : Prop where
  shutdownFlag : t.shutdownFlag = c.shutdownFlag
  ended : t.ended = c.ended
  destroyed : t.destroyed = c.destroyed

theorem SameFlags.trans {c t u : AdosCore Node} (h : SameFlags c t) (h' : SameFlags t u) :
    SameFlags c u :=
  ⟨h'.shutdownFlag.trans h.shutdownFlag, h'.ended.trans h.ended, h'.destroyed.trans h.destroyed⟩

theorem sameFlags_withManager (k : Call String (ExecutorManager Node)) :
    (k.map c.withManager).Post (SameFlags c) (SameFlags c) True :=
  k.post_trivial.map (fun _ _ => ⟨rfl, rfl, rfl⟩) fun _ _ => ⟨rfl, rfl, rfl⟩

theorem sameFlags_withConfigurator (k : Call String (ConfiguratorManager Node)) :
    (k.map c.withConfigurator).Post (SameFlags c) (SameFlags c) True :=
  k.post_trivial.map (fun _ _ => ⟨rfl, rfl, rfl⟩) fun _ _ => ⟨rfl, rfl, rfl⟩

/-- What both parts of a call leave alone. -/
theorem SameFlags.andThen {k : Call String (AdosCore Node)}
    {f : AdosCore Node → Call String (AdosCore Node)}
    (h : k.Post (SameFlags c) (SameFlags c) True)
    (hf : ∀ t, (f t).Post (SameFlags t) (SameFlags t) True) :
    (k.andThen f).Post (SameFlags c) (SameFlags c) True :=
  h.andThen fun t ht => (hf t).imp (fun _ => ht.trans) (fun _ => ht.trans) id

theorem initializeWith_flags {path : String} {load : Except String (RootNode Node)}
    {faults : InitializeFaults Node} :
    (c.initializeWith path load faults).Post (SameFlags c) (SameFlags c) True := by
  refine SameFlags.andThen (sameFlags_withConfigurator _) fun t => ?_
  unfold initializeExecutors
  cases t.configuratorManager.getNodeOptionsByKey "executor" with
  | ok node => exact sameFlags_withManager _
  | error what => exact ⟨rfl, rfl, rfl⟩

theorem start_flags {faults : StartFaults} :
    (c.start faults).Post (SameFlags c) (SameFlags c) True := by
  refine SameFlags.andThen (SameFlags.andThen (sameFlags_withConfigurator _) fun t =>
    sameFlags_withManager _) fun t => ?_
  unfold getFuture
  split <;> exact ⟨rfl, rfl, rfl⟩

theorem shutdownImpl_flags : c.shutdownImpl.Post (SameFlags c) (SameFlags c) True := by
  unfold shutdownImpl
  split
  · exact ⟨rfl, rfl, rfl⟩
  · refine SameFlags.andThen ?_ fun t => ⟨rfl, rfl, rfl⟩
    exact (Call.post_trivial _).map (fun _ _ => ⟨rfl, rfl, rfl⟩) fun _ _ => ⟨rfl, rfl, rfl⟩

/-- The rest of `Start`, when nothing is wrong with the registry. -/
theorem Tended.resume_returns (h : Tended c) : ∃ t, c.resume = .returns t ∧ Tended t ∧
    t.shutdownFlag = c.shutdownFlag ∧ t.ended = true ∧ t.destroyed = c.destroyed := by
  have hflags : c.resume.Post (fun t => t.shutdownFlag = c.shutdownFlag ∧ t.ended = true ∧
      t.destroyed = c.destroyed) (fun _ => True) True := by
    refine (shutdownImpl_flags.imp (fun t ht => ht) (fun _ _ => trivial) id).andThen fun t ht => ?_
    exact ⟨ht.shutdownFlag, rfl, ht.destroyed⟩
  exact ((h.resume.and hflags).imp (fun t ht => ht) (fun t ht => ht.1) And.left).exists_returns

/-- The destructor, when nothing is wrong with the registry. -/
theorem Tended.destroy_returns (h : Tended c) : ∃ t, c.destroy = .returns t ∧ Tended t ∧
    t.shutdownFlag = c.shutdownFlag ∧ t.ended = c.ended ∧ t.destroyed = true := by
  have hmembers : ∀ t, SameFlags c t → t.destroyMembers.Post (fun u =>
      u.shutdownFlag = c.shutdownFlag ∧ u.ended = c.ended ∧ u.destroyed = true)
      (fun _ => True) True := by
    intro t ht
    unfold destroyMembers
    split
    · trivial
    · exact ⟨ht.shutdownFlag, ht.ended, rfl⟩
  have hflags : c.destroy.Post (fun t => t.shutdownFlag = c.shutdownFlag ∧ t.ended = c.ended ∧
      t.destroyed = true) (fun _ => True) True := by
    have himpl := shutdownImpl_flags (c := c)
    unfold AdosCore.destroy
    cases hcall : c.shutdownImpl with
    | returns t => exact hmembers t (by rwa [hcall] at himpl)
    | throws t what => exact hmembers t (by rwa [hcall] at himpl)
    | terminates => trivial
  exact ((h.destroy.and hflags).imp (fun t ht => ht) (fun t ht => ht.1) And.left).exists_returns

end AdosCore

/-! ## Where `main` is -/

namespace MainPc

/-- `global_core_ptr` points to the core. -/
def published : MainPc → Bool
  | .initializing | .start | .wait | .shutdown | .setValue | .retract | .unwind | .report => true
  | _ => false

/-- The core has not been published. -/
def unbuilt : MainPc → Bool
  | .parse | .construct | .publish | .usage => true
  | _ => false

/-- `Start` has returned. -/
def ended : MainPc → Bool
  | .shutdown | .setValue | .retract | .leave => true
  | .exit code => code = 0
  | _ => false

/-- The core has been destroyed. -/
def destroyed : MainPc → Bool
  | .report | .exit _ => true
  | _ => false

/-- There is no thread but the main thread. -/
def alone : MainPc → Bool
  | .start | .wait | .unwind | .abort => false
  | _ => true

/-- The process is over. -/
def exited : MainPc → Bool
  | .exit _ | .usage => true
  | _ => false

/-- The steps left to `main`, at most. -/
def rank : MainPc → ℕ
  | .parse => 10
  | .construct => 9
  | .publish => 8
  | .initializing => 7
  | .start => 6
  | .wait => 5
  | .shutdown => 4
  | .setValue => 3
  | .retract => 2
  | .leave => 1
  | .unwind => 2
  | .report => 1
  | .exit _ | .usage | .abort => 0

theorem destroyed_eq_false {pc : MainPc} (halive : pc.handlesSignals = true)
    (hpc : pc ≠ .report) : pc.destroyed = false := by
  cases pc <;> simp_all [handlesSignals, destroyed]

theorem alone_of_gone {pc : MainPc} (halive : pc.handlesSignals = true)
    (hgone : pc.published = false ∨ pc.destroyed = true) : pc.alone = true := by
  cases pc <;> simp_all [handlesSignals, published, destroyed, alone]

end MainPc

/-- The steps left to a handler, at most, once it finds the pointer set. -/
def HandlerPc.rank : HandlerPc → ℕ
  | .test => 3
  | .exchange => 2
  | .setValue => 1

namespace Process

variable {s t : Process Node} {a : Act Node} {es : List (Act Node)}

/-- The main thread and the guard thread executor get different names from the file. -/
def Act.DistinctNames : Act Node → Prop
  | .initializeWith load _ => NamesDiffer load
  | _ => True

/-- The handlers that are going to set the value of `shutdown_promise_`. -/
def setting (s : Process Node) : ℕ :=
  (s.handlers.map fun h => if h.pc = .setValue then 1 else 0).sum

/-- How the core, the pointer to it, the promise and the handlers belong to the point in `main`. -/
structure Orderly (s : Process Node) : Prop where
  tended : s.core.Tended
  pointer : s.pc.handlesSignals = true → s.globalCorePtr = s.pc.published
  unbuilt : s.pc.unbuilt = true → s.core = {} ∧ s.promiseSet = false ∧ s.globalCorePtr = false
  uninitialized : s.pc = .initializing → s.core.executorManager = {}
  null : s.globalCorePtr = false → ∀ h ∈ s.handlers, h.pc = .test
  flag : s.setting + (if s.promiseSet then 1 else 0) = if s.core.shutdownFlag then 1 else 0
  woken : s.pc.ended = true → s.promiseSet = true
  ended : s.core.ended = s.pc.ended
  destroyed : s.core.destroyed = s.pc.destroyed
  alone : s.pc.alone = true → ∀ h ∈ s.handlers, h.thread = .main
  silent : s.pc.handlesSignals = false → s.handlers = []
  lives : s.pc ≠ .abort ∧ s.pc ≠ .setValue

theorem orderly_initial : Orderly ({} : Process Node) := by
  refine ⟨AdosCore.tended_new, ?_, ?_, ?_, ?_, ?_, ?_, ?_, ?_, ?_, ?_, ?_⟩ <;>
    simp [MainPc.handlesSignals, MainPc.ended, MainPc.destroyed, setting]

theorem Orderly.flag_of_promise (h : Orderly s) (hs : s.promiseSet = true) :
    s.core.shutdownFlag = true := by
  have hflag := h.flag
  cases hset : s.core.shutdownFlag with
  | true => rfl
  | false => simp [hs, hset] at hflag

/-- Where `main` is alone there is no other thread: before `Initialize` there is no executor, and in
the end their threads have been joined. -/
theorem Orderly.eq_main_of_hasThread (h : Orderly s) (halone : s.pc.alone = true)
    (halive : s.pc.handlesSignals = true) {thread : Thread} (hthread : s.hasThread thread = true) :
    thread = .main := by
  have hjoined : s.core.ended = true ∨ s.core.destroyed = true →
      ∀ n, s.core.executorManager.Joined n :=
    fun hdone => (h.tended.after (h.tended.finished hdone)).2.2
  have hnone : (∀ n, s.core.executorManager.Joined n) → thread = .main := by
    intro hjoined
    cases thread with
    | main => rfl
    | executor name =>
      simp only [hasThread] at hthread
      split at hthread
      · next x hx => exact absurd ((hjoined name x hx).symm.trans hthread) (by simp)
      · cases hthread
  cases hpc : s.pc with
  | construct | publish =>
    refine hnone fun n x hx => ?_
    rw [(h.unbuilt (by simp [hpc, MainPc.unbuilt])).1] at hx
    simp at hx
  | initializing =>
    refine hnone fun n x hx => ?_
    rw [h.uninitialized hpc] at hx
    simp at hx
  | shutdown | setValue | retract | leave =>
    exact hnone (hjoined (Or.inl (by simp [h.ended, hpc, MainPc.ended])))
  | report => exact hnone (hjoined (Or.inr (by simp [h.destroyed, hpc, MainPc.destroyed])))
  | start | wait | unwind | abort => simp [hpc, MainPc.alone] at halone
  | parse | exit | usage => simp [hpc, MainPc.handlesSignals] at halive

/-- Where `main` is alone and not interrupted there is no handler. -/
theorem Orderly.handlers_eq_nil (h : Orderly s) (halone : s.pc.alone = true)
    (hint : s.interrupted = false) : s.handlers = [] := by
  rw [List.eq_nil_iff_forall_not_mem]
  intro k hk
  have hmain := h.alone halone k hk
  simp only [interrupted, List.any_eq_false, decide_eq_true_eq] at hint
  exact hint k hk hmain

/-! ## Steps -/

/-- Other handlers, of which as many are going to set the value. -/
theorem Orderly.withHandlers (h : Orderly s) {hs : List Handler}
    (halive : s.pc.handlesSignals = true)
    (hsetting : setting { s with handlers := hs } = s.setting)
    (hnull : s.globalCorePtr = false → ∀ k ∈ hs, k.pc = .test)
    (halone : s.pc.alone = true → ∀ k ∈ hs, k.thread = .main) :
    Orderly { s with handlers := hs } := by
  refine ⟨h.tended, h.pointer, h.unbuilt, h.uninitialized, hnull, ?_, h.woken, h.ended,
    h.destroyed, halone, fun hdead => ?_, h.lives⟩
  · rw [hsetting]
    exact h.flag
  · exact absurd (halive.symm.trans hdead) (by simp)

/-- A handler at another point, on the same thread. -/
theorem Orderly.thread_set (h : Orderly s) {i : ℕ} {k : Handler} (hk : s.handlers[i]? = some k)
    {pc : HandlerPc} (halone : s.pc.alone = true) :
    ∀ j ∈ s.handlers.set i { k with pc := pc }, j.thread = .main := by
  intro j hj
  rcases List.mem_or_eq_of_mem_set hj with hj | rfl
  · exact h.alone halone j hj
  · exact h.alone halone k (List.mem_of_getElem? hk)

theorem setting_set {i : ℕ} {k : Handler} (hk : s.handlers[i]? = some k) (pc : HandlerPc) :
    setting { s with handlers := s.handlers.set i { k with pc := pc } } +
      (if k.pc = .setValue then 1 else 0) = s.setting + if pc = .setValue then 1 else 0 :=
  Bag.sum_map_set_add (fun h : Handler => if h.pc = .setValue then 1 else 0) hk { k with pc := pc }

theorem setting_eraseIdx {i : ℕ} {k : Handler} (hk : s.handlers[i]? = some k) :
    setting { s with handlers := s.handlers.eraseIdx i } + (if k.pc = .setValue then 1 else 0) =
      s.setting :=
  Bag.sum_map_eraseIdx_add (fun h : Handler => if h.pc = .setValue then 1 else 0) hk

/-- A step of a handler keeps the order: the handler that finds the flag unset is the one that sets
the value, and a second one to set it would be one too many for the flag. -/
theorem Orderly.handlerStep (h : Orderly s) {i : ℕ} (hs : Step s (.handler i) t) : Orderly t := by
  cases hs with
  | raises _ _ _ => exact h
  | tests hruns hpc hptr =>
    have hsum := setting_set hruns.eq .exchange
    refine h.withHandlers hruns.alive (by simpa [hpc] using hsum) ?_ (h.thread_set hruns.eq)
    simp [hptr]
  | sees hruns hpc hptr _ _ =>
    have hsum := setting_eraseIdx hruns.eq
    refine h.withHandlers hruns.alive (by simpa [hpc] using hsum) ?_ fun halone k hk =>
      h.alone halone k (List.mem_of_mem_eraseIdx hk)
    simp [hptr]
  | exchanges hruns hpc hptr _ hflag =>
    have hsum := setting_set hruns.eq .setValue
    have hnone := h.flag
    simp only [hpc, reduceCtorEq, if_false, if_true, add_zero] at hsum
    simp only [hflag, Bool.false_eq_true, if_false, Nat.add_eq_zero_iff] at hnone
    refine ⟨?_, h.pointer, fun hunbuilt => ?_, fun hpre => ?_, by simp [hptr], ?_, h.woken, h.ended,
      h.destroyed, h.thread_set hruns.eq, fun hdead => ?_, h.lives⟩
    · exact ⟨h.tended.kept, h.tended.fresh, h.tended.before, h.tended.after, h.tended.finished⟩
    · simp [(h.unbuilt hunbuilt).2.2] at hptr
    · exact h.uninitialized hpre
    · simp only [setting, AdosCore.shutdown, if_true] at hsum hnone ⊢
      omega
    · exact absurd (hruns.alive.symm.trans hdead) (by simp)
  | setsAgain hruns hpc _ hset =>
    have hsum := setting_eraseIdx hruns.eq
    have hflag := h.flag
    rw [if_pos hset, if_pos (h.flag_of_promise hset)] at hflag
    simp only [hpc, if_true] at hsum
    omega
  | sets hruns hpc _ hset =>
    have hsum := setting_eraseIdx hruns.eq
    have hflag := h.flag
    simp only [hpc, if_true] at hsum
    simp only [hset, Bool.false_eq_true, if_false, add_zero] at hflag
    refine ⟨h.tended, h.pointer, fun hunbuilt => ?_, h.uninitialized, fun hptr k hk => ?_, ?_,
      fun _ => rfl, h.ended, h.destroyed, fun halone k hk => ?_, fun hdead => ?_, h.lives⟩
    · have hnull := h.null (h.unbuilt hunbuilt).2.2 _ (List.mem_of_getElem? hruns.eq)
      exact absurd (hnull.symm.trans hpc) (by simp)
    · exact h.null hptr k (List.mem_of_mem_eraseIdx hk)
    · simp only [setting, if_true] at hsum hflag ⊢
      omega
    · exact h.alone halone k (List.mem_of_mem_eraseIdx hk)
    · exact absurd (hruns.alive.symm.trans hdead) (by simp)

/-- `main` at another point, after a call on the core. -/
theorem Orderly.withCore (h : Orderly s) {c : AdosCore Node} {pc : MainPc} (hc : c.Tended)
    (hflag : c.shutdownFlag = s.core.shutdownFlag)
    (hpointer : pc.handlesSignals = true → s.globalCorePtr = pc.published)
    (hbuilt : pc.unbuilt = false ∧ pc ≠ .initializing)
    (hwoken : pc.ended = true → s.promiseSet = true) (hended : c.ended = pc.ended)
    (hdestroyed : c.destroyed = pc.destroyed)
    (halone : pc.alone = true → ∀ k ∈ s.handlers, k.thread = .main)
    (hsilent : pc.handlesSignals = false → s.handlers = [])
    (hlives : pc ≠ .abort ∧ pc ≠ .setValue) : Orderly { s with core := c, pc := pc } := by
  refine ⟨hc, hpointer, fun hunbuilt => ?_, fun hpre => absurd hpre hbuilt.2, h.null, ?_, hwoken,
    hended, hdestroyed, halone, hsilent, hlives⟩
  · exact absurd (hunbuilt.symm.trans hbuilt.1) (by simp)
  · have hsetting : setting { s with core := c, pc := pc } = s.setting := rfl
    rw [hsetting, h.flag, hflag]

/-- A call that neither `Start` nor the destructor makes, and that cannot terminate the program. -/
theorem Orderly.settle (h : Orderly s) {next : MainPc} {k : Call String (AdosCore Node)}
    (hpost : k.Post AdosCore.Tended AdosCore.Tended False)
    (hflags : k.Post (AdosCore.SameFlags s.core) (AdosCore.SameFlags s.core) True)
    (hptr : s.globalCorePtr = true) (hended : s.pc.ended = false)
    (hdestroyed : s.pc.destroyed = false) (hnext : next = .start ∨ next = .wait) :
    Orderly (s.settle next k) := by
  cases k with
  | returns c =>
    obtain ⟨hflag, hend, hdest⟩ := Call.post_returns.mp hflags
    rw [h.ended, hended] at hend
    rw [h.destroyed, hdestroyed] at hdest
    rcases hnext with rfl | rfl <;>
      exact h.withCore hpost hflag (fun _ => hptr) (by simp [MainPc.unbuilt]) nofun hend hdest nofun
        nofun (by simp)
  | throws c what =>
    obtain ⟨hflag, hend, hdest⟩ := Call.post_throws.mp hflags
    rw [h.ended, hended] at hend
    rw [h.destroyed, hdestroyed] at hdest
    exact h.withCore hpost hflag (fun _ => hptr) (by simp [MainPc.unbuilt]) nofun hend hdest nofun
      nofun (by simp)
  | terminates => exact hpost.elim

/-- A step of `main` keeps the order. After its wait the promise has been set, and where it resets
the pointer it is alone, so that no handler finds the pointer gone. -/
theorem Orderly.mainStep (h : Orderly s) (hs : Step s .main t) : Orderly t := by
  have hptr : ∀ pc, s.pc = pc → pc.handlesSignals = true → s.globalCorePtr = pc.published := by
    rintro pc rfl
    exact h.pointer
  cases hs with
  | construct _ hpc =>
    obtain ⟨hcore, hset, hnull⟩ := h.unbuilt (by simp [hpc, MainPc.unbuilt])
    have hflag := h.flag
    rw [hcore] at hflag
    exact ⟨AdosCore.tended_new, fun _ => hnull, fun _ => ⟨rfl, hset, hnull⟩, nofun, h.null, hflag,
      nofun, rfl, rfl, fun _ => h.alone (by simp [hpc, MainPc.alone]), nofun, by simp⟩
  | publish _ hpc =>
    obtain ⟨hcore, hset, -⟩ := h.unbuilt (by simp [hpc, MainPc.unbuilt])
    exact ⟨h.tended, fun _ => rfl, nofun, fun _ => by rw [hcore], nofun, h.flag, nofun,
      by rw [hcore]; rfl, by rw [hcore]; rfl, fun _ => h.alone (by simp [hpc, MainPc.alone]),
      nofun, by simp⟩
  | resume hpc hset hnil =>
    obtain ⟨c, hcall, hc, hflag, hended, hdest⟩ := h.tended.resume_returns
    rw [hcall]
    rw [h.destroyed, hpc] at hdest
    exact h.withCore hc hflag (fun _ => hptr .wait hpc rfl) (by simp [MainPc.unbuilt])
      (fun _ => hset) hended hdest (by simp [hnil]) nofun (by simp)
  | shutdownAgain _ hpc _ =>
    exact h.withCore h.tended rfl (fun _ => hptr .shutdown hpc rfl) (by simp [MainPc.unbuilt])
      (fun _ => h.woken (by simp [hpc, MainPc.ended])) (by simp [h.ended, hpc, MainPc.ended])
      (by simp [h.destroyed, hpc, MainPc.destroyed])
      (fun _ => h.alone (by simp [hpc, MainPc.alone])) nofun (by simp)
  | shutdown _ hpc hflag =>
    have hset := h.flag_of_promise (h.woken (by simp [hpc, MainPc.ended]))
    exact absurd (hset.symm.trans hflag) (by simp)
  | setValueAgain _ hpc _ | setValue _ hpc _ => exact absurd hpc h.lives.2
  | retract hint hpc =>
    have hnil := h.handlers_eq_nil (by simp [hpc, MainPc.alone]) hint
    exact ⟨h.tended, fun _ => rfl, nofun, nofun, by simp [hnil], h.flag,
      fun _ => h.woken (by simp [hpc, MainPc.ended]), by simp [h.ended, hpc, MainPc.ended],
      by simp [h.destroyed, hpc, MainPc.destroyed], by simp [hnil], nofun, by simp⟩
  | leave hpc hnil =>
    obtain ⟨c, hcall, hc, hflag, hended, hdest⟩ := h.tended.destroy_returns
    rw [hcall]
    rw [h.ended, hpc] at hended
    exact h.withCore hc hflag nofun (by simp [MainPc.unbuilt])
      (fun _ => h.woken (by simp [hpc, MainPc.ended])) (by simp [hended, MainPc.ended]) hdest
      (by simp [hnil]) (fun _ => hnil) (by simp)
  | unwind hpc hnil =>
    obtain ⟨c, hcall, hc, hflag, hended, hdest⟩ := h.tended.destroy_returns
    rw [hcall]
    rw [h.ended, hpc] at hended
    exact h.withCore hc hflag (fun _ => hptr .unwind hpc rfl) (by simp [MainPc.unbuilt]) nofun
      hended hdest (by simp [hnil]) nofun (by simp)
  | report hint hpc =>
    exact h.withCore h.tended rfl nofun (by simp [MainPc.unbuilt]) (by simp [MainPc.ended])
      (by simp [h.ended, hpc, MainPc.ended]) (by simp [h.destroyed, hpc, MainPc.destroyed])
      (fun _ => h.alone (by simp [hpc, MainPc.alone]))
      (fun _ => h.handlers_eq_nil (by simp [hpc, MainPc.alone]) hint) (by simp)

/-- **Every step keeps the order.** -/
theorem Orderly.step (h : Orderly s) (hnames : a.DistinctNames) (hs : Step s a t) : Orderly t := by
  cases a with
  | main => exact h.mainStep hs
  | handler i => exact h.handlerStep hs
  | parse args =>
    have hpc : s.pc = .parse := by cases hs <;> assumption
    obtain ⟨hcore, hset, hnull⟩ := h.unbuilt (by simp [hpc, MainPc.unbuilt])
    cases hs with
    | parse _ _ =>
      exact ⟨h.tended, fun _ => hnull, fun _ => ⟨hcore, hset, hnull⟩, nofun, h.null, h.flag, nofun,
        by simp [h.ended, hpc, MainPc.ended], by simp [h.destroyed, hpc, MainPc.destroyed],
        fun _ => h.alone (by simp [hpc, MainPc.alone]), nofun, by simp⟩
    | usage _ _ =>
      exact ⟨h.tended, nofun, fun _ => ⟨hcore, hset, hnull⟩, nofun, h.null, h.flag, nofun,
        by simp [h.ended, hpc, MainPc.ended], by simp [h.destroyed, hpc, MainPc.destroyed],
        fun _ => h.alone (by simp [hpc, MainPc.alone]),
        fun _ => h.silent (by simp [hpc, MainPc.handlesSignals]), by simp⟩
  | initializeWith load faults =>
    cases hs with
    | initializeWith hint hpc =>
      have hptr := h.pointer (by simp [hpc, MainPc.handlesSignals])
      exact h.settle (h.tended.initializeWith hnames) AdosCore.initializeWith_flags
        (by simp [hptr, hpc, MainPc.published]) (by simp [hpc, MainPc.ended])
        (by simp [hpc, MainPc.destroyed]) (Or.inl rfl)
  | start faults =>
    cases hs with
    | start hint hpc =>
      have hptr := h.pointer (by simp [hpc, MainPc.handlesSignals])
      exact h.settle h.tended.start AdosCore.start_flags
        (by simp [hptr, hpc, MainPc.published]) (by simp [hpc, MainPc.ended])
        (by simp [hpc, MainPc.destroyed]) (Or.inr rfl)
  | deliver sig thread =>
    cases hs with
    | deliver halive hthread _ =>
      refine h.withHandlers halive (by simp [setting]) (fun hptr => ?_) fun halone => ?_
      · exact List.forall_mem_cons.mpr ⟨rfl, h.null hptr⟩
      · have hmain := h.eq_main_of_hasThread halone halive hthread
        exact List.forall_mem_cons.mpr ⟨hmain, h.alone halone⟩

theorem orderly_run (hr : run Process.step {} es = some s) (hnames : ∀ a ∈ es, a.DistinctNames) :
    Orderly s :=
  run_invariant_of_mem (fun _ _ _ hs ha ht => hs.step (hnames _ ha) (step_cases ht))
    orderly_initial hr

/-! ## What every run keeps -/

/-- A file without executors gives the two executors their default names. -/
theorem distinctNames_null {faults : InitializeFaults Node} :
    (Act.initializeWith (.ok fun _ => .ok .null) faults : Act Node).DistinctNames := by
  rintro root node hroot hnode ⟨k, hk, heq⟩
  cases hroot
  cases hnode
  cases hk
  have hne : "nxpilot_main" ≠ "nxpilot_guard" := by decide
  exact hne heq

/-- `main` up to its wait. -/
def boot : List (Act Unit) :=
  [.parse ⟨2, false, false, "cfg.yaml"⟩, .main, .main,
    .initializeWith (.ok fun _ => .ok .null) fun _ _ _ => none, .start fun _ => none]

theorem distinctNames_boot {fs : List (Act Unit)} (hfs : ∀ a ∈ fs, a.DistinctNames) :
    ∀ a ∈ boot ++ fs, a.DistinctNames := by
  refine List.forall_mem_append.mpr ⟨?_, hfs⟩
  intro a ha
  simp only [boot, List.mem_cons, List.not_mem_nil, or_false] at ha
  rcases ha with rfl | rfl | rfl | rfl | rfl
  · trivial
  · trivial
  · trivial
  · exact distinctNames_null
  · trivial

/-- **Signals do no harm while the core lives.** When the file names the two executors differently,
whatever signals come, from the installation of the handlers on and on whichever threads, the
program is not terminated, and `shutdown_promise_` gets its value once: from the handler that finds
`shutdown_flag_` unset, never from the `Shutdown` at the end of `main`. -/
theorem value_set_once (hr : run Process.step {} es = some s)
    (hnames : ∀ a ∈ es, a.DistinctNames) :
    s.pc ≠ .abort ∧ s.pc ≠ .setValue ∧
      s.setting + (if s.promiseSet then 1 else 0) = if s.core.shutdownFlag then 1 else 0 := by
  have h := orderly_run hr hnames
  exact ⟨h.lives.1, h.lives.2, h.flag⟩

/-- A signal on the main thread and one on the guard thread, whose handlers overtake each other. -/
theorem value_set_once_two_signals :
    ∃ s, run Process.step {} (boot ++ [.deliver .sigint .main, .handler 0,
        .deliver .sigterm (.executor "nxpilot_guard"), .handler 0, .handler 0, .handler 1,
        .handler 0]) = some s ∧ s.promiseSet = true ∧ s.pc = .wait ∧ s.pc ≠ .abort := by
  have h : ((run Process.step {} (boot ++ [.deliver .sigint .main, .handler 0,
        .deliver .sigterm (.executor "nxpilot_guard"), .handler 0, .handler 0, .handler 1,
        .handler 0])).map fun s => (s.promiseSet, s.pc)) = some (true, .wait) := by
    decide +kernel
  obtain ⟨s, hs, hval⟩ := Option.map_eq_some_iff.mp h
  obtain ⟨hset, hpc⟩ := Prod.mk.inj hval
  have hnames := value_set_once hs (distinctNames_boot (by simp [Act.DistinctNames]))
  exact ⟨s, hs, hset, hpc, hnames.1⟩

/-- **What the exit code says.** When the file names the two executors differently, `main` returns
`0` exactly if the core's `Start` has run to its end, and then a signal has been handled. Either way
every executor that was initialized has been shut down, once and in reverse order, and no thread is
left. -/
theorem exit_code_iff {code : ℤ} (hr : run Process.step {} es = some s)
    (hnames : ∀ a ∈ es, a.DistinctNames) (hexit : s.pc = .exit code) :
    (code = 0 ↔ s.core.ended = true) ∧ (code = 0 → s.promiseSet = true) ∧
      s.core.executorManager.initialized.Nodup ∧
      s.core.executorManager.shutdowns = s.core.executorManager.initialized.reverse ∧
      ∀ name, s.hasThread (.executor name) = false := by
  have h := orderly_run hr hnames
  have hdestroyed : s.core.destroyed = true := by simp [h.destroyed, hexit, MainPc.destroyed]
  obtain ⟨hdowns, -, hjoined⟩ := h.tended.after (h.tended.finished (Or.inr hdestroyed))
  refine ⟨?_, fun hzero => h.woken ?_, h.tended.kept.registered.nodup_initialized, hdowns,
    fun name => ?_⟩
  · simp [h.ended, hexit, MainPc.ended]
  · simp [hexit, MainPc.ended, hzero]
  · simp only [hasThread]
    split
    · next x hx => exact hjoined name x hx
    · rfl

/-- A signal ends the process with `0`. -/
theorem exit_code_zero :
    ∃ s, run Process.step {} (boot ++ [.deliver .sigint .main, .handler 0, .handler 0, .handler 0,
        .main, .main, .main, .main]) = some s ∧ s.pc = .exit 0 ∧ s.core.ended = true ∧
      s.core.executorManager.shutdowns = s.core.executorManager.initialized.reverse := by
  have h : ((run Process.step {} (boot ++ [.deliver .sigint .main, .handler 0, .handler 0,
      .handler 0, .main, .main, .main, .main])).map fun s => s.pc) = some (.exit 0) := by
    decide +kernel
  obtain ⟨s, hs, hpc⟩ := Option.map_eq_some_iff.mp h
  have hexit := exit_code_iff hs (distinctNames_boot (by simp [Act.DistinctNames])) hpc
  exact ⟨s, hs, hpc, hexit.1.mp rfl, hexit.2.2.2.1⟩

/-! ## The core that has been destroyed -/

/-- A handler has found `global_core_ptr` set and uses a core that has been destroyed. -/
def Dangling (s : Process Node) : Prop :=
  s.core.destroyed = true ∧ ∃ h ∈ s.handlers, h.pc ≠ .test

/-- A handler goes on after an exception has left the try block, before `main` returns. -/
def HandlesLate (s : Process Node) : Act Node → Prop
  | .handler _ => s.pc = .report
  | _ => False

@[simp] theorem settle_handlers {next : MainPc} {k : Call String (AdosCore Node)} :
    (s.settle next k).handlers = s.handlers := by
  cases k <;> rfl

theorem destroyed_of_settle {next : MainPc} {k : Call String (AdosCore Node)}
    (h : (s.settle next k).pc.destroyed = true) : next.destroyed = true := by
  cases k with
  | returns c => exact h
  | throws c what => cases h
  | terminates => cases h

/-- The core is destroyed where there is no handler. -/
theorem Step.handlers_of_destroyed (hs : Step s a t) (h : Orderly s) (ht : Orderly t)
    (hquiet : ¬ s.Dangling) (hlate : ¬ s.HandlesLate a) (hdestroyed : t.core.destroyed = true) :
    ∀ k ∈ t.handlers, k.pc = .test := by
  have hpc := ht.destroyed.symm.trans hdestroyed
  have hold : s.core.destroyed = true → ∀ k ∈ s.handlers, k.pc = .test := by
    intro hold k hk
    by_contra hne
    exact hquiet ⟨hold, k, hk, hne⟩
  have hrunning : ∀ {i k}, s.Runs i k → a = .handler i → s.core.destroyed = false := by
    rintro i k hruns rfl
    rw [h.destroyed]
    exact MainPc.destroyed_eq_false hruns.alive hlate
  cases hs with
  | raises hruns _ _ | tests hruns _ _ | sees hruns _ _ _ _ | exchanges hruns _ _ _ _
  | sets hruns _ _ _ =>
    have hlive := hrunning hruns rfl
    simp [AdosCore.shutdown, hlive] at hdestroyed
  | setsAgain hruns _ _ _ => simp [hrunning hruns rfl] at hdestroyed
  | leave _ hnil | unwind _ hnil => simp [hnil]
  | initializeWith _ _ | start _ _ | resume _ _ _ => cases destroyed_of_settle hpc
  | report _ hat => exact hold (by simp [h.destroyed, hat, MainPc.destroyed])
  | deliver _ _ _ => exact List.forall_mem_cons.mpr ⟨rfl, hold hdestroyed⟩
  | _ => cases hpc

/-- Before the core is destroyed, and as long as no handler has gone on after that, none dangles. -/
structure Unharmed (s : Process Node) : Prop where
  orderly : Orderly s
  quiet : ¬ s.Dangling

theorem Unharmed.step (h : Unharmed s) (hnames : a.DistinctNames) (hlate : ¬ s.HandlesLate a)
    (hs : Process.step s a = some t) : Unharmed t := by
  have hstep := step_cases hs
  have ht := h.orderly.step hnames hstep
  refine ⟨ht, ?_⟩
  rintro ⟨hdestroyed, k, hk, hne⟩
  exact hne (hstep.handlers_of_destroyed h.orderly ht h.quiet hlate hdestroyed k hk)

/-- A handler that goes on after an exception has left the try block finds the pointer set. -/
theorem Unharmed.dangling_of_late (h : Unharmed s) (hlate : s.HandlesLate a)
    (hs : Process.step s a = some t) : t.Dangling := by
  cases a with
  | handler i =>
    have hpc : s.pc = .report := hlate
    have hdestroyed : s.core.destroyed = true := by
      simp [h.orderly.destroyed, hpc, MainPc.destroyed]
    have hptr : s.globalCorePtr = true := by
      rw [h.orderly.pointer (by simp [hpc, MainPc.handlesSignals]), hpc]
      rfl
    cases step_cases hs with
    | raises _ _ hnull => simp [hptr] at hnull
    | @tests i k hruns hat _ =>
      have hlt := (List.getElem?_eq_some_iff.mp hruns.eq).1
      exact ⟨hdestroyed, _, List.mem_set hlt _, by simp⟩
    | sees _ _ _ hlive _ | exchanges _ _ _ hlive _ | setsAgain _ _ hlive _ | sets _ _ hlive _ =>
      simp [hdestroyed] at hlive
  | parse | main | initializeWith | start | deliver => exact hlate.elim

/-- **The core outlives its handlers unless an exception ends `main`.** When the file names the two
executors differently, until `main` returns no handler uses a core that has been destroyed exactly
as long as none goes on between the destruction of the core by an exception and the end of `main`;
the pointer is not reset on that way. -/
theorem dangling_iff (hr : run Process.step {} es = some s)
    (hnames : ∀ a ∈ es, a.DistinctNames) :
    AllStates Process.step (fun s => ¬ s.Dangling) ({} : Process Node) es ↔
      AllSteps Process.step (fun s a => ¬ s.HandlesLate a) {} es := by
  have hinit : Unharmed ({} : Process Node) := ⟨orderly_initial, fun h => by cases h.1⟩
  constructor
  · refine allSteps_of_allStates (J := Unharmed) ?_ ?_ hinit hr
    · intro s a t ha hs hlate ht
      exact hs.step (hnames a ha) hlate ht
    · intro s a t _ hs ht hquiet hlate
      exact hquiet (hs.dangling_of_late hlate ht)
  · intro hlate
    have hall : AllSteps Process.step (fun s a => a.DistinctNames ∧ ¬ s.HandlesLate a)
        ({} : Process Node) es := by
      refine allSteps_of_cuts fun es₁ a es₂ u heq hu => ⟨hnames a (by simp [heq]), ?_⟩
      exact ((heq ▸ hlate).cut hu).2
    have hunharmed := allStates_of_allSteps (P := Unharmed)
      (fun s a t hs ha ht => hs.step ha.1 ha.2 ht) hinit hall
    exact hunharmed.imp fun _ h => h.quiet

/-- The file cannot be loaded; a signal comes before `main` has returned. -/
theorem dangling_after_exception :
    ∃ es s, run Process.step ({} : Process Unit) es = some s ∧ s.Dangling ∧
      ¬ AllSteps Process.step (fun s a => ¬ s.HandlesLate a) ({} : Process Unit) es := by
  let es : List (Act Unit) := [.parse ⟨2, false, false, "cfg.yaml"⟩, .main, .main,
    .initializeWith (.error "bad file: cfg.yaml") fun _ _ _ => none, .main,
    .deliver .sigint .main, .handler 0]
  have hnames : ∀ a ∈ es, a.DistinctNames := by simp [es, Act.DistinctNames]
  have h : ((run Process.step {} es).map fun s => (s.core.destroyed, s.handlers)) =
      some (true, [⟨.main, .sigint, .exchange⟩]) := by
    decide +kernel
  obtain ⟨s, hs, hval⟩ := Option.map_eq_some_iff.mp h
  obtain ⟨hdestroyed, hhandlers⟩ := Prod.mk.inj hval
  have hdangling : s.Dangling := ⟨hdestroyed, by simp [hhandlers]⟩
  exact ⟨es, s, hs, hdangling, fun hlate => ((dangling_iff hs hnames).mpr hlate).last hs hdangling⟩

/-! ## The end of `main` -/

/-- A handler interrupts the main thread that finds no core: `global_core_ptr` is null, or the core
has been destroyed. -/
def Trapped (s : Process Node) : Prop :=
  s.interrupted = true ∧ s.pc.handlesSignals = true ∧
    (s.globalCorePtr = false ∨ s.core.destroyed = true)

theorem interrupted_set {i : ℕ} {k : Handler} (hk : s.handlers[i]? = some k) (pc : HandlerPc) :
    interrupted { s with handlers := s.handlers.set i { k with pc := pc } } = s.interrupted := by
  have hmap : (s.handlers.set i { k with pc := pc }).map Handler.thread =
      s.handlers.map Handler.thread := Bag.map_set_of_eq hk rfl
  have hany : ∀ l : List Handler, (l.any fun h => h.thread = .main) =
      (l.map Handler.thread).any fun th => th = .main := by
    intro l
    rw [List.any_map]
    rfl
  simp only [interrupted, hany, hmap]

/-- A trapped process stays where it is: no handler gets past its test, so none leaves the main
thread. -/
theorem Trapped.step (h : Trapped s) (ho : Orderly s) (hs : Step s a t) :
    Trapped t ∧ t.pc = s.pc := by
  obtain ⟨hint, halive, hgone⟩ := h
  have hstuck : s.globalCorePtr = true → s.core.destroyed = false → False := by
    intro hptr hlive
    rcases hgone with hnull | hdestroyed
    · simp [hptr] at hnull
    · simp [hlive] at hdestroyed
  have hnil : s.handlers = [] → False := fun hnil => by
    simp [interrupted_of_nil hnil] at hint
  cases hs with
  | parse hpc _ | usage hpc _ => simp [hpc, MainPc.handlesSignals] at halive
  | construct hnot _ | publish hnot _ | initializeWith hnot _ | start hnot _
  | shutdownAgain hnot _ _ | shutdown hnot _ _ | setValueAgain hnot _ _ | setValue hnot _ _
  | retract hnot _ | report hnot _ => simp [hint] at hnot
  | resume _ _ hnone | leave _ hnone | unwind _ hnone => exact (hnil hnone).elim
  | deliver _ _ _ =>
    refine ⟨⟨?_, halive, hgone⟩, rfl⟩
    simp only [interrupted, List.any_cons] at hint ⊢
    simp [hint]
  | raises _ _ _ => exact ⟨⟨hint, halive, hgone⟩, rfl⟩
  | tests hruns _ _ => exact ⟨⟨(interrupted_set hruns.eq _).trans hint, halive, hgone⟩, rfl⟩
  | sees _ _ hptr hlive _ | exchanges _ _ hptr hlive _ => exact (hstuck hptr hlive).elim
  | setsAgain hruns hpc hlive _ | sets hruns hpc hlive _ =>
    refine (hstuck ?_ hlive).elim
    by_contra hnull
    have htest := ho.null (by simpa using hnull) _ (List.mem_of_getElem? hruns.eq)
    exact absurd (htest.symm.trans hpc) (by simp)

theorem Trapped.run (h : Trapped s) (ho : Orderly s) (hnames : ∀ a ∈ es, a.DistinctNames)
    (hr : run Process.step s es = some t) : Trapped t ∧ t.pc = s.pc := by
  refine (run_invariant_of_mem (P := fun u => Orderly u ∧ Trapped u ∧ u.pc = s.pc) ?_
    ⟨ho, h, rfl⟩ hr).2
  rintro u a v ⟨hu, htrap, hpc⟩ ha hv
  obtain ⟨htrap', hpc'⟩ := htrap.step hu (step_cases hv)
  exact ⟨hu.step (hnames a ha) (step_cases hv), htrap', hpc'.trans hpc⟩

/-! ## How long `main` takes -/

/-- What is left to do until `main` has returned, when no signal comes. -/
def rank (s : Process Node) : ℕ := s.pc.rank + (s.handlers.map fun h => h.pc.rank).sum

/-- No signal comes in this step. -/
def Act.NoSignal : Act Node → Prop
  | .deliver _ _ => False
  | _ => True

/-- An orderly process that is not trapped. -/
structure Free (s : Process Node) : Prop where
  orderly : Orderly s
  free : ¬ s.Trapped

/-- Every handler of a free process finds its core. -/
theorem Free.core_of_handler (h : Free s) (halive : s.pc.handlesSignals = true) {k : Handler}
    (hk : k ∈ s.handlers) : s.globalCorePtr = true ∧ s.core.destroyed = false := by
  have hgone : ¬ (s.globalCorePtr = false ∨ s.core.destroyed = true) := by
    intro hgone
    have halone : s.pc.alone = true := by
      apply MainPc.alone_of_gone halive
      rwa [← h.orderly.pointer halive, ← h.orderly.destroyed]
    refine h.free ⟨List.any_eq_true.mpr ⟨k, hk, ?_⟩, halive, hgone⟩
    simpa using h.orderly.alone halone k hk
  simpa using hgone

/-- A step of `main` leaves the handlers alone and cannot be one of a trapped process. -/
theorem not_trapped_of_handlers (hint : s.interrupted = false) (hkeep : t.handlers = s.handlers) :
    ¬ t.Trapped := by
  rintro ⟨hint', -⟩
  have heq : t.interrupted = s.interrupted := by simp only [interrupted, hkeep]
  simp [heq, hint] at hint'

theorem rank_settle {next : MainPc} {k : Call String (AdosCore Node)} (hpc : 2 < s.pc.rank)
    (hnext : next.rank < s.pc.rank) : (s.settle next k).rank < s.rank := by
  cases k with
  | returns c => exact Nat.add_lt_add_right hnext _
  | throws c what => exact Nat.add_lt_add_right hpc _
  | terminates =>
    have hpos : 0 < s.pc.rank := by omega
    exact Nat.add_lt_add_right hpos _

theorem rank_of_pc {u : Process Node} (hkeep : u.handlers = s.handlers)
    (hpc : u.pc.rank < s.pc.rank) : u.rank < s.rank := by
  simp only [rank, hkeep]
  omega

/-- A handler that goes on has less left to do. -/
theorem rank_set {i : ℕ} {k : Handler} (hk : s.handlers[i]? = some k) {pc : HandlerPc}
    (hlt : pc.rank < k.pc.rank) {u : Process Node} (hpc : u.pc = s.pc)
    (hhandlers : u.handlers = s.handlers.set i { k with pc := pc }) : u.rank < s.rank := by
  have hsum := Bag.sum_map_set_add (fun h : Handler => h.pc.rank) hk { k with pc := pc }
  simp only [rank, hpc, hhandlers] at hsum ⊢
  omega

theorem rank_eraseIdx {i : ℕ} {k : Handler} (hk : s.handlers[i]? = some k)
    {u : Process Node} (hpc : u.pc = s.pc) (hhandlers : u.handlers = s.handlers.eraseIdx i) :
    u.rank < s.rank := by
  have hsum := Bag.sum_map_eraseIdx_add (fun h : Handler => h.pc.rank) hk
  have hpos : 0 < k.pc.rank := by cases k.pc <;> simp [HandlerPc.rank]
  simp only [rank, hpc, hhandlers] at hsum ⊢
  omega

/-- Without a signal a free process stays free, and every step brings it nearer to its end. -/
theorem Free.step (h : Free s) (hnames : a.DistinctNames) (hsig : a.NoSignal) (hs : Step s a t) :
    Free t ∧ t.rank < s.rank := by
  have ht := h.orderly.step hnames hs
  have hcore : ∀ {i k}, s.Runs i k → s.globalCorePtr = true ∧ s.core.destroyed = false :=
    fun hruns => h.core_of_handler hruns.alive (List.mem_of_getElem? hruns.eq)
  have hfree : ∀ {i k}, s.Runs i k → t.globalCorePtr = s.globalCorePtr →
      t.core.destroyed = s.core.destroyed → ¬ t.Trapped := by
    rintro i k hruns hptr hdest ⟨-, -, hgone⟩
    simp [hptr, hdest, hcore hruns] at hgone
  cases hs with
  | parse hpc _ | usage hpc _ =>
    have hnil := h.orderly.silent (by simp [hpc, MainPc.handlesSignals])
    exact ⟨⟨ht, not_trapped_of_handlers (interrupted_of_nil hnil) rfl⟩,
      rank_of_pc rfl (by simp [hpc, MainPc.rank])⟩
  | construct hint hpc | publish hint hpc | shutdownAgain hint hpc _ | shutdown hint hpc _
  | setValueAgain hint hpc _ | setValue hint hpc _ | retract hint hpc | report hint hpc =>
    exact ⟨⟨ht, not_trapped_of_handlers hint rfl⟩, rank_of_pc rfl (by simp [hpc, MainPc.rank])⟩
  | initializeWith hint hpc | start hint hpc =>
    exact ⟨⟨ht, not_trapped_of_handlers hint settle_handlers⟩,
      rank_settle (by simp [hpc, MainPc.rank]) (by simp [hpc, MainPc.rank])⟩
  | resume hpc _ hnil =>
    exact ⟨⟨ht, not_trapped_of_handlers (interrupted_of_nil hnil) settle_handlers⟩,
      rank_settle (by simp [hpc, MainPc.rank]) (by simp [hpc, MainPc.rank])⟩
  | leave hpc hnil | unwind hpc hnil =>
    obtain ⟨c, hcall, -⟩ := h.orderly.tended.destroy_returns
    refine ⟨⟨ht, not_trapped_of_handlers (interrupted_of_nil hnil) settle_handlers⟩, ?_⟩
    rw [hcall]
    exact rank_of_pc rfl (by simp [settle, hpc, MainPc.rank])
  | deliver _ _ _ => exact hsig.elim
  | raises hruns _ hnull => simp [hcore hruns] at hnull
  | tests hruns hpc _ =>
    exact ⟨⟨ht, hfree hruns rfl rfl⟩,
      rank_set hruns.eq (by simp [hpc, HandlerPc.rank]) rfl rfl⟩
  | exchanges hruns hpc _ _ _ =>
    exact ⟨⟨ht, hfree hruns rfl rfl⟩,
      rank_set hruns.eq (by simp [hpc, HandlerPc.rank]) rfl rfl⟩
  | sees hruns _ _ _ _ | sets hruns _ _ _ =>
    exact ⟨⟨ht, hfree hruns rfl rfl⟩, rank_eraseIdx hruns.eq rfl rfl⟩
  | setsAgain _ _ _ _ => exact absurd rfl ht.lives.1

/-- The process waits for a signal. -/
def Waits (s : Process Node) : Prop :=
  s.pc = .wait ∧ s.core.shutdownFlag = false ∧ s.handlers = []

/-- The handler that no other interrupts goes on. -/
theorem Free.handler_progress (h : Free s) {k : Handler} {l : List Handler}
    (hl : s.handlers = k :: l) : ∃ t, Process.step s (.handler 0) = some t := by
  have halive : s.pc.handlesSignals = true := by
    by_contra hdead
    simp [h.orderly.silent (by simpa using hdead)] at hl
  obtain ⟨hptr, hlive⟩ := h.core_of_handler halive (k := k) (by simp [hl])
  simp only [Process.step, halive, if_true, Process.handlerStep, hl, List.getElem?_cons_zero,
    List.take_zero, List.any_nil, Bool.false_eq_true, if_false]
  cases k.pc with
  | test => simp [hptr]
  | exchange => cases hflag : s.core.shutdownFlag <;> simp [hptr, hlive]
  | setValue => cases hset : s.promiseSet <;> simp [hlive]

/-- `main` goes on when there are no handlers, unless it waits for a signal: a flag that has been
set has had its value set. -/
theorem Free.main_progress (h : Free s) (hnil : s.handlers = []) (hexit : s.pc.exited = false)
    (hwait : ¬ s.Waits) :
    ∃ a t, a.DistinctNames ∧ a.NoSignal ∧ Process.step s a = some t := by
  have hint := interrupted_of_nil hnil
  have hmain : (∃ t, s.mainStep = some t) →
      ∃ a t, a.DistinctNames ∧ a.NoSignal ∧ Process.step s a = some t := by
    rintro ⟨t, ht⟩
    exact ⟨.main, t, trivial, trivial, by simp [Process.step, hint, ht]⟩
  cases hpc : s.pc with
  | parse =>
    refine ⟨.parse ⟨1, false, false, ""⟩, { s with pc := .usage }, trivial, trivial, ?_⟩
    simp [Process.step, hpc, parseCommandLineFlags]
  | initializing =>
    exact ⟨.initializeWith (.error "") fun _ _ _ => none, _, namesDiffer_error, trivial,
      if_pos ⟨hpc, hint⟩⟩
  | start => exact ⟨.start fun _ => none, _, trivial, trivial, if_pos ⟨hpc, hint⟩⟩
  | wait =>
    have hflag : s.core.shutdownFlag = true := by
      by_contra hunset
      exact hwait ⟨hpc, by simpa using hunset, hnil⟩
    have hset : s.promiseSet = true := by
      have hsum := h.orderly.flag
      by_contra hunset
      simp [setting, hnil, hflag, hunset] at hsum
    exact hmain (by simp [mainStep, hpc, hset, hnil])
  | shutdown =>
    apply hmain
    cases hflag : s.core.shutdownFlag <;> simp [mainStep, hpc, hflag]
  | construct | publish | retract | leave | unwind | report =>
    exact hmain (by simp [mainStep, hpc, hnil])
  | setValue => exact absurd hpc h.orderly.lives.2
  | abort => exact absurd hpc h.orderly.lives.1
  | exit | usage => simp [hpc, MainPc.exited] at hexit

theorem Free.progress (h : Free s) (hexit : s.pc.exited = false) (hwait : ¬ s.Waits) :
    ∃ a t, a.DistinctNames ∧ a.NoSignal ∧ Process.step s a = some t := by
  cases hl : s.handlers with
  | nil => exact h.main_progress hl hexit hwait
  | cons k l =>
    obtain ⟨t, ht⟩ := h.handler_progress hl
    exact ⟨.handler 0, t, trivial, trivial, ht⟩

theorem shutdownFlag_settle {next : MainPc} {k : Call String (AdosCore Node)}
    (h : k.Post (fun c => c.shutdownFlag = s.core.shutdownFlag)
      (fun c => c.shutdownFlag = s.core.shutdownFlag) True) :
    (s.settle next k).core.shutdownFlag = s.core.shutdownFlag := by
  cases k with
  | returns c => exact h
  | throws c what => exact h
  | terminates => rfl

/-- The flag stays set. -/
theorem Step.shutdownFlag (hs : Step s a t) (h : Orderly s) (hflag : s.core.shutdownFlag = true) :
    t.core.shutdownFlag = true := by
  cases hs with
  | construct _ hpc =>
    obtain ⟨hcore, -, -⟩ := h.unbuilt (by simp [hpc, MainPc.unbuilt])
    simp [hcore] at hflag
  | initializeWith _ _ =>
    rwa [shutdownFlag_settle]
    exact AdosCore.initializeWith_flags.imp (fun _ hc => hc.shutdownFlag)
      (fun _ hc => hc.shutdownFlag) id
  | start _ _ =>
    rwa [shutdownFlag_settle]
    exact AdosCore.start_flags.imp (fun _ hc => hc.shutdownFlag) (fun _ hc => hc.shutdownFlag) id
  | resume _ _ _ =>
    obtain ⟨c, hcall, -, hsame, -⟩ := h.tended.resume_returns
    rw [hcall]
    exact hsame.trans hflag
  | leave _ _ | unwind _ _ =>
    obtain ⟨c, hcall, -, hsame, -⟩ := h.tended.destroy_returns
    rw [hcall]
    exact hsame.trans hflag
  | shutdown _ _ _ | exchanges _ _ _ _ _ => rfl
  | _ => exact hflag

/-- A free process can go on until its end or until it waits for a signal. -/
theorem Free.ends_or_waits (h : Free s) : ∃ fs t, (∀ a ∈ fs, a.DistinctNames) ∧
    run Process.step s fs = some t ∧
    (Free t ∧ (s.core.shutdownFlag = true → t.core.shutdownFlag = true)) ∧
    (t.pc.exited = true ∨ t.Waits) := by
  refine exists_run_of_rank Process.rank ?_ ⟨h, id⟩
  rintro u ⟨hu, hflag⟩ hdone
  rw [not_or, Bool.not_eq_true] at hdone
  obtain ⟨a, v, hnames, hsig, hv⟩ := hu.progress hdone.1 hdone.2
  have hstep := step_cases hv
  obtain ⟨hfree, hlt⟩ := hu.step hnames hsig hstep
  exact ⟨a, v, hnames, hv, ⟨hfree, fun hset => hstep.shutdownFlag hu.orderly (hflag hset)⟩, hlt⟩

/-- A signal on the main thread sets the flag of a process that waits for it. -/
theorem Free.signal_of_waits (h : Free s) (hwait : s.Waits) : ∃ fs t,
    (∀ a ∈ fs, a.DistinctNames) ∧ run Process.step s fs = some t ∧ Free t ∧
      t.core.shutdownFlag = true := by
  obtain ⟨hpc, hunset, hnil⟩ := hwait
  have hptr : s.globalCorePtr = true := by
    rw [h.orderly.pointer (by simp [hpc, MainPc.handlesSignals]), hpc]
    rfl
  have hlive : s.core.destroyed = false := by simp [h.orderly.destroyed, hpc, MainPc.destroyed]
  let fs : List (Act Node) := [.deliver .sigint .main, .handler 0, .handler 0]
  let t : Process Node :=
    { s with core := s.core.shutdown, handlers := [⟨.main, .sigint, .setValue⟩] }
  have hnames : ∀ a ∈ fs, a.DistinctNames := by simp [fs, Act.DistinctNames]
  have hrun : run Process.step s fs = some t := by
    simp [fs, t, run, Process.step, Process.handlerStep, hasThread, MainPc.handlesSignals, hpc,
      hunset, hnil, hptr, hlive]
  refine ⟨fs, t, hnames, hrun, ⟨?_, ?_⟩, rfl⟩
  · exact run_invariant_of_mem (fun u a v hu ha hv => hu.step (hnames a ha) (step_cases hv))
      h.orderly hrun
  · rintro ⟨-, -, hgone⟩
    simp [t, AdosCore.shutdown, hptr, hlive] at hgone

/-- **When the process hangs.** When the file names the two executors differently, `main` can still
return, without a handler on a destroyed core, exactly if none interrupts it while `global_core_ptr`
is null, that is before the core is there or after the last line of the try block, nor after an
exception has destroyed the core. -/
theorem can_exit_iff (hr : run Process.step {} es = some s) (hnames : ∀ a ∈ es, a.DistinctNames) :
    (∃ fs t, (∀ a ∈ fs, a.DistinctNames) ∧ run Process.step s fs = some t ∧
      t.pc.exited = true) ↔ ¬ s.Trapped := by
  have h := orderly_run hr hnames
  constructor
  · rintro ⟨fs, t, hnames', ht, hexit⟩ htrap
    have hpc := (htrap.run h hnames' ht).2
    have halive := htrap.2.1
    rw [hpc] at hexit
    cases hat : s.pc <;> simp [hat, MainPc.exited, MainPc.handlesSignals] at hexit halive
  · intro hfree
    obtain ⟨fs, t, hfs, ht, ⟨hfree', -⟩, hdone⟩ := Free.ends_or_waits ⟨h, hfree⟩
    rcases hdone with hexit | hwait
    · exact ⟨fs, t, hfs, ht, hexit⟩
    · obtain ⟨gs, u, hgs, hu, hfree'', hflag⟩ := hfree'.signal_of_waits hwait
      obtain ⟨hs, v, hhs, hv, ⟨-, hset⟩, hdone⟩ := hfree''.ends_or_waits
      refine ⟨fs ++ gs ++ hs, v, ?_, ?_, hdone.resolve_right fun hwait => ?_⟩
      · exact List.forall_mem_append.mpr ⟨List.forall_mem_append.mpr ⟨hfs, hgs⟩, hhs⟩
      · exact run_append_eq_some.mpr ⟨u, run_append_eq_some.mpr ⟨t, ht, hu⟩, hv⟩
      · simp [hwait.2.1] at hset
        simp [hset] at hflag

/-- A signal on the main thread before the core is there. -/
theorem cannot_exit_early :
    ∃ s, run Process.step ({} : Process Unit) [.parse ⟨2, false, false, "cfg.yaml"⟩,
        .deliver .sigint .main] = some s ∧
      ¬ ∃ fs t, (∀ a ∈ fs, a.DistinctNames) ∧ run Process.step s fs = some t ∧
        t.pc.exited = true := by
  have hrun : run Process.step ({} : Process Unit) [.parse ⟨2, false, false, "cfg.yaml"⟩,
      .deliver .sigint .main] = some { ({} : Process Unit) with
        cfgFilePath := "cfg.yaml", pc := .construct, handlers := [⟨.main, .sigint, .test⟩] } := rfl
  refine ⟨_, hrun, fun hexit => ?_⟩
  exact (can_exit_iff hrun (by simp [Act.DistinctNames])).mp hexit ⟨rfl, rfl, Or.inl rfl⟩

end Process

end Ados.Core
