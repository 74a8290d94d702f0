import Mathlib.Data.Option.Basic
import Mathlib.Data.List.Basic

/-!
# Calls that may throw

A call on an object returns or throws, and leaves the object in some state in both cases, or it
terminates the program. What a call does is said by three conditions: one on the state it returns
with, one on the state it throws from, and one that holds if it terminates the program.

## Main definitions

* `Call ε σ`: how a call ends; `ε` is what it throws and `σ` the state of the object
* `Call.andThen`, `Call.map`, `Call.forEach`: one call after another, a call on a part of an object,
  a call for each element of a list
* `Call.ofMessage`, `Call.after`: a call from its message, and the state a call leaves
* `Call.Post P E T`: the call returns with `P`, throws from `E`, and terminates the program if `T`

## Main results

* `Call.Post.imp`, `Call.Post.and`, `Call.Post.andThen`, `Call.Post.map`: the rules of consequence,
  of conjunction, of sequence and of parts
* `Call.post_forEach`: the rule of the loop, with an invariant over the elements already processed
-/

/-- How a call on an object in a state of `σ` ends. -/
inductive Call (ε σ : Type*) where
  | returns (s : σ)
  | throws (s : σ) (what : ε)
  | terminates
deriving DecidableEq

namespace Call

variable {ε σ τ α : Type*}

/-- `f` is called on the state `c` returns with. -/
def andThen : Call ε σ → (σ → Call ε σ) → Call ε σ
  | returns s, f => f s
  | throws s what, _ => throws s what
  | terminates, _ => terminates

/-- A call on a part of an object, as a call on the object. -/
def map (f : σ → τ) : Call ε σ → Call ε τ
  | returns s => returns (f s)
  | throws s what => throws (f s) what
  | terminates => terminates

/-- `for (auto& a : l) f(a)`. -/
def forEach (f : α → σ → Call ε σ) : List α → σ → Call ε σ
  | [], s => returns s
  | a :: l, s => (f a s).andThen (forEach f l)

/-- A call that gives the object after it, and what it throws if it does. -/
def ofMessage (r : σ × Option ε) : Call ε σ :=
  match r.2 with
  | none => returns r.1
  | some what => throws r.1 what

/-- The state a call leaves, if the program goes on. -/
def after : Call ε σ → Option σ
  | returns s => some s
  | throws s _ => some s
  | terminates => none

@[simp] theorem after_returns (s : σ) : (returns s : Call ε σ).after = some s := rfl
@[simp] theorem after_throws (s : σ) (what : ε) : (throws s what).after = some s := rfl
@[simp] theorem after_terminates : (terminates : Call ε σ).after = none := rfl

theorem forEach_map {β : Type*} (f : α → σ → Call ε σ) (g : β → α) (l : List β) (s : σ) :
    forEach f (l.map g) s = forEach (fun b => f (g b)) l s := by
  induction l generalizing s with
  | nil => rfl
  | cons b l ih =>
    rw [List.map_cons, forEach, forEach]
    congr 1
    funext t
    exact ih t

theorem map_map {υ : Type*} (c : Call ε σ) (f : σ → τ) (g : τ → υ) :
    (c.map f).map g = c.map fun s => g (f s) := by
  cases c <;> rfl

theorem andThen_returns (c : Call ε σ) : c.andThen returns = c := by
  cases c <;> rfl

/-- A map that carries one second call to another carries the sequence. -/
theorem andThen_map {c : Call ε σ} {f : σ → τ} {g : σ → Call ε σ} {k : τ → Call ε τ}
    (h : ∀ s, (g s).map f = k (f s)) : (c.andThen g).map f = (c.map f).andThen k := by
  cases c with
  | returns s => exact h s
  | throws s what => rfl
  | terminates => rfl

/-- What commutes with the second call may be done after it. -/
theorem map_andThen {c : Call ε σ} {f : σ → σ} {g : σ → Call ε σ}
    (h : ∀ s, g (f s) = (g s).map f) : (c.map f).andThen g = (c.andThen g).map f :=
  (andThen_map fun s => (h s).symm).symm

/-! ## What a call does -/

/-- A call that returns does so with `P`, one that throws does so from `E`, and one that terminates
the program does so only if `T`. -/
def Post (P E : σ → Prop) (T : Prop) : Call ε σ → Prop
  | returns s => P s
  | throws s _ => E s
  | terminates => T

variable {P P' E E' : σ → Prop} {T T' : Prop} {c : Call ε σ} {s : σ}

@[simp] theorem post_returns : (returns s : Call ε σ).Post P E T ↔ P s := Iff.rfl
@[simp] theorem post_throws {what : ε} : (throws s what).Post P E T ↔ E s := Iff.rfl
@[simp] theorem post_terminates : (terminates : Call ε σ).Post P E T ↔ T := Iff.rfl

theorem Post.of_returns (h : c.Post P E T) (hc : c = returns s) : P s := by
  rw [hc] at h
  exact h

/-- What holds however a call ends holds of the state it leaves. -/
theorem Post.of_after (h : c.Post P P T) (hc : c.after = some s) : P s := by
  cases c with
  | returns t =>
    cases hc
    exact h
  | throws t what =>
    cases hc
    exact h
  | terminates => cases hc

/-- A call that neither throws nor terminates the program returns. -/
theorem Post.exists_returns (h : c.Post P (fun _ => False) False) :
    ∃ s, c = returns s ∧ P s := by
  cases c with
  | returns s => exact ⟨s, rfl, h⟩
  | throws s what => exact h.elim
  | terminates => exact h.elim

/-- A call that does not terminate the program leaves a state. -/
theorem Post.exists_after (h : c.Post P E False) : ∃ s, c.after = some s := by
  cases c with
  | returns s => exact ⟨s, rfl⟩
  | throws s what => exact ⟨s, rfl⟩
  | terminates => exact h.elim

theorem Post.imp (h : c.Post P E T) (hP : ∀ s, P s → P' s) (hE : ∀ s, E s → E' s) (hT : T → T') :
    c.Post P' E' T' := by
  cases c with
  | returns s => exact hP s h
  | throws s what => exact hE s h
  | terminates => exact hT h

theorem Post.and (h : c.Post P E T) (h' : c.Post P' E' T') :
    c.Post (fun s => P s ∧ P' s) (fun s => E s ∧ E' s) (T ∧ T') := by
  cases c with
  | returns s => exact ⟨h, h'⟩
  | throws s what => exact ⟨h, h'⟩
  | terminates => exact ⟨h, h'⟩

theorem post_trivial (c : Call ε σ) : c.Post (fun _ => True) (fun _ => True) True := by
  cases c <;> trivial

theorem Post.andThen {f : σ → Call ε σ} (h : c.Post P E T)
    (hf : ∀ s, P s → (f s).Post P' E T) : (c.andThen f).Post P' E T := by
  cases c with
  | returns s => exact hf s h
  | throws s what => exact h
  | terminates => exact h

theorem Post.map {Q F : τ → Prop} {f : σ → τ} (h : c.Post P E T) (hP : ∀ s, P s → Q (f s))
    (hE : ∀ s, E s → F (f s)) : (c.map f).Post Q F T := by
  cases c with
  | returns s => exact hP s h
  | throws s what => exact hE s h
  | terminates => exact h

/-- **The rule of the loop.** `I done` holds when the elements `done` have been processed. -/
theorem post_forEach {I : List α → σ → Prop} {f : α → σ → Call ε σ} {l : List α}
    (hstep : ∀ done a rest s, l = done ++ a :: rest → I done s →
      (f a s).Post (I (done ++ [a])) E T) (h : I [] s) : (forEach f l s).Post (I l) E T := by
  -- the induction is on what is left, after any part of the list
  have hloop : ∀ rest done s, l = done ++ rest → I done s → (forEach f rest s).Post (I l) E T := by
    intro rest
    induction rest with
    | nil =>
      intro done s heq hs
      rw [heq, List.append_nil]
      exact hs
    | cons a rest ih =>
      intro done s heq hs
      refine (hstep done a rest s heq hs).andThen fun t ht => ih (done ++ [a]) t ?_ ht
      rw [heq, List.append_assoc, List.singleton_append]
  exact hloop l [] s rfl h

end Call
