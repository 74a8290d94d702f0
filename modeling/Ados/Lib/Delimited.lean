import Mathlib.Data.List.Basic

/-!
# Lists with delimiters

A list that is put together with delimiters can be taken apart at a delimiter that is in none of the
parts on one of its sides.

## Main results

* `Delimited.front_eq_iff`, `Delimited.back_eq_iff`: at a delimiter that is not in what comes
  before, or not in what comes after
* `Delimited.lines_eq_iff`: at the delimiters that end the parts, for a list of them
-/

namespace Delimited

variable {α : Type*} {c : α} {x y u v : List α}

/-- A delimiter that is in neither front is the first one. -/
theorem front_eq_iff (hx : c ∉ x) (hy : c ∉ y) : x ++ c :: u = y ++ c :: v ↔ x = y ∧ u = v := by
  constructor
  · intro h
    induction x generalizing y with
    | nil =>
      cases y with
      | nil => exact ⟨rfl, (List.cons.inj h).2⟩
      | cons b y =>
        obtain rfl : c = b := (List.cons.inj h).1
        exact absurd (List.mem_cons_self ..) hy
    | cons a x ih =>
      cases y with
      | nil =>
        obtain rfl : a = c := (List.cons.inj h).1
        exact absurd (List.mem_cons_self ..) hx
      | cons b y =>
        obtain ⟨rfl, hrest⟩ := List.cons.inj h
        obtain ⟨rfl, rfl⟩ :=
          ih (List.not_mem_of_not_mem_cons hx) (List.not_mem_of_not_mem_cons hy) hrest
        exact ⟨rfl, rfl⟩
  · rintro ⟨rfl, rfl⟩
    rfl

/-- A delimiter that is in neither rest is the last one. -/
theorem back_eq_iff (hu : c ∉ u) (hv : c ∉ v) : x ++ c :: u = y ++ c :: v ↔ x = y ∧ u = v := by
  have hfront : u.reverse ++ c :: x.reverse = v.reverse ++ c :: y.reverse ↔
      u.reverse = v.reverse ∧ x.reverse = y.reverse :=
    front_eq_iff (List.mem_reverse.not.mpr hu) (List.mem_reverse.not.mpr hv)
  rw [← List.reverse_inj, List.reverse_append, List.reverse_append, List.reverse_cons,
    List.reverse_cons, List.append_assoc, List.append_assoc, List.singleton_append,
    List.singleton_append, hfront, List.reverse_inj, List.reverse_inj, and_comm]

/-- **Entries that are written without an end of a line, each with one after it, are told apart**
as far as the texts of two of them are. -/
theorem lines_eq_iff {β γ : Type*} {f : β → List α} {g : β → γ} {l l' : List β}
    (h : ∀ a ∈ l, c ∉ f a) (h' : ∀ b ∈ l', c ∉ f b)
    (hfg : ∀ a ∈ l, ∀ b ∈ l', f a = f b ↔ g a = g b) :
    (l.flatMap fun a => f a ++ [c]) = (l'.flatMap fun b => f b ++ [c]) ↔ l.map g = l'.map g := by
  induction l generalizing l' with
  | nil =>
    cases l' with
    | nil => simp
    | cons b l' => simp
  | cons a l ih =>
    cases l' with
    | nil => simp
    | cons b l' =>
      have hrest := ih (fun x hx => h x (List.mem_cons_of_mem a hx))
        (fun y hy => h' y (List.mem_cons_of_mem b hy))
        fun x hx y hy => hfg x (List.mem_cons_of_mem a hx) y (List.mem_cons_of_mem b hy)
      have hfirst := hfg a (List.mem_cons_self ..) b (List.mem_cons_self ..)
      simp only [List.flatMap_cons, List.append_assoc, List.singleton_append, List.map_cons,
        List.cons.injEq]
      rw [front_eq_iff (h a (List.mem_cons_self ..)) (h' b (List.mem_cons_self ..)), hfirst, hrest]

end Delimited
