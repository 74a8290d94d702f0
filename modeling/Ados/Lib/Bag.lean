import Mathlib.Algebra.Order.Group.Multiset
import Mathlib.Data.List.AList
import Mathlib.Tactic.Abel

/-!
# The contents of slots and of keyed lists

Two containers of lists, with the multiset of the elements they hold: an array of slots, read and
written by index, and a map from keys to lists, where an element is appended to the list of its key.

## Main definitions

* `Bag.slots l`: everything held by an array of slots
* `Bag.keyed m`: everything held by a map from keys to lists
* `Bag.emplaceBack m k x`: append `x` to the list of the key `k`, which is created if missing
* `Bag.taken m k`: the list of the key `k`, empty if there is none

## Main results

* `slots_set`: writing a slot exchanges its old contents for the new ones
* `keyed_erase`, `keyed_emplaceBack`: erasing a key takes its list out, appending adds one element
-/

namespace Bag

variable {α : Type*}

/-! ## Slots -/

/-- Everything held by an array of slots. -/
def slots (l : List (List α)) : Multiset α := (l.flatten : Multiset α)

@[simp] theorem slots_nil : slots ([] : List (List α)) = 0 := rfl

@[simp] theorem slots_cons (b : List α) (l : List (List α)) :
    slots (b :: l) = (b : Multiset α) + slots l := by
  simp [slots]

@[simp] theorem slots_replicate_nil (n : ℕ) : slots (List.replicate n ([] : List α)) = 0 := by
  induction n with
  | zero => rfl
  | succ n ih => simp [List.replicate_succ, ih]

theorem mem_slots {l : List (List α)} {x : α} : x ∈ slots l ↔ ∃ b ∈ l, x ∈ b := by
  simp [slots]

theorem slots_set {l : List (List α)} {i : ℕ} {b : List α} (h : l[i]? = some b) (b' : List α) :
    slots (l.set i b') + b = slots l + b' := by
  induction l generalizing i with
  | nil => simp at h
  | cons c l ih =>
    cases i with
    | zero =>
      obtain rfl : c = b := by simpa using h
      simp only [List.set_cons_zero, slots_cons]
      abel
    | succ i =>
      simp only [List.set_cons_succ, slots_cons, add_assoc]
      rw [ih (by simpa using h)]

theorem mem_slots_iff_getElem? {l : List (List α)} {x : α} :
    x ∈ slots l ↔ ∃ (p : ℕ) (b : List α), l[p]? = some b ∧ x ∈ b := by
  rw [mem_slots]
  constructor
  · rintro ⟨b, hb, hx⟩
    obtain ⟨p, hp⟩ := List.mem_iff_getElem?.mp hb
    exact ⟨p, b, hp, hx⟩
  · rintro ⟨p, b, hp, hx⟩
    exact ⟨b, List.mem_of_getElem? hp, hx⟩

/-- After emptying a slot the others hold what they held. -/
theorem exists_mem_set_nil {l : List (List α)} {i p : ℕ} {x : α} :
    (∃ b : List α, (l.set i [])[p]? = some b ∧ x ∈ b) ↔
      (∃ b : List α, l[p]? = some b ∧ x ∈ b) ∧ ¬ i = p := by
  rw [List.getElem?_set]
  by_cases hp : i = p
  · simp only [hp, if_true, not_true_eq_false, and_false, iff_false]
    rintro ⟨b, hb, hx⟩
    split at hb
    · cases hb
      exact absurd hx (by simp)
    · exact absurd hb (by simp)
  · simp [hp]

/-- Emptying a slot takes its contents out. -/
theorem slots_set_nil {l : List (List α)} {i : ℕ} {b : List α} (h : l[i]? = some b) :
    slots l = slots (l.set i []) + b := by
  rw [slots_set h]
  exact (add_zero _).symm

/-- Appending to a slot adds one element. -/
theorem slots_set_append {l : List (List α)} {i : ℕ} {b : List α} (h : l[i]? = some b) (x : α) :
    slots (l.set i (b ++ [x])) = slots l + {x} := by
  have hset := slots_set h (b ++ [x])
  rw [← Multiset.coe_add, ← add_assoc, add_right_comm] at hset
  exact add_right_cancel hset

/-- Writing an element with the same image leaves the images as they were. -/
theorem map_set_of_eq {β : Type*} {f : α → β} {l : List α} {i : ℕ} {a b : α}
    (h : l[i]? = some a) (hf : f b = f a) : (l.set i b).map f = l.map f := by
  obtain ⟨hlt, rfl⟩ := List.getElem?_eq_some_iff.mp h
  rw [List.map_set, hf, ← List.getElem_map f (h := by simpa using hlt)]
  exact List.set_getElem_self _

/-- Writing an element exchanges its old image for the new one in the sum of the images. -/
theorem sum_map_set_add {M : Type*} [AddCommMonoid M] (f : α → M) {l : List α} {i : ℕ} {a : α}
    (h : l[i]? = some a) (b : α) : ((l.set i b).map f).sum + f a = (l.map f).sum + f b := by
  induction l generalizing i with
  | nil => simp at h
  | cons c l ih =>
    cases i with
    | zero =>
      obtain rfl : c = a := by simpa using h
      simp only [List.set_cons_zero, List.map_cons, List.sum_cons]
      abel
    | succ i =>
      simp only [List.set_cons_succ, List.map_cons, List.sum_cons, add_assoc]
      rw [ih (by simpa using h)]

/-- Erasing an element takes its image out of the sum of the images. -/
theorem sum_map_eraseIdx_add {M : Type*} [AddCommMonoid M] (f : α → M) {l : List α} {i : ℕ} {a : α}
    (h : l[i]? = some a) : ((l.eraseIdx i).map f).sum + f a = (l.map f).sum := by
  induction l generalizing i with
  | nil => simp at h
  | cons c l ih =>
    cases i with
    | zero =>
      obtain rfl : c = a := by simpa using h
      simp only [List.eraseIdx_cons_zero, List.map_cons, List.sum_cons]
      abel
    | succ i =>
      simp only [List.eraseIdx_cons_succ, List.map_cons, List.sum_cons, add_assoc]
      rw [ih (by simpa using h)]

/-- Writing an element whose image is larger by `x` makes the sum of the images larger by `x`. -/
theorem sum_map_set {M : Type*} [AddCancelCommMonoid M] {f : α → M} {l : List α} {i : ℕ} {a b : α}
    {x : M} (h : l[i]? = some a) (hf : f b = f a + x) :
    ((l.set i b).map f).sum = (l.map f).sum + x := by
  have hsum := sum_map_set_add f h b
  rw [hf, add_comm (f a), ← add_assoc] at hsum
  exact add_right_cancel hsum

/-! ## Keyed lists -/

section Keyed

variable {κ : Type*} [DecidableEq κ]

/-- Everything held by a map from keys to lists. -/
def keyed (m : AList fun _ : κ => List α) : Multiset α := slots (m.entries.map Sigma.snd)

/-- The list of a key, empty if the key is missing. -/
def taken (m : AList fun _ : κ => List α) (k : κ) : List α := (m.lookup k).getD []

/-- Append an element to the list of a key. -/
def emplaceBack (m : AList fun _ : κ => List α) (k : κ) (x : α) : AList fun _ : κ => List α :=
  m.insert k (taken m k ++ [x])

omit [DecidableEq κ] in
@[simp] theorem keyed_empty : keyed (∅ : AList fun _ : κ => List α) = 0 := rfl

theorem slots_kerase {entries : List (Sigma fun _ : κ => List α)} (hnodup : entries.NodupKeys)
    (k : κ) :
    slots (entries.map Sigma.snd) =
      slots ((entries.kerase k).map Sigma.snd) + ((entries.dlookup k).getD [] : List α) := by
  induction entries with
  | nil => rfl
  | cons e entries ih =>
    by_cases hk : k = e.1
    · subst hk
      rw [List.kerase_cons_eq rfl]
      rcases e with ⟨k, b⟩
      simp [add_comm]
    · rw [List.kerase_cons_ne hk, List.dlookup_cons_ne _ _ hk]
      simp only [List.map_cons, slots_cons, add_assoc]
      rw [ih (List.nodupKeys_cons.mp hnodup).2]

/-- Erasing a key takes its list out. -/
theorem keyed_erase (m : AList fun _ : κ => List α) (k : κ) :
    keyed m = keyed (m.erase k) + taken m k := slots_kerase m.nodupKeys k

theorem keyed_insert (m : AList fun _ : κ => List α) (k : κ) (b : List α) :
    keyed (m.insert k b) = keyed (m.erase k) + b := by
  have hentries : (m.erase k).entries = m.entries.kerase k := rfl
  simp only [keyed, AList.entries_insert, hentries, List.map_cons, slots_cons]
  exact add_comm _ _

theorem keyed_emplaceBack (m : AList fun _ : κ => List α) (k : κ) (x : α) :
    keyed (emplaceBack m k x) = keyed m + {x} := by
  rw [emplaceBack, keyed_insert, ← Multiset.coe_add, ← add_assoc, ← keyed_erase]
  rfl

theorem mem_keyed {m : AList fun _ : κ => List α} {x : α} :
    x ∈ keyed m ↔ ∃ k b, m.lookup k = some b ∧ x ∈ b := by
  simp only [keyed, mem_slots, List.mem_map]
  constructor
  · rintro ⟨b, ⟨⟨k, c⟩, he, rfl⟩, hx⟩
    exact ⟨k, c, AList.mem_lookup_iff.mpr he, hx⟩
  · rintro ⟨k, b, hb, hx⟩
    exact ⟨b, ⟨⟨k, b⟩, AList.mem_lookup_iff.mp hb, rfl⟩, hx⟩

theorem lookup_emplaceBack_self (m : AList fun _ : κ => List α) (k : κ) (x : α) :
    (emplaceBack m k x).lookup k = some (taken m k ++ [x]) := AList.lookup_insert _

theorem lookup_emplaceBack_ne {m : AList fun _ : κ => List α} {k j : κ} (h : j ≠ k) (x : α) :
    (emplaceBack m k x).lookup j = m.lookup j := AList.lookup_insert_ne h

end Keyed

/-! ## Distinct keys -/

/-- In a list with distinct images an element is the only one with its image. -/
theorem filter_eq_singleton {κ : Type*} [DecidableEq κ] {f : α → κ} {l : List α} {a : α}
    (hl : (l.map f).Nodup) (ha : a ∈ l) : l.filter (fun b => f b = f a) = [a] := by
  induction l with
  | nil => simp at ha
  | cons b l ih =>
    obtain ⟨hb, hl⟩ := List.nodup_cons.mp hl
    rcases List.mem_cons.mp ha with rfl | ha
    · have hnone : l.filter (fun b => f b = f a) = [] := by
        rw [List.filter_eq_nil_iff]
        intro c hc heq
        exact hb (of_decide_eq_true heq ▸ List.mem_map_of_mem hc)
      rw [List.filter_cons_of_pos (by simp), hnone]
    · have hne : f b ≠ f a := fun heq => hb (heq ▸ List.mem_map_of_mem ha)
      rw [List.filter_cons_of_neg (by simpa using hne), ih hl ha]

/-- Of two elements of a list, one stands before the other. -/
theorem sublist_or_sublist {l : List α} {a b : α} (ha : a ∈ l) (hb : b ∈ l) (hne : a ≠ b) :
    [a, b].Sublist l ∨ [b, a].Sublist l := by
  obtain ⟨l₁, l₂, rfl⟩ := List.append_of_mem ha
  rcases List.mem_append.mp hb with hb | hb
  · right
    exact (List.singleton_sublist.mpr hb).append (List.singleton_sublist.mpr (by simp))
  · left
    apply List.Sublist.trans _ (List.sublist_append_right l₁ _)
    apply List.Sublist.cons_cons a
    apply List.singleton_sublist.mpr
    exact (List.mem_cons.mp hb).resolve_left hne.symm

/-- A part of a bag with distinct images has distinct images. -/
theorem nodup_map_of_le {κ : Type*} {f : α → κ} {l : List α} {b : List α}
    (hl : (l.map f).Nodup) (hle : (b : Multiset α) ≤ l) : (b.map f).Nodup := by
  have h := Multiset.map_le_map (f := f) hle
  rw [Multiset.map_coe, Multiset.map_coe] at h
  exact Multiset.coe_nodup.mp (Multiset.nodup_of_le h (Multiset.coe_nodup.mpr hl))

end Bag
