import Mathlib.Algebra.Order.Ring.Nat
import Mathlib.Data.List.Induction

/-!
# Nodes of a structured text

A node is null, a scalar, a sequence of nodes, or a map with strings as keys; converters bring
values into nodes and back. The nodes and the converters are those of a library that is not
modelled: a development takes a type of nodes with its operations, and the laws that the library
documents. `Node` is the type of the nodes that are defined; what is not, like a key that a map
does not have, is `none`.

## Main definitions

* `Nodes`, `LawfulNodes`: the operations on nodes, and their laws
* `Convert`, `LawfulConvert`: a pair of converters, inverse to each other
* `ofFields fs`: the node that the assignments `fs` make of a null node
* `readOr n k old`: what is read at an optional key, the old value being the default
* `pushAt n k v`: the node `n` after `v` has been appended to its value at `k`
* `Tree`: a type of nodes

## Main results

* `get_ofFields`: a node reads back as it was assigned
* `readOr_ofFields`, `required_ofFields`: a field that was assigned is read
* `get_foldl_pushAt`, `elements_foldl_pushBack`: what was appended is found in its order
* `Tree` has lawful operations, and lawful converters for strings, unsigned integers and lists
-/

namespace Yaml

/-- The operations on nodes. Reading is from a constant node. -/
class Nodes (Node : Type) where
  null : Node
  isNull : Node → Bool
  isSequence : Node → Bool
  isMap : Node → Bool
  /-- `node[k]`, if it is defined -/
  get : Node → String → Option Node
  /-- `node[k] = v` -/
  set : Node → String → Node → Node
  /-- the nodes that a loop over the node passes -/
  elements : Node → List Node
  pushBack : Node → Node → Node

/-- A pair of converters: `encode`, and `as`, which is `none` where the conversion throws. -/
class Convert (Node α : Type) where
  encode : α → Node
  as : Node → Option α

/-- What is converted is read back. -/
class LawfulConvert (Node α : Type) [Convert Node α] : Prop where
  as_encode : ∀ a : α, Convert.as (Convert.encode a : Node) = some a

export Nodes (null isNull isSequence isMap get set elements pushBack)
export Convert (encode as)
export LawfulConvert (as_encode)

theorem as_encode_bind {Node α β : Type} [Convert Node α] [LawfulConvert Node α] (a : α)
    (f : α → Option β) : (as (encode a : Node)).bind f = f a := by
  rw [as_encode]
  rfl

section

variable {Node : Type} [Nodes Node]

/-- A node to whose keys may be assigned: it is or becomes a map. -/
def Assignable (n : Node) : Prop := n = null ∨ isMap n = true

/-- A node to which may be appended: it is or becomes a sequence. -/
def Appendable (n : Node) : Prop := n = null ∨ isSequence n = true

/-- The assignments `node[k] = v` in order, to a null node. -/
def ofFields (fs : List (String × Node)) : Node :=
  fs.foldl (fun n f => set n f.1 f.2) null

theorem ofFields_snoc (fs : List (String × Node)) (f : String × Node) :
    ofFields (fs ++ [f]) = set (ofFields fs) f.1 f.2 := by
  rw [ofFields, List.foldl_append, List.foldl_cons, List.foldl_nil, ofFields]

/-- `if (node[k]) old = node[k].as<α>();`. -/
def readOr {α : Type} [Convert Node α] (n : Node) (k : String) (old : α) : Option α :=
  match get n k with
  | some v => as v
  | none => some old

/-- `node[k].as<α>()`, which throws if `node[k]` is not defined. -/
def required {α : Type} [Convert Node α] (n : Node) (k : String) : Option α := (get n k).bind as

/-- `node[k].push_back(v);`. -/
def pushAt (n : Node) (k : String) (v : Node) : Node :=
  set n k (pushBack ((get n k).getD null) v)

end

/-- The laws of the operations. -/
class LawfulNodes (Node : Type) [Nodes Node] : Prop where
  isSequence_null : isSequence (null : Node) = false
  isNull_of_isMap : ∀ n : Node, isMap n = true → isNull n = false
  get_null : ∀ k, get (null : Node) k = none
  elements_null : elements (null : Node) = []
  isMap_set : ∀ (n : Node) k v, Assignable n → isMap (set n k v) = true
  get_set_self : ∀ (n : Node) k v, Assignable n → get (set n k v) k = some v
  get_set_of_ne : ∀ (n : Node) k k' v, Assignable n → k' ≠ k → get (set n k v) k' = get n k'
  isSequence_pushBack : ∀ n v : Node, Appendable n → isSequence (pushBack n v) = true
  elements_pushBack : ∀ n v : Node, Appendable n → elements (pushBack n v) = elements n ++ [v]

open LawfulNodes

section Lawful

variable {Node : Type} [Nodes Node] [LawfulNodes Node] {n s : Node} {k : String}
  {fs : List (String × Node)}

theorem Assignable.set (h : Assignable n) (k : String) (v : Node) : Assignable (set n k v) :=
  Or.inr (isMap_set n k v h)

theorem Appendable.pushBack (h : Appendable n) (v : Node) : Appendable (pushBack n v) :=
  Or.inr (isSequence_pushBack n v h)

/-! ## Fields -/

theorem assignable_ofFields (fs : List (String × Node)) : Assignable (ofFields fs) := by
  induction fs using List.reverseRecOn with
  | nil => exact Or.inl rfl
  | append_singleton fs f ih =>
    rw [ofFields_snoc]
    exact ih.set f.1 f.2

theorem isMap_ofFields (h : fs ≠ []) : isMap (ofFields fs) = true := by
  induction fs using List.reverseRecOn with
  | nil => exact absurd rfl h
  | append_singleton fs f _ =>
    rw [ofFields_snoc]
    exact isMap_set _ _ _ (assignable_ofFields fs)

/-- **A node reads back as it was assigned**: at every key, its last assignment. -/
theorem get_ofFields (fs : List (String × Node)) (k : String) :
    get (ofFields fs) k = fs.reverse.lookup k := by
  induction fs using List.reverseRecOn with
  | nil => exact get_null k
  | append_singleton fs f ih =>
    obtain ⟨k', v⟩ := f
    rw [ofFields_snoc, List.reverse_concat, List.lookup_cons]
    by_cases hk : k = k'
    · rw [hk, get_set_self _ _ _ (assignable_ofFields fs), beq_self_eq_true]
    · rw [get_set_of_ne _ _ _ _ (assignable_ofFields fs) hk, ih, beq_false_of_ne hk]

section Read

variable {α : Type} [Convert Node α]

/-- A field that was assigned is read. -/
theorem readOr_ofFields [LawfulConvert Node α] {a : α}
    (h : fs.reverse.lookup k = some (encode a)) (default : α) :
    readOr (ofFields fs) k default = some a := by
  rw [readOr, get_ofFields, h]
  exact as_encode a

theorem required_ofFields [LawfulConvert Node α] {a : α}
    (h : fs.reverse.lookup k = some (encode a)) : required (ofFields fs) k = some a := by
  rw [required, get_ofFields, h]
  exact as_encode a

end Read

/-! ## Sequences -/

theorem elements_foldl_pushBack (h : Appendable s) (vs : List Node) :
    elements (vs.foldl pushBack s) = elements s ++ vs := by
  induction vs generalizing s with
  | nil => exact (List.append_nil _).symm
  | cons v vs ih =>
    rw [List.foldl_cons, ih (h.pushBack v), elements_pushBack s v h, List.append_assoc]
    rfl

theorem isSequence_foldl_pushBack (h : isSequence s = true) (vs : List Node) :
    isSequence (vs.foldl pushBack s) = true := by
  induction vs generalizing s with
  | nil => exact h
  | cons v vs ih => exact ih (isSequence_pushBack s v (Or.inr h))

/-- **What was appended at a key is found there.** -/
theorem get_foldl_pushAt (h : isMap n = true) (hk : get n k = some s) (vs : List Node) :
    isMap (vs.foldl (fun m v => pushAt m k v) n) = true ∧
      get (vs.foldl (fun m v => pushAt m k v) n) k = some (vs.foldl pushBack s) := by
  induction vs generalizing n s with
  | nil => exact ⟨h, hk⟩
  | cons v vs ih =>
    have hassign : Assignable n := Or.inr h
    have hpush : get (pushAt n k v) k = some (pushBack s v) := by
      rw [pushAt, get_set_self n k _ hassign, hk, Option.getD_some]
    exact ih (isMap_set n k _ hassign) hpush

end Lawful

/-! ## Trees -/

/-- The value at `k` becomes `v`, at the end of the list if it is new. -/
def upsert {β : Type} (k : String) (v : β) : List (String × β) → List (String × β)
  | [] => [(k, v)]
  | (k', v') :: l => if k = k' then (k, v) :: l else (k', v') :: upsert k v l

theorem lookup_upsert_self {β : Type} (k : String) (v : β) (l : List (String × β)) :
    (upsert k v l).lookup k = some v := by
  induction l with
  | nil => rw [upsert, List.lookup_cons, beq_self_eq_true]
  | cons f l ih =>
    obtain ⟨k', v'⟩ := f
    rw [upsert]
    split
    · rw [List.lookup_cons, beq_self_eq_true]
    · next hne => rw [List.lookup_cons, beq_false_of_ne hne, ih]

theorem lookup_upsert_of_ne {β : Type} {k k' : String} (h : k' ≠ k) (v : β)
    (l : List (String × β)) : (upsert k v l).lookup k' = l.lookup k' := by
  induction l with
  | nil => rw [upsert, List.lookup_cons, beq_false_of_ne h]
  | cons f l ih =>
    obtain ⟨j, w⟩ := f
    rw [upsert]
    split
    · next heq =>
      subst heq
      rw [List.lookup_cons, List.lookup_cons, beq_false_of_ne h]
    · rw [List.lookup_cons, List.lookup_cons, ih]

/-- Nodes as trees. -/
inductive Tree where
  | null
  | scalar (text : String)
  | sequence (nodes : List Tree)
  | map (fields : List (String × Tree))

namespace Tree

/-- Assignment to a key of a scalar or of a sequence, which is not used here, does nothing. -/
protected def set : Tree → String → Tree → Tree
  | .null, k, v => .map [(k, v)]
  | .map fields, k, v => .map (upsert k v fields)
  | n, _, _ => n

/-- Nothing is appended to a scalar or to a map. -/
protected def pushBack : Tree → Tree → Tree
  | .null, v => .sequence [v]
  | .sequence nodes, v => .sequence (nodes ++ [v])
  | n, _ => n

instance : Nodes Tree where
  null := .null
  isNull
    | .null => true
    | _ => false
  isSequence
    | .sequence _ => true
    | _ => false
  isMap
    | .map _ => true
    | _ => false
  get
    | .map fields, k => fields.lookup k
    | _, _ => none
  set := Tree.set
  elements
    | .sequence nodes => nodes
    | _ => []
  pushBack := Tree.pushBack

/-- A node that is or becomes a map is null or a map. -/
theorem assignable_cases {n : Tree} (h : Assignable n) : n = .null ∨ ∃ fields, n = .map fields := by
  rcases h with rfl | h
  · exact Or.inl rfl
  · cases n with
    | map fields => exact Or.inr ⟨fields, rfl⟩
    | _ => cases h

theorem appendable_cases {n : Tree} (h : Appendable n) :
    n = .null ∨ ∃ nodes, n = .sequence nodes := by
  rcases h with rfl | h
  · exact Or.inl rfl
  · cases n with
    | sequence nodes => exact Or.inr ⟨nodes, rfl⟩
    | _ => cases h

instance : LawfulNodes Tree where
  isSequence_null := rfl
  isNull_of_isMap n h := by
    cases n with
    | null => cases h
    | _ => rfl
  get_null _ := rfl
  elements_null := rfl
  isMap_set n k v h := by
    obtain rfl | ⟨fields, rfl⟩ := assignable_cases h <;> rfl
  get_set_self n k v h := by
    obtain rfl | ⟨fields, rfl⟩ := assignable_cases h
    · exact lookup_upsert_self k v []
    · exact lookup_upsert_self k v fields
  get_set_of_ne n k k' v h hne := by
    obtain rfl | ⟨fields, rfl⟩ := assignable_cases h
    · exact lookup_upsert_of_ne hne v []
    · exact lookup_upsert_of_ne hne v fields
  isSequence_pushBack n v h := by
    obtain rfl | ⟨nodes, rfl⟩ := appendable_cases h <;> rfl
  elements_pushBack n v h := by
    obtain rfl | ⟨nodes, rfl⟩ := appendable_cases h <;> rfl

/-! ## The converters of trees -/

instance : Convert Tree String where
  encode s := .scalar s
  as
    | .scalar s => some s
    -- a null node reads as its own text
    | .null => some "null"
    | _ => none

instance : LawfulConvert Tree String where
  as_encode _ := rfl

/-- The number below `bound` that a text of decimal digits shows. -/
def readBelow (bound : ℕ) (digits : List Char) : Option ℕ :=
  if digits ≠ [] ∧ digits.all Char.isDigit = true then
    if Nat.ofDigitChars 10 digits 0 < bound then some (Nat.ofDigitChars 10 digits 0) else none
  else none

theorem readBelow_repr {bound n : ℕ} (h : n < bound) : readBelow bound n.repr.toList = some n := by
  have hall : (Nat.toDigits 10 n).all Char.isDigit = true :=
    List.all_eq_true.mpr fun c hc => Nat.isDigit_of_mem_toDigits (by decide) (by decide) hc
  rw [Nat.toList_repr, readBelow, if_pos ⟨Nat.toDigits_ne_nil, hall⟩,
    Nat.ofDigitChars_ten_toDigits, if_pos h]

instance : Convert Tree UInt32 where
  encode n := .scalar n.toNat.repr
  as
    | .scalar s => (readBelow (2 ^ 32) s.toList).map UInt32.ofNat
    | _ => none

instance : LawfulConvert Tree UInt32 where
  as_encode n := by
    simp only [encode, as]
    rw [readBelow_repr n.toNat_lt, Option.map_some, UInt32.ofNat_toNat]

instance : Convert Tree UInt64 where
  encode n := .scalar n.toNat.repr
  as
    | .scalar s => (readBelow (2 ^ 64) s.toList).map UInt64.ofNat
    | _ => none

instance : LawfulConvert Tree UInt64 where
  as_encode n := by
    simp only [encode, as]
    rw [readBelow_repr n.toNat_lt, Option.map_some, UInt64.ofNat_toNat]

instance {α : Type} [Convert Tree α] : Convert Tree (List α) where
  encode l := .sequence (l.map encode)
  as
    | .sequence nodes => nodes.mapM as
    | _ => none

instance {α : Type} [Convert Tree α] [LawfulConvert Tree α] : LawfulConvert Tree (List α) where
  as_encode l := by
    simp only [encode, as]
    induction l with
    | nil => rfl
    | cons a l ih =>
      rw [List.map_cons, List.mapM_cons, as_encode, ih]
      rfl

end Tree

end Yaml
