import Mathlib.Algebra.BigOperators.Group.List.Basic
import Mathlib.Algebra.GroupWithZero.Nat
import Mathlib.Algebra.Order.Group.Nat
import Mathlib.Tactic.Common

/-!
# Trees by their degrees, level by level

In breadth-first order a node has its children behind those of all nodes in front of it. The degrees
of the nodes in unary, each ended by a zero, are bits from which the number of every child can be
counted.
-/

namespace Louds

/-! ## Numbers of children -/

section Order

variable {ν : Type*} {kids : ν → List ν} {order : List ν} {root : ν}

/-- The number of nodes that are children of nodes in front of node `v`. -/
def childrenBefore (kids : ν → List ν) (order : List ν) (v : Nat) : Nat :=
  ((order.take v).map fun n => (kids n).length).sum

theorem childrenBefore_succ {v : Nat} {n : ν} (hv : order[v]? = some n) :
    childrenBefore kids order (v + 1) = childrenBefore kids order v + (kids n).length := by
  obtain ⟨hlt, rfl⟩ := List.getElem?_eq_some_iff.mp hv
  rw [childrenBefore, childrenBefore, List.take_succ_eq_append_getElem hlt, List.map_append,
    List.sum_append, List.map_singleton, List.sum_singleton]

/-- The nodes are the root and then the children of all nodes. -/
def BreadthFirst (kids : ν → List ν) (root : ν) (order : List ν) : Prop :=
  order = root :: order.flatMap kids

/-- Child `k` of node `v` has the number that the nodes in front of it give it. -/
theorem BreadthFirst.child (h : BreadthFirst kids root order) {v k : Nat} {n : ν}
    (hv : order[v]? = some n) (hk : k < (kids n).length) :
    order[childrenBefore kids order v + k + 1]? = (kids n)[k]? := by
  obtain ⟨hlt, hget⟩ := List.getElem?_eq_some_iff.mp hv
  have hsplit : order.flatMap kids =
      (order.take v).flatMap kids ++ (kids n ++ (order.drop (v + 1)).flatMap kids) := by
    conv_lhs => rw [← List.take_append_drop v order, List.drop_eq_getElem_cons hlt, hget]
    rw [List.flatMap_append, List.flatMap_cons]
  have hbefore : ((order.take v).flatMap kids).length = childrenBefore kids order v := by
    rw [List.length_flatMap]
    rfl
  have hnext : ∀ i, order[i + 1]? = (order.flatMap kids)[i]? := fun i =>
    (congrArg (fun o => o[i + 1]?) h).trans List.getElem?_cons_succ
  rw [hnext, hsplit, List.getElem?_append_right (by omega), hbefore,
    Nat.add_sub_cancel_left, List.getElem?_append_left hk]

end Order

/-! ## Degrees in unary -/

/-- The degrees in unary. -/
def degreeBits (degrees : List Nat) : List Bool :=
  degrees.flatMap fun d => List.replicate d true ++ [false]

variable {degrees : List Nat}

theorem count_true_degreeBits (degrees : List Nat) : (degreeBits degrees).count true = degrees.sum := by
  induction degrees with
  | nil => rfl
  | cons d degrees ih =>
    rw [degreeBits, List.flatMap_cons, List.count_append, List.count_append, List.count_replicate_self,
      List.sum_cons, ← ih]
    simp [degreeBits]

theorem count_false_degreeBits (degrees : List Nat) :
    (degreeBits degrees).count false = degrees.length := by
  induction degrees with
  | nil => rfl
  | cons d degrees ih =>
    rw [degreeBits, List.flatMap_cons, List.count_append, List.count_append, List.length_cons, ← ih]
    simp [degreeBits, List.count_replicate, Nat.add_comm]

theorem length_degreeBits (degrees : List Nat) :
    (degreeBits degrees).length = degrees.sum + degrees.length := by
  induction degrees with
  | nil => rfl
  | cons d degrees ih =>
    rw [degreeBits, List.flatMap_cons, List.length_append, ← degreeBits, ih]
    simp
    omega

/-- The bits up to a degree, that degree, and the bits behind it. -/
theorem degreeBits_split {v d : Nat} (hv : degrees[v]? = some d) :
    degreeBits degrees = degreeBits (degrees.take v) ++
      (List.replicate d true ++ (false :: degreeBits (degrees.drop (v + 1)))) := by
  obtain ⟨hlt, hget⟩ := List.getElem?_eq_some_iff.mp hv
  conv_lhs => rw [← List.take_append_drop v degrees, List.drop_eq_getElem_cons hlt, hget]
  simp [degreeBits]

theorem length_degreeBits_take {v : Nat} (hv : v ≤ degrees.length) :
    (degreeBits (degrees.take v)).length = (degrees.take v).sum + v := by
  rw [length_degreeBits, List.length_take, Nat.min_eq_left hv]

/-- The zero of number `v` ends the degree of node `v`. -/
theorem zero_at {v d : Nat} (hv : degrees[v]? = some d) :
    (degreeBits degrees)[(degrees.take v).sum + v + d]? = some false ∧
      ((degreeBits degrees).take ((degrees.take v).sum + v + d)).count false = v := by
  obtain ⟨hlt, _⟩ := List.getElem?_eq_some_iff.mp hv
  have hlen := length_degreeBits_take (Nat.le_of_lt hlt)
  have hsum : (degrees.take v).sum + v + d =
      (degreeBits (degrees.take v) ++ List.replicate d true).length := by
    rw [List.length_append, hlen, List.length_replicate]
  rw [degreeBits_split hv, ← List.append_assoc, hsum]
  refine ⟨?_, ?_⟩
  · rw [List.getElem?_append_right (Nat.le_refl _), Nat.sub_self]
    rfl
  · rw [List.take_left, List.count_append, count_false_degreeBits, List.length_take,
      Nat.min_eq_left (Nat.le_of_lt hlt)]
    simp [List.count_replicate]

/-- Among the children of a node every one is one more bit. -/
theorem ones_before {v d k : Nat} (hv : degrees[v]? = some d) (hk : k ≤ d) :
    ((degreeBits degrees).take ((degrees.take v).sum + v + k)).count true = (degrees.take v).sum + k := by
  obtain ⟨hlt, _⟩ := List.getElem?_eq_some_iff.mp hv
  have hlen := length_degreeBits_take (Nat.le_of_lt hlt)
  have hones : List.replicate d true = List.replicate k true ++ List.replicate (d - k) true := by
    rw [← List.replicate_add, Nat.add_sub_cancel' hk]
  have hsum : (degrees.take v).sum + v + k =
      (degreeBits (degrees.take v) ++ List.replicate k true).length := by
    rw [List.length_append, hlen, List.length_replicate]
  rw [degreeBits_split hv, hones, List.append_assoc, ← List.append_assoc, hsum, List.take_left,
    List.count_append, count_true_degreeBits, List.count_replicate_self]

end Louds
