import Triepack.Library.OrderedTree
import Triepack.V2.RankSelect

/-!
# LOUDS navigation

On the degrees of a tree in breadth-first order, each in unary, the three functions lead from the
number of a node to the numbers of its children.
-/

namespace Triepack.V2

open BitString Louds OrderedTree

/-- `tp2_louds_child_begin`. -/
def tp2LoudsChildBegin (bv : Bitvec) (v : Nat) : Nat := if v = 0 then 0 else tp2BvSelect0 bv (v - 1) + 1

/-- `tp2_louds_child_count`. -/
def tp2LoudsChildCount (bv : Bitvec) (v : Nat) : Nat :=
  let begin_ := tp2LoudsChildBegin bv v
  let end_ := tp2BvSelect0 bv v
  if end_ > begin_ then end_ - begin_ else 0

/-- `tp2_louds_child`. -/
def tp2LoudsChild (bv : Bitvec) (v k : Nat) : Nat := tp2BvRank1 bv (tp2LoudsChildBegin bv v + k) + 1

/-- The children of a node in order. -/
def loudsChildren (bv : Bitvec) (v : Nat) : List Nat :=
  (List.range (tp2LoudsChildCount bv v)).map (tp2LoudsChild bv v)

/-- The nodes that a walk visits which takes the next one from a stack and pushes its children. -/
def loudsWalk (bv : Bitvec) : (fuel : Nat) → (stack : List Nat) → List Nat
  | fuel + 1, v :: stack => v :: loudsWalk bv fuel ((loudsChildren bv v).reverse ++ stack)
  | _, _ => []

/-- The bits of a tree: its degrees in breadth-first order, each in unary. -/
def treeBits (t : Tree) : List Bool := degreeBits ((breadthFirst t).map fun x => x.2.kids.length)

/-! ## One node -/

theorem sum_degrees_eq (t : Tree) (v : Nat) :
    (((breadthFirst t).map fun x => x.2.kids.length).take v).sum =
      childrenBefore Place.kids (breadthFirst t) v := by
  simp only [childrenBefore, Place.length_kids, List.map_take]

section Node

variable {bv : Bitvec} {t s : Tree} {a : List Nat} (hbv : bv.Indexed (treeBits t)) (ha : t.at? a = some s)

include ha

theorem degree_number : ((breadthFirst t).map fun x => x.2.kids.length)[number t a]? = some s.kids.length := by
  rw [List.getElem?_map, breadthFirst_number ha, Option.map_some]

include hbv

/-- A zero ends the run of a node. -/
theorem tp2BvSelect0_number : tp2BvSelect0 bv (number t a) =
    childrenBefore Place.kids (breadthFirst t) (number t a) + number t a + s.kids.length := by
  have hzero := zero_at (degree_number ha)
  rw [sum_degrees_eq] at hzero
  exact bvSelect_of_selects hbv hzero

theorem tp2LoudsChildBegin_number : tp2LoudsChildBegin bv (number t a) =
    childrenBefore Place.kids (breadthFirst t) (number t a) + number t a := by
  have hlt := number_lt ha
  rw [tp2LoudsChildBegin]
  rcases hv : number t a with _ | v
  · rfl
  · -- the node in front has the number before
    obtain ⟨⟨b, u⟩, hu⟩ : ∃ x, (breadthFirst t)[v]? = some x :=
      ⟨_, List.getElem?_eq_getElem (by rw [length_breadthFirst]; omega)⟩
    have hnumber := number_of_getElem? hu
    have hfront := tp2BvSelect0_number hbv (mem_breadthFirst.mp (List.mem_of_getElem? hu))
    rw [hnumber] at hfront
    have hnext := @childrenBefore_succ _ Place.kids _ _ _ hu
    rw [Place.length_kids] at hnext
    rw [if_neg (Nat.succ_ne_zero v), Nat.add_sub_cancel, hfront, hnext, Nat.add_right_comm _ v, Nat.add_assoc]

/-- The run of a node stands behind those of the nodes in front. -/
theorem treeBits_run : ∃ front back,
    treeBits t = front ++ (List.replicate s.kids.length true ++ false :: back) ∧
      front.length = tp2LoudsChildBegin bv (number t a) ∧ front.count false = number t a := by
  have hsplit := degreeBits_split (degree_number ha)
  have hlt := number_lt ha
  have hle : number t a ≤ ((breadthFirst t).map fun x => x.2.kids.length).length := by
    rw [List.length_map, length_breadthFirst]
    exact hlt.le
  refine ⟨_, _, hsplit, ?_, ?_⟩
  · rw [length_degreeBits_take hle, sum_degrees_eq, tp2LoudsChildBegin_number hbv ha]
  · rw [count_false_degreeBits, List.length_take, Nat.min_eq_left hle]

theorem tp2LoudsChildCount_number : tp2LoudsChildCount bv (number t a) = s.kids.length := by
  rw [tp2LoudsChildCount]
  simp only [tp2LoudsChildBegin_number hbv ha, tp2BvSelect0_number hbv ha]
  split_ifs <;> omega

theorem tp2LoudsChild_number {k : Nat} (hk : k < s.kids.length) :
    tp2LoudsChild bv (number t a) k = number t (a ++ [k]) := by
  obtain ⟨hzero, _⟩ := zero_at (degree_number ha)
  obtain ⟨hlt, _⟩ := List.getElem?_eq_some_iff.mp hzero
  have hones := ones_before (degree_number ha) hk.le
  rw [sum_degrees_eq] at hlt hones
  rw [tp2LoudsChild, tp2LoudsChildBegin_number hbv ha, tp2BvRank1_eq hbv, number_child ha hk,
    Nat.min_eq_left (show _ ≤ (treeBits t).length by rw [treeBits]; omega), RankSelect.rank, treeBits, hones]

theorem loudsChildren_number :
    loudsChildren bv (number t a) = (Place.kids (a, s)).map fun x => number t x.1 := by
  apply List.ext_getElem?
  intro k
  rw [loudsChildren, tp2LoudsChildCount_number hbv ha, List.getElem?_map, List.getElem?_map,
    Place.kids_getElem?]
  by_cases hk : k < s.kids.length
  · rw [List.getElem?_range hk, List.getElem?_eq_getElem hk, Option.map_some, tp2LoudsChild_number hbv ha hk]
    rfl
  · rw [List.getElem?_eq_none (by rw [List.length_range]; omega), List.getElem?_eq_none (by simpa using hk)]
    rfl

end Node

/-! ## Walks -/

/-- A walk visits the nodes below those on its stack. -/
theorem loudsWalk_perm {bv : Bitvec} {t : Tree} (hbv : bv.Indexed (treeBits t)) {fuel : Nat}
    {xs : List Place} (hxs : ∀ x ∈ xs, t.at? x.1 = some x.2) (hfuel : (xs.map fun x => x.2.size).sum ≤ fuel) :
    (loudsWalk bv fuel (xs.map fun x => number t x.1)).Perm
      ((xs.flatMap fun x => addresses x.1 x.2).map (number t)) := by
  induction fuel generalizing xs with
  | zero =>
    cases xs with
    | nil => exact .nil
    | cons x xs =>
      have hpos := x.2.size_pos
      rw [List.map_cons, List.sum_cons] at hfuel
      omega
  | succ fuel ih =>
    cases xs with
    | nil => exact .nil
    | cons x xs =>
      have hx := hxs x (by simp)
      have hkids : ∀ y ∈ (Place.kids x).reverse ++ xs, t.at? y.1 = some y.2 := by
        intro y hy
        rcases List.mem_append.mp hy with hy | hy
        · obtain ⟨k, haddr, hk⟩ := Place.mem_kids.mp (List.mem_reverse.mp hy)
          rw [haddr, Tree.at?_concat, hx]
          exact hk
        · exact hxs y (List.mem_cons_of_mem _ hy)
      have hsize := sum_size_kids x
      have hsum : (((Place.kids x).reverse ++ xs).map fun y => y.2.size).sum ≤ fuel := by
        rw [List.map_cons, List.sum_cons] at hfuel
        rw [List.map_append, List.map_reverse, List.sum_append, List.sum_reverse]
        omega
      have hstack : (loudsChildren bv (number t x.1)).reverse ++ xs.map (fun y => number t y.1) =
          ((Place.kids x).reverse ++ xs).map fun y => number t y.1 := by
        rw [loudsChildren_number hbv hx, List.map_append, List.map_reverse]
      rw [List.map_cons, loudsWalk, hstack, List.flatMap_cons, addresses_eq, List.cons_append, List.map_cons]
      refine ((ih hkids hsum).trans ?_).cons _
      rw [← List.flatMap_append]
      exact ((List.reverse_perm _).append_right xs).flatMap_right _ |>.map _

/-! ## Navigation is the tree -/

/-- The three functions say of every node where its run begins and what the numbers of its children are,
and a walk over them visits every node once. -/
structure Bitvec.Navigates (bv : Bitvec) (t : Tree) : Prop where
  childBegin : ∀ a s, t.at? a = some s → ∃ front back,
    treeBits t = front ++ (List.replicate s.kids.length true ++ false :: back) ∧
      front.length = tp2LoudsChildBegin bv (number t a) ∧ front.count false = number t a
  childCount : ∀ a s, t.at? a = some s → tp2LoudsChildCount bv (number t a) = s.kids.length
  child : ∀ a s, t.at? a = some s → ∀ k < s.kids.length,
    tp2LoudsChild bv (number t a) k = number t (a ++ [k])
  walk : ∀ fuel, t.size ≤ fuel → (loudsWalk bv fuel [0]).Perm (List.range t.size)

/-- On any bytes that begin with the bits of a tree the functions are the tree. -/
theorem navigates_treeBits {t : Tree} {bits : List UInt8}
    (hbits : (bytesBits bits).take (treeBits t).length = treeBits t) :
    (tp2BvCreate bits (treeBits t).length).Navigates t := by
  have hle : (treeBits t).length ≤ 8 * bits.length := by
    have hlen := congrArg List.length hbits
    rw [List.length_take, length_bytesBits] at hlen
    omega
  have hbv := tp2BvCreate_indexed hle
  rw [hbits] at hbv
  have hroot : number t [] = 0 := number_of_getElem? (s := t) (by
    conv_lhs => rw [breadthFirst_breadthFirst t]
    rfl)
  refine ⟨fun a s ha => treeBits_run hbv ha, fun a s ha => tp2LoudsChildCount_number hbv ha,
    fun a s ha k hk => tp2LoudsChild_number hbv ha hk, fun fuel hfuel => ?_⟩
  have hwalk := @loudsWalk_perm _ t hbv fuel [([], t)] (by simp [Tree.at?]) (by simpa using hfuel)
  rw [List.map_singleton, hroot, List.flatMap_singleton] at hwalk
  exact hwalk.trans (map_number_addresses t)

/-- The tree of five nodes whose root has three children, the first of them one. -/
def fiveNodes : Tree := .node [.node [.node []], .node [], .node []]

theorem navigates_fiveNodes : (tp2BvCreate [0xE8, 0x7F] (treeBits fiveNodes).length).Navigates fiveNodes :=
  navigates_treeBits (by decide)

end Triepack.V2
