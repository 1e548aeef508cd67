import Mathlib.Algebra.Order.BigOperators.Group.List
import Mathlib.Algebra.GroupWithZero.Nat
import Mathlib.Algebra.Order.Group.Nat
import Mathlib.Data.List.Nodup
import Mathlib.Tactic.Common
import Triepack.Library.Louds

/-!
# Ordered trees level by level

A node of a finite ordered tree is known by its address, the row of choices that leads to it from the
root. The breadth-first order lists all nodes level by level, and a node's number is its place there.
-/

namespace OrderedTree

open Louds

inductive Tree where
  | node (kids : List Tree)

namespace Tree

def kids : Tree → List Tree
  | node cs => cs

/-- Induction over a tree: what holds of it when it holds of its children. -/
theorem induction_on {P : Tree → Prop} (h : ∀ cs, (∀ c ∈ cs, P c) → P (node cs)) (t : Tree) : P t :=
  @Tree.rec P (fun cs => ∀ c ∈ cs, P c) h (by simp)
    (fun _ _ hc hcs x hx => (List.mem_cons.mp hx).elim (fun heq => heq ▸ hc) (hcs x)) t

mutual

/-- The number of nodes. -/
def size : Tree → Nat
  | node cs => 1 + kidsSize cs

def kidsSize : List Tree → Nat
  | [] => 0
  | c :: cs => size c + kidsSize cs

end

theorem kidsSize_eq (cs : List Tree) : kidsSize cs = (cs.map size).sum := by
  induction cs with
  | nil => rfl
  | cons c cs ih => rw [kidsSize, ih, List.map_cons, List.sum_cons]

theorem size_eq (t : Tree) : t.size = 1 + (t.kids.map size).sum := by
  obtain ⟨cs⟩ := t
  rw [size, kidsSize_eq]
  rfl

/-- The node at an address, with all that is below it. -/
def at? : Tree → List Nat → Option Tree
  | t, [] => some t
  | t, k :: a => t.kids[k]?.bind fun c => c.at? a

theorem at?_append (t : Tree) (a b : List Nat) : t.at? (a ++ b) = (t.at? a).bind fun s => s.at? b := by
  induction a generalizing t with
  | nil => rfl
  | cons k a ih =>
    rw [List.cons_append, at?, at?, Option.bind_assoc]
    simp only [ih]

theorem at?_concat (t : Tree) (a : List Nat) (k : Nat) :
    t.at? (a ++ [k]) = (t.at? a).bind fun s => s.kids[k]? := by
  have hlast : ∀ s : Tree, s.at? [k] = s.kids[k]? := fun s => Option.bind_fun_some _
  simp only [at?_append, hlast]

/-- A node below another one is smaller. -/
theorem size_add_length_le {t s : Tree} {a : List Nat} (h : t.at? a = some s) :
    s.size + a.length ≤ t.size := by
  induction a generalizing t with
  | nil =>
    obtain rfl := Option.some.inj h
    exact le_rfl
  | cons k a ih =>
    obtain ⟨c, hc, hs⟩ := Option.bind_eq_some_iff.mp h
    have hle := ih hs
    have hsum := List.le_sum_of_mem (List.mem_map_of_mem (f := size) (List.mem_of_getElem? hc))
    rw [size_eq t, List.length_cons]
    omega

theorem size_pos (t : Tree) : 0 < t.size := by
  rw [size_eq]
  omega

end Tree

/-! ## Nodes by their addresses -/

/-- A node: its address and what is below it. -/
abbrev Place : Type := List Nat × Tree

/-- The children of a node from left to right. -/
def Place.kids (x : Place) : List Place := x.2.kids.mapIdx fun k c => (x.1 ++ [k], c)

theorem Place.kids_getElem? (x : Place) (k : Nat) :
    (Place.kids x)[k]? = x.2.kids[k]?.map fun c => (x.1 ++ [k], c) := List.getElem?_mapIdx

theorem Place.length_kids (x : Place) : (Place.kids x).length = x.2.kids.length := List.length_mapIdx

theorem Place.mem_kids {x y : Place} :
    y ∈ Place.kids x ↔ ∃ k, y.1 = x.1 ++ [k] ∧ x.2.kids[k]? = some y.2 := by
  obtain ⟨b, s⟩ := y
  rw [List.mem_iff_getElem?]
  refine exists_congr fun k => ?_
  rw [Place.kids_getElem?, Option.map_eq_some_iff]
  constructor
  · rintro ⟨c, hc, heq⟩
    obtain ⟨rfl, rfl⟩ := Prod.mk.inj heq
    exact ⟨rfl, hc⟩
  · rintro ⟨haddr, hc⟩
    exact ⟨s, hc, by rw [← haddr]⟩

/-- Children have addresses of their own. -/
theorem Place.nodup_kids (x : Place) : ((Place.kids x).map Prod.fst).Nodup := by
  have haddrs : (Place.kids x).map Prod.fst = (List.range x.2.kids.length).map fun k => x.1 ++ [k] := by
    apply List.ext_getElem?
    intro k
    rw [List.getElem?_map, List.getElem?_map, Place.kids_getElem?]
    by_cases hk : k < x.2.kids.length
    · rw [List.getElem?_eq_getElem hk, List.getElem?_range hk]
      rfl
    · rw [List.getElem?_eq_none (by omega), List.getElem?_eq_none (by rw [List.length_range]; omega)]
      rfl
  rw [haddrs]
  refine List.nodup_range.map fun j k heq => ?_
  simpa using heq

/-- The nodes of one level. -/
def level (t : Tree) : Nat → List Place
  | 0 => [([], t)]
  | d + 1 => (level t d).flatMap Place.kids

/-- The nodes in breadth-first order. -/
def breadthFirst (t : Tree) : List Place := (List.range t.size).flatMap (level t)

theorem mem_level {t s : Tree} {d : Nat} {a : List Nat} :
    (a, s) ∈ level t d ↔ a.length = d ∧ t.at? a = some s := by
  induction d generalizing a s with
  | zero =>
    rw [level, List.mem_singleton, Prod.mk.injEq, List.length_eq_zero_iff]
    constructor
    · rintro ⟨rfl, rfl⟩
      exact ⟨rfl, rfl⟩
    · rintro ⟨rfl, hs⟩
      exact ⟨rfl, (Option.some.inj hs).symm⟩
  | succ d ih =>
    rw [level, List.mem_flatMap]
    constructor
    · rintro ⟨x, hx, hmem⟩
      obtain ⟨k, haddr, hs⟩ := Place.mem_kids.mp hmem
      obtain ⟨hlen, hat⟩ := ih.mp hx
      simp only at haddr hs
      rw [haddr, List.length_append, List.length_singleton, hlen, Tree.at?_concat, hat]
      exact ⟨rfl, hs⟩
    · rintro ⟨hlen, hat⟩
      rcases List.eq_nil_or_concat a with rfl | ⟨b, k, rfl⟩
      · simp at hlen
      · rw [List.concat_eq_append] at hlen hat ⊢
        rw [Tree.at?_concat, Option.bind_eq_some_iff] at hat
        obtain ⟨u, hu, hs⟩ := hat
        rw [List.length_append, List.length_singleton] at hlen
        exact ⟨(b, u), ih.mpr ⟨by omega, hu⟩, Place.mem_kids.mpr ⟨k, rfl, hs⟩⟩

theorem mem_breadthFirst {t s : Tree} {a : List Nat} : (a, s) ∈ breadthFirst t ↔ t.at? a = some s := by
  rw [breadthFirst, List.mem_flatMap]
  constructor
  · rintro ⟨d, _, hmem⟩
    exact (mem_level.mp hmem).2
  · intro hat
    have hle := Tree.size_add_length_le hat
    have hpos := s.size_pos
    exact ⟨a.length, List.mem_range.mpr (by omega), mem_level.mpr ⟨rfl, hat⟩⟩

/-- The order is the root and then the children of all nodes. -/
theorem breadthFirst_breadthFirst (t : Tree) : BreadthFirst Place.kids ([], t) (breadthFirst t) := by
  have hlast : level t t.size = [] := by
    rw [List.eq_nil_iff_forall_not_mem]
    rintro ⟨a, s⟩ hmem
    obtain ⟨hlen, hat⟩ := mem_level.mp hmem
    have hle := Tree.size_add_length_le hat
    have hpos := s.size_pos
    omega
  obtain ⟨n, hn⟩ : ∃ n, t.size = n + 1 := ⟨t.size - 1, by have hpos := t.size_pos; omega⟩
  rw [hn] at hlast
  have hkids : (breadthFirst t).flatMap Place.kids = (List.range (n + 1)).flatMap fun d => level t (d + 1) := by
    rw [breadthFirst, hn, List.flatMap_assoc]
    rfl
  rw [BreadthFirst, hkids, List.range_succ, List.flatMap_append, List.flatMap_singleton, hlast,
    List.append_nil, breadthFirst, hn, List.range_succ_eq_map, List.flatMap_cons, List.flatMap_map]
  rfl

theorem sum_size_kids (x : Place) : x.2.size = 1 + ((Place.kids x).map fun y => y.2.size).sum := by
  have hsizes : (Place.kids x).map (fun y => y.2.size) = x.2.kids.map Tree.size := by
    apply List.ext_getElem?
    intro k
    rw [List.getElem?_map, List.getElem?_map, Place.kids_getElem?, Option.map_map]
    rfl
  rw [hsizes, ← Tree.size_eq]

theorem length_breadthFirst (t : Tree) : (breadthFirst t).length = t.size := by
  have hbfs := breadthFirst_breadthFirst t
  generalize breadthFirst t = order at hbfs
  have hsizes : (order.map fun x => x.2.size).sum =
      order.length + ((order.flatMap Place.kids).map fun x => x.2.size).sum := by
    generalize order = xs
    induction xs with
    | nil => rfl
    | cons x xs ih =>
      have hx := sum_size_kids x
      rw [List.map_cons, List.sum_cons, List.flatMap_cons, List.map_append, List.sum_append, ih,
        List.length_cons]
      omega
  have hsplit : (order.map fun x => x.2.size).sum =
      t.size + ((order.flatMap Place.kids).map fun x => x.2.size).sum := by
    conv_lhs => rw [hbfs]
    rw [List.map_cons, List.sum_cons]
  omega

/-! ## Numbers of nodes -/

theorem nodup_level (t : Tree) (d : Nat) : ((level t d).map Prod.fst).Nodup := by
  induction d with
  | zero => exact List.nodup_singleton _
  | succ d ih =>
    rw [level, List.map_flatMap, List.nodup_flatMap]
    refine ⟨fun x _ => Place.nodup_kids x, ?_⟩
    refine (List.pairwise_map.mp ih).imp fun {x y} hne => ?_
    intro a hx hy
    obtain ⟨x', hx', rfl⟩ := List.mem_map.mp hx
    obtain ⟨y', hy', heq⟩ := List.mem_map.mp hy
    obtain ⟨j, hj, _⟩ := Place.mem_kids.mp hx'
    obtain ⟨k, hk, _⟩ := Place.mem_kids.mp hy'
    rw [hj, hk] at heq
    exact hne (List.append_inj_left' heq rfl).symm

theorem nodup_breadthFirst (t : Tree) : ((breadthFirst t).map Prod.fst).Nodup := by
  rw [breadthFirst, List.map_flatMap, List.nodup_flatMap]
  refine ⟨fun d _ => nodup_level t d, List.nodup_range.imp fun {d e} hne => ?_⟩
  intro a hd he
  obtain ⟨⟨_, s⟩, hs, rfl⟩ := List.mem_map.mp hd
  obtain ⟨⟨_, u⟩, hu, rfl⟩ := List.mem_map.mp he
  exact hne ((mem_level.mp hs).1.symm.trans (mem_level.mp hu).1)

/-- The number of the node at an address. -/
def number (t : Tree) (a : List Nat) : Nat := ((breadthFirst t).map Prod.fst).idxOf a

theorem number_of_getElem? {t s : Tree} {a : List Nat} {v : Nat} (h : (breadthFirst t)[v]? = some (a, s)) :
    number t a = v := by
  have haddr : ((breadthFirst t).map Prod.fst)[v]? = some a := by
    rw [List.getElem?_map, h]
    rfl
  obtain ⟨hlt, rfl⟩ := List.getElem?_eq_some_iff.mp haddr
  exact (nodup_breadthFirst t).idxOf_getElem v hlt

theorem breadthFirst_number {t s : Tree} {a : List Nat} (h : t.at? a = some s) :
    (breadthFirst t)[number t a]? = some (a, s) := by
  obtain ⟨v, hv⟩ := List.mem_iff_getElem?.mp (mem_breadthFirst.mpr h)
  rw [number_of_getElem? hv, hv]

theorem number_lt {t s : Tree} {a : List Nat} (h : t.at? a = some s) : number t a < t.size := by
  obtain ⟨hlt, _⟩ := List.getElem?_eq_some_iff.mp (breadthFirst_number h)
  rwa [length_breadthFirst] at hlt

/-- A child's number is counted from the children of the nodes in front. -/
theorem number_child {t s : Tree} {a : List Nat} (h : t.at? a = some s) {k : Nat} (hk : k < s.kids.length) :
    number t (a ++ [k]) = childrenBefore Place.kids (breadthFirst t) (number t a) + k + 1 := by
  have hkids : k < (Place.kids (a, s)).length := by rwa [Place.length_kids]
  have hchild := (breadthFirst_breadthFirst t).child (breadthFirst_number h) hkids
  rw [Place.kids_getElem?, List.getElem?_eq_getElem hk] at hchild
  exact number_of_getElem? hchild

/-! ## Depth first -/

mutual

/-- The addresses of a node and all below it, depth first. -/
def addresses : (a : List Nat) → Tree → List (List Nat)
  | a, .node cs => a :: kidsAddresses a 0 cs

def kidsAddresses : (a : List Nat) → (k : Nat) → List Tree → List (List Nat)
  | _, _, [] => []
  | a, k, c :: cs => addresses (a ++ [k]) c ++ kidsAddresses a (k + 1) cs

end

theorem kidsAddresses_eq (a : List Nat) (k : Nat) (cs : List Tree) :
    kidsAddresses a k cs =
      (cs.mapIdx fun i c => (a ++ [i + k], c)).flatMap fun y : Place => addresses y.1 y.2 := by
  induction cs generalizing k with
  | nil => rfl
  | cons c cs ih =>
    rw [kidsAddresses, ih, List.mapIdx_cons, List.flatMap_cons, Nat.zero_add]
    simp only [Nat.add_assoc, Nat.add_comm 1]

theorem addresses_eq (x : Place) :
    addresses x.1 x.2 = x.1 :: (Place.kids x).flatMap fun y => addresses y.1 y.2 := by
  obtain ⟨a, ⟨cs⟩⟩ := x
  rw [addresses, kidsAddresses_eq]
  rfl

theorem mem_addresses {t : Tree} {a b : List Nat} :
    b ∈ addresses a t ↔ ∃ c s, b = a ++ c ∧ t.at? c = some s := by
  induction t using Tree.induction_on generalizing a b with
  | h cs ih =>
    rw [addresses_eq (a, .node cs), List.mem_cons, List.mem_flatMap]
    constructor
    · rintro (rfl | ⟨y, hy, hb⟩)
      · exact ⟨[], .node cs, by simp, rfl⟩
      · obtain ⟨k, haddr, hk⟩ := Place.mem_kids.mp hy
        obtain ⟨c, s, rfl, hs⟩ := (ih y.2 (List.mem_of_getElem? hk)).mp hb
        exact ⟨k :: c, s, by simp [haddr], Option.bind_eq_some_iff.mpr ⟨y.2, hk, hs⟩⟩
    · rintro ⟨c, s, rfl, hs⟩
      cases c with
      | nil => exact .inl (List.append_nil a)
      | cons k c =>
        obtain ⟨u, hu, hs⟩ := Option.bind_eq_some_iff.mp hs
        refine .inr ⟨(a ++ [k], u), Place.mem_kids.mpr ⟨k, rfl, hu⟩, ?_⟩
        exact (ih u (List.mem_of_getElem? hu)).mpr ⟨c, s, by simp, hs⟩

theorem nodup_addresses (t : Tree) (a : List Nat) : (addresses a t).Nodup := by
  induction t using Tree.induction_on generalizing a with
  | h cs ih =>
    rw [addresses_eq (a, .node cs), List.nodup_cons, List.nodup_flatMap]
    refine ⟨fun hmem => ?_, fun y hy => ?_, ?_⟩
    · obtain ⟨y, hy, ha⟩ := List.mem_flatMap.mp hmem
      obtain ⟨k, haddr, _⟩ := Place.mem_kids.mp hy
      obtain ⟨c, _, heq, _⟩ := mem_addresses.mp ha
      have hlen := congrArg List.length heq
      rw [haddr, List.length_append, List.length_append, List.length_singleton] at hlen
      omega
    · obtain ⟨k, _, hk⟩ := Place.mem_kids.mp hy
      exact ih y.2 (List.mem_of_getElem? hk) y.1
    · refine (List.pairwise_map.mp (Place.nodup_kids (a, .node cs))).imp_of_mem fun {x y} hx hy hne => ?_
      intro b hbx hby
      obtain ⟨j, hj, _⟩ := Place.mem_kids.mp hx
      obtain ⟨k, hk, _⟩ := Place.mem_kids.mp hy
      obtain ⟨c, _, rfl, _⟩ := mem_addresses.mp hbx
      obtain ⟨d, _, heq, _⟩ := mem_addresses.mp hby
      rw [hj, hk, List.append_assoc, List.append_assoc] at heq
      obtain ⟨rfl, _⟩ := List.cons.inj (List.append_cancel_left heq)
      exact hne (hj.trans hk.symm)

/-- Depth first and breadth first the same nodes are met. -/
theorem addresses_perm (t : Tree) : (addresses [] t).Perm ((breadthFirst t).map Prod.fst) := by
  rw [List.perm_ext_iff_of_nodup (nodup_addresses t []) (nodup_breadthFirst t)]
  intro b
  rw [mem_addresses, List.mem_map]
  constructor
  · rintro ⟨c, s, hb, hs⟩
    exact ⟨(c, s), mem_breadthFirst.mpr hs, hb.symm⟩
  · rintro ⟨⟨c, s⟩, hmem, rfl⟩
    exact ⟨c, s, rfl, mem_breadthFirst.mp hmem⟩

/-- The numbers of all nodes are those below the number of nodes. -/
theorem map_number_addresses (t : Tree) : ((addresses [] t).map (number t)).Perm (List.range t.size) := by
  have hrange : ((breadthFirst t).map Prod.fst).map (number t) = List.range t.size := by
    apply List.ext_getElem?
    intro v
    rw [List.getElem?_map, List.getElem?_map]
    rcases hv : (breadthFirst t)[v]? with _ | x
    · have hle := List.getElem?_eq_none_iff.mp hv
      rw [length_breadthFirst] at hle
      rw [List.getElem?_eq_none (by rw [List.length_range]; omega)]
      rfl
    · obtain ⟨hlt, _⟩ := List.getElem?_eq_some_iff.mp hv
      rw [length_breadthFirst] at hlt
      rw [List.getElem?_range hlt, Option.map_some, Option.map_some, number_of_getElem? hv]
  rw [← hrange]
  exact (addresses_perm t).map _

end OrderedTree
