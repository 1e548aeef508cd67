import Triepack.Library.TreeDepth

/-!
# The cost of going down a prefix tree

A traversal pays at every branch that it goes through, another price where a key ends at the branch,
and it pays for the key that it comes to. What it pays on the dearest way is a matter of the keys
alone.
-/

namespace PrefixTree

variable {α ν : Type*} (step : Bool → Nat) (leaf : ν → Nat)

mutual

/-- What is paid on the dearest way. -/
def cost : PrefixTree α ν → Nat
  | node _ term kids => max (term.elim 0 leaf) (kidsCost term.isSome kids)

def kidsCost : (terminal : Bool) → List (PrefixTree α ν) → Nat
  | _, [] => 0
  | terminal, t :: ts => max (step terminal + cost t) (kidsCost terminal ts)

end

theorem kidsCost_le_iff {terminal : Bool} {kids : List (PrefixTree α ν)} {n : Nat} :
    kidsCost step leaf terminal kids ≤ n ↔ ∀ t ∈ kids, step terminal + cost step leaf t ≤ n := by
  induction kids with
  | nil => simp [kidsCost]
  | cons t ts ih => rw [kidsCost, Nat.max_le, ih, List.forall_mem_cons]

theorem cost_node_le_iff {l : List α} {term : Option ν} {kids : List (PrefixTree α ν)} {n : Nat} :
    cost step leaf (node l term kids) ≤ n ↔
      (∀ v ∈ term, leaf v ≤ n) ∧ ∀ t ∈ kids, step term.isSome + cost step leaf t ≤ n := by
  rw [cost, Nat.max_le, kidsCost_le_iff]
  cases term <;> simp

/-- A tree costs as much as each of its parts. -/
theorem parts_le_cost (l : List α) (term : Option ν) (kids : List (PrefixTree α ν)) :
    (∀ v ∈ term, leaf v ≤ cost step leaf (node l term kids)) ∧
      ∀ t ∈ kids, step term.isSome + cost step leaf t ≤ cost step leaf (node l term kids) :=
  (cost_node_le_iff step leaf).mp (Nat.le_refl _)

/-- At one price for all branches it does not matter where keys end. -/
theorem kidsCost_const (n : Nat) (terminal terminal' : Bool) (kids : List (PrefixTree α ν)) :
    kidsCost (fun _ => n) leaf terminal kids = kidsCost (fun _ => n) leaf terminal' kids := by
  induction kids with
  | nil => rfl
  | cons t ts ih => rw [kidsCost, kidsCost, ih]

/-- Higher prices make no way cheaper. -/
theorem cost_mono {step step' : Bool → Nat} {leaf leaf' : ν → Nat} (hstep : ∀ b, step b ≤ step' b)
    (hleaf : ∀ v, leaf v ≤ leaf' v) {t : PrefixTree α ν} : cost step leaf t ≤ cost step' leaf' t := by
  induction t using induction_on with
  | h l term kids ih =>
    obtain ⟨hterm, hkids⟩ := parts_le_cost step' leaf' l term kids
    rw [cost_node_le_iff]
    exact ⟨fun v hv => Nat.le_trans (hleaf v) (hterm v hv),
      fun t ht => Nat.le_trans (Nat.add_le_add (hstep _) (ih t ht)) (hkids t ht)⟩

/-- Every key of a tree has its price. -/
theorem Compact.le_cost {t : PrefixTree α ν} (h : Compact t) {n : Nat} (hleaf : ∀ v, n ≤ leaf v) :
    n ≤ cost step leaf t := by
  induction h with
  | @intro l term kids _ _ _ two ih =>
    obtain ⟨hterm, hkids⟩ := parts_le_cost step leaf l term kids
    cases term with
    | some v => exact Nat.le_trans (hleaf v) (hterm v rfl)
    | none =>
      cases kids with
      | nil => simp at two
      | cons t ts =>
        have hkid := hkids t (by simp)
        exact Nat.le_trans (ih t (by simp)) (Nat.le_trans (Nat.le_add_left _ _) hkid)

/-! ## The cost as a property of the keys -/

section PathCost

variable [DecidableEq α]

/-- What is paid on the way to `k`, at the places inside it at which another key parts from it. -/
def pathCost (keys : List (List α)) (k : List α) : Nat :=
  ((List.range k.length).map fun n =>
    if PartsAt keys k n then step (decide (k.take n ∈ keys)) else 0).sum

/-- At the same price everywhere it is the number of branches that is paid. -/
theorem pathCost_one (keys : List (List α)) (k : List α) :
    pathCost (fun _ => 1) keys k = branchDepth keys k := by
  rw [pathCost, branchDepth]
  induction List.range k.length with
  | nil => rfl
  | cons n ns ih =>
    rw [List.map_cons, List.sum_cons, ih, List.countP_cons, Nat.add_comm]
    simp only [decide_eq_true_eq]

/-- It is a matter of which keys there are, and not of their order. -/
theorem pathCost_congr {keys keys' : List (List α)} (h : ∀ k, k ∈ keys ↔ k ∈ keys') (k : List α) :
    pathCost step keys k = pathCost step keys' k := by
  have hparts : ∀ n, PartsAt keys k n ↔ PartsAt keys' k n := fun n =>
    ⟨PartsAt.mono fun _ hk => (h _).mp hk, PartsAt.mono fun _ hk => (h _).mpr hk⟩
  simp only [pathCost, hparts, h]

theorem pathCost_cons (keys : List (List α)) (a : α) (k : List α) :
    pathCost step keys (a :: k) = (if PartsAt keys (a :: k) 0 then step (decide ([] ∈ keys)) else 0) +
      ((List.range k.length).map fun n =>
        if PartsAt keys (a :: k) (n + 1) then step (decide (a :: k.take n ∈ keys)) else 0).sum := by
  rw [pathCost, List.length_cons, List.range_succ_eq_map, List.map_cons, List.sum_cons, List.map_map]
  rfl

/-- A letter that all keys have in common costs nothing. -/
theorem pathCost_map_cons (keys : List (List α)) (a : α) (k : List α) :
    pathCost step (keys.map (a :: ·)) (a :: k) = pathCost step keys k := by
  have hzero : ¬ PartsAt (keys.map (a :: ·)) (a :: k) 0 := by
    rintro ⟨k', hmem, _, hne⟩
    obtain ⟨k'', _, rfl⟩ := List.mem_map.mp hmem
    exact hne rfl
  have hmem : ∀ l : List α, a :: l ∈ keys.map (a :: ·) ↔ l ∈ keys := by simp
  rw [pathCost_cons, if_neg hzero, Nat.zero_add, pathCost]
  simp only [partsAt_map_cons, hmem]

/-- Behind a branch at the front, the keys with the same first letter are the ones that count. -/
theorem pathCost_of_parts {keys keys' : List (List α)} {a : α} {k : List α}
    (hsame : ∀ k' : List α, k'.head? = some a → (k' ∈ keys ↔ k' ∈ keys'))
    (hall : ∀ k' ∈ keys', k'.head? = some a) (hother : ∃ k' ∈ keys, k'.head? ≠ some a) :
    pathCost step keys (a :: k) = step (decide ([] ∈ keys)) + pathCost step keys' (a :: k) := by
  have hparts : PartsAt keys (a :: k) 0 := by
    obtain ⟨k', hk', hne⟩ := hother
    exact ⟨k', hk', List.nil_prefix, by simpa [← List.head?_eq_getElem?] using hne⟩
  have hnone : ¬ PartsAt keys' (a :: k) 0 := by
    rintro ⟨k', hk', _, hne⟩
    exact hne (by simpa [← List.head?_eq_getElem?] using hall k' hk')
  have hmem : ∀ l : List α, a :: l ∈ keys ↔ a :: l ∈ keys' := fun l => hsame (a :: l) rfl
  rw [pathCost_cons, pathCost_cons, if_pos hparts, if_neg hnone, Nat.zero_add]
  simp only [partsAt_succ_congr hsame, hmem]

section Node

variable {term : Option ν} {kids : List (PrefixTree α ν)}

omit [DecidableEq α] in
theorem forall_mem_entries_node {P : List α × ν → Prop} : (∀ e ∈ (node [] term kids).entries, P e) ↔
    (∀ v ∈ term, P ([], v)) ∧ ∀ t ∈ kids, ∀ e ∈ t.entries, P e := by
  have hterm : (∀ e ∈ termEntry term, P e) ↔ ∀ v ∈ term, P ([], v) := by
    cases term <;> simp [termEntry]
  rw [entries_node, map_under_nil, List.forall_mem_append, hterm]
  refine and_congr_right fun _ => ?_
  simp only [List.mem_flatMap, forall_exists_index, and_imp]
  exact ⟨fun h t ht e he => h e t ht he, fun h e t ht he => h t ht e he⟩

omit [DecidableEq α] in
/-- Among the keys of a node without a label the empty one is that of its terminal. -/
theorem nil_mem_keys_iff (labels : ∀ t ∈ kids, t.label ≠ []) :
    [] ∈ (node [] term kids).entries.map Prod.fst ↔ term.isSome := by
  rw [entries_node, map_under_nil, List.map_append, List.mem_append]
  constructor
  · rintro (h | h)
    · cases term with
      | none => simp [termEntry] at h
      | some v => rfl
    · obtain ⟨e, he, heq⟩ := List.mem_map.mp h
      obtain ⟨t, ht, hmem⟩ := List.mem_flatMap.mp he
      exact absurd heq (ne_nil_of_mem_entries (labels t ht) hmem)
  · intro h
    obtain ⟨v, rfl⟩ := Option.isSome_iff_exists.mp h
    exact .inl (by simp [termEntry])

/-- On the way to a key of a subtree the branch above it is paid for. -/
theorem pathCost_of_mem_kid (compact : ∀ t ∈ kids, Compact t) (labels : ∀ t ∈ kids, t.label ≠ [])
    (heads : kids.Pairwise fun t u => t.label.head? ≠ u.label.head?) (two : term = none → 2 ≤ kids.length)
    {t : PrefixTree α ν} (ht : t ∈ kids) {e : List α × ν} (he : e ∈ t.entries) :
    pathCost step ((node [] term kids).entries.map Prod.fst) e.1 =
      step term.isSome + pathCost step (t.entries.map Prod.fst) e.1 := by
  obtain ⟨a, l, hlabel⟩ := List.exists_cons_of_ne_nil (labels t ht)
  have hhead : t.label.head? = some a := by rw [hlabel]; rfl
  have hsame : ∀ k : List α, k.head? = some a →
      (k ∈ (node [] term kids).entries.map Prod.fst ↔ k ∈ t.entries.map Prod.fst) := by
    intro k hk
    constructor
    · intro hmem
      obtain ⟨x, hx, rfl⟩ := List.mem_map.mp hmem
      exact List.mem_map_of_mem (mem_of_head? labels heads ht hhead hx hk)
    · intro hmem
      obtain ⟨x, hx, rfl⟩ := List.mem_map.mp hmem
      exact List.mem_map_of_mem (mem_entries_of_mem_kid ht hx)
  have hall : ∀ k ∈ t.entries.map Prod.fst, k.head? = some a := by
    intro k hmem
    obtain ⟨x, hx, rfl⟩ := List.mem_map.mp hmem
    exact head?_of_mem_entries hhead hx
  obtain ⟨x, hx, hne⟩ := exists_head?_ne compact labels heads two a
  obtain ⟨k, hk⟩ := List.head?_eq_some_iff.mp (head?_of_mem_entries hhead he)
  have hterm : decide ([] ∈ (node [] term kids).entries.map Prod.fst) = term.isSome := by
    rw [Bool.eq_iff_iff, decide_eq_true_iff]
    exact nil_mem_keys_iff labels
  rw [hk, pathCost_of_parts step hsame hall ⟨x.1, List.mem_map_of_mem hx, hne⟩, hterm]

end Node

/-- The dearest way is that of the dearest key. -/
theorem Compact.cost_le_iff {t : PrefixTree α ν} (h : Compact t) {n : Nat} : cost step leaf t ≤ n ↔
    ∀ e ∈ t.entries, pathCost step (t.entries.map Prod.fst) e.1 + leaf e.2 ≤ n := by
  induction h generalizing n with
  | @intro l term kids compact labels heads two ih =>
    induction l with
    | cons a l ihl =>
      have hkeys : ∀ es : List (List α × ν), (es.map (PrefixTree.under [a])).map Prod.fst =
          (es.map Prod.fst).map (a :: ·) := fun es => by simp [PrefixTree.under]
      have hcost : cost step leaf (node (a :: l) term kids) = cost step leaf (node l term kids) := by
        rw [cost, cost]
      rw [hcost, ihl, entries_cons, hkeys, List.forall_mem_map]
      simp only [PrefixTree.under, List.singleton_append, pathCost_map_cons]
    | nil =>
      have hkid : ∀ t ∈ kids, step term.isSome + cost step leaf t ≤ n ↔ ∀ e ∈ t.entries,
          pathCost step ((node [] term kids).entries.map Prod.fst) e.1 + leaf e.2 ≤ n := by
        intro t ht
        have hpath := fun e he => pathCost_of_mem_kid (e := e) step compact labels heads two ht he
        obtain ⟨e₀, he₀⟩ := List.exists_mem_of_ne_nil _ (compact t ht).entries_ne_nil
        constructor
        · intro hle e he
          have hcost := (ih t ht).mp (Nat.le_sub_of_add_le' hle) e he
          rw [hpath e he]
          omega
        · intro hle
          have hfirst := hle e₀ he₀
          rw [hpath e₀ he₀] at hfirst
          have hcost : cost step leaf t ≤ n - step term.isSome := (ih t ht).mpr fun e he => by
            have hrest := hle e he
            rw [hpath e he] at hrest
            omega
          omega
      rw [cost_node_le_iff, forall_mem_entries_node]
      refine and_congr ?_ (forall₂_congr hkid)
      simp [pathCost]

end PathCost

end PrefixTree
