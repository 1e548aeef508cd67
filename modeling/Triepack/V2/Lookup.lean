import Triepack.V2.Serialise

/-!
# Lookup through the serialised structures

A descent through the serialised structures follows the nodes that they were written from, so that it
ends at a terminal exactly for the keys of the trie.
-/

namespace Triepack.V2

open Louds

/-- The binary search over the child labels, with the place of the label once it is hit. -/
def searchLabels (labelAt : Nat → UInt8) (b : UInt8) : (fuel lo hi hit : Nat) → Nat
  | 0, _, _, hit => hit
  | fuel + 1, lo, hi, hit =>
    if lo < hi then
      let mid := (lo + hi) / 2
      let lb := labelAt mid
      if lb < b then searchLabels labelAt b fuel (mid + 1) hi hit
      else searchLabels labelAt b fuel lo mid (if lb = b then mid else hit)
    else hit

/-- The loop over the bytes of the key, from byte `i` at node `v` on; at the end of the key the node
that was reached. -/
def descendLoop (f : Serialised) (key : List UInt8) : (fuel i v : Nat) → Option Nat
  | 0, _, _ => none
  | fuel + 1, i, v =>
    if i < key.length then
      let cb := if v = 0 then 0 else bvSelect0 f.louds (v - 1) + 1
      let cc := bvSelect0 f.louds v - cb
      let labelAt := fun mid => f.labels.getD (bvRank1 f.louds (cb + mid) + 1 - 1) 0
      let hit := searchLabels labelAt (key.getD i 0) cc 0 cc cc
      if hit = cc then none
      else
        let cid := bvRank1 f.louds (cb + hit) + 1
        let i := i + 1
        if bvGet f.tailsPresent (cid - 1) ≠ 0 then
          let t := f.distinct.getD (f.tailOf.getD cid 0) default
          if i + t.len > key.length ∨ memcmp t.len (key.drop i) (f.pool.drop t.off) ≠ 0 then none
          else descendLoop f key fuel (i + t.len) cid
        else descendLoop f key fuel i cid
    else some v

/-- The descent of a lookup. -/
def descend (f : Serialised) (key : List UInt8) : Option Nat := descendLoop f key (key.length + 1) 0 0

/-- Whether a lookup finds the key. -/
def accepts (f : Serialised) (key : List UInt8) : Bool :=
  (descend f key).any fun v => decide (bvGet f.terminals v ≠ 0)

/-- The loop that passes over values. -/
def skipValues (values : List UInt8) : (n pos : Nat) → Nat
  | 0, pos => pos
  | n + 1, pos => skipValues values n (leb128Read values pos).2

/-- The value of the terminal with node number `v`. -/
def valueAt (f : Serialised) (v : Nat) : Nat :=
  let ordinal := bvRank1 f.terminals v
  let pos := f.sample.getD (ordinal / SAMPLE) 0
  (leb128Read f.values (skipValues f.values (ordinal % SAMPLE) pos)).1

/-- What a lookup of the key with its value returns. -/
def lookup (f : Serialised) (key : List UInt8) : Option Nat :=
  (descend f key).bind fun v => if bvGet f.terminals v ≠ 0 then some (valueAt f v) else none

/-! ## The search over labels -/

theorem searchLabels_spec {labelAt : Nat → UInt8} {b : UInt8} {fuel lo hi hit : Nat}
    (hfuel : hi ≤ lo + fuel) (hasc : ∀ i j, lo ≤ i → i < j → j < hi → labelAt i < labelAt j) :
    (∀ m, lo ≤ m → m < hi → labelAt m = b → searchLabels labelAt b fuel lo hi hit = m) ∧
      ((∀ m, lo ≤ m → m < hi → labelAt m ≠ b) → searchLabels labelAt b fuel lo hi hit = hit) := by
  induction fuel generalizing lo hi hit with
  | zero => exact ⟨fun m hlo hhi => by omega, fun _ => rfl⟩
  | succ fuel ih =>
    rw [searchLabels]
    by_cases hlt : lo < hi
    · rw [if_pos hlt]
      set mid := (lo + hi) / 2 with hmid
      simp only
      by_cases hless : labelAt mid < b
      · rw [if_pos hless]
        obtain ⟨hfound, hnone⟩ := @ih (mid + 1) hi hit (by omega) fun i j hi' hij hj =>
          hasc i j (by omega) hij hj
        refine ⟨fun m hlo hhi hm => hfound m ?_ hhi hm, fun h => hnone fun m hlo hhi => h m (by omega) hhi⟩
        by_contra hle
        rcases Nat.lt_or_eq_of_le (show m ≤ mid by omega) with hbefore | rfl
        · have hsmaller := hasc m mid hlo hbefore (by omega)
          rw [hm] at hsmaller
          exact UInt8.lt_irrefl _ (UInt8.lt_trans hsmaller hless)
        · rw [hm] at hless
          exact UInt8.lt_irrefl _ hless
      · rw [if_neg hless]
        obtain ⟨hfound, hnone⟩ := @ih lo mid (if labelAt mid = b then mid else hit) (by omega)
          fun i j hi' hij hj => hasc i j hi' hij (by omega)
        refine ⟨fun m hlo hhi hm => ?_, fun h => ?_⟩
        · rcases Nat.lt_trichotomy m mid with hbefore | hhere | hafter
          · exact hfound m hlo hbefore hm
          · rw [hhere] at hm
            rw [hhere, hnone fun i hlo' hi' heq => ?_, if_pos hm]
            have hsmaller := hasc i mid hlo' hi' (by omega)
            rw [heq, hm] at hsmaller
            exact UInt8.lt_irrefl _ hsmaller
          · have hsmaller := hasc mid m (by omega) hafter hhi
            rw [hm] at hsmaller
            exact absurd hsmaller hless
        · rw [hnone fun m hlo hi' => h m hlo (by omega), if_neg (h mid (by omega) (by omega))]
    · rw [if_neg hlt]
      exact ⟨fun m hlo hhi => by omega, fun _ => rfl⟩

/-! ## The serialised structures describe the nodes -/

/-- The structures that a lookup goes through hold the nodes by their numbers. -/
structure Serialised.Describes (f : Serialised) (root : Node) (bfs : List Node) : Prop where
  breadthFirst : BreadthFirst Node.kids root bfs
  louds : f.louds.Indexed (degreeBits (degrees bfs))
  tailsPresent : f.tailsPresent.Indexed (bfs.tail.map fun v => decide (v.tail.length ≠ 0))
  terminals : f.terminals.Indexed (bfs.map Node.terminal)
  labels : f.labels = bfs.tail.map Node.label
  tails : ∀ cid n, bfs[cid + 1]? = some n → n.tail ≠ [] →
    ∃ t, f.distinct[f.tailOf.getD (cid + 1) 0]? = some t ∧ t.bytes = n.tail ∧ Spelled f.pool t
  values : f.values = (terminalValues bfs).flatMap Leb128.code
  sample : ∀ j, j * SAMPLE < (terminalValues bfs).length →
    f.sample[j]? = some (((terminalValues bfs).take (j * SAMPLE)).flatMap Leb128.code).length

section Serialise

variable (q : TailQsort) (words : List (List UInt8))

/-- All tails together are no longer than the words. -/
theorem sum_tails_le {root : Node} {bfs : List Node} (h : BreadthFirst Node.kids root bfs) :
    (((bfs.tail.filter fun v => decide (v.tail.length ≠ 0)).map fun v => Tail.mk v.tail 0).map
      Tail.len).sum ≤ root.weight := by
  rw [← sum_edges h, List.map_map]
  refine (((List.filter_sublist).map _).sum_le_sum fun _ _ => Nat.zero_le _).trans ?_
  refine List.sum_le_sum fun v _ => ?_
  simp [Tail.len]

theorem serialise_describes (hsmall : (words.map List.length).sum < 2 ^ 31) :
    (serialise q words).Describes (builtTrie words) (numberNodes (builtTrie words)) := by
  have hbfs := numberNodes_breadthFirst (builtTrie words)
  have hs := writeNodes_all hbfs
  generalize hnodes : numberNodes (builtTrie words) = bfs at hbfs hs ⊢
  have htailsPresent := bvBuildIndex_indexed hs.tailsPresent
  refine ⟨hbfs, ?_, ?_, ?_, ?_, fun cid n hn htail => ?_, ?_, fun j hj => ?_⟩
  · simp only [serialise, hnodes]
    exact bvBuildIndex_indexed hs.louds
  · simp only [serialise, hnodes]
    exact htailsPresent
  · simp only [serialise, hnodes]
    exact bvBuildIndex_indexed hs.terminals
  · simp only [serialise, hnodes]
    exact hs.labels
  · have hweight := (sum_tails_le hbfs).trans (weight_builtTrie_le words)
    rw [← hs.tl] at hweight
    have hlens : ((writeNodes bfs 0 .empty).tl.map Tail.len).sum < 2 ^ 32 := by omega
    obtain ⟨hdist, hspelled, hplaced⟩ := tailPool_spec q hlens
    have hmem : Tail.mk n.tail 0 ∈ (writeNodes bfs 0 .empty).tl := by
      rw [hs.tl]
      refine List.mem_map.mpr ⟨n, List.mem_filter.mpr ⟨?_, by simpa using htail⟩, rfl⟩
      rw [← List.getElem?_tail] at hn
      exact List.mem_of_getElem? hn
    obtain ⟨d, hd, hbytes⟩ := hplaced _ hmem
    have hbit : (bfs.tail.map fun v => decide (v.tail.length ≠ 0))[cid]? = some true := by
      rw [List.getElem?_map, List.getElem?_tail, hn]
      simpa using htail
    have hget : bvGet (bvBuildIndex (writeNodes bfs 0 .empty).tailsPresent) cid ≠ 0 := by
      rw [bvGet_eq htailsPresent.holds hbit]
      decide
    have hof : (tailOf (bvBuildIndex (writeNodes bfs 0 .empty).tailsPresent)
        (tailPool q (writeNodes bfs 0 .empty).tl).placed bfs).getD (cid + 1) 0 =
        findTail (tailPool q (writeNodes bfs 0 .empty).tl).placed ⟨n.tail, 0⟩ := by
      rw [tailOf, List.getD_eq_getElem?_getD, List.getElem?_mapIdx, hn, Option.map_some, Option.getD_some,
        if_pos ⟨by omega, hget⟩]
    simp only [serialise, hnodes, hof]
    exact ⟨d, findTail_eq hdist hd hbytes, hbytes, hspelled d hd⟩
  · simp only [serialise, hnodes]
    exact hs.values
  · simp only [serialise, hnodes, sampleOffsets]
    have hlen := hs.length_valueOff
    rw [SAMPLE] at hj ⊢
    rw [List.getElem?_map, List.getElem?_range (by rw [hlen]; omega), Option.map_some,
      List.getD_eq_getElem?_getD, hs.valueOff _ hj, Option.getD_some]

end Serialise

/-! ## One node of the descent -/

theorem degrees_getElem? {bfs : List Node} {v : Nat} {n : Node} (hv : bfs[v]? = some n) :
    (degrees bfs)[v]? = some n.kids.length := by
  rw [degrees, List.getElem?_map, hv, Option.map_some]

theorem sum_degrees_take (bfs : List Node) (v : Nat) :
    ((degrees bfs).take v).sum = childrenBefore Node.kids bfs v := by
  rw [degrees, ← List.map_take]
  rfl

section Describes

variable {f : Serialised} {root : Node} {bfs : List Node} (h : f.Describes root bfs) {v : Nat} {n : Node}
  (hv : bfs[v]? = some n)

include h hv

/-- The zero of a node ends the bits of its children. -/
theorem bvSelect0_node :
    bvSelect0 f.louds v = childrenBefore Node.kids bfs v + v + n.kids.length := by
  obtain ⟨hzero, hcount⟩ := zero_at (degrees_getElem? hv)
  rw [sum_degrees_take] at hzero hcount
  exact bvSelect0_eq h.louds hzero hcount

/-- The bits of the children begin behind the zero of the node in front. -/
theorem firstChild_eq : (if v = 0 then 0 else bvSelect0 f.louds (v - 1) + 1) =
    childrenBefore Node.kids bfs v + v := by
  cases v with
  | zero => rfl
  | succ v =>
    obtain ⟨hlt, _⟩ := List.getElem?_eq_some_iff.mp hv
    have hfront := List.getElem?_eq_getElem (show v < bfs.length by omega)
    rw [if_neg (by omega), Nat.add_sub_cancel, bvSelect0_node h hfront, childrenBefore_succ hfront]
    omega

/-- The rank at the bit of a child is one less than its number. -/
theorem bvRank1_child {k : Nat} (hk : k ≤ n.kids.length) :
    bvRank1 f.louds (childrenBefore Node.kids bfs v + v + k) = childrenBefore Node.kids bfs v + k := by
  obtain ⟨hzero, _⟩ := zero_at (degrees_getElem? hv)
  obtain ⟨hlt, _⟩ := List.getElem?_eq_some_iff.mp hzero
  have hones := ones_before (degrees_getElem? hv) hk
  rw [sum_degrees_take] at hlt hones
  rw [bvRank1_eq h.louds (by omega), ones, hones]

theorem child_getElem? {k : Nat} {c : Node} (hk : n.kids[k]? = some c) :
    bfs[childrenBefore Node.kids bfs v + k + 1]? = some c := by
  obtain ⟨hlt, _⟩ := List.getElem?_eq_some_iff.mp hk
  rw [h.breadthFirst.child hv hlt, hk]

theorem labels_child {k : Nat} {c : Node} (hk : n.kids[k]? = some c) :
    f.labels.getD (bvRank1 f.louds (childrenBefore Node.kids bfs v + v + k) + 1 - 1) 0 = c.label := by
  obtain ⟨hlt, _⟩ := List.getElem?_eq_some_iff.mp hk
  rw [bvRank1_child h hv hlt.le, Nat.add_sub_cancel, h.labels, List.getD_eq_getElem?_getD, List.getElem?_map,
    List.getElem?_tail, child_getElem? h hv hk]
  rfl

/-- The search over the labels of the children finds the place of the child. -/
theorem searchLabels_child (hsorted : n.Sorted) (b : UInt8) :
    (∀ k c, n.kids[k]? = some c → c.label = b → searchLabels (fun mid =>
      f.labels.getD (bvRank1 f.louds (childrenBefore Node.kids bfs v + v + mid) + 1 - 1) 0) b
      n.kids.length 0 n.kids.length n.kids.length = k) ∧
    ((∀ c ∈ n.kids, c.label ≠ b) → searchLabels (fun mid =>
      f.labels.getD (bvRank1 f.louds (childrenBefore Node.kids bfs v + v + mid) + 1 - 1) 0) b
      n.kids.length 0 n.kids.length n.kids.length = n.kids.length) := by
  have hlabels := List.pairwise_iff_getElem.mp hsorted.labels
  have hget : ∀ k (hk : k < n.kids.length),
      f.labels.getD (bvRank1 f.louds (childrenBefore Node.kids bfs v + v + k) + 1 - 1) 0 = n.kids[k].label :=
    fun k hk => labels_child h hv (List.getElem?_eq_getElem hk)
  obtain ⟨hfound, hnone⟩ := @searchLabels_spec (fun mid =>
    f.labels.getD (bvRank1 f.louds (childrenBefore Node.kids bfs v + v + mid) + 1 - 1) 0) b
    n.kids.length 0 n.kids.length n.kids.length (by omega) fun x y _ hxy hy => by
      rw [hget x (by omega), hget y hy]
      exact hlabels x y (by omega) hy hxy
  refine ⟨fun k c hk hc => ?_, fun hno => hnone fun k _ hk => ?_⟩
  · obtain ⟨hlt, rfl⟩ := List.getElem?_eq_some_iff.mp hk
    exact hfound k (Nat.zero_le k) hlt ((hget k hlt).trans hc)
  · rw [hget k hk]
    exact hno _ (List.getElem_mem hk)

/-- A step of the descent goes to the child with the label, over its whole tail. -/
theorem descendLoop_child (hsorted : n.Sorted) {k : Nat} {c : Node} (hk : n.kids[k]? = some c)
    {key rest : List UInt8} {i fuel : Nat} (hdrop : key.drop i = c.label :: rest) :
    descendLoop f key (fuel + 1) i v = if c.tail <+: rest then
      descendLoop f key fuel (i + 1 + c.tail.length) (childrenBefore Node.kids bfs v + k + 1) else none := by
  obtain ⟨hlt, hget⟩ := List.getElem?_eq_some_iff.mp hk
  have hlen := congrArg List.length hdrop
  rw [List.length_drop, List.length_cons] at hlen
  have hbyte : key.getD i 0 = c.label := by
    rw [List.getD_eq_getElem?_getD, ← List.head?_drop, hdrop]
    rfl
  have hrest : key.drop (i + 1) = rest := by
    rw [← List.tail_drop, hdrop]
    rfl
  have hhit := (searchLabels_child h hv hsorted c.label).1 k c hk rfl
  have hnode := child_getElem? h hv hk
  have hcount : childrenBefore Node.kids bfs v + v + n.kids.length - (childrenBefore Node.kids bfs v + v) =
      n.kids.length := Nat.add_sub_cancel_left _ _
  rw [descendLoop, if_pos (by omega)]
  simp only [firstChild_eq h hv, bvSelect0_node h hv, hcount, hbyte, hhit, bvRank1_child h hv hlt.le,
    if_neg (show ¬ k = n.kids.length by omega)]
  rw [Nat.add_sub_cancel]
  have hbit : (bfs.tail.map fun v => decide (v.tail.length ≠ 0))[childrenBefore Node.kids bfs v + k]? =
      some (decide (c.tail.length ≠ 0)) := by
    rw [List.getElem?_map, List.getElem?_tail, hnode, Option.map_some]
  rw [bvGet_eq h.tailsPresent.holds hbit]
  rcases eq_or_ne c.tail [] with hnil | htail
  · rw [hnil, if_pos (List.nil_prefix), if_neg (by simp)]
    rfl
  · obtain ⟨t, hfind, hbytes, hspelled⟩ := h.tails _ c hnode htail
    have hread : f.distinct.getD (f.tailOf.getD (childrenBefore Node.kids bfs v + k + 1) 0) default = t := by
      rw [List.getD_eq_getElem?_getD, hfind, Option.getD_some]
    have hpool := hspelled.le (by rwa [hbytes])
    rw [if_pos (by simpa using htail), hread, hrest]
    rw [Spelled, Tail.len, hbytes] at hspelled
    simp only [Tail.len, hbytes] at hpool ⊢
    by_cases hprefix : c.tail <+: rest
    · have hle := hprefix.length_le
      have hcmp := (memcmp_eq_zero_iff hle (show c.tail.length ≤ (f.pool.drop t.off).length by
        rw [List.length_drop]; omega)).mpr (by rw [hspelled, ← List.prefix_iff_eq_take.mp hprefix])
      rw [if_pos hprefix, if_neg]
      rintro (hlong | hne)
      · omega
      · exact hne hcmp
    · rw [if_neg hprefix, if_pos]
      by_contra hand
      rw [not_or, not_not] at hand
      obtain ⟨hshort, hcmp⟩ := hand
      rw [memcmp_eq_zero_iff (by omega) (by rw [List.length_drop]; omega), hspelled] at hcmp
      exact hprefix (hcmp ▸ List.take_prefix _ _)

/-- A step of the descent fails when no child has the label. -/
theorem descendLoop_none (hsorted : n.Sorted) {b : UInt8} (hno : ∀ c ∈ n.kids, c.label ≠ b)
    {key rest : List UInt8} {i fuel : Nat} (hdrop : key.drop i = b :: rest) :
    descendLoop f key (fuel + 1) i v = none := by
  have hlen := congrArg List.length hdrop
  rw [List.length_drop, List.length_cons] at hlen
  have hbyte : key.getD i 0 = b := by
    rw [List.getD_eq_getElem?_getD, ← List.head?_drop, hdrop]
    rfl
  have hhit := (searchLabels_child h hv hsorted b).2 hno
  have hcount : childrenBefore Node.kids bfs v + v + n.kids.length - (childrenBefore Node.kids bfs v + v) =
      n.kids.length := Nat.add_sub_cancel_left _ _
  rw [descendLoop, if_pos (by omega)]
  simp only [firstChild_eq h hv, bvSelect0_node h hv, hcount, hbyte, hhit, if_true]

end Describes

/-! ## The descent -/

/-- A descent ends at a terminal with a value just when the node stores it under the rest of the key. -/
theorem descendLoop_spec {f : Serialised} {root : Node} {bfs : List Node} (h : f.Describes root bfs)
    {key rest : List UInt8} {i fuel v : Nat} {n : Node} (hv : bfs[v]? = some n) (hsorted : n.Sorted)
    (hdrop : key.drop i = rest) (hfuel : rest.length < fuel) (w : Nat) :
    (∃ u m, descendLoop f key fuel i v = some u ∧ bfs[u]? = some m ∧ m.terminal = true ∧ m.value = w) ↔
      n.Stores rest w := by
  induction fuel generalizing i v n rest with
  | zero => omega
  | succ fuel ih =>
    cases rest with
    | nil =>
      have hend : ¬ i < key.length := by
        rw [List.drop_eq_nil_iff] at hdrop
        omega
      rw [Node.stores_nil_iff, descendLoop, if_neg hend]
      constructor
      · rintro ⟨u, m, hu, hm, hterm, hvalue⟩
        obtain rfl := Option.some.inj hu
        obtain rfl := Option.some.inj (hv.symm.trans hm)
        exact ⟨hterm, hvalue⟩
      · rintro ⟨hterm, hvalue⟩
        exact ⟨v, n, rfl, hv, hterm, hvalue⟩
    | cons b rest =>
      rw [Node.stores_cons_iff]
      by_cases hchild : ∃ c ∈ n.kids, c.label = b
      · obtain ⟨c, hc, rfl⟩ := hchild
        obtain ⟨k, hk⟩ := List.mem_iff_getElem?.mp hc
        -- no other child has its label
        have honly : ∀ d ∈ n.kids, d.label = c.label → d = c := by
          intro d hd heq
          obtain ⟨x, hx, rfl⟩ := List.getElem_of_mem hd
          obtain ⟨hk', rfl⟩ := List.getElem?_eq_some_iff.mp hk
          have hlabels := List.pairwise_iff_getElem.mp hsorted.labels
          rcases Nat.lt_trichotomy x k with hlt | hxk | hgt
          · exact absurd heq (UInt8.ne_of_lt (hlabels x k hx hk' hlt))
          · simp only [hxk]
          · exact absurd heq.symm (UInt8.ne_of_lt (hlabels k x hk' hx hgt))
        have hnext : ∀ rest', rest = c.tail ++ rest' → key.drop (i + 1 + c.tail.length) = rest' := by
          rintro rest' rfl
          rw [Nat.add_assoc, ← List.drop_drop, hdrop, Nat.add_comm, List.drop_succ_cons, List.drop_left]
        rw [descendLoop_child h hv hsorted hk hdrop]
        rw [List.length_cons] at hfuel
        constructor
        · rintro ⟨u, m, hu, hm⟩
          split_ifs at hu with hprefix
          obtain ⟨rest', hrest'⟩ := hprefix
          have hlen := congrArg List.length hrest'
          rw [List.length_append] at hlen
          exact ⟨c, hc, rfl, rest', hrest'.symm, (ih (child_getElem? h hv hk) (hsorted.kids c hc)
            (hnext rest' hrest'.symm) (by omega)).mp ⟨u, m, hu, hm⟩⟩
        · rintro ⟨d, hd, heq, rest', hrest', hstores⟩
          rw [honly d hd heq] at hrest' hstores
          have hlen := congrArg List.length hrest'
          rw [List.length_append] at hlen
          rw [if_pos (hrest' ▸ List.prefix_append _ _)]
          exact (ih (child_getElem? h hv hk) (hsorted.kids c hc) (hnext rest' hrest') (by omega)).mpr hstores
      · have hno : ∀ c ∈ n.kids, c.label ≠ b := fun c hc heq => hchild ⟨c, hc, heq⟩
        rw [descendLoop_none h hv hsorted hno hdrop]
        constructor
        · rintro ⟨u, m, hu, _⟩
          simp at hu
        · rintro ⟨c, hc, heq, _⟩
          exact absurd heq (hno c hc)

/-! ## Values -/

/-- Where value `j` begins. -/
def valueStart (vs : List Nat) (j : Nat) : Nat := ((vs.take j).flatMap Leb128.code).length

section Values

variable {values : List UInt8} {vs : List Nat} (hvs : ∀ v ∈ vs, v < 2 ^ 64)
  (hvalues : values = vs.flatMap Leb128.code)

include hvs hvalues

theorem leb128Read_value {j v : Nat} (hj : vs[j]? = some v) :
    leb128Read values (valueStart vs j) = (v, valueStart vs (j + 1)) := by
  obtain ⟨hlt, hget⟩ := List.getElem?_eq_some_iff.mp hj
  have hsplit : values = (vs.take j).flatMap Leb128.code ++
      (Leb128.code v ++ (vs.drop (j + 1)).flatMap Leb128.code) := by
    rw [hvalues, ← List.flatMap_cons, ← hget, ← List.drop_eq_getElem_cons hlt, ← List.flatMap_append,
      List.take_append_drop]
  have hdrop : values.drop (valueStart vs j) = Leb128.code v ++ (vs.drop (j + 1)).flatMap Leb128.code := by
    rw [hsplit, valueStart, List.drop_left]
  have hlen := congrArg List.length hdrop
  rw [List.length_drop, List.length_append] at hlen
  have hv := hvs v (List.mem_of_getElem? hj)
  rw [leb128Read, leb128ReadLoop_eq hdrop (by decide) (by omega) (by omega), valueStart, valueStart,
    List.take_add_one, hj, List.flatMap_append, List.length_append]
  simp

/-- The loop over values passes over their codes. -/
theorem skipValues_eq {j n : Nat} (hn : j + n ≤ vs.length) :
    skipValues values n (valueStart vs j) = valueStart vs (j + n) := by
  induction n generalizing j with
  | zero => rfl
  | succ n ih =>
    rw [skipValues, leb128Read_value hvs hvalues (List.getElem?_eq_getElem (show j < vs.length by omega)),
      ih (by omega), Nat.add_assoc, Nat.add_comm 1]

end Values

/-- The number of terminals in front of a node is the place of its value. -/
theorem terminalValues_getElem? {bfs : List Node} {v : Nat} {n : Node} (hv : bfs[v]? = some n)
    (hterm : n.terminal = true) :
    (terminalValues bfs)[ones (bfs.map Node.terminal) v]? = some n.value := by
  obtain ⟨hlt, hget⟩ := List.getElem?_eq_some_iff.mp hv
  have hcount : ones (bfs.map Node.terminal) v = (terminalValues (bfs.take v)).length := by
    rw [ones, ← List.map_take, List.count_eq_countP, List.countP_map, terminalValues, List.length_map,
      List.countP_eq_length_filter]
    congr 2
    funext c
    simp
  have hsplit : terminalValues bfs =
      terminalValues (bfs.take v) ++ (n.value :: terminalValues (bfs.drop (v + 1))) := by
    conv_lhs => rw [← List.take_append_drop v bfs, List.drop_eq_getElem_cons hlt, hget]
    rw [terminalValues, List.filter_append, List.filter_cons_of_pos hterm, List.map_append, List.map_cons]
    rfl
  rw [hcount, hsplit, List.getElem?_append_right le_rfl, Nat.sub_self]
  rfl

theorem valueAt_eq {f : Serialised} {root : Node} {bfs : List Node} (h : f.Describes root bfs)
    (hvs : ∀ v ∈ terminalValues bfs, v < 2 ^ 64) {v : Nat} {n : Node} (hv : bfs[v]? = some n)
    (hterm : n.terminal = true) : valueAt f v = n.value := by
  obtain ⟨hlt, _⟩ := List.getElem?_eq_some_iff.mp hv
  have hplace := terminalValues_getElem? hv hterm
  have hrank := bvRank1_eq h.terminals (show v ≤ (bfs.map Node.terminal).length by
    rw [List.length_map]; omega)
  rw [valueAt, hrank]
  generalize ones (bfs.map Node.terminal) v = j at hplace
  obtain ⟨hj, _⟩ := List.getElem?_eq_some_iff.mp hplace
  have hsample := h.sample (j / SAMPLE) (by rw [SAMPLE]; omega)
  have hskip := @skipValues_eq _ _ hvs h.values (j / SAMPLE * SAMPLE) (j % SAMPLE) (by rw [SAMPLE]; omega)
  rw [Nat.div_add_mod'] at hskip
  simp only [List.getD_eq_getElem?_getD, hsample, Option.getD_some]
  rw [← valueStart, hskip, leb128Read_value hvs h.values hplace]

/-! ## Lookups are exact -/

/-- The values of the terminals are places of words. -/
theorem terminalValues_lt (words : List (List UInt8)) :
    ∀ v ∈ terminalValues (numberNodes (builtTrie words)), v < words.length := by
  have hall : ∀ n ∈ numberNodes (builtTrie words), ∀ key w, n.Stores key w → w < words.length := by
    refine numberLoop_forall (P := fun n => ∀ key w, n.Stores key w → w < words.length)
      (fun n hn c hc key w h => hn _ w (Node.stores_cons_iff.mpr ⟨c, hc, rfl, key, rfl, h⟩)) fun n hn => ?_
    obtain rfl := List.mem_singleton.mp hn
    intro key w h
    exact (List.getElem?_eq_some_iff.mp ((builtTrie_stores words).mp h).1).1
  intro v hv
  obtain ⟨n, hn, rfl⟩ := List.mem_map.mp hv
  obtain ⟨hmem, hterm⟩ := List.mem_filter.mp hn
  exact hall n hmem [] n.value (Node.stores_nil_iff.mpr ⟨hterm, rfl⟩)

theorem length_le_sum_length {words : List (List UInt8)} (hne : ∀ word ∈ words, word ≠ []) :
    words.length ≤ (words.map List.length).sum := by
  induction words with
  | nil => rfl
  | cons word words ih =>
    have hpos := List.length_pos_iff.mpr (hne word (by simp))
    have hrest := ih fun w hw => hne w (List.mem_cons_of_mem _ hw)
    rw [List.length_cons, List.map_cons, List.sum_cons]
    omega

/-- A key has a last place just when it is one of the words. -/
theorem exists_lastAt_iff {words : List (List UInt8)} {key : List UInt8} :
    (∃ k, LastAt words key k) ↔ key ∈ words := by
  induction words with
  | nil => simp [LastAt]
  | cons word words ih =>
    rw [List.mem_cons, ← ih]
    constructor
    · rintro ⟨k, hk⟩
      rcases lastAt_cons.mp hk with ⟨_, rfl, _⟩ | ⟨k', _, hk'⟩
      · exact .inl rfl
      · exact .inr ⟨k', hk'⟩
    · intro h
      by_cases hlater : ∃ k, LastAt words key k
      · obtain ⟨k, hk⟩ := hlater
        exact ⟨k + 1, lastAt_cons.mpr (.inr ⟨k, rfl, hk⟩)⟩
      · exact ⟨0, lastAt_cons.mpr (.inl ⟨rfl, h.resolve_right hlater, fun hmem => hlater (ih.mpr hmem)⟩)⟩

section Exact

variable (q : TailQsort) {words : List (List UInt8)} (hne : ∀ word ∈ words, word ≠ [])
  (hsmall : (words.map List.length).sum < 2 ^ 31) (key : List UInt8)

include hne hsmall

theorem lookup_iff_lastAt (k : Nat) : lookup (serialise q words) key = some k ↔ LastAt words key k := by
  have h := serialise_describes q words hsmall
  have hvs : ∀ v ∈ terminalValues (numberNodes (builtTrie words)), v < 2 ^ 64 := by
    intro v hv
    have hlt := terminalValues_lt words v hv
    have hle := length_le_sum_length hne
    omega
  have hroot : (numberNodes (builtTrie words))[0]? = some (builtTrie words) :=
    (congrArg (fun o => o[0]?) h.breadthFirst).trans List.getElem?_cons_zero
  rw [← builtTrie_stores words, ← descendLoop_spec h hroot (builtTrie_sorted words) key.drop_zero
    (Nat.lt_succ_self _), lookup, Option.bind_eq_some_iff]
  refine exists_congr fun u => ?_
  rw [descend]
  constructor
  · rintro ⟨hu, hvalue⟩
    split_ifs at hvalue with hget
    rw [bvGet_ne_zero_iff h.terminals.holds, List.getElem?_map, Option.map_eq_some_iff] at hget
    obtain ⟨m, hm, hterm⟩ := hget
    rw [valueAt_eq h hvs hm hterm] at hvalue
    exact ⟨m, hu, hm, hterm, Option.some.inj hvalue⟩
  · rintro ⟨m, hu, hm, hterm, rfl⟩
    have hget : bvGet (serialise q words).terminals u ≠ 0 := by
      rw [bvGet_ne_zero_iff h.terminals.holds, List.getElem?_map, hm, Option.map_some, hterm]
    rw [if_pos hget, valueAt_eq h hvs hm hterm]
    exact ⟨hu, rfl⟩

/-- A lookup accepts the words and no other key, and it returns the last place of a word. -/
theorem lookup_exact : (accepts (serialise q words) key = true ↔ key ∈ words) ∧
    ∀ k, lookup (serialise q words) key = some k ↔ LastAt words key k := by
  refine ⟨?_, lookup_iff_lastAt q hne hsmall key⟩
  have haccepts : accepts (serialise q words) key = (lookup (serialise q words) key).isSome := by
    rw [accepts, lookup]
    rcases descend (serialise q words) key with _ | u
    · rfl
    · rw [Option.any_some, Option.bind_some]
      split_ifs with hget
      · simpa using hget
      · simpa using hget
  rw [haccepts, Option.isSome_iff_exists, ← exists_lastAt_iff]
  exact exists_congr fun k => lookup_iff_lastAt q hne hsmall key k

end Exact

theorem lookup_exact_help :
    lookup (serialise .byInsertion [[104, 101], [104, 101, 108, 108, 111], [104, 101, 108, 112], [104, 101]])
      [104, 101] = some 3 ∧
    accepts (serialise .byInsertion [[104, 101], [104, 101, 108, 108, 111], [104, 101, 108, 112], [104, 101]])
      [104, 101, 108, 108] = false := by
  have hwords := fun key => @lookup_exact .byInsertion
    [[104, 101], [104, 101, 108, 108, 111], [104, 101, 108, 112], [104, 101]] (by decide) (by decide) key
  refine ⟨((hwords _).2 3).mpr ⟨rfl, fun j hj => ?_⟩, ?_⟩
  · rw [List.getElem?_eq_none (by simp; omega)]
    simp
  · rw [← Bool.not_eq_true, (hwords _).1]
    decide

end Triepack.V2
