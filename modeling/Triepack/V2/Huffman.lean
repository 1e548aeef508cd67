import Triepack.Core.Symbols
import Triepack.Library.Binary64
import Triepack.Library.Huffman

/-!
# The cost model of the second format

What a second pass with a Huffman code would take: the two lightest nodes that are left are merged until
one is, and the merged weights add up to the size. No code that can be decoded takes less. Sums are
doubles, and the size in bytes is theirs over eight.
-/

namespace Triepack.V2

/-! ## The merge -/

/-- What stands at one index of `w`, `left`, `right` and `used`; a link of `-1` is none. -/
structure HuffNode where
  w : UInt64
  left : Option Nat
  right : Option Nat
  used : Bool

/-- The symbols that occur. -/
def occurring (freq : UInt8 → UInt64) : List UInt8 := allBytes.filter fun i => freq i ≠ 0

/-- The nodes before any merge. -/
def leaves (freq : UInt8 → UInt64) : List HuffNode := (occurring freq).map fun i => ⟨freq i, none, none, false⟩

/-- `w[i]`. -/
def weight (nodes : List HuffNode) (i : Nat) : UInt64 := ((nodes[i]?).map HuffNode.w).getD 0

/-- `used[i]`. -/
def isUsed (nodes : List HuffNode) (i : Nat) : Bool := ((nodes[i]?).map HuffNode.used).getD false

/-- Whether there is no `j` yet or the node is lighter than it. -/
def lighter (nodes : List HuffNode) (i : Nat) : Option Nat → Bool
  | none => true
  | some j => weight nodes i < weight nodes j

/-- One round of the loop that finds `a` and `b`. -/
def selectStep (nodes : List HuffNode) (ab : Option Nat × Option Nat) (i : Nat) : Option Nat × Option Nat :=
  if isUsed nodes i then ab
  else if lighter nodes i ab.1 then (some i, ab.1)
  else if lighter nodes i ab.2 then (ab.1, some i)
  else ab

def select (nodes : List HuffNode) : Option Nat × Option Nat :=
  (List.range nodes.length).foldl (selectStep nodes) (none, none)

/-- One round of the merge; there is none at an index that the arrays do not have. -/
def mergeRound (nodes : List HuffNode) : Option (List HuffNode) :=
  match select nodes with
  | (some a, some b) =>
    if nodes.length < 512 then
      some (((nodes.modify a fun n => { n with used := true }).modify b fun n => { n with used := true }) ++
        [⟨weight nodes a + weight nodes b, some a, some b, false⟩])
    else none
  | _ => none

/-- The loop while more than one node is left. -/
def mergeLoop : (remaining : Nat) → List HuffNode → Option (List HuffNode)
  | 0, nodes => some nodes
  | 1, nodes => some nodes
  | remaining + 2, nodes => do mergeLoop (remaining + 1) (← mergeRound nodes)

/-- The weights of the merged nodes, added up as doubles. -/
def mergedBits (nodes : List HuffNode) : Nat :=
  nodes.foldl (fun bits n => if n.left.isSome then Binary64.add bits (Binary64.round n.w.toNat) else bits) 0

/-- `huffman_bytes`: the number of symbols, and the size in bits. -/
def huffmanBytes (freq : UInt8 → UInt64) : Option (Nat × Nat) :=
  let nodes := leaves freq
  let nsym := nodes.length
  if nsym = 0 then some (nsym, 0)
  else if nsym = 1 then some (nsym, Binary64.round (weight nodes 0).toNat)
  else (mergeLoop nsym nodes).map fun nodes => (nsym, mergedBits nodes)

/-! ## The two lightest -/

/-- The two lightest of the indices, with the others behind them. -/
structure Selected (w : Nat → Nat) (idxs : List Nat) (ab : Option Nat × Option Nat) (r : List Nat) : Prop where
  perm : idxs.Perm (ab.1.toList ++ (ab.2.toList ++ r))
  first : ab.1 = none → idxs = []
  second : ab.2 = none → r = []
  order : ∀ a ∈ ab.1, ∀ b ∈ ab.2, w a ≤ w b
  rest : ∀ b ∈ ab.2, ∀ j ∈ r, w b ≤ w j

/-- The indices that are not used yet. -/
def unusedIdx (nodes : List HuffNode) : List Nat := (List.range nodes.length).filter fun i => !isUsed nodes i

/-- The weights as numbers. -/
def weightNat (nodes : List HuffNode) (i : Nat) : Nat := (weight nodes i).toNat

section Select

variable {nodes : List HuffNode} {idxs r : List Nat} {ab : Option Nat × Option Nat}

theorem lighter_some {i j : Nat} : lighter nodes i (some j) = true ↔ weightNat nodes i < weightNat nodes j := by
  rw [lighter, decide_eq_true_eq, UInt64.lt_iff_toNat_lt]
  rfl

theorem Selected.step (h : Selected (weightNat nodes) idxs ab r) {i : Nat} (hi : isUsed nodes i = false) :
    ∃ r', Selected (weightNat nodes) (i :: idxs) (selectStep nodes ab i) r' := by
  obtain ⟨a, b⟩ := ab
  rw [selectStep, hi, if_neg Bool.false_ne_true]
  cases a with
  | none =>
    obtain rfl := h.first rfl
    refine ⟨[], ?_⟩
    rw [lighter, if_pos rfl]
    exact ⟨.refl _, by simp, fun _ => rfl, by simp, by simp⟩
  | some a =>
    by_cases ha : weightNat nodes i < weightNat nodes a
    · -- what was first is second now
      refine ⟨b.toList ++ r, ?_⟩
      rw [if_pos (lighter_some.mpr ha)]
      refine ⟨h.perm.cons i, by simp, by simp, ?_, ?_⟩
      · simpa using le_of_lt ha
      · intro c hc j hj
        obtain rfl := Option.some.inj hc
        cases b with
        | none =>
          rw [h.second rfl] at hj
          cases hj
        | some b =>
          rcases List.mem_cons.mp hj with rfl | hj
          · exact h.order a rfl j rfl
          · exact (h.order a rfl b rfl).trans (h.rest b rfl j hj)
    · have hai := le_of_not_gt ha
      rw [if_neg (mt lighter_some.mp ha)]
      cases b with
      | none =>
        obtain rfl := h.second rfl
        refine ⟨[], ?_⟩
        rw [if_pos (show lighter nodes i none = true from rfl)]
        refine ⟨(h.perm.cons i).trans (List.Perm.swap a i _), by simp, fun _ => rfl, ?_, by simp⟩
        simpa using hai
      | some b =>
        by_cases hb : weightNat nodes i < weightNat nodes b
        · refine ⟨b :: r, ?_⟩
          rw [if_pos (lighter_some.mpr hb)]
          refine ⟨(h.perm.cons i).trans (List.Perm.swap a i _), by simp, by simp, by simpa using hai, ?_⟩
          intro c hc
          obtain rfl := Option.some.inj hc
          exact List.forall_mem_cons.mpr ⟨le_of_lt hb, fun j hj => (le_of_lt hb).trans (h.rest b rfl j hj)⟩
        · refine ⟨i :: r, ?_⟩
          rw [if_neg (mt lighter_some.mp hb)]
          refine ⟨(h.perm.cons i).trans ?_, by simp, by simp, h.order, ?_⟩
          · exact (List.Perm.swap a i _).trans ((List.Perm.swap b i _).cons a)
          · intro c hc
            obtain rfl := Option.some.inj hc
            exact List.forall_mem_cons.mpr ⟨le_of_not_gt hb, h.rest b rfl⟩

/-- The loop selects of the indices that are not used. -/
theorem exists_selected (nodes : List HuffNode) :
    ∃ r, Selected (weightNat nodes) (unusedIdx nodes) (select nodes) r := by
  have hloop : ∀ k, ∃ r, Selected (weightNat nodes) ((List.range k).filter fun i => !isUsed nodes i)
      ((List.range k).foldl (selectStep nodes) (none, none)) r := by
    intro k
    induction k with
    | zero => exact ⟨[], .refl _, fun _ => rfl, fun _ => rfl, by simp, by simp⟩
    | succ k ih =>
      obtain ⟨r, hr⟩ := ih
      rw [List.range_succ, List.filter_append, List.foldl_append]
      cases hk : isUsed nodes k with
      | true =>
        refine ⟨r, ?_⟩
        simpa [hk, selectStep] using hr
      | false =>
        obtain ⟨r', hr'⟩ := hr.step hk
        refine ⟨r', ?_⟩
        have hperm : ((List.range k).filter fun i => !isUsed nodes i) ++ [k].filter (fun i => !isUsed nodes i) =
            ((List.range k).filter fun i => !isUsed nodes i) ++ [k] := by simp [hk]
        rw [hperm]
        exact ⟨(List.perm_append_singleton k _).trans hr'.perm,
          fun h => absurd (hr'.first h) (by simp), hr'.second, hr'.order, hr'.rest⟩
  exact hloop nodes.length

/-- Of two indices or more two are selected. -/
theorem exists_lightest (h : 2 ≤ (unusedIdx nodes).length) :
    ∃ a b r, select nodes = (some a, some b) ∧ (unusedIdx nodes).Perm (a :: b :: r) ∧
      weightNat nodes a ≤ weightNat nodes b ∧ ∀ j ∈ r, weightNat nodes b ≤ weightNat nodes j := by
  obtain ⟨r, hr⟩ := exists_selected nodes
  obtain ⟨⟨a, b⟩, hab⟩ : ∃ ab, select nodes = ab := ⟨_, rfl⟩
  rw [hab] at hr
  cases a with
  | none =>
    rw [hr.first rfl] at h
    simp at h
  | some a =>
    cases b with
    | none =>
      have hlen := hr.perm.length_eq
      rw [hr.second rfl] at hlen
      simp only [Option.toList_some, Option.toList_none, List.append_nil, List.length_singleton] at hlen
      omega
    | some b => exact ⟨a, b, r, hab, hr.perm, hr.order a rfl b rfl, hr.rest b rfl⟩

end Select

/-! ## One round -/

/-- The weights that are not merged yet. -/
def unusedWeights (nodes : List HuffNode) : List Nat := (unusedIdx nodes).map (weightNat nodes)

/-- What has been merged so far. -/
def merged (nodes : List HuffNode) : Nat := ((nodes.filter fun n => n.left.isSome).map fun n => n.w.toNat).sum

section Round

variable {nodes : List HuffNode} {a b : Nat} {r : List Nat}

/-- The nodes after a round that merges `a` and `b`. -/
def joined (nodes : List HuffNode) (a b : Nat) : List HuffNode :=
  ((nodes.modify a fun n => { n with used := true }).modify b fun n => { n with used := true }) ++
    [⟨weight nodes a + weight nodes b, some a, some b, false⟩]

theorem length_joined (nodes : List HuffNode) (a b : Nat) : (joined nodes a b).length = nodes.length + 1 := by
  simp [joined]

theorem weight_joined {i : Nat} (hi : i < nodes.length) : weight (joined nodes a b) i = weight nodes i := by
  rw [weight, joined, List.getElem?_append_left (by simpa using hi), weight, List.getElem?_modify, List.getElem?_modify]
  split_ifs <;> cases nodes[i]? <;> rfl

theorem weight_joined_last : weight (joined nodes a b) nodes.length = weight nodes a + weight nodes b := by
  rw [weight, joined, List.getElem?_append_right (by simp)]
  simp

theorem isUsed_joined {i : Nat} (hi : i < nodes.length) :
    isUsed (joined nodes a b) i = (isUsed nodes i || decide (a = i) || decide (b = i)) := by
  obtain ⟨n, hn⟩ : ∃ n, nodes[i]? = some n := ⟨_, List.getElem?_eq_getElem hi⟩
  rw [isUsed, joined, List.getElem?_append_left (by simpa using hi), isUsed, List.getElem?_modify,
    List.getElem?_modify, hn]
  by_cases ha : a = i <;> by_cases hb : b = i <;> simp [ha, hb]

theorem isUsed_joined_last : isUsed (joined nodes a b) nodes.length = false := by
  rw [isUsed, joined, List.getElem?_append_right (by simp)]
  simp

theorem nodup_unusedIdx (nodes : List HuffNode) : (unusedIdx nodes).Nodup := List.nodup_range.filter _

theorem unusedIdx_joined (h : (unusedIdx nodes).Perm (a :: b :: r)) :
    (unusedIdx (joined nodes a b)).Perm (nodes.length :: r) := by
  have hnodup := h.nodup_iff.mp (nodup_unusedIdx nodes)
  simp only [List.nodup_cons, List.mem_cons, not_or] at hnodup
  obtain ⟨⟨_, har⟩, hbr, _⟩ := hnodup
  have hrest : ((unusedIdx nodes).filter fun i => !(decide (a = i) || decide (b = i))).Perm r := by
    refine (h.filter _).trans ?_
    rw [List.filter_cons_of_neg (by simp), List.filter_cons_of_neg (by simp)]
    refine .of_eq (List.filter_eq_self.mpr fun i hi => ?_)
    have hai : a ≠ i := fun heq => har (heq ▸ hi)
    have hbi : b ≠ i := fun heq => hbr (heq ▸ hi)
    simp [hai, hbi]
  rw [unusedIdx, length_joined, List.range_succ, List.filter_append]
  have hlast : [nodes.length].filter (fun i => !isUsed (joined nodes a b) i) = [nodes.length] := by
    simp [isUsed_joined_last]
  have hold : ((List.range nodes.length).filter fun i => !isUsed (joined nodes a b) i) =
      (unusedIdx nodes).filter fun i => !(decide (a = i) || decide (b = i)) := by
    rw [unusedIdx, List.filter_filter]
    refine List.filter_congr fun i hi => ?_
    rw [isUsed_joined (List.mem_range.mp hi)]
    cases isUsed nodes i <;> simp
  rw [hlast, hold]
  exact (List.perm_append_singleton _ _).trans (hrest.cons _)

theorem lt_of_mem_unusedIdx {i : Nat} (h : i ∈ unusedIdx nodes) : i < nodes.length :=
  List.mem_range.mp (List.mem_of_mem_filter h)

theorem merged_joined (h : weightNat nodes a + weightNat nodes b < 2 ^ 64) :
    merged (joined nodes a b) = merged nodes + (weightNat nodes a + weightNat nodes b) := by
  have hmodify : ∀ (ns : List HuffNode) (i : Nat),
      merged (ns.modify i fun n => { n with used := true }) = merged ns := by
    intro ns
    induction ns with
    | nil => simp
    | cons n ns ih =>
      intro i
      cases i with
      | zero =>
        simp only [merged, List.modify_zero_cons, List.filter_cons]
        split_ifs <;> rfl
      | succ i =>
        have := ih i
        simp only [merged, List.modify_succ_cons, List.filter_cons] at this ⊢
        split_ifs <;> simp [this]
  have hnew : (weight nodes a + weight nodes b).toNat = weightNat nodes a + weightNat nodes b := by
    rw [UInt64.toNat_add]
    exact Nat.mod_eq_of_lt h
  rw [joined, merged, List.filter_append, List.map_append, List.sum_append]
  refine congrArg₂ (· + ·) ((hmodify _ b).trans (hmodify nodes a)) ?_
  simpa using hnew

end Round

/-! ## The whole merge -/

section Loop

variable {nodes : List HuffNode}

/-- A round merges the two lightest. -/
theorem mergeRound_spec (hroom : nodes.length < 512) (h : 2 ≤ (unusedIdx nodes).length)
    (hsum : (unusedWeights nodes).sum < 2 ^ 64) :
    ∃ nodes' a b r, mergeRound nodes = some nodes' ∧ (unusedWeights nodes).Perm (a :: b :: r) ∧ a ≤ b ∧
      (∀ w ∈ r, b ≤ w) ∧ (unusedWeights nodes').Perm ((a + b) :: r) ∧ nodes'.length = nodes.length + 1 ∧
      merged nodes' = merged nodes + (a + b) := by
  obtain ⟨a, b, r, hselect, hperm, hab, hr⟩ := exists_lightest h
  have hweights : (unusedWeights nodes).Perm (weightNat nodes a :: weightNat nodes b :: r.map (weightNat nodes)) :=
    hperm.map _
  have hlt : weightNat nodes a + weightNat nodes b < 2 ^ 64 := by
    rw [hweights.sum_eq, List.sum_cons, List.sum_cons] at hsum
    omega
  refine ⟨joined nodes a b, weightNat nodes a, weightNat nodes b, r.map (weightNat nodes), ?_, hweights, hab,
    List.forall_mem_map.mpr hr, ?_, length_joined nodes a b, merged_joined hlt⟩
  · rw [mergeRound, hselect]
    exact if_pos hroom
  · have hold : ∀ i ∈ r, weightNat (joined nodes a b) i = weightNat nodes i := by
      intro i hi
      have hmem : i ∈ unusedIdx nodes := hperm.mem_iff.mpr (List.mem_cons_of_mem a (List.mem_cons_of_mem b hi))
      rw [weightNat, weight_joined (lt_of_mem_unusedIdx hmem), weightNat]
    have hnew : weightNat (joined nodes a b) nodes.length = weightNat nodes a + weightNat nodes b := by
      rw [weightNat, weight_joined_last, UInt64.toNat_add]
      exact Nat.mod_eq_of_lt hlt
    have := (unusedIdx_joined hperm).map (weightNat (joined nodes a b))
    rwa [List.map_cons, hnew, List.map_congr_left hold] at this

/-- The loop is the greedy merge, and its arrays are long enough. -/
theorem mergeLoop_spec {n : Nat} (hn : (unusedIdx nodes).length = n + 1) (hroom : nodes.length + n ≤ 512)
    (hsum : (unusedWeights nodes).sum < 2 ^ 64) :
    ∃ nodes' c, mergeLoop (n + 1) nodes = some nodes' ∧ Huffman.Greedy (unusedWeights nodes) c ∧
      merged nodes' = merged nodes + c := by
  induction n generalizing nodes with
  | zero =>
    obtain ⟨i, hi⟩ := List.length_eq_one_iff.mp hn
    refine ⟨nodes, 0, rfl, ?_, rfl⟩
    rw [unusedWeights, hi]
    exact .single _
  | succ n ih =>
    obtain ⟨nodes₁, a, b, r, hround, hperm, hab, hr, hperm₁, hlen, hmerged⟩ :=
      mergeRound_spec (by omega) (by omega) hsum
    have hcount : (unusedIdx nodes₁).length = n + 1 := by
      have h := hperm.length_eq
      have h₁ := hperm₁.length_eq
      simp only [unusedWeights, List.length_map, List.length_cons] at h h₁
      omega
    have hsum₁ : (unusedWeights nodes₁).sum < 2 ^ 64 := by
      rw [hperm₁.sum_eq, List.sum_cons, Nat.add_assoc]
      rwa [hperm.sum_eq, List.sum_cons, List.sum_cons] at hsum
    obtain ⟨nodes₂, c, hloop, hgreedy, hmerged₂⟩ := ih hcount (by omega) hsum₁
    refine ⟨nodes₂, a + b + c, ?_, .merge hperm hab hr (hgreedy.perm hperm₁.symm), by omega⟩
    rw [mergeLoop, hround]
    exact hloop

/-- Sums that stay below 2^53 are exact. -/
theorem mergedBits_eq (h : merged nodes < 2 ^ 53) : mergedBits nodes = merged nodes := by
  have hfold : ∀ (ns : List HuffNode) (bits : Nat), bits + merged ns < 2 ^ 53 →
      ns.foldl (fun bits n => if n.left.isSome then Binary64.add bits (Binary64.round n.w.toNat) else bits) bits =
        bits + merged ns := by
    intro ns
    induction ns with
    | nil => exact fun bits _ => rfl
    | cons n ns ih =>
      intro bits hbits
      cases hleft : n.left.isSome with
      | false =>
        have hskip : merged (n :: ns) = merged ns := by simp [merged, hleft]
        rw [hskip] at hbits ⊢
        rw [List.foldl_cons, hleft, if_neg Bool.false_ne_true, ih bits hbits]
      | true =>
        have hcons : merged (n :: ns) = n.w.toNat + merged ns := by simp [merged, hleft]
        rw [hcons] at hbits ⊢
        rw [List.foldl_cons, hleft, if_pos rfl, Binary64.round_of_lt (by omega), Binary64.add_of_lt (by omega),
          ih _ (by omega), Nat.add_assoc]
  exact (hfold nodes 0 (by omega)).trans (Nat.zero_add _)

end Loop

/-! ## Codes -/

/-- What the symbols take when each is written as its code word. -/
def codedSize (freq : UInt8 → UInt64) (code : UInt8 → List Bool) : Nat :=
  ((occurring freq).map fun i => (freq i).toNat * (code i).length).sum

/-- No word is empty, and none begins with the word of another symbol. -/
structure IsPrefixCode (freq : UInt8 → UInt64) (code : UInt8 → List Bool) : Prop where
  nonempty : ∀ i ∈ occurring freq, code i ≠ []
  apart : ∀ i ∈ occurring freq, ∀ j ∈ occurring freq, i ≠ j → ¬ code i <+: code j

/-- Different texts are written differently. -/
structure IsDecodable (freq : UInt8 → UInt64) (code : UInt8 → List Bool) : Prop where
  injective : ∀ i ∈ occurring freq, ∀ j ∈ occurring freq, code i = code j → i = j
  unique : InformationTheory.UniquelyDecodable {w | ∃ i ∈ occurring freq, code i = w}

section Codes

variable {freq : UInt8 → UInt64}

theorem nodup_occurring (freq : UInt8 → UInt64) : (occurring freq).Nodup := nodup_allBytes.filter _

/-- The frequencies of the symbols that occur. -/
def frequencies (freq : UInt8 → UInt64) : List Nat := (occurring freq).map fun i => (freq i).toNat

theorem isUsed_leaves (i : Nat) : isUsed (leaves freq) i = false := by
  rw [isUsed, leaves, List.getElem?_map]
  cases (occurring freq)[i]? <;> rfl

theorem unusedIdx_leaves : unusedIdx (leaves freq) = List.range (occurring freq).length := by
  rw [unusedIdx, leaves, List.length_map, List.filter_eq_self]
  intro i _
  rw [← leaves, isUsed_leaves]
  rfl

theorem unusedWeights_leaves : unusedWeights (leaves freq) = frequencies freq := by
  rw [unusedWeights, unusedIdx_leaves, frequencies]
  refine List.ext_getElem (by simp) fun i hi hi' => ?_
  rw [List.length_map, List.length_range] at hi
  rw [List.getElem_map, List.getElem_range, List.getElem_map, weightNat, weight, leaves, List.getElem?_map,
    List.getElem?_eq_getElem hi]
  rfl

theorem merged_leaves : merged (leaves freq) = 0 := by
  have hfilter : (leaves freq).filter (fun n => n.left.isSome) = [] := by simp [leaves]
  rw [merged, hfilter]
  rfl

theorem length_occurring_le (freq : UInt8 → UInt64) : (occurring freq).length ≤ 256 :=
  (List.length_filter_le _ _).trans (by simp [allBytes])

/-- Words of one byte bound what the merge gives. -/
theorem greedy_le {c : Nat} (h : Huffman.Greedy (frequencies freq) c) : c ≤ (frequencies freq).sum * 8 := by
  have hlen := length_occurring_le freq
  have hlens : ((frequencies freq).map fun w => (w, 8)).map Prod.snd = List.replicate (occurring freq).length 8 := by
    rw [List.map_map, frequencies, List.map_map, List.eq_replicate_iff]
    simp
  have hfits : Huffman.Fits (((frequencies freq).map fun w => (w, 8)).map Prod.snd) := by
    rw [hlens]
    refine ⟨8, fun l hl => (List.eq_of_mem_replicate hl).le, ?_⟩
    simpa using hlen
  have hcost : Huffman.cost ((frequencies freq).map fun w => (w, 8)) = (frequencies freq).sum * 8 := by
    rw [Huffman.cost, List.map_map]
    exact (List.sum_map_mul_right _ id 8).trans (by rw [List.map_id])
  rw [← hcost]
  exact h.le_cost (by rw [List.map_map]; exact .of_eq (List.map_id' _)) hfits

/-- Words for the frequencies are words for the symbols. -/
theorem exists_code_of_words {p : List (Nat × List Bool)} (h : (p.map Prod.fst).Perm (frequencies freq)) :
    ∃ code : UInt8 → List Bool, ((occurring freq).map fun i => ((freq i).toNat, code i)).Perm p := by
  obtain ⟨q, hq, hqp⟩ : ∃ q : List (Nat × List Bool),
      List.Forall₂ (fun w x => w = x.1) (frequencies freq) q ∧ q.Perm p := by
    have hself : List.Forall₂ (fun w x => w = x.1) (p.map Prod.fst) p := by
      rw [List.forall₂_map_left_iff]
      exact List.forall₂_same.mpr fun _ _ => rfl
    obtain ⟨q, hq, hqp⟩ := List.perm_comp_forall₂ h.symm hself
    exact ⟨q, hq, hqp⟩
  refine ⟨fun i => ((q.getD ((occurring freq).idxOf i) (0, [])).2), .trans (.of_eq ?_) hqp⟩
  have hlen := hq.length_eq
  rw [frequencies, List.length_map] at hlen
  refine List.ext_getElem (by rw [List.length_map, hlen]) fun k hk hk' => ?_
  rw [List.length_map] at hk
  have hfst : (freq (occurring freq)[k]).toNat = q[k].1 := by
    have := hq.get (by rw [frequencies, List.length_map]; exact hk) hk'
    simpa [frequencies] using this
  simp only [List.getElem_map, (nodup_occurring freq).idxOf_getElem k hk, List.getD_eq_getElem _ _ hk', hfst]

/-- What the merge gives is the size of a prefix code. -/
theorem exists_prefixCode {c : Nat} (h : Huffman.Greedy (frequencies freq) c) (htwo : 2 ≤ (occurring freq).length) :
    ∃ code, IsPrefixCode freq code ∧ codedSize freq code = c := by
  obtain ⟨p, hp, hapart, hcost⟩ := h.exists_code
  obtain ⟨code, hcode⟩ := exists_code_of_words hp
  have hpairwise : (occurring freq).Pairwise fun i j => Huffman.Apart (code i) (code j) := by
    have := ((hcode.map Prod.snd).pairwise_iff Huffman.Apart.symm).mpr hapart
    rwa [List.map_map, List.pairwise_map] at this
  have : Std.Symm fun i j => Huffman.Apart (code i) (code j) := ⟨fun _ _ h => h.symm⟩
  have happart : ∀ i ∈ occurring freq, ∀ j ∈ occurring freq, i ≠ j → Huffman.Apart (code i) (code j) :=
    fun i hi j hj => hpairwise.forall hi hj
  refine ⟨code, ⟨fun i hi hnil => ?_, fun i hi j hj hne => (happart i hi j hj hne).1⟩, ?_⟩
  · -- an empty word begins every other
    have hcard : 1 < (occurring freq).toFinset.card := by
      rw [List.toFinset_card_of_nodup (nodup_occurring freq)]
      omega
    obtain ⟨j, hj, hne⟩ := Finset.exists_mem_ne hcard i
    exact (happart i hi j (List.mem_toFinset.mp hj) hne.symm).1 (hnil ▸ List.nil_prefix)
  · rw [← hcost, ← Huffman.cost_perm (hcode.map _), List.map_map, codedSize, Huffman.cost, List.map_map]
    rfl

/-- A code that can be decoded takes no less than the merge. -/
theorem greedy_le_codedSize {c : Nat} (h : Huffman.Greedy (frequencies freq) c) {code : UInt8 → List Bool}
    (hcode : IsDecodable freq code) : c ≤ codedSize freq code := by
  have hnodup : ((occurring freq).map code).Nodup :=
    List.Nodup.map_on (fun i hi j hj => hcode.injective i hi j hj) (nodup_occurring freq)
  have hset : {w | w ∈ (occurring freq).map code} = {w | ∃ i ∈ occurring freq, code i = w} := by
    ext w
    exact List.mem_map
  have hfits := Huffman.fits_of_uniquelyDecodable hnodup (hset ▸ hcode.unique)
  rw [List.map_map] at hfits
  have hle := @Huffman.Greedy.le_cost _ _ h ((occurring freq).map fun i => ((freq i).toNat, (code i).length))
    (by rw [List.map_map]; exact .refl _) (by rw [List.map_map]; exact hfits)
  rwa [Huffman.cost, List.map_map] at hle

end Codes

/-- Files below 2^50 bytes: the size is that of a prefix code, and every code that can be decoded takes at
least as much. -/
theorem huffmanBytes_optimal (freq : UInt8 → UInt64) (h : (frequencies freq).sum < 2 ^ 50) :
    ∃ bits, huffmanBytes freq = some ((occurring freq).length, bits) ∧
      (∃ code, IsPrefixCode freq code ∧ codedSize freq code = bits) ∧
      ∀ code, IsDecodable freq code → bits ≤ codedSize freq code := by
  have hlen : (leaves freq).length = (occurring freq).length := by rw [leaves, List.length_map]
  obtain hnone | hone | htwo : (occurring freq).length = 0 ∨ (occurring freq).length = 1 ∨
      2 ≤ (occurring freq).length := by omega
  · have hnil := List.eq_nil_of_length_eq_zero hnone
    refine ⟨0, ?_, ⟨fun _ => [], ⟨by simp [hnil], by simp [hnil]⟩, by simp [codedSize, hnil]⟩,
      fun _ _ => Nat.zero_le _⟩
    simp only [huffmanBytes, hlen, hnone, if_true]
  · obtain ⟨i, hi⟩ := List.length_eq_one_iff.mp hone
    have hfreq : (frequencies freq).sum = (freq i).toNat := by simp [frequencies, hi]
    have hw : weight (leaves freq) 0 = freq i := by simp [weight, leaves, hi]
    refine ⟨(freq i).toNat, ?_, ⟨fun _ => [false], ⟨by simp, by simp [hi]⟩, by simp [codedSize, hi]⟩,
      fun code hcode => ?_⟩
    · simp only [huffmanBytes, hlen, hone, hw]
      rw [Binary64.round_of_lt (by omega)]
      rfl
    · have hne : code i ≠ [] := fun hnil =>
        hcode.unique.epsilon_not_mem ⟨i, by simp [hi], hnil⟩
      have hpos := List.length_pos_iff.mpr hne
      simpa [codedSize, hi] using Nat.le_mul_of_pos_right (freq i).toNat hpos
  · obtain ⟨n, hn⟩ : ∃ n, (occurring freq).length = n + 1 := ⟨(occurring freq).length - 1, by omega⟩
    have hunused : (unusedIdx (leaves freq)).length = n + 1 := by rw [unusedIdx_leaves, List.length_range, hn]
    have hroom := length_occurring_le freq
    obtain ⟨nodes, c, hloop, hgreedy, hmerged⟩ := mergeLoop_spec hunused (by omega)
      (by rw [unusedWeights_leaves]; omega)
    rw [unusedWeights_leaves] at hgreedy
    rw [merged_leaves, Nat.zero_add] at hmerged
    have hle := greedy_le hgreedy
    refine ⟨c, ?_, exists_prefixCode hgreedy htwo, fun code hcode => greedy_le_codedSize hgreedy hcode⟩
    rw [huffmanBytes]
    simp only [hlen]
    rw [if_neg (by omega), if_neg (by omega), hn, hloop, Option.map_some, mergedBits_eq (by omega), hmerged]

/-- Three symbols that occur once, once and twice. -/
def threeFreq (i : UInt8) : UInt64 := if i = 0x61 then 1 else if i = 0x62 then 1 else if i = 0x63 then 2 else 0

theorem huffmanBytes_optimal_three : ∃ bits, huffmanBytes threeFreq = some ((occurring threeFreq).length, bits) ∧
    (∃ code, IsPrefixCode threeFreq code ∧ codedSize threeFreq code = bits) ∧
    ∀ code, IsDecodable threeFreq code → bits ≤ codedSize threeFreq code :=
  huffmanBytes_optimal threeFreq (by decide +kernel)

end Triepack.V2
