import Triepack.Bitstream.Varint
import Triepack.Library.Louds
import Triepack.V2.Bitvec
import Triepack.V2.Compress
import Triepack.V2.TailPool

/-!
# The sections of the second format

The nodes are numbered level by level. Degrees, labels, presence of tails and terminals stand in that
order, and so do the values of the terminals.
-/

namespace Triepack.V2

open Louds

/-! ## Values -/

/-- `leb128_write`. -/
def leb128Write (buf : List UInt8) (v : Nat) : List UInt8 :=
  let byte := v &&& 0x7F
  let rest := v >>> 7
  if _h : rest ≠ 0 then leb128Write (buf ++ [UInt8.ofNat (byte ||| 0x80)]) rest
  else buf ++ [UInt8.ofNat byte]
termination_by v
decreasing_by
  simp only [rest, Nat.shiftRight_eq_div_pow] at _h ⊢
  omega

/-- The loop of `leb128_read`; at most the bytes that there are. -/
def leb128ReadLoop (buf : List UInt8) : (fuel pos v shift : Nat) → Nat × Nat
  | 0, pos, v, _ => (v, pos)
  | fuel + 1, pos, v, shift =>
    let byte := (buf.getD pos 0).toNat
    let v := v ||| u64 ((byte &&& 0x7F) <<< shift)
    if byte &&& 0x80 ≠ 0 then leb128ReadLoop buf fuel (pos + 1) v (shift + 7) else (v, pos + 1)

/-- `leb128_read`: the number and the place behind it. -/
def leb128Read (buf : List UInt8) (pos : Nat) : Nat × Nat := leb128ReadLoop buf buf.length pos 0 0

theorem leb128Write_eq (buf : List UInt8) (v : Nat) : leb128Write buf v = buf ++ Leb128.code v := by
  induction v using Nat.strongRecOn generalizing buf with
  | ind v ih =>
    have hmask : v &&& 0x7F = v % 128 := Nat.and_two_pow_sub_one_eq_mod v 7
    have hshift : v >>> 7 = v / 128 := Nat.shiftRight_eq_div_pow v 7
    rw [leb128Write]
    simp only [hmask, hshift]
    by_cases hv : v < 128
    · rw [dif_neg (by omega), Leb128.code_of_lt hv, Nat.mod_eq_of_lt hv]
    · have hcont : v % 128 ||| 0x80 = v % 128 + 128 := or_continuation (Nat.mod_lt _ (by omega))
      rw [dif_pos (by omega), ih (v / 128) (by omega), Leb128.code_of_le (show 128 ≤ v by omega), hcont,
        List.append_assoc]
      rfl

theorem leb128ReadLoop_eq {buf rest : List UInt8} {fuel pos v acc shift : Nat}
    (hbuf : buf.drop pos = Leb128.code v ++ rest) (hacc : acc < 2 ^ shift)
    (hsmall : v * 2 ^ shift + acc < 2 ^ 64) (hfuel : (Leb128.code v).length ≤ fuel) :
    leb128ReadLoop buf fuel pos acc shift = (v * 2 ^ shift + acc, pos + (Leb128.code v).length) := by
  induction fuel generalizing pos v acc shift with
  | zero =>
    have hpos := (Leb128.isCode_code v).length_pos
    omega
  | succ fuel ih =>
    have hget : ∀ (b : UInt8) (bs : List UInt8), buf.drop pos = b :: bs → buf.getD pos 0 = b := by
      intro b bs hdrop
      rw [List.getD_eq_getElem?_getD, ← List.head?_drop, hdrop]
      rfl
    rw [leb128ReadLoop]
    by_cases hv : v < 128
    · rw [Leb128.code_of_lt hv] at hbuf ⊢
      rw [hget _ _ hbuf, Leb128.toNat_ofNat_of_lt (by omega), and_seven_bits, Nat.mod_eq_of_lt hv,
        or_group hacc (by omega), if_neg (not_not.mpr ((and_continuation (by omega)).mpr hv))]
      rfl
    · have hdiv : 128 * (v / 128) + v % 128 = v := Nat.div_add_mod v 128
      have hpow : 2 ^ (shift + 7) = 128 * 2 ^ shift := by rw [pow_add]; ring
      have hsum : v / 128 * 2 ^ (shift + 7) + (v % 128 * 2 ^ shift + acc) = v * 2 ^ shift + acc := by
        rw [hpow]
        conv_rhs => rw [← hdiv]
        ring
      have hlow : v % 128 * 2 ^ shift ≤ 127 * 2 ^ shift := Nat.mul_le_mul_right _ (by omega)
      rw [Leb128.code_of_le (by omega)] at hbuf hfuel ⊢
      rw [List.length_cons] at hfuel ⊢
      have hdrop : buf.drop (pos + 1) = Leb128.code (v / 128) ++ rest := by
        rw [← List.tail_drop, hbuf]
        rfl
      have hmod : (v % 128 + 128) % 128 = v % 128 := by omega
      have hmore : ¬ (v % 128 + 128) &&& 0x80 = 0 := by
        rw [and_continuation (by omega)]
        omega
      rw [hget _ _ hbuf, Leb128.toNat_ofNat_of_lt (by omega), and_seven_bits, hmod,
        or_group hacc (by omega), if_pos hmore, ih hdrop (by omega) (by omega) (by omega), hsum, Nat.add_assoc,
        Nat.add_comm 1]

/-! ## Numbers of nodes -/

/-- The loop that numbers the nodes; the number of a node is its place. -/
def numberLoop : (fuel head : Nat) → List Node → List Node
  | 0, _, bfs => bfs
  | fuel + 1, head, bfs =>
    match bfs[head]? with
    | some v => numberLoop fuel (head + 1) (bfs ++ v.kids)
    | none => bfs

/-- The nodes by their numbers. -/
def numberNodes (root : Node) : List Node := numberLoop (root.weight + 1) 0 [root]

/-- What is still to be visited. -/
def unvisited (vs : List Node) : Nat := (vs.map fun v => 1 + v.weight).sum

theorem unvisited_kids_le (v : Node) : unvisited v.kids ≤ v.weight := by
  obtain ⟨l, t, cs, term, u⟩ := v
  rw [Node.kids, Node.weight, Node.kidsWeight_eq, unvisited]
  exact List.sum_le_sum fun c _ => by omega

theorem numberLoop_spec {fuel head : Nat} {root : Node} {bfs : List Node}
    (hinv : bfs = root :: (bfs.take head).flatMap Node.kids) (hhead : head ≤ bfs.length)
    (hfuel : unvisited (bfs.drop head) ≤ fuel) :
    BreadthFirst Node.kids root (numberLoop fuel head bfs) := by
  induction fuel generalizing head bfs with
  | zero =>
    have hend : bfs.drop head = [] := by
      rcases hdrop : bfs.drop head with _ | ⟨v, vs⟩
      · rfl
      · rw [hdrop, unvisited, List.map_cons, List.sum_cons] at hfuel
        omega
    rw [List.take_of_length_le (List.drop_eq_nil_iff.mp hend)] at hinv
    exact hinv
  | succ fuel ih =>
    rw [numberLoop]
    rcases hget : bfs[head]? with _ | v
    · rw [List.take_of_length_le (List.getElem?_eq_none_iff.mp hget)] at hinv
      exact hinv
    · obtain ⟨hlt, hv⟩ := List.getElem?_eq_some_iff.mp hget
      refine ih ?_ ?_ ?_
      · rw [List.take_append_of_le_length (by omega), List.take_succ_eq_append_getElem hlt, hv,
          List.flatMap_append, List.flatMap_singleton, ← List.cons_append, ← hinv]
      · rw [List.length_append]
        omega
      · have hkids := unvisited_kids_le v
        rw [List.drop_eq_getElem_cons hlt, hv, unvisited, List.map_cons, List.sum_cons] at hfuel
        rw [List.drop_append_of_le_length (by omega), unvisited, List.map_append, List.sum_append]
        rw [unvisited] at hkids
        omega

theorem numberNodes_breadthFirst (root : Node) : BreadthFirst Node.kids root (numberNodes root) := by
  refine numberLoop_spec (by simp) (by simp) ?_
  simp [unvisited]
  omega

/-- What a node passes on to its children holds of all nodes when it holds of the root. -/
theorem numberLoop_forall {P : Node → Prop} (hkids : ∀ n, P n → ∀ c ∈ n.kids, P c) {fuel head : Nat}
    {bfs : List Node} (hbfs : ∀ n ∈ bfs, P n) : ∀ n ∈ numberLoop fuel head bfs, P n := by
  induction fuel generalizing head bfs with
  | zero => exact hbfs
  | succ fuel ih =>
    rw [numberLoop]
    rcases hget : bfs[head]? with _ | v
    · exact hbfs
    · refine ih fun n hn => ?_
      rcases List.mem_append.mp hn with hn | hn
      · exact hbfs n hn
      · exact hkids v (hbfs v (List.mem_of_getElem? hget)) n hn

/-- The bytes on the edges are those of the nodes behind the root. -/
theorem sum_edges {root : Node} {bfs : List Node} (h : BreadthFirst Node.kids root bfs) :
    (bfs.tail.map fun v => 1 + v.tail.length).sum = root.weight := by
  have htail : bfs.tail = bfs.flatMap Node.kids := by
    conv_lhs => rw [h]
    rfl
  have hweights : (bfs.map Node.weight).sum =
      ((bfs.flatMap Node.kids).map fun v => 1 + v.tail.length + v.weight).sum := by
    generalize bfs = vs
    induction vs with
    | nil => rfl
    | cons v vs ih =>
      obtain ⟨l, t, cs, term, u⟩ := v
      rw [List.map_cons, List.sum_cons, List.flatMap_cons, List.map_append, List.sum_append, ← ih,
        Node.weight, Node.kidsWeight_eq]
      rfl
  have hsplit : (bfs.map Node.weight).sum = root.weight + (bfs.tail.map Node.weight).sum := by
    conv_lhs => rw [h]
    rw [List.map_cons, List.sum_cons, ← htail]
  have hadd := @List.sum_map_add Node Nat _ bfs.tail (fun v => 1 + v.tail.length) Node.weight
  rw [← htail, hadd] at hweights
  omega

/-- What all nodes count for is the total of the root. -/
theorem sum_total {root : Node} {bfs : List Node} (h : BreadthFirst Node.kids root bfs) (g : Bool → Nat) :
    (bfs.map fun v => g v.terminal).sum = root.total g := by
  have htotals : (bfs.map (Node.total g)).sum =
      (bfs.map fun v => g v.terminal).sum + ((bfs.flatMap Node.kids).map (Node.total g)).sum := by
    generalize bfs = vs
    induction vs with
    | nil => rfl
    | cons v vs ih =>
      obtain ⟨l, t, cs, term, u⟩ := v
      rw [List.map_cons, List.sum_cons, List.map_cons, List.sum_cons, List.flatMap_cons, List.map_append,
        List.sum_append, ih, Node.total, Node.kidsTotal_eq]
      simp only [Node.kids, Node.terminal]
      omega
  have hsplit : (bfs.map (Node.total g)).sum =
      root.total g + ((bfs.flatMap Node.kids).map (Node.total g)).sum := by
    conv_lhs => rw [h]
    rw [List.map_cons, List.sum_cons]
  omega

/-- The nodes fit into the array that `main` allocates for them. -/
theorem length_numberNodes_le (words : List (List UInt8)) :
    (numberNodes (builtTrie words)).length ≤ words.length * 4 + 16 := by
  have hsum := sum_total (numberNodes_breadthFirst (builtTrie words)) fun _ => 1
  have hsize := size_builtTrie_le words
  rw [List.map_const', List.sum_replicate, smul_eq_mul, Nat.mul_one, ← Node.size] at hsum
  omega

/-! ## Sections -/

/-- What the loop over the nodes fills. -/
structure Sections where
  louds : Bitvec
  tailsPresent : Bitvec
  terminals : Bitvec
  labels : List UInt8
  values : List UInt8
  valueOff : List Nat
  tl : List Tail

def Sections.empty : Sections := ⟨.empty, .empty, .empty, [], [], [], []⟩

/-- `n` ones. -/
def pushOnes (b : Bitvec) : (n : Nat) → Bitvec
  | 0 => b
  | n + 1 => pushOnes (bvPush b true) n

/-- The part of the loop that every node has. -/
def writeDegree (v : Node) (s : Sections) : Sections :=
  { s with
    louds := bvPush (pushOnes s.louds v.kids.length) false
    terminals := bvPush s.terminals v.terminal
    valueOff := if v.terminal then s.valueOff ++ [s.values.length] else s.valueOff
    values := if v.terminal then leb128Write s.values v.value else s.values }

/-- The part that the root does not have. -/
def writeEdge (v : Node) (s : Sections) : Sections :=
  { s with
    labels := s.labels ++ [v.label]
    tailsPresent := bvPush s.tailsPresent (decide (v.tail.length ≠ 0))
    tl := if v.tail.length ≠ 0 then s.tl ++ [⟨v.tail, 0⟩] else s.tl }

/-- The loop over the nodes from number `i` on. -/
def writeNodes : List Node → (i : Nat) → Sections → Sections
  | [], _, s => s
  | v :: vs, i, s =>
    let s := writeDegree v s
    writeNodes vs (i + 1) (if i > 0 then writeEdge v s else s)

/-- The values of the terminals, in the order of their numbers. -/
def terminalValues (bfs : List Node) : List Nat := (bfs.filter Node.terminal).map Node.value

/-- The offsets of the values fit into the array that `main` allocates for them. -/
theorem length_terminalValues_le (words : List (List UInt8)) :
    (terminalValues (numberNodes (builtTrie words))).length ≤ words.length := by
  have hsum := sum_total (numberNodes_breadthFirst (builtTrie words)) Bool.toNat
  have hterms := terminals_builtTrie_le words
  rw [Node.terminals, ← hsum] at hterms
  refine Nat.le_trans (Nat.le_of_eq ?_) hterms
  rw [terminalValues, List.length_map, ← List.countP_eq_length_filter]
  generalize numberNodes (builtTrie words) = bfs
  induction bfs with
  | nil => rfl
  | cons v bfs ih =>
    rw [List.countP_cons, List.map_cons, List.sum_cons, ih, Nat.add_comm]
    cases v.terminal <;> rfl

/-- The degrees of the nodes. -/
def degrees (bfs : List Node) : List Nat := bfs.map fun v => v.kids.length

/-- The sections describe the nodes; the edges of the first one are left out. -/
structure Sections.Describes (s : Sections) (bfs edges : List Node) : Prop where
  louds : s.louds.Holds (degreeBits (degrees bfs))
  terminals : s.terminals.Holds (bfs.map Node.terminal)
  tailsPresent : s.tailsPresent.Holds (edges.map fun v => decide (v.tail.length ≠ 0))
  labels : s.labels = edges.map Node.label
  tl : s.tl = (edges.filter fun v => decide (v.tail.length ≠ 0)).map fun v => ⟨v.tail, 0⟩
  values : s.values = (terminalValues bfs).flatMap Leb128.code
  length_valueOff : s.valueOff.length = (terminalValues bfs).length
  valueOff : ∀ j < (terminalValues bfs).length,
    s.valueOff[j]? = some (((terminalValues bfs).take j).flatMap Leb128.code).length

theorem pushOnes_holds {b : Bitvec} {bs : List Bool} (h : b.Holds bs) (n : Nat) :
    (pushOnes b n).Holds (bs ++ List.replicate n true) := by
  induction n generalizing b bs with
  | zero => simpa [pushOnes] using h
  | succ n ih =>
    have hrest := ih (bvPush_holds h true)
    rwa [List.append_assoc, List.singleton_append, ← List.replicate_succ] at hrest

theorem writeDegree_describes {s : Sections} {bfs edges : List Node} (h : s.Describes bfs edges)
    (v : Node) : (writeDegree v s).Describes (bfs ++ [v]) edges := by
  have hdegrees : degreeBits (degrees (bfs ++ [v])) =
      degreeBits (degrees bfs) ++ List.replicate v.kids.length true ++ [false] := by
    simp [degrees, degreeBits]
  have hvalues : terminalValues (bfs ++ [v]) =
      terminalValues bfs ++ if v.terminal then [v.value] else [] := by
    rw [terminalValues, terminalValues, List.filter_append, List.map_append]
    congr 1
    cases hterm : v.terminal <;> simp [hterm]
  refine ⟨?_, ?_, h.tailsPresent, h.labels, h.tl, ?_, ?_, fun j hj => ?_⟩
  · rw [hdegrees]
    exact bvPush_holds (pushOnes_holds h.louds _) false
  · rw [List.map_append]
    exact bvPush_holds h.terminals v.terminal
  · rw [hvalues, List.flatMap_append, ← h.values]
    simp only [writeDegree]
    split_ifs
    · rw [leb128Write_eq, List.flatMap_singleton]
    · rw [List.flatMap_nil, List.append_nil]
  · rw [hvalues, List.length_append, ← h.length_valueOff]
    simp only [writeDegree]
    split_ifs <;> simp
  · rw [hvalues] at hj ⊢
    simp only [writeDegree]
    by_cases hold : j < (terminalValues bfs).length
    · rw [List.take_append_of_le_length hold.le, ← h.valueOff j hold]
      split_ifs
      · rw [List.getElem?_append_left (by rw [h.length_valueOff]; exact hold)]
      · rfl
    · split_ifs at hj ⊢ with hterm
      · rw [List.length_append, List.length_singleton] at hj
        obtain rfl : j = (terminalValues bfs).length := by omega
        rw [List.getElem?_append_right (by rw [h.length_valueOff]), h.length_valueOff, Nat.sub_self,
          List.take_left, ← h.values]
        rfl
      · rw [List.append_nil] at hj
        exact absurd hj hold

theorem writeEdge_describes {s : Sections} {bfs edges : List Node} (h : s.Describes bfs edges)
    (v : Node) : (writeEdge v s).Describes bfs (edges ++ [v]) := by
  refine ⟨h.louds, h.terminals, ?_, ?_, ?_, h.values, h.length_valueOff, h.valueOff⟩
  · rw [List.map_append]
    exact bvPush_holds h.tailsPresent _
  · rw [List.map_append, ← h.labels]
    rfl
  · rw [List.filter_append, List.map_append, ← h.tl]
    simp only [writeEdge]
    split_ifs with htail
    · rw [List.filter_cons_of_pos (by simpa using htail)]
      rfl
    · rw [List.filter_cons_of_neg (by simpa using htail), List.filter_nil, List.map_nil, List.append_nil]

theorem writeNodes_describes {vs : List Node} {i : Nat} {s : Sections} {bfs edges : List Node}
    (h : s.Describes bfs edges) (hi : 0 < i) :
    (writeNodes vs i s).Describes (bfs ++ vs) (edges ++ vs) := by
  induction vs generalizing i s bfs edges with
  | nil => simpa [writeNodes] using h
  | cons v vs ih =>
    rw [writeNodes]
    have hrest := @ih (i + 1) _ _ _ (writeEdge_describes (writeDegree_describes h v) v) (by omega)
    rw [List.append_assoc, List.append_assoc, List.singleton_append] at hrest
    simp only [if_pos hi]
    exact hrest

theorem empty_describes : Sections.empty.Describes [] [] :=
  ⟨holds_empty, holds_empty, holds_empty, rfl, rfl, rfl, rfl, fun j hj => absurd hj (by simp [terminalValues])⟩

/-- The sections of a trie describe all its nodes, and the edges to all of them but the root. -/
theorem writeNodes_all {root : Node} {bfs : List Node} (h : BreadthFirst Node.kids root bfs) :
    (writeNodes bfs 0 .empty).Describes bfs bfs.tail := by
  rw [BreadthFirst] at h
  rw [h, writeNodes]
  simp only [if_neg (show ¬ 0 > 0 by omega)]
  exact writeNodes_describes (writeDegree_describes empty_describes root) (by omega)

/-! ## The serialised trie -/

/-- The structures that a lookup goes through. -/
structure Serialised where
  louds : Bitvec
  tailsPresent : Bitvec
  terminals : Bitvec
  labels : List UInt8
  distinct : List Tail
  pool : List UInt8
  tailOf : List Nat
  values : List UInt8
  sample : List Nat

/-- How far apart the sampled offsets are. -/
def SAMPLE : Nat := 32

/-- `tail_of`: where the tail of every edge is among the placed ones. -/
def tailOf (tailsPresent : Bitvec) (distinct : List Tail) (bfs : List Node) : List Nat :=
  bfs.mapIdx fun i v =>
    if 1 ≤ i ∧ bvGet tailsPresent (i - 1) ≠ 0 then findTail distinct ⟨v.tail, 0⟩ else 0xFFFFFFFF

/-- The sampled offset index. -/
def sampleOffsets (valueOff : List Nat) : List Nat :=
  (List.range ((valueOff.length + SAMPLE - 1) / SAMPLE)).map fun i => valueOff.getD (i * SAMPLE) 0

/-- What `main` builds from the words before it looks any up. -/
def serialise (q : TailQsort) (words : List (List UInt8)) : Serialised :=
  let bfs := numberNodes (builtTrie words)
  let s := writeNodes bfs 0 .empty
  let tailsPresent := bvBuildIndex s.tailsPresent
  let p := tailPool q s.tl
  { louds := bvBuildIndex s.louds
    tailsPresent := tailsPresent
    terminals := bvBuildIndex s.terminals
    labels := s.labels
    distinct := p.placed
    pool := p.pool
    tailOf := tailOf tailsPresent p.placed bfs
    values := s.values
    sample := sampleOffsets s.valueOff }

end Triepack.V2
