import Triepack.V2.Trie

/-!
# Compression of the trie

Chains of nodes that neither branch nor end a key are folded into the tail of the edge above them.
What a node stores below itself stays the same, and few nodes are left.
-/

namespace Triepack.V2

/-- The loop of `trie_compress` that folds the nodes below `c` into its edge. -/
def absorb : (fuel : Nat) → Node → Node
  | fuel + 1, .mk l t [g] false _ =>
    absorb fuel (.mk l (t ++ g.label :: g.tail) g.kids g.terminal g.value)
  | _, c => c

/-- `trie_compress`. -/
def trieCompress : (fuel : Nat) → Node → Node
  | 0, v => v
  | fuel + 1, .mk l t cs term v =>
    .mk l t (cs.map fun c => trieCompress fuel (absorb c.weight c)) term v

/-- The trie of the words when it is compressed. -/
def builtTrie (words : List (List UInt8)) : Node :=
  trieCompress (plainTrie words).weight (plainTrie words)

/-! ## What compression keeps -/

/-- What is stored behind the first byte of an edge. -/
def Node.EdgeStores (c : Node) (key : List UInt8) (w : Nat) : Prop :=
  ∃ rest, key = c.tail ++ rest ∧ c.Stores rest w

theorem Node.stores_cons_iff_edge {n : Node} {b : UInt8} {key : List UInt8} {w : Nat} :
    n.Stores (b :: key) w ↔ ∃ c ∈ n.kids, c.label = b ∧ c.EdgeStores key w := Node.stores_cons_iff

/-- One round of the loop moves a node into the edge above it. -/
theorem edgeStores_fold {l : UInt8} {t : List UInt8} {g : Node} {v : Nat} {key : List UInt8} {w : Nat} :
    (Node.mk l (t ++ g.label :: g.tail) g.kids g.terminal g.value).EdgeStores key w ↔
      (Node.mk l t [g] false v).EdgeStores key w := by
  obtain ⟨lg, tg, cg, termg, vg⟩ := g
  constructor
  · rintro ⟨rest, rfl, h⟩
    refine ⟨lg :: (tg ++ rest), by simp [Node.tail, Node.label], ?_⟩
    exact .child (List.mem_singleton_self _) h.relabel
  · rintro ⟨rest, rfl, h⟩
    cases rest with
    | nil =>
      rw [Node.stores_nil_iff] at h
      simp [Node.terminal] at h
    | cons b rest =>
      obtain ⟨c, hc, rfl, rest, rfl, hstores⟩ := Node.stores_cons_iff.mp h
      obtain rfl := List.mem_singleton.mp hc
      exact ⟨rest, by simp [Node.tail, Node.label], hstores.relabel⟩

/-- An edge that is not folded any more. -/
def Node.Folded (c : Node) : Prop := c.kids.length = 1 → c.terminal = true

/-- What folding keeps of an edge. -/
structure Absorbs (c c' : Node) : Prop where
  label : c'.label = c.label
  stores : ∀ key w, c'.EdgeStores key w ↔ c.EdgeStores key w
  sorted : c.Sorted → c'.Sorted
  live : c.Live → c'.Live
  weight : c'.tail.length + c'.weight = c.tail.length + c.weight
  terminals : c'.terminals = c.terminals

theorem absorb_spec (fuel : Nat) (c : Node) :
    Absorbs c (absorb fuel c) ∧ (c.weight ≤ fuel → (absorb fuel c).Folded) := by
  induction fuel generalizing c with
  | zero =>
    refine ⟨⟨rfl, fun _ _ => Iff.rfl, id, id, rfl, rfl⟩, fun hfuel hone => ?_⟩
    obtain ⟨l, t, cs, term, v⟩ := c
    obtain ⟨g, rfl⟩ := List.length_eq_one_iff.mp hone
    simp [Node.weight, Node.kidsWeight] at hfuel
  | succ fuel ih =>
    have hself : Absorbs c c := ⟨rfl, fun _ _ => Iff.rfl, id, id, rfl, rfl⟩
    obtain ⟨l, t, cs, term, v⟩ := c
    rcases cs with _ | ⟨g, _ | ⟨h, cs⟩⟩
    · exact ⟨hself, fun _ hone => by simp [absorb, Node.kids] at hone⟩
    · cases term with
      | true => exact ⟨hself, fun _ _ => rfl⟩
      | false =>
        obtain ⟨habsorbs, hfolded⟩ := ih (.mk l (t ++ g.label :: g.tail) g.kids g.terminal g.value)
        have hweight : g.weight =
            Node.weight (.mk l (t ++ g.label :: g.tail) g.kids g.terminal g.value) := by
          obtain ⟨lg, tg, cg, termg, vg⟩ := g
          rfl
        rw [absorb]
        refine ⟨⟨habsorbs.label, fun key w => (habsorbs.stores key w).trans edgeStores_fold,
          fun hsorted => habsorbs.sorted ?_, fun hlive => habsorbs.live ?_, ?_, ?_⟩, fun hfuel => hfolded ?_⟩
        · have hg := hsorted.kids g (List.mem_singleton_self g)
          exact .intro hg.labels hg.kids
        · have hg := hlive.kids g (List.mem_singleton_self g)
          cases hg with
          | intro ends live => exact .intro ends live
        · rw [habsorbs.weight, ← hweight]
          simp only [Node.tail, Node.weight, Node.kidsWeight, List.length_append, List.length_cons]
          omega
        · rw [habsorbs.terminals]
          obtain ⟨lg, tg, cg, termg, vg⟩ := g
          simp [Node.terminals, Node.total, Node.kidsTotal, Node.kids, Node.terminal]
        · rw [← hweight]
          simp only [Node.weight, Node.kidsWeight] at hfuel
          omega
    · exact ⟨hself, fun _ hone => by simp [absorb, Node.kids] at hone⟩

/-- All edges below the node are folded. -/
inductive Node.Compact : Node → Prop where
  | intro {l : UInt8} {t : List UInt8} {cs : List Node} {term : Bool} {v : Nat}
      (folded : ∀ c ∈ cs, c.Folded) (compact : ∀ c ∈ cs, c.Compact) : Compact (.mk l t cs term v)

/-- What compression keeps of a node. -/
structure Compresses (n n' : Node) : Prop where
  label : n'.label = n.label
  tail : n'.tail = n.tail
  terminal : n'.terminal = n.terminal
  length_kids : n'.kids.length = n.kids.length
  stores : ∀ key w, n'.Stores key w ↔ n.Stores key w
  sorted : n.Sorted → n'.Sorted
  live : (∀ c ∈ n.kids, c.Live) → ∀ c ∈ n'.kids, c.Live
  weight : n'.weight = n.weight
  terminals : n'.terminals = n.terminals

theorem trieCompress_spec (fuel : Nat) (n : Node) :
    Compresses n (trieCompress fuel n) ∧ (n.weight ≤ fuel → (trieCompress fuel n).Compact) := by
  induction fuel generalizing n with
  | zero =>
    refine ⟨⟨rfl, rfl, rfl, rfl, fun _ _ => Iff.rfl, id, id, rfl, rfl⟩, fun hfuel => ?_⟩
    obtain ⟨l, t, cs, term, v⟩ := n
    cases cs with
    | nil => exact .intro (by simp) (by simp)
    | cons c cs =>
      simp only [Node.weight, Node.kidsWeight] at hfuel
      omega
  | succ fuel ih =>
    obtain ⟨l, t, cs, term, v⟩ := n
    have hchild : ∀ c, Absorbs c (trieCompress fuel (absorb c.weight c)) := by
      intro c
      obtain ⟨habsorbs, _⟩ := absorb_spec c.weight c
      obtain ⟨hcomp, _⟩ := ih (absorb c.weight c)
      refine ⟨hcomp.label.trans habsorbs.label, fun key w => ?_, fun h => hcomp.sorted (habsorbs.sorted h),
        fun h => ?_, by rw [hcomp.tail, hcomp.weight, habsorbs.weight],
        hcomp.terminals.trans habsorbs.terminals⟩
      · rw [← habsorbs.stores, Node.EdgeStores, Node.EdgeStores, hcomp.tail]
        simp only [hcomp.stores]
      · obtain ⟨hends, hlive⟩ := Node.live_iff.mp (habsorbs.live h)
        refine Node.live_iff.mpr ⟨fun hnil => ?_, hcomp.live hlive⟩
        rw [← List.length_eq_zero_iff, hcomp.length_kids, List.length_eq_zero_iff] at hnil
        rw [hcomp.terminal]
        exact hends hnil
    rw [trieCompress]
    refine ⟨⟨rfl, rfl, rfl, List.length_map _, fun key w => ?_, fun h => .intro ?_ ?_, fun h x hx => ?_, ?_,
      ?_⟩, fun hfuel => .intro (fun x hx => ?_) fun x hx => ?_⟩
    · cases key with
      | nil => simp [Node.stores_nil_iff, Node.terminal, Node.value]
      | cons b key =>
        rw [Node.stores_cons_iff_edge, Node.stores_cons_iff_edge]
        simp only [Node.kids, List.mem_map, exists_exists_and_eq_and, (hchild _).label, (hchild _).stores]
    · refine List.pairwise_map.mpr (h.labels.imp fun {x y} hxy => ?_)
      rwa [(hchild x).label, (hchild y).label]
    · intro x hx
      obtain ⟨c, hc, rfl⟩ := List.mem_map.mp hx
      exact (hchild c).sorted (h.kids c hc)
    · obtain ⟨c, hc, rfl⟩ := List.mem_map.mp hx
      exact (hchild c).live (h c hc)
    · rw [Node.weight, Node.weight, Node.kidsWeight_eq, Node.kidsWeight_eq, List.map_map]
      congr 1
      refine List.map_congr_left fun c _ => ?_
      have hw := (hchild c).weight
      simp only [Function.comp_apply]
      omega
    · simp only [Node.terminals, Node.total, Node.kidsTotal_eq, List.map_map]
      congr 2
      exact List.map_congr_left fun c _ => (hchild c).terminals
    · obtain ⟨c, hc, rfl⟩ := List.mem_map.mp hx
      obtain ⟨hcomp, _⟩ := ih (absorb c.weight c)
      have hfolded := (absorb_spec c.weight c).2 le_rfl
      rw [Node.Folded, hcomp.length_kids, hcomp.terminal]
      exact hfolded
    · obtain ⟨c, hc, rfl⟩ := List.mem_map.mp hx
      have hw := (absorb_spec c.weight c).1.weight
      have hle : 1 + c.tail.length + c.weight ≤ Node.weight (.mk l t cs term v) := by
        rw [Node.weight, Node.kidsWeight_eq]
        exact List.le_sum_of_mem (List.mem_map_of_mem hc)
      exact (ih _).2 (by omega)

/-! ## The number of nodes -/

theorem size_kids_le {cs : List Node} (h : ∀ c ∈ cs, c.size + 1 ≤ 2 * c.terminals) :
    Node.kidsTotal (fun _ => 1) cs + cs.length ≤ 2 * Node.kidsTotal Bool.toNat cs := by
  induction cs with
  | nil => rfl
  | cons c cs ih =>
    have hc := h c (by simp)
    have hcs := ih fun d hd => h d (List.mem_cons_of_mem _ hd)
    rw [Node.size, Node.terminals] at hc
    rw [Node.kidsTotal, Node.kidsTotal, List.length_cons]
    omega

/-- There are fewer than two nodes for a terminal. -/
theorem size_le_terminals {n : Node} (hlive : n.Live) (hfolded : n.Folded) (hcompact : n.Compact) :
    n.size + 1 ≤ 2 * n.terminals := by
  induction n using Node.induction_on with
  | h l t cs term v ih =>
    cases hlive with
    | intro ends live =>
      cases hcompact with
      | intro folded compact =>
        have hkids : ∀ c ∈ cs, c.size + 1 ≤ 2 * c.terminals := fun c hc =>
          ih c hc (live c hc) (folded c hc) (compact c hc)
        have hsum := size_kids_le hkids
        simp only [Node.size, Node.terminals, Node.total] at hsum ⊢
        rcases cs with _ | ⟨c, _ | ⟨d, cs⟩⟩
        · rw [ends rfl]
          decide
        · have hterm : term = true := hfolded rfl
          rw [hterm, Bool.toNat_true]
          rw [List.length_singleton] at hsum
          omega
        · rw [List.length_cons, List.length_cons] at hsum
          omega

section BuiltTrie

variable (words : List (List UInt8))

theorem builtTrie_stores {q : List UInt8} {w : Nat} : (builtTrie words).Stores q w ↔ LastAt words q w :=
  ((trieCompress_spec _ _).1.stores q w).trans plainTrie_stores

theorem builtTrie_sorted : (builtTrie words).Sorted :=
  (trieCompress_spec _ _).1.sorted (plainTrie_sorted words)

theorem builtTrie_compact : (builtTrie words).Compact := (trieCompress_spec _ _).2 le_rfl

theorem weight_builtTrie_le : (builtTrie words).weight ≤ (words.map List.length).sum := by
  have h := @weight_insertAll_le words 0 (nodeNew 0) (nodeNew_sorted 0)
  rw [builtTrie, (trieCompress_spec _ _).1.weight]
  exact h.trans (by simp [nodeNew, Node.weight, Node.kidsWeight])

theorem terminals_builtTrie_le : (builtTrie words).terminals ≤ words.length := by
  have h := @terminals_insertAll_le words 0 (nodeNew 0) (nodeNew_sorted 0)
  rw [builtTrie, (trieCompress_spec _ _).1.terminals]
  exact h.trans (by simp [nodeNew, Node.terminals, Node.total, Node.kidsTotal])

/-- The trie has no more than two nodes for a word, and the root. -/
theorem size_builtTrie_le : (builtTrie words).size ≤ 2 * words.length + 1 := by
  have hterms := terminals_builtTrie_le words
  have hcompact := builtTrie_compact words
  have hlive : ∀ c ∈ (builtTrie words).kids, c.Live :=
    (trieCompress_spec _ _).1.live (insertAll_live (nodeNew_sorted 0) (by simp [nodeNew, Node.kids]))
  generalize builtTrie words = root at hterms hcompact hlive ⊢
  cases hcompact with
  | @intro l t cs term v folded compact =>
    have hkids : ∀ c ∈ cs, c.size + 1 ≤ 2 * c.terminals := fun c hc =>
      size_le_terminals (hlive c hc) (folded c hc) (compact c hc)
    have hsum := size_kids_le hkids
    simp only [Node.size, Node.terminals, Node.total] at hterms ⊢
    omega

end BuiltTrie

end Triepack.V2
