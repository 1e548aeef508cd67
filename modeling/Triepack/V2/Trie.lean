import Mathlib.Algebra.Order.BigOperators.Group.List
import Mathlib.Algebra.Order.Group.Nat
import Mathlib.Data.List.Pairwise
import Mathlib.Data.UInt
import Mathlib.Tactic.Common
import Triepack.Library.BinarySearch

/-!
# The trie that the second format is built from

Keys are inserted byte by byte. An insertion stores its value under its key and leaves all other keys
as they are.
-/

namespace Triepack.V2

/-- `node`, without its number. -/
inductive Node where
  | mk (label : UInt8) (tail : List UInt8) (kids : List Node) (terminal : Bool) (value : Nat)

namespace Node

def label : Node → UInt8
  | mk l _ _ _ _ => l

def tail : Node → List UInt8
  | mk _ t _ _ _ => t

def kids : Node → List Node
  | mk _ _ cs _ _ => cs

def terminal : Node → Bool
  | mk _ _ _ term _ => term

def value : Node → Nat
  | mk _ _ _ _ v => v

/-- Induction over a node: what holds of it when it holds of its children. -/
theorem induction_on {P : Node → Prop}
    (h : ∀ l t cs term v, (∀ c ∈ cs, P c) → P (mk l t cs term v)) (n : Node) : P n :=
  @Node.rec P (fun cs => ∀ c ∈ cs, P c) h (by simp)
    (fun _ _ hc hcs x hx => (List.mem_cons.mp hx).elim (fun heq => heq ▸ hc) (hcs x)) n

mutual

/-- The number of bytes on the edges below a node. -/
def weight : Node → Nat
  | mk _ _ cs _ _ => kidsWeight cs

def kidsWeight : List Node → Nat
  | [] => 0
  | c :: cs => 1 + c.tail.length + weight c + kidsWeight cs

end

theorem kidsWeight_eq (cs : List Node) :
    kidsWeight cs = (cs.map fun c => 1 + c.tail.length + c.weight).sum := by
  induction cs with
  | nil => rfl
  | cons c cs ih => rw [kidsWeight, ih, List.map_cons, List.sum_cons]

mutual

/-- The sum of what a node and all nodes below it count for. -/
def total (g : Bool → Nat) : Node → Nat
  | mk _ _ cs term _ => g term + kidsTotal g cs

def kidsTotal (g : Bool → Nat) : List Node → Nat
  | [] => 0
  | c :: cs => total g c + kidsTotal g cs

end

theorem kidsTotal_eq (g : Bool → Nat) (cs : List Node) : kidsTotal g cs = (cs.map (total g)).sum := by
  induction cs with
  | nil => rfl
  | cons c cs ih => rw [kidsTotal, ih, List.map_cons, List.sum_cons]

/-- The number of nodes, and of the terminals among them. -/
def size : Node → Nat := total fun _ => 1

def terminals : Node → Nat := total Bool.toNat

end Node

/-! ## Building -/

/-- `node_new`. -/
def nodeNew (label : UInt8) : Node := .mk label [] [] false 0

/-- `child_get_or_add`: the place of the child, and the children with it. -/
def childGetOrAdd (kids : List Node) (label : UInt8) : Nat × List Node :=
  let lo := BinarySearch.lowerBound (fun mid => kids[mid]?.any fun k => decide (k.label < label)) 0
    kids.length
  if kids[lo]?.any fun k => k.label == label then (lo, kids)
  else (lo, kids.insertIdx lo (nodeNew label))

/-- `trie_insert`. -/
def trieInsert : (key : List UInt8) → (value : Nat) → Node → Node
  | [], value, .mk l t cs _ _ => .mk l t cs true value
  | b :: key, value, .mk l t cs term v =>
    let (lo, cs) := childGetOrAdd cs b
    .mk l t (cs.modify lo (trieInsert key value)) term v

/-- The loop over the words: word `i` is inserted with the value `i`. -/
def insertAll : (words : List (List UInt8)) → (i : Nat) → Node → Node
  | [], _, root => root
  | word :: words, i, root => insertAll words (i + 1) (trieInsert word i root)

/-- The trie of the words before it is compressed. -/
def plainTrie (words : List (List UInt8)) : Node := insertAll words 0 (nodeNew 0)

/-! ## What a node stores -/

/-- The node stores a value under the key that leads from it to a terminal. -/
inductive Node.Stores : Node → List UInt8 → Nat → Prop where
  | here {l : UInt8} {t : List UInt8} {cs : List Node} {v : Nat} : Stores (.mk l t cs true v) [] v
  | child {l : UInt8} {t : List UInt8} {cs : List Node} {term : Bool} {v : Nat} {c : Node}
      {key : List UInt8} {w : Nat} (mem : c ∈ cs) (h : Stores c key w) :
      Stores (.mk l t cs term v) (c.label :: (c.tail ++ key)) w

/-- The children of every node have ascending labels. -/
inductive Node.Sorted : Node → Prop where
  | intro {l : UInt8} {t : List UInt8} {cs : List Node} {term : Bool} {v : Nat}
      (labels : cs.Pairwise fun c d => c.label < d.label) (sorted : ∀ c ∈ cs, c.Sorted) :
      Sorted (.mk l t cs term v)

/-- No edge below the node has a tail. -/
inductive Node.Plain : Node → Prop where
  | intro {l : UInt8} {t : List UInt8} {cs : List Node} {term : Bool} {v : Nat}
      (tails : ∀ c ∈ cs, c.tail = []) (plain : ∀ c ∈ cs, c.Plain) : Plain (.mk l t cs term v)

/-- Nodes without children are terminals. -/
inductive Node.Live : Node → Prop where
  | intro {l : UInt8} {t : List UInt8} {cs : List Node} {term : Bool} {v : Nat}
      (ends : cs = [] → term = true) (live : ∀ c ∈ cs, c.Live) : Live (.mk l t cs term v)

namespace Node

variable {l : UInt8} {t : List UInt8} {cs : List Node} {term : Bool} {v w : Nat}

theorem Sorted.labels {n : Node} (h : n.Sorted) : n.kids.Pairwise fun c d => c.label < d.label := by
  cases h with
  | intro labels _ => exact labels

theorem Sorted.kids {n : Node} (h : n.Sorted) : ∀ c ∈ n.kids, c.Sorted := by
  cases h with
  | intro _ sorted => exact sorted

/-- Nothing leads to a node itself but the empty key. -/
theorem stores_nil_iff {n : Node} : n.Stores [] w ↔ n.terminal = true ∧ n.value = w := by
  obtain ⟨l, t, cs, term, v⟩ := n
  constructor
  · intro h
    cases h
    exact ⟨rfl, rfl⟩
  · rintro ⟨rfl, rfl⟩
    exact .here

/-- A key that is not empty leads over a child. -/
theorem stores_cons_iff {n : Node} {b : UInt8} {key : List UInt8} :
    n.Stores (b :: key) w ↔
      ∃ c ∈ n.kids, c.label = b ∧ ∃ rest, key = c.tail ++ rest ∧ c.Stores rest w := by
  obtain ⟨l, t, cs, term, v⟩ := n
  constructor
  · intro h
    cases h with
    | child mem h => exact ⟨_, mem, rfl, _, rfl, h⟩
  · rintro ⟨c, hc, rfl, rest, rfl, h⟩
    exact .child hc h

/-- What a node stores does not depend on the edge that leads to it. -/
theorem Stores.relabel {l' : UInt8} {t' key : List UInt8}
    (h : Stores (.mk l t cs term v) key w) : Stores (.mk l' t' cs term v) key w := by
  cases h with
  | here => exact .here
  | child mem h => exact .child mem h

end Node

/-! ## Insertion -/

theorem insertIdx_append {α : Type*} (front back : List α) (a : α) :
    (front ++ back).insertIdx front.length a = front ++ a :: back := by
  induction front with
  | nil => rfl
  | cons x front ih => rw [List.cons_append, List.length_cons, List.insertIdx_succ_cons, ih, List.cons_append]

theorem modify_append {α : Type*} (front back : List α) (a : α) (f : α → α) :
    (front ++ a :: back).modify front.length f = front ++ f a :: back := by
  induction front with
  | nil => rfl
  | cons x front ih => rw [List.cons_append, List.length_cons, List.modify_succ_cons, ih, List.cons_append]

/-- The search splits the children at a label. -/
theorem lowerBound_labels {kids : List Node} (hsorted : kids.Pairwise fun c d => c.label < d.label)
    (b : UInt8) : ∃ front back, kids = front ++ back ∧
      BinarySearch.lowerBound (fun mid => kids[mid]?.any fun k => decide (k.label < b)) 0 kids.length =
        front.length ∧ (∀ x ∈ front, x.label < b) ∧ ∀ x ∈ back, b ≤ x.label := by
  set before : Nat → Bool := fun mid => kids[mid]?.any fun k : Node => decide (k.label < b) with hbefore
  have hval : ∀ i (hi : i < kids.length), before i = decide (kids[i].label < b) := by
    intro i hi
    simp only [hbefore, List.getElem?_eq_getElem hi, Option.any_some]
  have hdown : BinarySearch.Downward before 0 kids.length := by
    intro i j _ hij hj hb
    rw [hval j hj, decide_eq_true_eq] at hb
    rw [hval i (by omega), decide_eq_true_eq]
    rcases Nat.lt_or_eq_of_le hij with hlt | rfl
    · exact UInt8.lt_trans (List.pairwise_iff_getElem.mp hsorted i j (by omega) hj hlt) hb
    · exact hb
  obtain ⟨_, hle, hfront, hback⟩ := BinarySearch.lowerBound_spec (Nat.zero_le _) hdown
  generalize BinarySearch.lowerBound before 0 kids.length = lo at hle hfront hback
  refine ⟨kids.take lo, kids.drop lo, (List.take_append_drop lo kids).symm, ?_, fun x hx => ?_,
    fun x hx => ?_⟩
  · rw [List.length_take, Nat.min_eq_left hle]
  · obtain ⟨i, hi, rfl⟩ := List.getElem_of_mem hx
    rw [List.length_take] at hi
    have h := hfront i (Nat.zero_le i) (by omega)
    rw [hval i (by omega), decide_eq_true_eq] at h
    rwa [List.getElem_take]
  · obtain ⟨i, hi, rfl⟩ := List.getElem_of_mem hx
    rw [List.length_drop] at hi
    have h := hback (lo + i) (by omega) (by omega)
    rw [hval (lo + i) (by omega), decide_eq_false_iff_not] at h
    rw [List.getElem_drop]
    exact UInt8.not_lt.mp h

/-- The child is one of the children, or it is new and goes to its place among them. -/
theorem childGetOrAdd_spec {kids : List Node} (hsorted : kids.Pairwise fun c d => c.label < d.label)
    (b : UInt8) : ∃ front c back, childGetOrAdd kids b = (front.length, front ++ c :: back) ∧
      c.label = b ∧ (∀ x ∈ front, x.label < b) ∧ (∀ x ∈ back, b < x.label) ∧
      (kids = front ++ c :: back ∨ kids = front ++ back ∧ c = nodeNew b) := by
  obtain ⟨front, back, hkids, hlo, hfront, hback⟩ := lowerBound_labels hsorted b
  rw [childGetOrAdd]
  simp only [hlo]
  subst hkids
  have hget : (front ++ back)[front.length]? = back.head? := by
    rw [List.getElem?_append_right (Nat.le_refl _), Nat.sub_self, ← List.head?_eq_getElem?]
  have hadd : (∀ x ∈ back, x.label ≠ b) →
      ∃ fr c bk, (if (front ++ back)[front.length]?.any fun k => k.label == b then
          (front.length, front ++ back)
        else (front.length, (front ++ back).insertIdx front.length (nodeNew b))) =
          (fr.length, fr ++ c :: bk) ∧ c.label = b ∧ (∀ x ∈ fr, x.label < b) ∧ (∀ x ∈ bk, b < x.label) ∧
          (front ++ back = fr ++ c :: bk ∨ front ++ back = fr ++ bk ∧ c = nodeNew b) := by
    intro hne
    refine ⟨front, nodeNew b, back, ?_, rfl, hfront,
      fun x hx => UInt8.lt_of_le_of_ne (hback x hx) (hne x hx).symm, .inr ⟨rfl, rfl⟩⟩
    rw [hget, if_neg, insertIdx_append]
    cases back with
    | nil => simp
    | cons c back => simpa using hne c (by simp)
  cases back with
  | nil => exact hadd (by simp)
  | cons c back =>
    have hafter : ∀ x ∈ back, c.label < x.label :=
      (List.pairwise_cons.mp (List.pairwise_append.mp hsorted).2.1).1
    by_cases heq : c.label = b
    · refine ⟨front, c, back, ?_, heq, hfront, heq ▸ hafter, .inl rfl⟩
      rw [hget, if_pos (by simpa using heq)]
    · refine hadd fun x hx => ?_
      rcases List.mem_cons.mp hx with rfl | hx
      · exact heq
      · have hle := hback c (by simp)
        have hlt := hafter x hx
        rintro rfl
        exact absurd (UInt8.lt_of_lt_of_le hlt hle) (UInt8.lt_irrefl _)

theorem nodeNew_sorted (b : UInt8) : (nodeNew b).Sorted := .intro .nil (by simp)

theorem nodeNew_plain (b : UInt8) : (nodeNew b).Plain := .intro (by simp) (by simp)

theorem not_nodeNew_stores (b : UInt8) (key : List UInt8) (w : Nat) : ¬ (nodeNew b).Stores key w := by
  intro h
  cases h with
  | child mem _ => simp at mem

@[simp] theorem label_trieInsert (key : List UInt8) (v : Nat) (n : Node) :
    (trieInsert key v n).label = n.label := by
  obtain ⟨l, t, cs, term, u⟩ := n
  cases key <;> rfl

@[simp] theorem tail_trieInsert (key : List UInt8) (v : Nat) (n : Node) :
    (trieInsert key v n).tail = n.tail := by
  obtain ⟨l, t, cs, term, u⟩ := n
  cases key <;> rfl

/-- A node whose children are split at the label of one of them. -/
structure SplitAt (n : Node) (front : List Node) (c : Node) (back : List Node) (b : UInt8) : Prop where
  label : c.label = b
  front_lt : ∀ x ∈ front, x.label < b
  lt_back : ∀ x ∈ back, b < x.label
  kids : n.kids = front ++ c :: back ∨ n.kids = front ++ back ∧ c = nodeNew b

/-- One step of the insertion. -/
theorem trieInsert_cons {n : Node} (hsorted : n.Sorted) (b : UInt8) (key : List UInt8) (v : Nat) :
    ∃ front c back, SplitAt n front c back b ∧ trieInsert (b :: key) v n =
      .mk n.label n.tail (front ++ trieInsert key v c :: back) n.terminal n.value := by
  obtain ⟨l, t, cs, term, u⟩ := n
  obtain ⟨front, c, back, hget, hlabel, hfront, hback, hkids⟩ := childGetOrAdd_spec hsorted.labels b
  refine ⟨front, c, back, ⟨hlabel, hfront, hback, hkids⟩, ?_⟩
  rw [Node.kids] at hget
  simp only [trieInsert, hget, modify_append]
  rfl

section SplitAt

variable {n : Node} {front back : List Node} {c : Node} {b : UInt8} (h : SplitAt n front c back b)

include h

/-- The child has what it is promised, also if it is new. -/
theorem SplitAt.child {P : Node → Prop} (hkids : ∀ x ∈ n.kids, P x) (hnew : P (nodeNew b)) : P c := by
  rcases h.kids with heq | ⟨_, rfl⟩
  · exact hkids c (by rw [heq]; simp)
  · exact hnew

theorem SplitAt.sibling {P : Node → Prop} (hkids : ∀ x ∈ n.kids, P x) :
    (∀ x ∈ front, P x) ∧ ∀ x ∈ back, P x := by
  rcases h.kids with heq | ⟨heq, _⟩
  · exact ⟨fun x hx => hkids x (by rw [heq]; simp [hx]), fun x hx => hkids x (by rw [heq]; simp [hx])⟩
  · exact ⟨fun x hx => hkids x (by rw [heq]; simp [hx]), fun x hx => hkids x (by rw [heq]; simp [hx])⟩

/-- The labels stay in order when the child is replaced. -/
theorem SplitAt.pairwise (hsorted : n.Sorted) {c' : Node} (hlabel : c'.label = c.label) :
    (front ++ c' :: back).Pairwise fun x y => x.label < y.label := by
  have hpair := hsorted.labels
  have hback : back.Pairwise fun x y => x.label < y.label := by
    rcases h.kids with heq | ⟨heq, _⟩
    · rw [heq] at hpair
      exact (List.pairwise_cons.mp (List.pairwise_append.mp hpair).2.1).2
    · rw [heq] at hpair
      exact (List.pairwise_append.mp hpair).2.1
  have hfront : front.Pairwise fun x y => x.label < y.label := by
    rcases h.kids with heq | ⟨heq, _⟩
    · rw [heq] at hpair
      exact (List.pairwise_append.mp hpair).1
    · rw [heq] at hpair
      exact (List.pairwise_append.mp hpair).1
  rw [h.label] at hlabel
  refine List.pairwise_append.mpr ⟨hfront, List.pairwise_cons.mpr ⟨fun x hx => ?_, hback⟩,
    fun x hx y hy => ?_⟩
  · rw [hlabel]
    exact h.lt_back x hx
  · rcases List.mem_cons.mp hy with rfl | hy
    · rw [hlabel]
      exact h.front_lt x hx
    · exact UInt8.lt_trans (h.front_lt x hx) (h.lt_back y hy)

/-- A key that begins with the label leads over the child, and no other key does. -/
theorem SplitAt.stores {a : UInt8} {key : List UInt8} {w : Nat} (htail : c.tail = []) :
    n.Stores (a :: key) w ↔ (a = b ∧ c.Stores key w) ∨
      (a ≠ b ∧ ∃ x ∈ front ++ back, x.label = a ∧ ∃ rest, key = x.tail ++ rest ∧ x.Stores rest w) := by
  have hne : ∀ x ∈ front ++ back, x.label ≠ b := by
    intro x hx heq
    rcases List.mem_append.mp hx with hx | hx
    · exact absurd (heq ▸ h.front_lt x hx) (UInt8.lt_irrefl _)
    · exact absurd (heq ▸ h.lt_back x hx) (UInt8.lt_irrefl _)
  have hmem : ∀ x, x ∈ front ++ back → x ∈ n.kids := by
    intro x hx
    rcases h.kids with heq | ⟨heq, _⟩ <;> rw [heq] <;> simp at hx ⊢ <;> tauto
  rw [Node.stores_cons_iff]
  constructor
  · rintro ⟨x, hx, rfl, rest, rfl, hstores⟩
    have hcases : x = c ∨ x ∈ front ++ back := by
      rcases h.kids with heq | ⟨heq, _⟩ <;> rw [heq] at hx <;> simp at hx ⊢ <;> tauto
    rcases hcases with rfl | hx
    · exact .inl ⟨h.label, by rwa [htail]⟩
    · exact .inr ⟨hne x hx, x, hx, rfl, rest, rfl, hstores⟩
  · rintro (⟨rfl, hstores⟩ | ⟨_, x, hx, rfl, rest, rfl, hstores⟩)
    · rcases h.kids with heq | ⟨_, rfl⟩
      · exact ⟨c, by rw [heq]; simp, h.label, key, by rw [htail]; rfl, hstores⟩
      · exact absurd hstores (not_nodeNew_stores _ _ _)
    · exact ⟨x, hmem x hx, rfl, rest, rfl, hstores⟩

end SplitAt

theorem trieInsert_sorted {key : List UInt8} {v : Nat} {n : Node} (h : n.Sorted) :
    (trieInsert key v n).Sorted := by
  induction key generalizing n with
  | nil =>
    obtain ⟨l, t, cs, term, u⟩ := n
    exact .intro h.labels h.kids
  | cons b key ih =>
    obtain ⟨front, c, back, hsplit, hinsert⟩ := trieInsert_cons h b key v
    obtain ⟨hfront, hback⟩ := hsplit.sibling h.kids
    rw [hinsert]
    refine .intro (hsplit.pairwise h (label_trieInsert key v c)) fun x hx => ?_
    rcases List.mem_append.mp hx with hx | hx
    · exact hfront x hx
    · rcases List.mem_cons.mp hx with rfl | hx
      · exact ih (hsplit.child h.kids (nodeNew_sorted b))
      · exact hback x hx

theorem Node.Plain.kids {n : Node} (h : n.Plain) : ∀ c ∈ n.kids, c.tail = [] ∧ c.Plain := by
  cases h with
  | intro tails plain => exact fun c hc => ⟨tails c hc, plain c hc⟩

theorem trieInsert_plain {key : List UInt8} {v : Nat} {n : Node} (hsorted : n.Sorted) (h : n.Plain) :
    (trieInsert key v n).Plain := by
  induction key generalizing n with
  | nil =>
    obtain ⟨l, t, cs, term, u⟩ := n
    exact .intro (fun c hc => (h.kids c hc).1) fun c hc => (h.kids c hc).2
  | cons b key ih =>
    obtain ⟨front, c, back, hsplit, hinsert⟩ := trieInsert_cons hsorted b key v
    obtain ⟨hfront, hback⟩ := hsplit.sibling h.kids
    obtain ⟨htail, hplain⟩ := hsplit.child h.kids ⟨rfl, nodeNew_plain b⟩
    have hc := ih (hsplit.child hsorted.kids (nodeNew_sorted b)) hplain
    rw [hinsert]
    refine .intro (fun x hx => ?_) fun x hx => ?_
    · rcases List.mem_append.mp hx with hx | hx
      · exact (hfront x hx).1
      · rcases List.mem_cons.mp hx with rfl | hx
        · rw [tail_trieInsert, htail]
        · exact (hback x hx).1
    · rcases List.mem_append.mp hx with hx | hx
      · exact (hfront x hx).2
      · rcases List.mem_cons.mp hx with rfl | hx
        · exact hc
        · exact (hback x hx).2

/-- An insertion stores its value under its key and leaves all other keys as they are. -/
theorem trieInsert_stores {key : List UInt8} {v : Nat} {n : Node} (hsorted : n.Sorted) (h : n.Plain)
    {q : List UInt8} {w : Nat} :
    (trieInsert key v n).Stores q w ↔ (q = key ∧ w = v) ∨ (q ≠ key ∧ n.Stores q w) := by
  induction key generalizing n q with
  | nil =>
    obtain ⟨l, t, cs, term, u⟩ := n
    cases q with
    | nil => simp [trieInsert, Node.stores_nil_iff, Node.terminal, Node.value, eq_comm]
    | cons a q => simp [trieInsert, Node.stores_cons_iff, Node.kids]
  | cons b key ih =>
    obtain ⟨front, c, back, hsplit, hinsert⟩ := trieInsert_cons hsorted b key v
    obtain ⟨htail, hplain⟩ := hsplit.child h.kids ⟨rfl, nodeNew_plain b⟩
    have hc := hsplit.child hsorted.kids (nodeNew_sorted b)
    rw [hinsert]
    cases q with
    | nil => simp [Node.stores_nil_iff, Node.terminal, Node.value]
    | cons a q =>
      have hnew : SplitAt (.mk n.label n.tail (front ++ trieInsert key v c :: back) n.terminal n.value)
          front (trieInsert key v c) back b :=
        ⟨by rw [label_trieInsert, hsplit.label], hsplit.front_lt, hsplit.lt_back, .inl rfl⟩
      rw [hnew.stores (by rw [tail_trieInsert, htail]), hsplit.stores htail, ih hc hplain]
      by_cases hab : a = b
      · subst hab
        simp
      · simp [hab]

/-! ## The words -/

/-- The word stands at place `k` and at no later one. -/
def LastAt (words : List (List UInt8)) (q : List UInt8) (k : Nat) : Prop :=
  words[k]? = some q ∧ ∀ j, k < j → words[j]? ≠ some q

theorem lastAt_cons {word : List UInt8} {words : List (List UInt8)} {q : List UInt8} {k : Nat} :
    LastAt (word :: words) q k ↔
      (k = 0 ∧ q = word ∧ q ∉ words) ∨ ∃ k', k = k' + 1 ∧ LastAt words q k' := by
  cases k with
  | zero =>
    constructor
    · rintro ⟨hget, hlater⟩
      refine .inl ⟨rfl, by simpa using hget.symm, fun hmem => ?_⟩
      obtain ⟨j, hj⟩ := List.mem_iff_getElem?.mp hmem
      exact hlater (j + 1) (by omega) (by rwa [List.getElem?_cons_succ])
    · rintro (⟨_, rfl, hnot⟩ | ⟨k', hk', _⟩)
      · refine ⟨rfl, fun j hj hget => hnot ?_⟩
        obtain ⟨j, rfl⟩ : ∃ i, j = i + 1 := ⟨j - 1, by omega⟩
        rw [List.getElem?_cons_succ] at hget
        exact List.mem_of_getElem? hget
      · omega
  | succ k =>
    constructor
    · rintro ⟨hget, hlater⟩
      rw [List.getElem?_cons_succ] at hget
      refine .inr ⟨k, rfl, hget, fun j hj => ?_⟩
      have h := hlater (j + 1) (by omega)
      rwa [List.getElem?_cons_succ] at h
    · rintro (⟨hk, _⟩ | ⟨k', hk', hget, hlater⟩)
      · omega
      · obtain rfl : k = k' := by omega
        refine ⟨by rwa [List.getElem?_cons_succ], fun j hj => ?_⟩
        obtain ⟨j, rfl⟩ : ∃ i, j = i + 1 := ⟨j - 1, by omega⟩
        rw [List.getElem?_cons_succ]
        exact hlater j (by omega)

theorem Node.live_iff {n : Node} :
    n.Live ↔ (n.kids = [] → n.terminal = true) ∧ ∀ c ∈ n.kids, c.Live := by
  obtain ⟨l, t, cs, term, v⟩ := n
  constructor
  · intro h
    cases h with
    | intro ends live => exact ⟨ends, live⟩
  · rintro ⟨ends, live⟩
    exact .intro ends live

theorem Node.Live.kids {n : Node} (h : n.Live) : ∀ c ∈ n.kids, c.Live := by
  cases h with
  | intro _ live => exact live

/-- An insertion ends in a terminal. -/
theorem trieInsert_live {key : List UInt8} {v : Nat} {n : Node} (hsorted : n.Sorted)
    (h : ∀ c ∈ n.kids, c.Live) : (trieInsert key v n).Live := by
  induction key generalizing n with
  | nil =>
    obtain ⟨l, t, cs, term, u⟩ := n
    exact .intro (fun _ => rfl) h
  | cons b key ih =>
    obtain ⟨front, c, back, hsplit, hinsert⟩ := trieInsert_cons hsorted b key v
    obtain ⟨hfront, hback⟩ := hsplit.sibling h
    have hc : (trieInsert key v c).Live := by
      refine ih (hsplit.child hsorted.kids (nodeNew_sorted b)) ?_
      exact @SplitAt.child n front back c b hsplit (fun c => ∀ d ∈ c.kids, d.Live)
        (fun x hx => (h x hx).kids) (by simp [nodeNew, Node.kids])
    rw [hinsert]
    refine .intro (by simp) fun x hx => ?_
    rcases List.mem_append.mp hx with hx | hx
    · exact hfront x hx
    · rcases List.mem_cons.mp hx with rfl | hx
      · exact hc
      · exact hback x hx

/-- An insertion makes at most one more terminal. -/
theorem terminals_trieInsert_le {key : List UInt8} {v : Nat} {n : Node} (hsorted : n.Sorted) :
    (trieInsert key v n).terminals ≤ n.terminals + 1 := by
  induction key generalizing n with
  | nil =>
    obtain ⟨l, t, cs, term, u⟩ := n
    simp only [trieInsert, Node.terminals, Node.total, Bool.toNat_true]
    omega
  | cons b key ih =>
    obtain ⟨front, c, back, hsplit, hinsert⟩ := trieInsert_cons hsorted b key v
    have hc := ih (hsplit.child hsorted.kids (nodeNew_sorted b))
    have hold : n.terminals = n.terminal.toNat + Node.kidsTotal Bool.toNat (front ++ c :: back) := by
      obtain ⟨l, t, cs, term, u⟩ := n
      have hkids := hsplit.kids
      rw [Node.kids] at hkids
      rcases hkids with rfl | ⟨rfl, rfl⟩
      · rfl
      · simp [Node.terminals, Node.terminal, Node.total, Node.kidsTotal_eq, nodeNew]
    rw [hinsert, hold]
    simp only [Node.terminals, Node.total, Node.kidsTotal_eq, List.map_append, List.map_cons, List.sum_append,
      List.sum_cons] at hc ⊢
    omega

theorem insertAll_live {words : List (List UInt8)} {i : Nat} {n : Node} (hsorted : n.Sorted)
    (h : ∀ c ∈ n.kids, c.Live) : ∀ c ∈ (insertAll words i n).kids, c.Live := by
  induction words generalizing i n with
  | nil => exact h
  | cons word words ih => exact ih (trieInsert_sorted hsorted) (trieInsert_live hsorted h).kids

theorem terminals_insertAll_le {words : List (List UInt8)} {i : Nat} {n : Node} (hsorted : n.Sorted) :
    (insertAll words i n).terminals ≤ n.terminals + words.length := by
  induction words generalizing i n with
  | nil => exact le_rfl
  | cons word words ih =>
    have hword := @terminals_trieInsert_le word i n hsorted
    have hrest := @ih (i + 1) (trieInsert word i n) (trieInsert_sorted hsorted)
    rw [insertAll, List.length_cons]
    omega

theorem insertAll_sorted {words : List (List UInt8)} {i : Nat} {n : Node} (hsorted : n.Sorted)
    (h : n.Plain) : (insertAll words i n).Sorted ∧ (insertAll words i n).Plain := by
  induction words generalizing i n with
  | nil => exact ⟨hsorted, h⟩
  | cons word words ih => exact ih (trieInsert_sorted hsorted) (trieInsert_plain hsorted h)

theorem insertAll_stores {words : List (List UInt8)} {i : Nat} {n : Node} (hsorted : n.Sorted)
    (h : n.Plain) {q : List UInt8} {w : Nat} :
    (insertAll words i n).Stores q w ↔
      (∃ k, w = i + k ∧ LastAt words q k) ∨ (q ∉ words ∧ n.Stores q w) := by
  induction words generalizing i n with
  | nil => simp [insertAll, LastAt]
  | cons word words ih =>
    rw [insertAll, ih (trieInsert_sorted hsorted) (trieInsert_plain hsorted h),
      trieInsert_stores hsorted h]
    constructor
    · rintro (⟨k, rfl, hk⟩ | ⟨hnot, ⟨rfl, rfl⟩ | ⟨hne, hstores⟩⟩)
      · exact .inl ⟨k + 1, by omega, lastAt_cons.mpr (.inr ⟨k, rfl, hk⟩)⟩
      · exact .inl ⟨0, rfl, lastAt_cons.mpr (.inl ⟨rfl, rfl, hnot⟩)⟩
      · exact .inr ⟨by simp [hne, hnot], hstores⟩
    · rintro (⟨k, rfl, hk⟩ | ⟨hnot, hstores⟩)
      · rcases lastAt_cons.mp hk with ⟨rfl, rfl, hnot⟩ | ⟨k', rfl, hk'⟩
        · exact .inr ⟨hnot, .inl ⟨rfl, rfl⟩⟩
        · exact .inl ⟨k', by omega, hk'⟩
      · rw [List.mem_cons, not_or] at hnot
        exact .inr ⟨hnot.2, .inr ⟨hnot.1, hstores⟩⟩

/-- The trie stores every word with its last place. -/
theorem plainTrie_stores {words : List (List UInt8)} {q : List UInt8} {w : Nat} :
    (plainTrie words).Stores q w ↔ LastAt words q w := by
  rw [plainTrie, insertAll_stores (nodeNew_sorted 0) (nodeNew_plain 0)]
  simp [not_nodeNew_stores]

theorem plainTrie_sorted (words : List (List UInt8)) : (plainTrie words).Sorted :=
  (insertAll_sorted (nodeNew_sorted 0) (nodeNew_plain 0)).1

/-- A word adds at most its bytes to the edges. -/
theorem weight_trieInsert_le {key : List UInt8} {v : Nat} {n : Node} (hsorted : n.Sorted) :
    (trieInsert key v n).weight ≤ n.weight + key.length := by
  induction key generalizing n with
  | nil =>
    obtain ⟨l, t, cs, term, u⟩ := n
    exact le_rfl
  | cons b key ih =>
    obtain ⟨front, c, back, hsplit, hinsert⟩ := trieInsert_cons hsorted b key v
    have hc := ih (hsplit.child hsorted.kids (nodeNew_sorted b))
    have hold : n.weight + 1 ≥ Node.kidsWeight (front ++ c :: back) := by
      obtain ⟨l, t, cs, term, u⟩ := n
      have hkids := hsplit.kids
      rw [Node.kids] at hkids
      rw [Node.weight]
      rcases hkids with rfl | ⟨rfl, rfl⟩
      · omega
      · simp only [Node.kidsWeight_eq, List.map_append, List.map_cons, List.sum_append, List.sum_cons,
          nodeNew, Node.tail, Node.weight, Node.kidsWeight, List.length_nil]
        omega
    rw [hinsert, Node.weight]
    simp only [Node.kidsWeight_eq, List.map_append, List.map_cons, List.sum_append, List.sum_cons,
      tail_trieInsert, List.length_cons] at hold ⊢
    omega

theorem weight_insertAll_le {words : List (List UInt8)} {i : Nat} {n : Node} (hsorted : n.Sorted) :
    (insertAll words i n).weight ≤ n.weight + (words.map List.length).sum := by
  induction words generalizing i n with
  | nil => simp [insertAll]
  | cons word words ih =>
    have hword := @weight_trieInsert_le word i n hsorted
    have hrest := @ih (i + 1) (trieInsert word i n) (trieInsert_sorted hsorted)
    rw [insertAll, List.map_cons, List.sum_cons]
    omega

end Triepack.V2
