import Mathlib.Data.List.Basic
import Triepack.Library.PrefixTree

/-!
# Trees without keys below keys

In a prefix-free tree no key lies below another one, so that only its leaves have a value. A
weaker condition lets keys have others below them on the way to the last key; it is passed on to
the last subtree of a node, and the other subtrees are prefix-free then.
-/

namespace PrefixTree

variable {α ν : Type*}

/-- The keys in the order of the tree. -/
def keys (t : PrefixTree α ν) : List (List α) := t.entries.map Prod.fst

/-- No key is a proper prefix of another. -/
def PrefixFree (t : PrefixTree α ν) : Prop :=
  ∀ k ∈ t.keys, ∀ k' ∈ t.keys, k <+: k' → k = k'

/-- A proper prefix of another key is a prefix of the last key. -/
def PrefixFreeButLast (t : PrefixTree α ν) : Prop :=
  ∀ k ∈ t.keys, ∀ k' ∈ t.keys, k <+: k' → k ≠ k' → ∀ m ∈ t.keys.getLast?, k <+: m

theorem keys_cons (a : α) (l : List α) (term : Option ν) (kids : List (PrefixTree α ν)) :
    (node (a :: l) term kids).keys = (node l term kids).keys.map (a :: ·) := by
  simp [keys, entries_cons, under]

theorem keys_node_nil (term : Option ν) (kids : List (PrefixTree α ν)) :
    (node [] term kids).keys = (term.toList.map fun _ => []) ++ kids.flatMap keys := by
  unfold keys
  rw [entries_node, map_under_nil, List.map_append, List.map_flatMap, termEntry, List.map_map]
  rfl

theorem mem_keys_of_kid {term : Option ν} {kids : List (PrefixTree α ν)} {t : PrefixTree α ν}
    (ht : t ∈ kids) {k : List α} (hk : k ∈ t.keys) : k ∈ (node [] term kids).keys := by
  rw [keys_node_nil]
  exact List.mem_append_right _ (List.mem_flatMap.mpr ⟨t, ht, hk⟩)

theorem Compact.keys_ne_nil {t : PrefixTree α ν} (h : Compact t) : t.keys ≠ [] := by
  simpa [keys] using h.entries_ne_nil

theorem head?_of_mem_keys {t : PrefixTree α ν} {a : α} (h : t.label.head? = some a) {k : List α}
    (hk : k ∈ t.keys) : k.head? = some a := by
  obtain ⟨e, he, rfl⟩ := List.mem_map.mp hk
  exact head?_of_mem_entries h he

theorem PrefixFree.cons {a : α} {l : List α} {term : Option ν} {kids : List (PrefixTree α ν)}
    (h : PrefixFree (node (a :: l) term kids)) : PrefixFree (node l term kids) := by
  intro k hk k' hk' hpre
  unfold PrefixFree at h
  rw [keys_cons] at h
  have heq := h (a :: k) (List.mem_map_of_mem hk) (a :: k') (List.mem_map_of_mem hk')
    (List.cons_prefix_cons.mpr ⟨rfl, hpre⟩)
  exact (List.cons.inj heq).2

theorem PrefixFree.kid {term : Option ν} {kids : List (PrefixTree α ν)}
    (h : PrefixFree (node [] term kids)) {t : PrefixTree α ν} (ht : t ∈ kids) : t.PrefixFree :=
  fun k hk k' hk' hpre => h k (mem_keys_of_kid ht hk) k' (mem_keys_of_kid ht hk') hpre

/-- A key has nothing below it. -/
theorem PrefixFree.kids_eq_nil {v : ν} {kids : List (PrefixTree α ν)}
    (h : PrefixFree (node [] (some v) kids)) (hc : Compact (node [] (some v) kids)) : kids = [] := by
  cases hc with
  | intro compact labels _ _ =>
    cases kids with
    | nil => rfl
    | cons t ts =>
      obtain ⟨k, hk⟩ := List.exists_mem_of_ne_nil _ (compact t (by simp)).keys_ne_nil
      have heq := h [] (by simp [keys_node_nil]) k (mem_keys_of_kid (by simp) hk) (List.nil_prefix)
      obtain ⟨e, he, rfl⟩ := List.mem_map.mp hk
      exact absurd heq.symm (ne_nil_of_mem_entries (labels t (by simp)) he)

theorem PrefixFreeButLast.cons {a : α} {l : List α} {term : Option ν}
    {kids : List (PrefixTree α ν)} (h : PrefixFreeButLast (node (a :: l) term kids)) :
    PrefixFreeButLast (node l term kids) := by
  intro k hk k' hk' hpre hne m hm
  unfold PrefixFreeButLast at h
  rw [keys_cons] at h
  have hlast := h (a :: k) (List.mem_map_of_mem hk) (a :: k') (List.mem_map_of_mem hk')
    (List.cons_prefix_cons.mpr ⟨rfl, hpre⟩) (by simpa using hne) (a :: m) (by
      rw [List.getLast?_map, Option.mem_def.mp hm]
      rfl)
  exact (List.cons_prefix_cons.mp hlast).2

/-- The last key of a node is that of its last subtree. -/
theorem getLast?_keys {term : Option ν} {kids : List (PrefixTree α ν)} {t : PrefixTree α ν}
    (ht : t.Compact) : (node [] term (kids ++ [t])).keys.getLast? = t.keys.getLast? := by
  rw [keys_node_nil, List.flatMap_append, ← List.append_assoc, List.flatMap_singleton,
    List.getLast?_append_of_ne_nil _ ht.keys_ne_nil]

theorem PrefixFreeButLast.last {term : Option ν} {kids : List (PrefixTree α ν)}
    {t : PrefixTree α ν} (h : PrefixFreeButLast (node [] term (kids ++ [t]))) (ht : t.Compact) :
    t.PrefixFreeButLast := by
  intro k hk k' hk' hpre hne m hm
  have hmem : t ∈ kids ++ [t] := by simp
  refine h k (mem_keys_of_kid hmem hk) k' (mem_keys_of_kid hmem hk') hpre hne m ?_
  rwa [getLast?_keys ht]

/-- The keys of another subtree do not start like the last key. -/
theorem PrefixFreeButLast.kid {term : Option ν} {kids : List (PrefixTree α ν)}
    {t u : PrefixTree α ν} (h : PrefixFreeButLast (node [] term (kids ++ [t])))
    (hc : Compact (node [] term (kids ++ [t]))) (hu : u ∈ kids) : u.PrefixFree := by
  intro k hk k' hk' hpre
  by_contra hne
  cases hc with
  | intro compact labels heads _ =>
    have ht := compact t (by simp)
    obtain ⟨m, hm⟩ := Option.ne_none_iff_exists'.mp (mt List.getLast?_eq_none_iff.mp ht.keys_ne_nil)
    have hmem : u ∈ kids ++ [t] := by simp [hu]
    have hlast := h k (mem_keys_of_kid hmem hk) k' (mem_keys_of_kid hmem hk') hpre hne m (by
      rw [getLast?_keys ht]
      exact hm)
    obtain ⟨a, l, hlabel⟩ := List.exists_cons_of_ne_nil (labels u hmem)
    obtain ⟨b, l', hlabel'⟩ := List.exists_cons_of_ne_nil (labels t (by simp))
    have hk₁ := head?_of_mem_keys (a := a) (by rw [hlabel]; rfl) hk
    have hm₁ := head?_of_mem_keys (a := b) (by rw [hlabel']; rfl) (List.mem_of_getLast? hm)
    obtain ⟨tl, rfl⟩ := hlast
    have hheads := (List.pairwise_append.mp heads).2.2 u hu t (by simp)
    rw [hlabel, hlabel'] at hheads
    cases k with
    | nil => simp at hk₁
    | cons c k =>
      obtain rfl : c = a := by simpa using hk₁
      obtain rfl : c = b := by simpa using hm₁
      exact hheads rfl

end PrefixTree
