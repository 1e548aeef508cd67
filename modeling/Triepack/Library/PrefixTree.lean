import Mathlib.Algebra.BigOperators.Group.List.Basic
import Mathlib.Algebra.GroupWithZero.Nat
import Mathlib.Tactic.Common

/-!
# Compact prefix trees

The keys of a compact tree are read off from the root: the label of each node on the way, up
to a node that ends a key. `step` follows one letter, also into the middle of a label, and
`descend` a word; together with the position of the subtree among the entries this is what
lookup, prefix search and ordered enumeration all do. `visits` is the enumeration with a
bound on how deeply branches may be nested.
-/

/-- A node: the letters on the way to it, the value of the key that ends there, and the
subtrees of the longer keys. -/
inductive PrefixTree (α ν : Type*) where
  | node (label : List α) (term : Option ν) (kids : List (PrefixTree α ν))

namespace PrefixTree

variable {α ν : Type*}

/-- Induction over a tree: what holds of a node when it holds of its subtrees. -/
theorem induction_on {P : PrefixTree α ν → Prop}
    (h : ∀ l term kids, (∀ t ∈ kids, P t) → P (node l term kids)) (t : PrefixTree α ν) : P t :=
  @PrefixTree.rec α ν P (fun ts => ∀ t ∈ ts, P t) h (by simp)
    (fun _ _ ht hts u hu => (List.mem_cons.mp hu).elim (fun heq => heq ▸ ht) (hts u)) t

def label : PrefixTree α ν → List α
  | node l _ _ => l

/-- An entry below a label. -/
def under (l : List α) (e : List α × ν) : List α × ν := (l ++ e.1, e.2)

/-- The entry of the key that ends at a node. -/
def termEntry (term : Option ν) : List (List α × ν) := term.toList.map fun v => ([], v)

mutual

/-- Keys and values in the order of the tree. -/
def entries : PrefixTree α ν → List (List α × ν)
  | node l term kids => (termEntry term ++ kidsEntries kids).map (under l)

def kidsEntries : List (PrefixTree α ν) → List (List α × ν)
  | [] => []
  | t :: ts => entries t ++ kidsEntries ts

end

/-- The number of keys. -/
def size (t : PrefixTree α ν) : Nat := t.entries.length

/-- No node could be merged with its only subtree, and the subtrees of a node are told apart
by the first letter of their labels. -/
inductive Compact : PrefixTree α ν → Prop where
  | intro {l : List α} {term : Option ν} {kids : List (PrefixTree α ν)}
      (compact : ∀ t ∈ kids, Compact t) (labels : ∀ t ∈ kids, t.label ≠ [])
      (heads : kids.Pairwise fun t u => t.label.head? ≠ u.label.head?)
      (two : term = none → 2 ≤ kids.length) : Compact (node l term kids)

theorem kidsEntries_eq (kids : List (PrefixTree α ν)) :
    kidsEntries kids = kids.flatMap entries := by
  induction kids with
  | nil => rfl
  | cons t ts ih => rw [kidsEntries, ih, List.flatMap_cons]

theorem entries_node (l : List α) (term : Option ν) (kids : List (PrefixTree α ν)) :
    (node l term kids).entries = (termEntry term ++ kids.flatMap entries).map (under l) := by
  rw [entries, kidsEntries_eq]

@[simp] theorem under_nil (e : List α × ν) : under [] e = e := rfl

@[simp] theorem map_under_nil (es : List (List α × ν)) : es.map (under []) = es :=
  List.map_id es

theorem map_under_append (l m : List α) (es : List (List α × ν)) :
    es.map (under (l ++ m)) = (es.map (under m)).map (under l) := by simp [under]

@[simp] theorem length_termEntry (term : Option ν) :
    (termEntry term : List (List α × ν)).length = term.toList.length := by simp [termEntry]

theorem entries_cons (a : α) (l : List α) (term : Option ν) (kids : List (PrefixTree α ν)) :
    (node (a :: l) term kids).entries = (node l term kids).entries.map (under [a]) := by
  rw [entries_node, entries_node, ← map_under_append]
  rfl

@[simp] theorem size_node (l : List α) (term : Option ν) (kids : List (PrefixTree α ν)) :
    (node l term kids).size = term.toList.length + (kids.map size).sum := by
  simp only [size, entries_node, List.length_map, List.length_append, length_termEntry,
    List.length_flatMap]
  rfl

/-- The label of the root is no part of being compact. -/
theorem Compact.relabel {l l' : List α} {term : Option ν} {kids : List (PrefixTree α ν)}
    (h : Compact (node l term kids)) : Compact (node l' term kids) := by
  cases h with
  | intro compact labels heads two => exact .intro compact labels heads two

/-- A compact tree has a key. -/
theorem Compact.entries_ne_nil {t : PrefixTree α ν} (h : Compact t) : t.entries ≠ [] := by
  induction h with
  | @intro l term kids _ _ _ two ih =>
    rw [entries_node]
    cases term with
    | some v => simp [termEntry]
    | none =>
      cases kids with
      | nil => simp at two
      | cons t ts => simpa [termEntry] using fun ht => absurd ht (ih t (by simp))

/-- Every subtree has a key. -/
theorem length_le_sum_size {kids : List (PrefixTree α ν)} (h : ∀ t ∈ kids, Compact t) :
    kids.length ≤ (kids.map size).sum := by
  rw [← List.length_map (f := size)]
  apply List.length_le_sum_of_one_le
  intro n hn
  obtain ⟨t, ht, rfl⟩ := List.mem_map.mp hn
  exact List.length_pos_iff.mpr (h t ht).entries_ne_nil

/-- A compact tree of one key is a leaf. -/
theorem Compact.eq_leaf {t : PrefixTree α ν} (h : Compact t) {k : List α} {v : ν}
    (he : t.entries = [(k, v)]) : t = .node k (some v) [] := by
  cases h with
  | @intro l term kids compact labels heads two =>
    have hsize : term.toList.length + (kids.map size).sum = 1 := by
      rw [← size_node l, size, he, List.length_singleton]
    have hkids := length_le_sum_size compact
    cases term with
    | none =>
      have := two rfl
      omega
    | some w =>
      rw [Option.toList_some, List.length_singleton] at hsize
      obtain rfl : kids = [] := List.eq_nil_of_length_eq_zero (by omega)
      simpa [entries_node, termEntry, under] using he

/-- When all keys of a compact tree start with one letter, so does its label. -/
theorem Compact.head?_label {t : PrefixTree α ν} (hc : t.Compact) {b : α}
    (h : ∀ e ∈ t.entries, e.1.head? = some b) : t.label.head? = some b := by
  have hkey : ∀ u : PrefixTree α ν, u.Compact → u.label ≠ [] → u.entries ⊆ t.entries →
      u.label.head? = some b := by
    rintro ⟨l, term, kids⟩ hu hl hsub
    obtain ⟨e, he⟩ := List.exists_mem_of_ne_nil _ hu.entries_ne_nil
    obtain ⟨a, l, rfl⟩ := List.exists_cons_of_ne_nil (show l ≠ [] from hl)
    have hb := h e (hsub he)
    rw [entries_cons, List.mem_map] at he
    obtain ⟨e', _, rfl⟩ := he
    exact hb
  obtain ⟨l, term, kids⟩ := t
  by_cases hl : l = []
  · subst hl
    cases hc with
    | intro compact labels heads two =>
      cases term with
      | some v =>
        have hnil := h ([], v) (by simp [entries_node, termEntry])
        simp at hnil
      | none =>
        match kids, two rfl with
        | t₁ :: t₂ :: ts, _ =>
          have h₁ := hkey t₁ (compact t₁ (by simp)) (labels t₁ (by simp))
            (by intro e he; simp [entries_node, he])
          have h₂ := hkey t₂ (compact t₂ (by simp)) (labels t₂ (by simp))
            (by intro e he; simp [entries_node, he])
          exact absurd (h₁.trans h₂.symm) ((List.pairwise_cons.mp heads).1 t₂ (by simp))
  · exact hkey _ hc hl fun _ he => he

/-- Every key of a labelled tree starts with the first letter of the label. -/
theorem head?_of_mem_entries {t : PrefixTree α ν} {a : α} (h : t.label.head? = some a)
    {e : List α × ν} (he : e ∈ t.entries) : e.1.head? = some a := by
  obtain ⟨l, term, kids⟩ := t
  obtain ⟨l', rfl⟩ : ∃ l', l = a :: l' := by
    cases l with
    | nil => simp [label] at h
    | cons b l' => exact ⟨l', by simpa [label] using h⟩
  rw [entries_cons, List.mem_map] at he
  obtain ⟨e', _, rfl⟩ := he
  rfl

theorem ne_nil_of_mem_entries {t : PrefixTree α ν} (hl : t.label ≠ []) {e : List α × ν}
    (he : e ∈ t.entries) : e.1 ≠ [] := by
  obtain ⟨a, l, hlabel⟩ := List.exists_cons_of_ne_nil hl
  have hhead := head?_of_mem_entries (a := a) (by rw [hlabel]; rfl) he
  intro hnil
  simp [hnil] at hhead

/-- No key of a subtree that is told apart by another letter starts with this one. -/
theorem head?_ne_of_strip? {b : α} {t : PrefixTree α ν} (hl : t.label ≠ [])
    (h : t.label.head? ≠ some b) {e : List α × ν} (he : e ∈ t.entries) : e.1.head? ≠ some b := by
  obtain ⟨a, ha⟩ : ∃ a, t.label.head? = some a := by
    cases hlab : t.label with
    | nil => exact absurd hlab hl
    | cons a l => exact ⟨a, rfl⟩
  rw [head?_of_mem_entries ha he, ← ha]
  exact h

theorem prefix_singleton_iff {b : α} {l : List α} : [b] <+: l ↔ l.head? = some b := by
  cases l with
  | nil => simp
  | cons a l => simp [List.cons_prefix_cons, eq_comm]

/-! ## Following a word -/

section Step

variable [DecidableEq α]

/-- Take the letter off the label. -/
def strip? (b : α) : PrefixTree α ν → Option (PrefixTree α ν)
  | node (a :: l) term kids => if a = b then some (node l term kids) else none
  | node [] _ _ => none

/-- The subtree whose label starts with the letter, without it, and the number of entries
in front of it. -/
def findKid (b : α) : List (PrefixTree α ν) → Option (Nat × PrefixTree α ν)
  | [] => none
  | t :: ts =>
    match t.strip? b with
    | some u => some (0, u)
    | none => (findKid b ts).map fun (i, u) => (t.size + i, u)

/-- Follow one letter. -/
def step (b : α) : PrefixTree α ν → Option (Nat × PrefixTree α ν)
  | node (a :: l) term kids => if a = b then some (0, node l term kids) else none
  | node [] term kids => (findKid b kids).map fun (i, u) => (term.toList.length + i, u)

/-- Follow a word. -/
def descend : List α → PrefixTree α ν → Option (Nat × PrefixTree α ν)
  | [], t => some (0, t)
  | b :: p, t => (t.step b).bind fun (i, u) => (descend p u).map fun (j, v) => (i + j, v)

theorem strip?_eq_some {b : α} {t u : PrefixTree α ν} (h : t.strip? b = some u) :
    t.label.head? = some b ∧ t.entries = u.entries.map (under [b]) ∧ (t.Compact → u.Compact) := by
  obtain ⟨l, term, kids⟩ := t
  cases l with
  | nil => simp [strip?] at h
  | cons a l =>
    simp only [strip?] at h
    split_ifs at h with hab
    obtain rfl : node l term kids = u := by simpa using h
    subst hab
    exact ⟨rfl, entries_cons _ _ _ _, .relabel⟩

theorem strip?_eq_none {b : α} {t : PrefixTree α ν} (h : t.strip? b = none) :
    t.label.head? ≠ some b := by
  obtain ⟨l, term, kids⟩ := t
  cases l with
  | nil => simp [label]
  | cons a l =>
    simp only [strip?, ite_eq_right_iff, reduceCtorEq, imp_false] at h
    simpa [label] using h

/-- The entries of a tree around those of a subtree: in front of it are `i`, and the word that
leads to the subtree starts none of the others. -/
def Around (t : PrefixTree α ν) (p : List α) (i : Nat) (u : PrefixTree α ν) : Prop :=
  ∃ pre post, t.entries = pre ++ u.entries.map (under p) ++ post ∧ pre.length = i ∧
    ∀ e ∈ pre ++ post, ¬ p <+: e.1

omit [DecidableEq α] in
theorem Around.under_mem {t u : PrefixTree α ν} {p : List α} {i : Nat} (h : t.Around p i u)
    {e : List α × ν} (he : e ∈ u.entries) : under p e ∈ t.entries := by
  obtain ⟨pre, post, hentries, _⟩ := h
  rw [hentries]
  exact List.mem_append_left _ (List.mem_append_right _ (List.mem_map_of_mem he))

theorem findKid_eq_some {b : α} {kids : List (PrefixTree α ν)} {i : Nat} {u : PrefixTree α ν}
    (hl : ∀ t ∈ kids, t.label ≠ []) (hh : kids.Pairwise fun t u => t.label.head? ≠ u.label.head?)
    (hc : ∀ t ∈ kids, t.Compact) (h : findKid b kids = some (i, u)) :
    u.Compact ∧ ∃ pre post, kids.flatMap entries = pre ++ u.entries.map (under [b]) ++ post ∧
      pre.length = i ∧ ∀ e ∈ pre ++ post, e.1.head? ≠ some b := by
  induction kids generalizing i with
  | nil => simp [findKid] at h
  | cons t ts ih =>
    obtain ⟨hhead, htail⟩ := List.pairwise_cons.mp hh
    rw [findKid] at h
    split at h
    · rename_i v hv
      obtain ⟨rfl, rfl⟩ : 0 = i ∧ v = u := by simpa using h
      obtain ⟨hb, hent, hcompact⟩ := strip?_eq_some hv
      refine ⟨hcompact (hc t (by simp)), [], ts.flatMap entries, by simp [hent], rfl, ?_⟩
      intro e he
      obtain ⟨t', ht', he⟩ := List.mem_flatMap.mp (by simpa using he)
      exact head?_ne_of_strip? (hl t' (by simp [ht'])) (by rw [← hb]; exact (hhead t' ht').symm) he
    · rename_i hv
      obtain ⟨⟨j, v⟩, hfind, heq⟩ := Option.map_eq_some_iff.mp h
      obtain ⟨rfl, rfl⟩ : t.size + j = i ∧ v = u := by simpa using heq
      obtain ⟨hcompact, pre, post, hent, hlen, hother⟩ :=
        ih (fun t ht => hl t (by simp [ht])) htail (fun t ht => hc t (by simp [ht])) hfind
      refine ⟨hcompact, t.entries ++ pre, post, by simp [hent], by simp [size, hlen], ?_⟩
      intro e he
      rw [List.append_assoc, List.mem_append] at he
      rcases he with he | he
      · exact head?_ne_of_strip? (hl t (by simp)) (strip?_eq_none hv) he
      · exact hother e he

theorem findKid_eq_none {b : α} {kids : List (PrefixTree α ν)} (hl : ∀ t ∈ kids, t.label ≠ [])
    (h : findKid b kids = none) {e : List α × ν} (he : e ∈ kids.flatMap entries) :
    e.1.head? ≠ some b := by
  induction kids with
  | nil => simp at he
  | cons t ts ih =>
    rw [findKid] at h
    split at h
    · simp at h
    · rename_i hv
      rw [List.flatMap_cons, List.mem_append] at he
      rcases he with he | he
      · exact head?_ne_of_strip? (hl t (by simp)) (strip?_eq_none hv) he
      · exact ih (fun t ht => hl t (by simp [ht])) (by simpa using h) he

theorem step_eq_some {b : α} {t u : PrefixTree α ν} {i : Nat} (hc : t.Compact)
    (h : t.step b = some (i, u)) : u.Compact ∧ t.Around [b] i u := by
  obtain ⟨l, term, kids⟩ := t
  cases l with
  | cons a l =>
    simp only [step] at h
    split_ifs at h with hab
    obtain ⟨rfl, rfl⟩ : 0 = i ∧ node l term kids = u := by simpa using h
    subst hab
    exact ⟨hc.relabel, [], [], by simp [entries_cons], rfl, by simp⟩
  | nil =>
    cases hc with
    | intro compact labels heads two =>
      obtain ⟨⟨j, v⟩, hfind, heq⟩ := Option.map_eq_some_iff.mp h
      obtain ⟨rfl, rfl⟩ : term.toList.length + j = i ∧ v = u := by simpa using heq
      obtain ⟨hcompact, pre, post, hent, hlen, hother⟩ :=
        findKid_eq_some labels heads compact hfind
      refine ⟨hcompact, termEntry term ++ pre, post, ?_, by simp [hlen], ?_⟩
      · simp [entries_node, hent]
      · intro e he
        rw [prefix_singleton_iff]
        rw [List.append_assoc, List.mem_append] at he
        rcases he with he | he
        · obtain ⟨v, _, rfl⟩ := List.mem_map.mp he
          simp
        · exact hother e he

theorem step_eq_none {b : α} {t : PrefixTree α ν} (hc : t.Compact) (h : t.step b = none)
    {e : List α × ν} (he : e ∈ t.entries) : e.1.head? ≠ some b := by
  obtain ⟨l, term, kids⟩ := t
  cases l with
  | cons a l =>
    simp only [step, ite_eq_right_iff, reduceCtorEq, imp_false] at h
    rw [head?_of_mem_entries (a := a) rfl he]
    simpa using h
  | nil =>
    cases hc with
    | intro _ labels _ _ =>
      rw [entries_node, map_under_nil, List.mem_append] at he
      rcases he with he | he
      · obtain ⟨v, _, rfl⟩ := List.mem_map.mp he
        simp
      · exact findKid_eq_none labels (by simpa [step] using h) he

/-- The subtree that a word leads to holds exactly the keys that start with the word. -/
theorem descend_eq_some {p : List α} {t u : PrefixTree α ν} {i : Nat} (hc : t.Compact)
    (h : descend p t = some (i, u)) : u.Compact ∧ t.Around p i u := by
  induction p generalizing t i with
  | nil =>
    obtain ⟨rfl, rfl⟩ : 0 = i ∧ t = u := by simpa [descend] using h
    exact ⟨hc, [], [], by simp, rfl, by simp⟩
  | cons b p ih =>
    obtain ⟨⟨j, v⟩, hstep, hrest⟩ := Option.bind_eq_some_iff.mp h
    obtain ⟨⟨k, w⟩, hdesc, heq⟩ := Option.map_eq_some_iff.mp hrest
    obtain ⟨rfl, rfl⟩ : j + k = i ∧ w = u := by simpa using heq
    obtain ⟨hv, pre, post, hent, hlen, hother⟩ := step_eq_some hc hstep
    obtain ⟨hw, pre', post', hent', hlen', hother'⟩ := ih hv hdesc
    refine ⟨hw, pre ++ pre'.map (under [b]), post'.map (under [b]) ++ post, ?_, ?_, ?_⟩
    · rw [hent, hent', List.map_append, List.map_append, ← map_under_append]
      simp
    · simp [hlen, hlen']
    · have hout : ∀ e ∈ pre ++ post, ¬ (b :: p) <+: e.1 := fun e he hp =>
        hother e he ((List.cons_prefix_cons.mpr ⟨rfl, List.nil_prefix⟩).trans hp)
      have hin : ∀ e ∈ pre' ++ post', ¬ (b :: p) <+: (under [b] e).1 := fun e he hp =>
        hother' e he (List.cons_prefix_cons.mp hp).2
      intro e he
      simp only [List.mem_append, List.mem_map] at he hout hin
      grind

/-- Where a word leads nowhere, it starts no key. -/
theorem descend_eq_none {p : List α} {t : PrefixTree α ν} (hc : t.Compact)
    (h : descend p t = none) {e : List α × ν} (he : e ∈ t.entries) : ¬ p <+: e.1 := by
  induction p generalizing t e with
  | nil => simp [descend] at h
  | cons b p ih =>
    intro hp
    have hhead : e.1.head? = some b :=
      prefix_singleton_iff.mp ((List.cons_prefix_cons.mpr ⟨rfl, List.nil_prefix⟩).trans hp)
    cases hstep : t.step b with
    | none => exact step_eq_none hc hstep he hhead
    | some r =>
      obtain ⟨i, u⟩ := r
      have hrest : descend p u = none := by simpa [descend, hstep] using h
      obtain ⟨hu, pre, post, hent, _, hother⟩ := step_eq_some hc hstep
      rw [hent, List.mem_append, List.mem_append, List.mem_map] at he
      rcases he with (he | ⟨e', he', rfl⟩) | he
      · exact hother e (by simp [he]) (prefix_singleton_iff.mpr hhead)
      · exact ih hu hrest he' (List.cons_prefix_cons.mp hp).2
      · exact hother e (by simp [he]) (prefix_singleton_iff.mpr hhead)

end Step

end PrefixTree
