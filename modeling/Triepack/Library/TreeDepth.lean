import Mathlib.Data.List.Basic
import Mathlib.Data.List.Pairwise
import Mathlib.Order.Basic
import Triepack.Library.PrefixTree

/-!
# Branch nesting of a prefix tree

`visits` lists the entries of a tree for a traversal that may be inside a limited number of
branches at a time. How many branches a key lies below is a matter of the keys alone:
`branchDepth` counts the positions of a key at which another key parts from it.
-/

namespace PrefixTree

variable {α ν : Type*}

mutual

/-- The entries in order, and `none` in place of a node whose branch is nested too deeply. -/
def visits : (limit : Nat) → PrefixTree α ν → List (Option (List α × ν))
  | limit, node l term kids =>
    if limit = 0 ∧ kids ≠ [] then [none]
    else ((termEntry term).map some ++ kidsVisits (limit - 1) kids).map (Option.map (under l))

def kidsVisits : (limit : Nat) → List (PrefixTree α ν) → List (Option (List α × ν))
  | _, [] => []
  | limit, t :: ts => visits limit t ++ kidsVisits limit ts

end

/-- An entry with the number of branches that are open when it is reached. -/
abbrev Nested (α ν : Type*) : Type _ := (List α × ν) × Nat

def Nested.under (l : List α) (x : Nested α ν) : Nested α ν := (PrefixTree.under l x.1, x.2)

def Nested.deeper (x : Nested α ν) : Nested α ν := (x.1, x.2 + 1)

mutual

/-- The entries in order. Those branches are open that an entry lies below, and its own if
longer keys follow. -/
def nested : PrefixTree α ν → List (Nested α ν)
  | node l term kids =>
    ((termEntry term).map (fun e => (e, if kids.isEmpty then 0 else 1)) ++ kidsNested kids).map
      (Nested.under l)

def kidsNested : List (PrefixTree α ν) → List (Nested α ν)
  | [] => []
  | t :: ts => (nested t).map Nested.deeper ++ kidsNested ts

end

theorem kidsVisits_eq (limit : Nat) (kids : List (PrefixTree α ν)) :
    kidsVisits limit kids = kids.flatMap (visits limit) := by
  induction kids with
  | nil => rfl
  | cons t ts ih => rw [kidsVisits, ih, List.flatMap_cons]

theorem kidsNested_eq (kids : List (PrefixTree α ν)) :
    kidsNested kids = kids.flatMap fun t => (nested t).map Nested.deeper := by
  induction kids with
  | nil => rfl
  | cons t ts ih => rw [kidsNested, ih, List.flatMap_cons]

theorem nested_node (l : List α) (term : Option ν) (kids : List (PrefixTree α ν)) :
    nested (node l term kids) =
      ((termEntry term).map (fun e => (e, if kids.isEmpty then 0 else 1)) ++
        kids.flatMap fun t => (nested t).map Nested.deeper).map (Nested.under l) := by
  rw [nested, kidsNested_eq]

theorem nested_cons (a : α) (l : List α) (term : Option ν) (kids : List (PrefixTree α ν)) :
    nested (node (a :: l) term kids) = (nested (node l term kids)).map (Nested.under [a]) := by
  rw [nested_node, nested_node, List.map_map]
  rfl

theorem map_fst_nested (t : PrefixTree α ν) : (nested t).map Prod.fst = t.entries := by
  induction t using PrefixTree.induction_on with
  | h l term kids ih =>
    have hkids : kids.flatMap entries =
        (kids.flatMap fun t => (nested t).map Nested.deeper).map Prod.fst := by
      rw [List.map_flatMap]
      refine List.flatMap_congr fun t ht => ?_
      rw [← ih t ht, List.map_map]
      rfl
    rw [nested_node, entries_node, hkids]
    simp [Function.comp_def, Nested.under]

theorem visits_node (limit : Nat) (l : List α) (term : Option ν) (kids : List (PrefixTree α ν)) :
    visits limit (node l term kids) =
      if limit = 0 ∧ kids ≠ [] then [none]
      else ((termEntry term).map some ++ kids.flatMap (visits (limit - 1))).map
        (Option.map (under l)) := by
  rw [visits, kidsVisits_eq]

theorem visits_cons (limit : Nat) (a : α) (l : List α) (term : Option ν)
    (kids : List (PrefixTree α ν)) : visits limit (node (a :: l) term kids) =
      (visits limit (node l term kids)).map (Option.map (under [a])) := by
  rw [visits_node, visits_node]
  split_ifs
  · rfl
  · rw [List.map_map]
    refine List.map_congr_left fun x _ => ?_
    cases x <;> rfl

theorem visits_node_nil (limit : Nat) (term : Option ν) (kids : List (PrefixTree α ν)) :
    visits limit (node [] term kids) =
      if limit = 0 ∧ kids ≠ [] then [none]
      else (termEntry term).map some ++ kids.flatMap (visits (limit - 1)) := by
  have hnil : Option.map (under ([] : List α)) = (id : Option (List α × ν) → _) := by
    funext x
    cases x <;> rfl
  rw [visits_node, hnil, List.map_id]

theorem map_map_under (l m : List α) (vs : List (Option (List α × ν))) :
    (vs.map (Option.map (under m))).map (Option.map (under l)) =
      vs.map (Option.map (under (l ++ m))) := by
  rw [List.map_map]
  refine List.map_congr_left fun x _ => ?_
  cases x <;> simp [under]

/-- A traversal of a compact tree sees something. -/
theorem Compact.visits_ne_nil {t : PrefixTree α ν} (h : Compact t) (limit : Nat) :
    visits limit t ≠ [] := by
  induction h generalizing limit with
  | @intro l term kids _ _ _ two ih =>
    rw [visits_node]
    split_ifs
    · simp
    · cases term with
      | some v => simp [termEntry]
      | none =>
        cases kids with
        | nil => simp at two
        | cons t ts => simpa [termEntry] using fun ht => absurd ht (ih t (by simp) (limit - 1))

/-! ## What the limit cuts off -/

/-- The traversal sees all of the entries, if none is nested too deeply, or those in front of the
first one that is. -/
def CutAt (limit : Nat) (xs : List (Nested α ν)) (vs : List (Option (List α × ν))) : Prop :=
  (∀ x ∈ xs, x.2 ≤ limit) ∧ vs = xs.map (fun x => some x.1) ∨
    ∃ pre x post rest, xs = pre ++ x :: post ∧ (∀ y ∈ pre, y.2 ≤ limit) ∧ limit < x.2 ∧
      vs = pre.map (fun x => some x.1) ++ none :: rest

theorem CutAt.append {limit : Nat} {xs ys : List (Nested α ν)}
    {vs ws : List (Option (List α × ν))} (h : CutAt limit xs vs) (h' : CutAt limit ys ws) :
    CutAt limit (xs ++ ys) (vs ++ ws) := by
  obtain ⟨hall, rfl⟩ | ⟨pre, x, post, rest, rfl, hpre, hx, rfl⟩ := h
  · obtain ⟨hall', rfl⟩ | ⟨pre, x, post, rest, rfl, hpre, hx, rfl⟩ := h'
    · refine .inl ⟨fun x hx => ?_, by simp⟩
      rcases List.mem_append.mp hx with hx | hx
      · exact hall x hx
      · exact hall' x hx
    · refine .inr ⟨xs ++ pre, x, post, rest, by simp, fun y hy => ?_, hx, by simp⟩
      rcases List.mem_append.mp hy with hy | hy
      · exact hall y hy
      · exact hpre y hy
  · exact .inr ⟨pre, x, post ++ ys, rest ++ ws, by simp, hpre, hx, by simp⟩

theorem CutAt.flatMap {limit : Nat} {kids : List (PrefixTree α ν)}
    {f : PrefixTree α ν → List (Nested α ν)}
    {g : PrefixTree α ν → List (Option (List α × ν))} (h : ∀ t ∈ kids, CutAt limit (f t) (g t)) :
    CutAt limit (kids.flatMap f) (kids.flatMap g) := by
  induction kids with
  | nil => exact .inl ⟨by simp, rfl⟩
  | cons t ts ih =>
    rw [List.flatMap_cons, List.flatMap_cons]
    exact (h t (by simp)).append (ih fun u hu => h u (by simp [hu]))

theorem CutAt.under {limit : Nat} {xs : List (Nested α ν)}
    {vs : List (Option (List α × ν))} (h : CutAt limit xs vs) (l : List α) :
    CutAt limit (xs.map (Nested.under l)) (vs.map (Option.map (under l))) := by
  obtain ⟨hall, rfl⟩ | ⟨pre, x, post, rest, rfl, hpre, hx, rfl⟩ := h
  · refine .inl ⟨fun x hx => ?_, by simp [Nested.under, Function.comp_def]⟩
    obtain ⟨y, hy, rfl⟩ := List.mem_map.mp hx
    exact hall y hy
  · refine .inr ⟨pre.map (Nested.under l), Nested.under l x, post.map (Nested.under l),
      rest.map (Option.map (PrefixTree.under l)), by simp, fun y hy => ?_, hx,
      by simp [Nested.under, Function.comp_def]⟩
    obtain ⟨z, hz, rfl⟩ := List.mem_map.mp hy
    exact hpre z hz

/-- Below a branch there is one less to be inside of. -/
theorem CutAt.deeper {limit : Nat} {xs : List (Nested α ν)}
    {vs : List (Option (List α × ν))} (h : CutAt limit xs vs) :
    CutAt (limit + 1) (xs.map Nested.deeper) vs := by
  obtain ⟨hall, rfl⟩ | ⟨pre, x, post, rest, rfl, hpre, hx, rfl⟩ := h
  · refine .inl ⟨fun x hx => ?_, by simp [Nested.deeper, Function.comp_def]⟩
    obtain ⟨y, hy, rfl⟩ := List.mem_map.mp hx
    exact Nat.succ_le_succ (hall y hy)
  · refine .inr ⟨pre.map Nested.deeper, Nested.deeper x, post.map Nested.deeper, rest, by simp,
      fun y hy => ?_, Nat.succ_lt_succ hx, by simp [Nested.deeper, Function.comp_def]⟩
    obtain ⟨z, hz, rfl⟩ := List.mem_map.mp hy
    exact Nat.succ_le_succ (hpre z hz)

/-- Every entry that is nested too deeply stops the traversal. -/
theorem Compact.cutAt_visits {t : PrefixTree α ν} (h : Compact t) (limit : Nat) :
    CutAt limit (nested t) (visits limit t) := by
  induction h generalizing limit with
  | @intro l term kids compact _ _ two ih =>
    rw [visits_node, nested_node]
    by_cases hcut : limit = 0 ∧ kids ≠ []
    · rw [if_pos hcut]
      obtain ⟨rfl, hne⟩ := hcut
      suffices hsome : ∃ x xs, (termEntry term).map (fun e => (e, if kids.isEmpty then 0 else 1)) ++
          (kids.flatMap fun t => (nested t).map Nested.deeper) = x :: xs ∧ 0 < x.2 by
        obtain ⟨x, xs, hxs, hpos⟩ := hsome
        exact .inr ⟨[], Nested.under l x, xs.map (Nested.under l), [], by rw [hxs]; rfl, by simp, hpos,
          rfl⟩
      cases term with
      | some v => exact ⟨(([], v), 1), _, by simp [termEntry, hne]; rfl, by simp⟩
      | none =>
        obtain ⟨t, ts, rfl⟩ := List.exists_cons_of_ne_nil hne
        obtain ⟨x, xs, hxs⟩ := List.exists_cons_of_ne_nil (show nested t ≠ [] by
          intro hnil
          exact (compact t (by simp)).entries_ne_nil (by rw [← map_fst_nested, hnil]; rfl))
        exact ⟨Nested.deeper x, _, by rw [List.flatMap_cons, hxs]; rfl, Nat.succ_pos _⟩
    · rw [if_neg hcut]
      refine CutAt.under (CutAt.append (.inl ⟨fun x hx => ?_, ?_⟩) ?_) l
      · obtain ⟨e, _, rfl⟩ := List.mem_map.mp hx
        cases kids with
        | nil => exact Nat.zero_le _
        | cons t ts =>
          have hpos : limit ≠ 0 := fun hzero => hcut ⟨hzero, by simp⟩
          exact Nat.one_le_iff_ne_zero.mpr hpos
      · simp
      · rcases Nat.eq_zero_or_pos limit with rfl | hpos
        · obtain rfl : kids = [] := by
            by_contra hne
            exact hcut ⟨rfl, hne⟩
          exact .inl ⟨by simp, rfl⟩
        · obtain ⟨limit, rfl⟩ : ∃ n, limit = n + 1 := ⟨limit - 1, by omega⟩
          exact CutAt.flatMap fun t ht => (ih t ht limit).deeper

/-! ## Depth as a property of the keys -/

/-- Another key parts from `k` behind its first `n` letters. -/
def PartsAt (keys : List (List α)) (k : List α) (n : Nat) : Prop :=
  ∃ k' ∈ keys, k.take n <+: k' ∧ k'[n]? ≠ k[n]?

/-- Only the keys with the same first letter part behind it. -/
theorem partsAt_succ_congr {keys keys' : List (List α)} {a : α} {k : List α}
    (h : ∀ k' : List α, k'.head? = some a → (k' ∈ keys ↔ k' ∈ keys')) (n : Nat) :
    PartsAt keys (a :: k) (n + 1) ↔ PartsAt keys' (a :: k) (n + 1) := by
  refine exists_congr fun k' => ?_
  rw [List.take_succ_cons]
  constructor
  · rintro ⟨hmem, ⟨tl, rfl⟩, hne⟩
    exact ⟨(h _ rfl).mp hmem, ⟨tl, rfl⟩, hne⟩
  · rintro ⟨hmem, ⟨tl, rfl⟩, hne⟩
    exact ⟨(h _ rfl).mpr hmem, ⟨tl, rfl⟩, hne⟩

theorem partsAt_map_cons (keys : List (List α)) (a : α) (k : List α) (n : Nat) :
    PartsAt (keys.map (a :: ·)) (a :: k) (n + 1) ↔ PartsAt keys k n := by
  simp only [PartsAt, List.mem_map, List.take_succ_cons]
  constructor
  · rintro ⟨_, ⟨k', hk', rfl⟩, hpre, hne⟩
    exact ⟨k', hk', (List.cons_prefix_cons.mp hpre).2, by simpa using hne⟩
  · rintro ⟨k', hk', hpre, hne⟩
    exact ⟨a :: k', ⟨k', hk', rfl⟩, List.cons_prefix_cons.mpr ⟨rfl, hpre⟩, by simpa using hne⟩

section BranchDepth

variable [DecidableEq α]

instance (keys : List (List α)) (k : List α) (n : Nat) : Decidable (PartsAt keys k n) := by
  unfold PartsAt
  infer_instance

/-- The number of places inside `k` at which another key parts from it, which is the number of
branches it lies below. -/
def branchDepth (keys : List (List α)) (k : List α) : Nat :=
  (List.range k.length).countP fun n => decide (PartsAt keys k n)

/-- The same with the end of `k` counted among the places. -/
def nesting (keys : List (List α)) (k : List α) : Nat :=
  (List.range (k.length + 1)).countP fun n => decide (PartsAt keys k n)

theorem nesting_nil (keys : List (List α)) :
    nesting keys [] = if PartsAt keys [] 0 then 1 else 0 := by
  simp [nesting, List.range_succ]

theorem nesting_cons (keys : List (List α)) (a : α) (k : List α) :
    nesting keys (a :: k) = (if PartsAt keys (a :: k) 0 then 1 else 0) +
      (List.range (k.length + 1)).countP fun n => decide (PartsAt keys (a :: k) (n + 1)) := by
  rw [nesting, List.length_cons, List.range_succ_eq_map, List.countP_cons, List.countP_map,
    Nat.add_comm]
  simp only [decide_eq_true_eq]
  rfl

/-- A letter that all keys have in common is no place to part. -/
theorem nesting_map_cons (keys : List (List α)) (a : α) (k : List α) :
    nesting (keys.map (a :: ·)) (a :: k) = nesting keys k := by
  have hzero : ¬ PartsAt (keys.map (a :: ·)) (a :: k) 0 := by
    rintro ⟨k', hmem, _, hne⟩
    obtain ⟨k'', _, rfl⟩ := List.mem_map.mp hmem
    exact hne rfl
  rw [nesting_cons, if_neg hzero, Nat.zero_add, nesting]
  simp only [partsAt_map_cons]

/-- Nor are the letters of a word that all keys start with. -/
theorem nesting_map_append (keys : List (List α)) (p k : List α) :
    nesting (keys.map (p ++ ·)) (p ++ k) = nesting keys k := by
  induction p with
  | nil => simp
  | cons a p ih =>
    have hmap : keys.map (a :: p ++ ·) = (keys.map (p ++ ·)).map (a :: ·) := by simp
    rw [hmap, List.cons_append, nesting_map_cons, ih]

/-- Behind a branch at the front, the keys with the same first letter are the ones that count. -/
theorem nesting_of_parts {keys keys' : List (List α)} {a : α} {k : List α}
    (hsame : ∀ k' : List α, k'.head? = some a → (k' ∈ keys ↔ k' ∈ keys'))
    (hall : ∀ k' ∈ keys', k'.head? = some a) (hother : ∃ k' ∈ keys, k'.head? ≠ some a) :
    nesting keys (a :: k) = nesting keys' (a :: k) + 1 := by
  have hparts : PartsAt keys (a :: k) 0 := by
    obtain ⟨k', hk', hne⟩ := hother
    exact ⟨k', hk', List.nil_prefix, by simpa [← List.head?_eq_getElem?] using hne⟩
  have hnone : ¬ PartsAt keys' (a :: k) 0 := by
    rintro ⟨k', hk', _, hne⟩
    exact hne (by simpa [← List.head?_eq_getElem?] using hall k' hk')
  rw [nesting_cons, nesting_cons, if_pos hparts, if_neg hnone, Nat.zero_add, Nat.add_comm]
  simp only [partsAt_succ_congr hsame]

omit [DecidableEq α] in
theorem PartsAt.mono {keys keys' : List (List α)} (h : keys ⊆ keys') {k : List α} {n : Nat}
    (hparts : PartsAt keys k n) : PartsAt keys' k n := by
  obtain ⟨k', hk', hrest⟩ := hparts
  exact ⟨k', h hk', hrest⟩

/-- More keys only nest deeper. -/
theorem nesting_mono {keys keys' : List (List α)} (h : keys ⊆ keys') (k : List α) :
    nesting keys k ≤ nesting keys' k :=
  List.countP_mono_left fun n _ hn => by simpa using PartsAt.mono h (by simpa using hn)

/-- The deepest keys have nothing below them. -/
theorem exists_nesting_lt_iff (keys : List (List α)) (limit : Nat) :
    (∃ k ∈ keys, limit < nesting keys k) ↔ ∃ k ∈ keys, limit < branchDepth keys k := by
  constructor
  · rintro ⟨k, hk, hlt⟩
    by_cases hparts : PartsAt keys k k.length
    · obtain ⟨k', hk', hpre, hne⟩ := hparts
      rw [List.take_length] at hpre
      have hlen : k.length < k'.length := by
        refine Nat.lt_of_le_of_ne hpre.length_le fun heq => hne ?_
        rw [hpre.eq_of_length heq]
      refine ⟨k', hk', Nat.lt_of_lt_of_le hlt ?_⟩
      -- wherever a key parts from `k`, it parts from the longer key
      have hmono : ∀ n ∈ List.range (k.length + 1), PartsAt keys k n → PartsAt keys k' n := by
        rintro n hn ⟨m, hm, hpre', hne'⟩
        have hn := List.mem_range.mp hn
        have htake : k'.take n = k.take n := by
          obtain ⟨tl, rfl⟩ := hpre
          rw [List.take_append_of_le_length (by omega)]
        rcases Nat.lt_succ_iff_lt_or_eq.mp hn with hn | rfl
        · refine ⟨m, hm, htake ▸ hpre', fun heq => hne' ?_⟩
          obtain ⟨tl, rfl⟩ := hpre
          rw [heq, List.getElem?_append_left hn]
        · refine ⟨k, hk, htake ▸ List.take_prefix _ k, ?_⟩
          rw [List.getElem?_eq_none (Nat.le_refl _), List.getElem?_eq_getElem hlen]
          simp
      calc
        nesting keys k ≤ (List.range (k.length + 1)).countP fun n => decide (PartsAt keys k' n) :=
          List.countP_mono_left fun n hn => by simpa using hmono n hn
        _ ≤ branchDepth keys k' :=
          (List.range_sublist.mpr hlen).countP_le
    · refine ⟨k, hk, ?_⟩
      rw [nesting, List.range_succ, List.countP_append] at hlt
      simpa [hparts, branchDepth] using hlt
  · rintro ⟨k, hk, hlt⟩
    exact ⟨k, hk, Nat.lt_of_lt_of_le hlt ((List.range_sublist.mpr (Nat.le_succ _)).countP_le)⟩

omit [DecidableEq α] in
theorem mem_entries_of_mem_kid {term : Option ν} {kids : List (PrefixTree α ν)}
    {t : PrefixTree α ν} (ht : t ∈ kids) {e : List α × ν} (he : e ∈ t.entries) :
    e ∈ (node [] term kids).entries := by
  rw [entries_node, map_under_nil]
  exact List.mem_append_right _ (List.mem_flatMap.mpr ⟨t, ht, he⟩)

omit [DecidableEq α] in
/-- The first letter of a key tells which subtree it is in. -/
theorem mem_of_head? {term : Option ν} {kids : List (PrefixTree α ν)}
    (labels : ∀ t ∈ kids, t.label ≠ [])
    (heads : kids.Pairwise fun t u => t.label.head? ≠ u.label.head?) {t : PrefixTree α ν}
    (ht : t ∈ kids) {a : α} (ha : t.label.head? = some a) {e : List α × ν}
    (he : e ∈ (node [] term kids).entries) (hea : e.1.head? = some a) : e ∈ t.entries := by
  rw [entries_node, map_under_nil, List.mem_append] at he
  rcases he with he | he
  · obtain ⟨v, _, rfl⟩ := List.mem_map.mp he
    simp at hea
  · obtain ⟨u, hu, heu⟩ := List.mem_flatMap.mp he
    obtain ⟨b, l, hlabel⟩ := List.exists_cons_of_ne_nil (labels u hu)
    have hb : u.label.head? = some b := by rw [hlabel]; rfl
    have hab : u.label.head? = t.label.head? := by
      rw [ha, hb, ← head?_of_mem_entries hb heu, hea]
    have : Std.Symm fun t u : PrefixTree α ν => t.label.head? ≠ u.label.head? := ⟨fun _ _ => Ne.symm⟩
    by_contra hne
    exact heads.forall hu ht (fun heq => hne (heq ▸ heu)) hab

omit [DecidableEq α] in
/-- Below a branch not all keys start alike. -/
theorem exists_head?_ne {term : Option ν} {kids : List (PrefixTree α ν)}
    (compact : ∀ t ∈ kids, Compact t) (labels : ∀ t ∈ kids, t.label ≠ [])
    (heads : kids.Pairwise fun t u => t.label.head? ≠ u.label.head?)
    (two : term = none → 2 ≤ kids.length) (a : α) :
    ∃ e ∈ (node [] term kids).entries, e.1.head? ≠ some a := by
  have hkid : ∀ t ∈ kids, t.label.head? ≠ some a →
      ∃ e ∈ (node [] term kids).entries, e.1.head? ≠ some a := by
    intro t ht hne
    obtain ⟨e, he⟩ := List.exists_mem_of_ne_nil _ (compact t ht).entries_ne_nil
    exact ⟨e, mem_entries_of_mem_kid ht he, head?_ne_of_strip? (labels t ht) hne he⟩
  cases term with
  | some v => exact ⟨([], v), by simp [entries_node, termEntry], by simp⟩
  | none =>
    have htwo := two rfl
    rcases kids with _ | ⟨t₁, _ | ⟨t₂, ts⟩⟩
    · simp at htwo
    · simp at htwo
    · by_cases h₁ : t₁.label.head? = some a
      · have hne := (List.pairwise_cons.mp heads).1 t₂ (by simp)
        exact hkid t₂ (by simp) fun h₂ => hne (h₁.trans h₂.symm)
      · exact hkid t₁ (by simp) h₁

/-- The nodes of a compact tree that branch are the places where its keys part. -/
theorem Compact.nested_eq {t : PrefixTree α ν} (h : Compact t) :
    nested t = t.entries.map fun e => (e, nesting (t.entries.map Prod.fst) e.1) := by
  induction h with
  | @intro l term kids compact labels heads two ih =>
    induction l with
    | cons a l ihl =>
      have hkeys : ∀ es : List (List α × ν), (es.map (PrefixTree.under [a])).map Prod.fst =
          (es.map Prod.fst).map (a :: ·) := fun es => by simp [PrefixTree.under]
      rw [nested_cons, ihl, entries_cons, hkeys, List.map_map, List.map_map]
      refine List.map_congr_left fun e _ => ?_
      simp only [Function.comp_apply, Nested.under, PrefixTree.under, List.singleton_append,
        nesting_map_cons]
    | nil =>
      have hkid : ∀ t ∈ kids, (nested t).map Nested.deeper = t.entries.map fun e =>
          (e, nesting ((node [] term kids).entries.map Prod.fst) e.1) := by
        intro t ht
        rw [ih t ht, List.map_map]
        refine List.map_congr_left fun e he => ?_
        obtain ⟨a, l, hlabel⟩ := List.exists_cons_of_ne_nil (labels t ht)
        have hhead : t.label.head? = some a := by rw [hlabel]; rfl
        obtain ⟨k, hk⟩ := List.head?_eq_some_iff.mp (head?_of_mem_entries hhead he)
        have hsame : ∀ k' : List α, k'.head? = some a →
            (k' ∈ (node [] term kids).entries.map Prod.fst ↔ k' ∈ t.entries.map Prod.fst) := by
          intro k' hk'
          constructor
          · intro hmem
            obtain ⟨x, hx, rfl⟩ := List.mem_map.mp hmem
            exact List.mem_map_of_mem (mem_of_head? labels heads ht hhead hx hk')
          · intro hmem
            obtain ⟨x, hx, rfl⟩ := List.mem_map.mp hmem
            exact List.mem_map_of_mem (mem_entries_of_mem_kid ht hx)
        have hall : ∀ k' ∈ t.entries.map Prod.fst, k'.head? = some a := by
          intro k' hmem
          obtain ⟨x, hx, rfl⟩ := List.mem_map.mp hmem
          exact head?_of_mem_entries hhead hx
        obtain ⟨x, hx, hne⟩ := exists_head?_ne compact labels heads two a
        rw [Function.comp_apply, Nested.deeper, hk,
          nesting_of_parts hsame hall ⟨x.1, List.mem_map_of_mem hx, hne⟩]
      have hterm : (if kids.isEmpty then 0 else 1) =
          nesting ((node [] term kids).entries.map Prod.fst) [] := by
        have hparts : PartsAt ((node [] term kids).entries.map Prod.fst) [] 0 ↔ kids ≠ [] := by
          constructor
          · rintro ⟨k, hk, _, hne⟩ rfl
            obtain ⟨e, he, rfl⟩ := List.mem_map.mp hk
            rw [entries_node, map_under_nil, List.flatMap_nil, List.append_nil] at he
            obtain ⟨v, _, rfl⟩ := List.mem_map.mp he
            exact hne rfl
          · intro hne
            obtain ⟨t, ht⟩ := List.exists_mem_of_ne_nil _ hne
            obtain ⟨e, he⟩ := List.exists_mem_of_ne_nil _ (compact t ht).entries_ne_nil
            refine ⟨e.1, List.mem_map_of_mem (mem_entries_of_mem_kid ht he), List.nil_prefix, ?_⟩
            rw [← List.head?_eq_getElem?]
            simpa using ne_nil_of_mem_entries (labels t ht) he
        rw [nesting_nil]
        simp only [hparts]
        cases kids <;> rfl
      rw [nested_node, hterm, List.flatMap_congr hkid]
      generalize (node [] term kids).entries.map Prod.fst = keys
      rw [entries_node, map_under_nil, List.map_append, List.map_append, List.map_flatMap]
      congr 1
      · rw [termEntry, List.map_map, List.map_map, List.map_map]
        rfl
      · rw [List.map_flatMap]
        refine List.flatMap_congr fun t _ => ?_
        rw [List.map_map]
        rfl

end BranchDepth

end PrefixTree
