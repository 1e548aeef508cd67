import Triepack.Core.IterDrain
import Triepack.Dictionary.RoundTrip

/-!
# Iteration over a built dictionary

Iteration is the sorted map of what was added, as long as no addition was lost to the wrap of
the encoder's count.
-/

namespace Triepack

/-- The added keys in ascending order, each once and with a value it was added with. -/
structure SortedMap (adds : List Addition) (m : List Entry) : Prop where
  ascending : StrictlyAscending m
  keys : ∀ k, k ∈ m.map Entry.key ↔ k ∈ adds.map Prod.fst
  vals : ∀ e ∈ m, ∃ a ∈ adds, a.entry = e

/-- The bytes open as a dictionary, and iteration over it is the sorted map of the additions, up
to an overflow if one of the keys lies below too many branches. -/
def IteratesSorted (adds : List Addition) (buf : List UInt8) : Prop :=
  ∃ d m, dictOpen buf = .ok d ∧ SortedMap adds m ∧
    ((∀ e ∈ m, PrefixTree.branchDepth (m.map Entry.key) e.key ≤ iterMaxDepth) →
      Iterates d m false) ∧
    ((∃ e ∈ m, iterMaxDepth < PrefixTree.branchDepth (m.map Entry.key) e.key) →
      ∃ pre, pre <+: m ∧ Iterates d pre true)

/-- Iteration over these keys comes to `k` before it overflows. -/
def Reached (keys : List (List UInt8)) (k : List UInt8) : Prop :=
  ∀ k' ∈ keys, k' ≤ k → PrefixTree.nesting keys k' ≤ iterMaxDepth

/-- Every added key is still there, or iteration over those that are overflows before it comes
to a key that is greater than a lost one. -/
def NoneMissed (adds : List Addition) (keys : List (List UInt8)) : Prop :=
  (∀ a ∈ adds, a.1 ∈ keys) ∨
    (∃ k ∈ keys, ¬ Reached keys k) ∧
      ∀ a ∈ adds, a.1 ∉ keys → ∀ k ∈ keys, Reached keys k → k < a.1

theorem nesting_congr {keys keys' : List (List UInt8)} (h : ∀ k, k ∈ keys ↔ k ∈ keys')
    (k : List UInt8) : PrefixTree.nesting keys k = PrefixTree.nesting keys' k :=
  Nat.le_antisymm (PrefixTree.nesting_mono (fun k hk => (h k).mp hk) k)
    (PrefixTree.nesting_mono (fun k hk => (h k).mpr hk) k)

theorem reached_congr {keys keys' : List (List UInt8)} (h : ∀ k, k ∈ keys ↔ k ∈ keys')
    (k : List UInt8) : Reached keys k ↔ Reached keys' k := by
  simp only [Reached, h, nesting_congr h]

/-- Which keys are there does not depend on how they are listed. -/
theorem noneMissed_congr {adds : List Addition} {keys keys' : List (List UInt8)}
    (h : ∀ k, k ∈ keys ↔ k ∈ keys') : NoneMissed adds keys ↔ NoneMissed adds keys' := by
  simp only [NoneMissed, h, reached_congr h]

/-- A deep branch is reached by nothing behind it. -/
theorem not_reached {keys : List (List UInt8)} {k : List UInt8} (hk : k ∈ keys)
    (h : iterMaxDepth < PrefixTree.nesting keys k) : ¬ Reached keys k := by
  intro hreached
  have hle := hreached k hk (List.le_refl k)
  omega

/-- The added keys in order, whatever else is done with them. -/
theorem sortedMap_sortedEntries (q : Qsort) (adds : List Addition) :
    SortedMap adds (sortedEntries q (adds.map Addition.entry)) where
  ascending := strictlyAscending_sortedEntries q _
  keys k := by
    constructor
    · intro hk
      obtain ⟨e, he, rfl⟩ := List.mem_map.mp hk
      obtain ⟨a, ha, rfl⟩ := List.mem_map.mp (mem_of_mem_sortedEntries he)
      exact List.mem_map_of_mem ha
    · intro hk
      obtain ⟨a, ha, rfl⟩ := List.mem_map.mp hk
      obtain ⟨e, he, hkey⟩ := exists_mem_sortedEntries q (List.mem_map_of_mem (f := Addition.entry) ha)
      exact List.mem_map.mpr ⟨e, he, hkey⟩
  vals e he := List.mem_map.mp (mem_of_mem_sortedEntries he)

section Kept

variable {adds : List Addition} {es : List Entry} (hasc : StrictlyAscending es)
  (hvals : ∀ e ∈ es, ∃ a ∈ adds, a.entry = e)

theorem keys_subset_of_vals (hvals : ∀ e ∈ es, ∃ a ∈ adds, a.entry = e) :
    es.map Entry.key ⊆ adds.map Prod.fst := by
  intro k hk
  obtain ⟨e, he, rfl⟩ := List.mem_map.mp hk
  obtain ⟨a, ha, rfl⟩ := hvals e he
  exact List.mem_map_of_mem ha

include hasc

/-- In front of the first deep branch every key is reached, and behind it none. -/
theorem reached_iff {pre post : List Entry} {x : Entry} (hes : es = pre ++ x :: post)
    (hpre : ∀ e ∈ pre, PrefixTree.nesting (es.map Entry.key) e.key ≤ iterMaxDepth)
    (hx : iterMaxDepth < PrefixTree.nesting (es.map Entry.key) x.key) {e : Entry} (he : e ∈ es) :
    Reached (es.map Entry.key) e.key ↔ e ∈ pre := by
  rw [StrictlyAscending, hes] at hasc
  obtain ⟨hascPre, hascPost, hcross⟩ := List.pairwise_append.mp hasc
  have hxmem : x ∈ es := by rw [hes]; simp
  constructor
  · intro hreached
    rw [hes] at he
    rcases List.mem_append.mp he with he | he
    · exact he
    · refine absurd (hreached x.key (List.mem_map_of_mem hxmem) ?_) (by omega)
      rcases List.mem_cons.mp he with rfl | he
      · exact List.le_refl _
      · exact List.le_of_lt ((List.pairwise_cons.mp hascPost).1 e he)
  · intro hepre k hk hle
    obtain ⟨e', he', rfl⟩ := List.mem_map.mp hk
    rw [hes] at he'
    rcases List.mem_append.mp he' with he' | he'
    · exact hpre e' he'
    · exact absurd (hcross e hepre e' he') hle

include hvals

/-- The entries in front of the overflow are the front of the sorted map, if the lost keys are
greater. -/
theorem exists_sortedMap_of_prefix {pre post : List Entry} (hes : es = pre ++ post)
    (hpost : ∀ a ∈ adds, (∀ e ∈ pre, e.key ≠ a.1) → ∀ e ∈ pre, e.key < a.1) :
    ∃ m, SortedMap adds m ∧ pre <+: m := by
  obtain ⟨hascAll, hkeysAll, hvalsAll⟩ := sortedMap_sortedEntries (.keepingLast ⟨[], .null⟩) adds
  generalize sortedEntries (.keepingLast ⟨[], .null⟩) (adds.map Addition.entry) = all at *
  rw [hes] at hasc hvals
  refine ⟨pre ++ all.filter fun e => decide (e.key ∉ pre.map Entry.key), ⟨?_, fun k => ?_, ?_⟩,
    List.prefix_append _ _⟩
  · refine List.pairwise_append.mpr ⟨(List.pairwise_append.mp hasc).1,
      hascAll.sublist List.filter_sublist, fun a ha b hb => ?_⟩
    obtain ⟨hb, hnot⟩ := List.mem_filter.mp hb
    obtain ⟨c, hc, rfl⟩ := hvalsAll b hb
    refine hpost c hc (fun e he heq => ?_) a ha
    exact (of_decide_eq_true hnot) (List.mem_map.mpr ⟨e, he, heq⟩)
  · rw [List.map_append, List.mem_append]
    constructor
    · rintro (hk | hk)
      · exact keys_subset_of_vals hvals (by rw [List.map_append]; exact List.mem_append_left _ hk)
      · obtain ⟨e, he, rfl⟩ := List.mem_map.mp hk
        exact (hkeysAll _).mp (List.mem_map_of_mem (List.mem_filter.mp he).1)
    · intro hk
      by_cases hin : k ∈ pre.map Entry.key
      · exact .inl hin
      · obtain ⟨e, he, rfl⟩ := List.mem_map.mp ((hkeysAll k).mpr hk)
        exact .inr (List.mem_map_of_mem (List.mem_filter.mpr ⟨he, decide_eq_true hin⟩))
  · intro e he
    rcases List.mem_append.mp he with he | he
    · exact hvals e (List.mem_append_left _ he)
    · exact hvalsAll e (List.mem_filter.mp he).1

end Kept

section Built

variable {q : Qsort} {adds : List Addition} {buf : List UInt8}

/-- The keys that are encoded. -/
theorem mem_keys_sortedEntries (q : Qsort) (adds : List Addition) (k : List UInt8) :
    k ∈ (sortedEntries q (added adds).entries).map Entry.key ↔ k ∈ (survivors adds).map Prod.fst := by
  constructor
  · intro hk
    obtain ⟨e, he, rfl⟩ := List.mem_map.mp hk
    obtain ⟨a, ha, rfl⟩ := exists_survivor he
    exact List.mem_map_of_mem ha
  · intro hk
    obtain ⟨a, ha, rfl⟩ := List.mem_map.mp hk
    obtain ⟨e, he, hkey⟩ := exists_sortedEntry q ha
    exact List.mem_map.mpr ⟨e, he, hkey⟩

theorem iterates_of_empty {d : Dict} (h : d.info.numKeys = 0) : Iterates d [] false := by
  intro n
  have hdict : (dictIterate d).dict.info.numKeys = 0 := h
  rw [iterResults, iterNextN_of_empty hdict, List.map_replicate, List.map_nil, List.map_nil,
    if_neg (by simp), List.append_nil, resultsOf_nil]
  rfl

/-- Iteration is over what was encoded. -/
theorem iterates_of_build (h : (encoderBuild q (added adds)).1 = .ok buf) :
    ∃ d es, dictOpen buf = .ok d ∧ StrictlyAscending es ∧
      (∀ k, k ∈ es.map Entry.key ↔ k ∈ (survivors adds).map Prod.fst) ∧
      (∀ e ∈ es, ∃ a ∈ adds, a.entry = e) ∧
      ((∀ e ∈ es, PrefixTree.nesting (es.map Entry.key) e.key ≤ iterMaxDepth) ∧ Iterates d es false ∨
        ∃ pre x post, es = pre ++ x :: post ∧
          (∀ e ∈ pre, PrefixTree.nesting (es.map Entry.key) e.key ≤ iterMaxDepth) ∧
          iterMaxDepth < PrefixTree.nesting (es.map Entry.key) x.key ∧ Iterates d pre true) := by
  obtain ⟨d, hopen, _, _, hcount, hrep⟩ :=
    dictOpenImpl_encoderBuild true (opts_added adds) (Prod.ext h rfl)
  refine ⟨d, sortedEntries q (added adds).entries, hopen, strictlyAscending_sortedEntries q _,
    mem_keys_sortedEntries q adds, fun e he => ?_, ?_⟩
  · obtain ⟨a, ha, hae⟩ := exists_survivor he
    exact ⟨a, (survivors_suffix adds).subset ha, hae⟩
  · by_cases hnil : sortedEntries q (added adds).entries = []
    · rw [hnil] at hcount ⊢
      exact .inl ⟨by simp, iterates_of_empty hcount⟩
    · obtain ⟨t, ht⟩ := hrep hnil
      exact ht.iterates

/-- Iteration is the sorted map exactly when it misses no key. -/
theorem iteratesSorted_iff_noneMissed (h : (encoderBuild q (added adds)).1 = .ok buf) :
    IteratesSorted adds buf ↔ NoneMissed adds ((survivors adds).map Prod.fst) := by
  obtain ⟨d, es, hopen, hasc, hkeys, hvals, hiter⟩ := iterates_of_build h
  rw [← noneMissed_congr hkeys]
  constructor
  · rintro ⟨d', m, hopen', hm, hshallow, hdeep⟩
    obtain rfl : d = d' := Except.ok.inj (hopen.symm.trans hopen')
    by_cases hlost : ∀ a ∈ adds, a.1 ∈ es.map Entry.key
    · exact .inl hlost
    refine .inr ?_
    by_cases hdepth : ∀ e ∈ m, PrefixTree.branchDepth (m.map Entry.key) e.key ≤ iterMaxDepth
    · have hall := hshallow hdepth
      obtain ⟨_, hes⟩ | ⟨pre, x, post, _, _, _, hpre⟩ := hiter
      · obtain ⟨rfl, _⟩ := hes.unique hall
        exact absurd (fun (a : Addition) ha => (hm.keys a.1).mpr (List.mem_map_of_mem ha)) hlost
      · exact absurd (hpre.unique hall).2 (by simp)
    · push Not at hdepth
      obtain ⟨pre', hpre', hcut⟩ := hdeep hdepth
      obtain ⟨_, hes⟩ | ⟨pre, x, post, rfl, hpre, hx, hover⟩ := hiter
      · exact absurd (hes.unique hcut).2 (by simp)
      · obtain ⟨rfl, _⟩ := hover.unique hcut
        refine ⟨⟨x.key, by simp, not_reached (by simp) hx⟩, fun a ha hnot k hk hreached => ?_⟩
        obtain ⟨e, he, rfl⟩ := List.mem_map.mp hk
        have hepre := (reached_iff hasc rfl hpre hx he).mp hreached
        obtain ⟨e', he', hkey⟩ := List.mem_map.mp ((hm.keys a.1).mpr (List.mem_map_of_mem ha))
        obtain ⟨rest, rfl⟩ := hpre'
        rw [← hkey]
        refine (List.pairwise_append.mp hm.ascending).2.2 e hepre e' ?_
        refine (List.mem_append.mp he').resolve_left fun he'pre => hnot ?_
        rw [← hkey]
        exact List.mem_map_of_mem (List.mem_append_left _ he'pre)
  · rintro (hall | ⟨⟨k, hk, hnot⟩, hlost⟩)
    · have hm : SortedMap adds es := by
        refine ⟨hasc, fun k => ⟨fun hk => keys_subset_of_vals hvals hk, fun hk => ?_⟩, hvals⟩
        obtain ⟨a, ha, rfl⟩ := List.mem_map.mp hk
        exact hall a ha
      have hdeep := PrefixTree.exists_nesting_lt_iff (es.map Entry.key) iterMaxDepth
      refine ⟨d, es, hopen, hm, ?_⟩
      obtain ⟨hnest, hes⟩ | ⟨pre, x, post, rfl, _, hx, hover⟩ := hiter
      · refine ⟨fun _ => hes, fun ⟨e, he, hlt⟩ => ?_⟩
        obtain ⟨k, hk, hlt'⟩ := hdeep.mpr ⟨e.key, List.mem_map_of_mem he, hlt⟩
        obtain ⟨e', he', rfl⟩ := List.mem_map.mp hk
        exact absurd (hnest e' he') (by omega)
      · refine ⟨fun hshallow => ?_, fun _ => ⟨pre, List.prefix_append _ _, hover⟩⟩
        obtain ⟨k, hk, hlt⟩ := hdeep.mp ⟨x.key, by simp, hx⟩
        obtain ⟨e, he, rfl⟩ := List.mem_map.mp hk
        exact absurd (hshallow e he) (by omega)
    · obtain ⟨hnest, _⟩ | ⟨pre, x, post, rfl, hpre, hx, hover⟩ := hiter
      · refine absurd (fun k' hk' _ => ?_) hnot
        obtain ⟨e, he, rfl⟩ := List.mem_map.mp hk'
        exact hnest e he
      · obtain ⟨m, hm, hprefix⟩ := exists_sortedMap_of_prefix hasc hvals rfl fun a ha hout e he => by
          by_cases hin : a.1 ∈ (pre ++ x :: post).map Entry.key
          · obtain ⟨e', he', hkey⟩ := List.mem_map.mp hin
            rw [← hkey]
            refine (List.pairwise_append.mp hasc).2.2 e he e' ?_
            exact (List.mem_append.mp he').resolve_left fun he'pre => hout e' he'pre hkey
          · have hemem : e ∈ pre ++ x :: post := List.mem_append_left _ he
            exact hlost a ha hin e.key (List.mem_map_of_mem hemem)
              ((reached_iff hasc rfl hpre hx hemem).mpr he)
        have hsub : (pre ++ x :: post).map Entry.key ⊆ m.map Entry.key := fun k hk =>
          (hm.keys k).mpr (keys_subset_of_vals hvals hk)
        have hdeep : ∃ e ∈ m, iterMaxDepth < PrefixTree.branchDepth (m.map Entry.key) e.key := by
          obtain ⟨k, hk, hlt⟩ := (PrefixTree.exists_nesting_lt_iff (m.map Entry.key) iterMaxDepth).mp
            ⟨x.key, hsub (by simp), Nat.lt_of_lt_of_le hx (PrefixTree.nesting_mono hsub _)⟩
          obtain ⟨e, he, rfl⟩ := List.mem_map.mp hk
          exact ⟨e, he, hlt⟩
        refine ⟨d, m, hopen, hm, fun hshallow => ?_, fun _ => ⟨pre, hprefix, hover⟩⟩
        obtain ⟨e, he, hlt⟩ := hdeep
        exact absurd (hshallow e he) (by omega)

end Built

/-- A key below another one, and the empty key. -/
theorem iteratesSorted_three : ∃ buf,
    IteratesSorted [([7, 0], some (.string [1, 2])), ([], some (.int (-5))), ([7], none)] buf := by
  obtain ⟨buf, h⟩ := exists_build (.keepingLast ⟨[], .null⟩)
    (added [([7, 0], some (.string [1, 2])), ([], some (.int (-5))), ([7], none)])
    (by decide +kernel)
  exact ⟨buf, (iteratesSorted_iff_noneMissed h).mpr (.inl (by decide))⟩

/-- From the 2^32 keys of 32 bytes over two letters nothing is left to iterate over. -/
theorem not_iteratesSorted_everyWord : ∃ q buf,
    (encoderBuild q (added everyWord)).1 = .ok buf ∧ ¬ IteratesSorted everyWord buf := by
  obtain ⟨hnil, buf, h⟩ := exists_build_everyWord
  refine ⟨_, buf, h, ?_⟩
  rintro ⟨d, m, hopen, hm, hshallow, hdeep⟩
  obtain ⟨d', es, hopen', _, hkeys, _, hiter⟩ := iterates_of_build h
  obtain rfl : d = d' := Except.ok.inj (hopen.symm.trans hopen')
  obtain rfl : es = [] := by
    refine List.eq_nil_iff_forall_not_mem.mpr fun e he => ?_
    have hk := (hkeys e.key).mp (List.mem_map_of_mem he)
    simp [hnil] at hk
  have hiter : Iterates d [] false := by
    obtain ⟨_, hes⟩ | ⟨pre, x, post, hes, _⟩ := hiter
    · exact hes
    · simp at hes
  by_cases hdepth : ∀ e ∈ m, PrefixTree.branchDepth (m.map Entry.key) e.key ≤ iterMaxDepth
  · obtain ⟨rfl, _⟩ := hiter.unique (hshallow hdepth)
    have hne : everyWord ≠ [] := by
      intro heq
      have hlen := congrArg List.length heq
      simp [everyWord] at hlen
    obtain ⟨a, ha⟩ := List.exists_mem_of_ne_nil _ hne
    have hmem := (hm.keys a.1).mpr (List.mem_map_of_mem ha)
    simp at hmem
  · push Not at hdepth
    obtain ⟨pre, _, hcut⟩ := hdeep hdepth
    exact absurd (hiter.unique hcut).2 (by simp)

end Triepack
