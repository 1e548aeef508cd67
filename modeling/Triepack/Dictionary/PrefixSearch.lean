import Triepack.Core.Calls
import Triepack.Dictionary.RoundTrip

/-!
# Prefix search over a built dictionary

A prefix search hands out an iterator over the keys that start with the prefix. A reset brings
it back to its beginning, unless no key starts with the prefix: that search left the iterator
over all keys, marked as done, and the mark is what a reset clears.
-/

namespace Triepack

/-- What is built either has no keys, or is the dictionary of those that were encoded. -/
theorem represents_of_build {q : Qsort} {adds : List Addition} {buf : List UInt8}
    (h : (encoderBuild q (added adds)).1 = .ok buf) {d : Dict} (hopen : dictOpen buf = .ok d) :
    (∀ k, k ∈ (sortedEntries q (added adds).entries).map Entry.key ↔
        k ∈ (survivors adds).map Prod.fst) ∧
      (d.info.numKeys = 0 ∧ sortedEntries q (added adds).entries = [] ∨
        ∃ t, Represents d (sortedEntries q (added adds).entries) t) := by
  obtain ⟨d', hopen', _, _, hcount, hrep⟩ :=
    dictOpenImpl_encoderBuild true (opts_added adds) (Prod.ext h rfl)
  obtain rfl : d = d' := Except.ok.inj (hopen.symm.trans hopen')
  refine ⟨fun k => ?_, ?_⟩
  · constructor
    · intro hk
      obtain ⟨e, he, rfl⟩ := List.mem_map.mp hk
      obtain ⟨a, ha, rfl⟩ := exists_survivor he
      exact List.mem_map_of_mem ha
    · intro hk
      obtain ⟨a, ha, rfl⟩ := List.mem_map.mp hk
      obtain ⟨e, he, hkey⟩ := exists_sortedEntry q ha
      exact List.mem_map.mpr ⟨e, he, hkey⟩
  · by_cases hnil : sortedEntries q (added adds).entries = []
    · exact .inl ⟨by rw [hcount, hnil]; rfl, hnil⟩
    · exact .inr (hrep hnil)

/-- The results of a prefix search are those of iteration with the prefix, in the same order. -/
def FindsPrefix (d : Dict) (es : List Entry) (pre : List UInt8) : Prop :=
  ∃ bound it, (∀ fuel ≥ bound, dictFindPrefix fuel d pre = .ok it) ∧
    ∀ n, (iterNextN n it).1.map (Except.map (IterItem.read d.buf)) =
      resultsOf n (((es.filter fun e => pre.isPrefixOf e.key).map Entry.pair).map some)

/-- Where the branches are nested no deeper than the stack of an iterator, a prefix search is
the iteration over the keys that start with the prefix. -/
theorem findsPrefix_of_build {q : Qsort} {adds : List Addition} {buf : List UInt8}
    (h : (encoderBuild q (added adds)).1 = .ok buf) {d : Dict} (hopen : dictOpen buf = .ok d)
    (hdepth : ∀ a ∈ survivors adds,
      PrefixTree.branchDepth ((survivors adds).map Prod.fst) a.1 ≤ iterMaxDepth) :
    Iterates d (sortedEntries q (added adds).entries) false ∧
      ∀ pre : List UInt8, 0 ∉ pre → FindsPrefix d (sortedEntries q (added adds).entries) pre := by
  obtain ⟨hkeys, hnil | ⟨t, ht⟩⟩ := represents_of_build h hopen
  · -- without keys there is nothing to search
    have hresults : ∀ n, iterResults d n = resultsOf n [] := by
      intro n
      rw [iterResults, @iterNextN_of_empty (dictIterate d) hnil.1, List.map_replicate,
        resultsOf_nil]
      rfl
    rw [hnil.2]
    refine ⟨fun n => by simpa using hresults n, fun pre _ => ?_⟩
    refine ⟨0, dictIterate d, fun fuel _ => ?_, fun n => by simpa [iterResults] using hresults n⟩
    rw [dictFindPrefix]
    simp only [if_pos (Or.inr hnil.1)]
  · generalize sortedEntries q (added adds).entries = es at *
    have hshallow : ∀ e ∈ es, PrefixTree.nesting (es.map Entry.key) e.key ≤ iterMaxDepth := by
      by_contra hne
      push Not at hne
      obtain ⟨e, he, hlt⟩ := hne
      have hsub : es.map Entry.key ⊆ (survivors adds).map Prod.fst := fun k hk => (hkeys k).mp hk
      have hdeep : ∃ k ∈ (survivors adds).map Prod.fst,
          iterMaxDepth < PrefixTree.branchDepth ((survivors adds).map Prod.fst) k :=
        (PrefixTree.exists_nesting_lt_iff _ _).mp ⟨e.key, hsub (List.mem_map_of_mem he),
          Nat.lt_of_lt_of_le hlt (PrefixTree.nesting_mono hsub _)⟩
      obtain ⟨k, hk, hlt'⟩ := hdeep
      obtain ⟨a, ha, rfl⟩ := List.mem_map.mp hk
      exact absurd (hdepth a ha) (by omega)
    have hiter : Iterates d es false := by
      obtain ⟨_, hes⟩ | ⟨pre, x, post, rfl, _, hx, _⟩ := ht.iterates
      · exact hes
      · exact absurd (hshallow x (by simp)) (by omega)
    refine ⟨hiter, fun pre hnul => ?_⟩
    by_cases hpre : pre = []
    · subst hpre
      refine ⟨0, dictIterate d, fun fuel _ => by rw [dictFindPrefix]; rfl, fun n => ?_⟩
      have hall : (es.filter fun e => ([] : List UInt8).isPrefixOf e.key) = es :=
        List.filter_eq_self.mpr fun _ _ => rfl
      rw [hall]
      simpa [iterResults] using hiter n
    · have hfind := ht.dictFindPrefix hpre hnul
      cases hdesc : PrefixTree.descend pre t with
      | none =>
        rw [hdesc] at hfind
        obtain ⟨bound, hok⟩ := hfind
        have hnone : (es.filter fun e => pre.isPrefixOf e.key) = [] :=
          List.filter_eq_nil_iff.mpr fun e he => by
            simpa using ht.filter_eq_nil_iff.mp hdesc e he
        refine ⟨bound, _, hok, fun n => ?_⟩
        rw [hnone]
        exact (ht.pending_noMatch.nextN ht n).1
      | some r =>
        obtain ⟨i, u⟩ := r
        rw [hdesc] at hfind
        obtain ⟨bound, it, hok, hpending⟩ := hfind
        refine ⟨bound, it, hok, fun n => ?_⟩
        rw [ht.visits_of_descend hshallow hdesc] at hpending
        exact (hpending.nextN ht n).1

/-- "a" below a shorter key. -/
theorem findsPrefix_two : ∃ q buf d,
    (encoderBuild q (added [([97, 98], some (.uint 7)), ([97], none)])).1 = .ok buf ∧
      dictOpen buf = .ok d ∧
      Iterates d (sortedEntries q (added [([97, 98], some (.uint 7)), ([97], none)]).entries) false ∧
      FindsPrefix d (sortedEntries q (added [([97, 98], some (.uint 7)), ([97], none)]).entries) [97] := by
  obtain ⟨buf, h⟩ := exists_build (.keepingLast ⟨[], .null⟩)
    (added [([97, 98], some (.uint 7)), ([97], none)]) (by decide +kernel)
  obtain ⟨d, hopen, _⟩ := dictLookupN_of_build h
  obtain ⟨hiter, hfind⟩ := findsPrefix_of_build h hopen (by decide)
  exact ⟨_, buf, d, h, hopen, hiter, hfind [97] (by decide)⟩

/-! ## Resetting -/

/-- After any calls and a reset an iterator gives what it gave at first. -/
def Replays (it : Iter) : Prop :=
  ∀ k n, (iterNextN n (iterReset (iterNextN k it).2)).1 = (iterNextN n it).1

/-- The search went somewhere: some key starts with the prefix, or there was nothing to do. -/
def IterKind.Matches (keys : List (List UInt8)) : IterKind → Prop
  | .iterate => True
  | .findPrefix str =>
    (str.takeWhile fun b => b != 0) = [] ∨ keys = [] ∨
      ∃ k ∈ keys, (str.takeWhile fun b => b != 0) <+: k

theorem Pending.replays {d : Dict} {es : List Entry} {t₀ : Trie} (hd : Represents d es t₀)
    {root : IterRoot} {it : Iter} (h : Pending d es t₀ root it root.visits) : Replays it := by
  intro k n
  obtain ⟨_, vs, hlater⟩ := h.nextN hd k
  exact hlater.reset.nextN_congr hd h n

theorem iterNextN_dict (n : Nat) (it : Iter) (h : it.dict.info.numKeys = 0) :
    (iterNextN n it).2.dict = it.dict := by
  induction n generalizing it with
  | zero => rfl
  | succ n ih =>
    have hnext : ∃ res it', iterNext it = (res, it') ∧ it'.dict = it.dict := by
      rw [iterNext]
      split_ifs
      · exact ⟨_, it, rfl, rfl⟩
      · exact ⟨_, _, rfl, rfl⟩
    obtain ⟨res, it', heq, hdict⟩ := hnext
    simp only [iterNextN, heq]
    rw [ih it' (by rw [hdict]; exact h), hdict]

theorem replays_of_empty {it : Iter} (h : it.dict.info.numKeys = 0) : Replays it := by
  intro k n
  have hdict : (iterReset (iterNextN k it).2).dict.info.numKeys = 0 := by
    rw [iterReset, iterNextN_dict k it h, h]
  rw [iterNextN_of_empty hdict, iterNextN_of_empty h]

/-- A search without a match gives nothing, and after a reset everything. -/
theorem Represents.not_replays {d : Dict} {es : List Entry} {t₀ : Trie} (hd : Represents d es t₀) :
    ¬ Replays { dictIterate d with done := true } := by
  intro hreplays
  have hnone := hreplays 0 1
  have hfirst := (hd.pending_noMatch.nextN hd 1).1
  have hagain := (hd.pending_noMatch.reset.nextN hd 1).1
  rw [iterNextN] at hnone
  rw [hnone, hfirst] at hagain
  have hne : IterRoot.visits ⟨[], t₀, 0⟩ ≠ [] := by
    simpa [IterRoot.visits] using hd.compact.visits_ne_nil iterMaxDepth
  rcases hvis : IterRoot.visits ⟨[], t₀, 0⟩ with _ | ⟨_ | e, vs⟩
  · exact hne hvis
  · simp [hvis, resultsOf] at hagain
  · simp [hvis, resultsOf] at hagain

/-- A reset replays an iterator exactly when its search had a match. -/
theorem replays_iff_matches {q : Qsort} {adds : List Addition} {buf : List UInt8}
    (h : (encoderBuild q (added adds)).1 = .ok buf) {d : Dict} (hopen : dictOpen buf = .ok d)
    {fuel : Nat} {kind : IterKind} {it : Iter} (hit : kind.obtain fuel d = .ok it) :
    Replays it ↔ kind.Matches ((survivors adds).map Prod.fst) := by
  obtain ⟨hkeys, hnil | ⟨t, ht⟩⟩ := represents_of_build h hopen
  · -- without keys all iterators are alike
    have hempty : (survivors adds).map Prod.fst = [] := by
      refine List.eq_nil_iff_forall_not_mem.mpr fun k hk => ?_
      have hk' := (hkeys k).mpr hk
      simp [hnil.2] at hk'
    have hdict : it = dictIterate d := by
      cases kind with
      | iterate => exact (Except.ok.inj hit).symm
      | findPrefix str =>
        rw [IterKind.obtain, dictFindPrefix] at hit
        simp only [if_pos (Or.inr hnil.1)] at hit
        exact (Except.ok.inj hit).symm
    subst hdict
    refine ⟨fun _ => ?_, fun _ => replays_of_empty hnil.1⟩
    cases kind with
    | iterate => trivial
    | findPrefix str => exact .inr (.inl hempty)
  · generalize sortedEntries q (added adds).entries = es at *
    cases kind with
    | iterate =>
      obtain rfl : dictIterate d = it := Except.ok.inj hit
      exact ⟨fun _ => trivial, fun _ => ht.pending_iterate.replays ht⟩
    | findPrefix str =>
      rw [IterKind.obtain] at hit
      have hcstr : dictFindPrefix fuel d str =
          dictFindPrefix fuel d (str.takeWhile fun b => b != 0) := by
        have htwice : (str.takeWhile fun b => b != 0).takeWhile (fun b => b != 0) =
            str.takeWhile fun b => b != 0 :=
          List.takeWhile_eq_self_iff.mpr fun b hb =>
            List.mem_takeWhile_imp (p := fun b => b != 0) hb
        simp only [dictFindPrefix, htwice]
      rw [hcstr] at hit
      simp only [IterKind.Matches]
      have hnul : 0 ∉ str.takeWhile fun b => b != 0 := fun hmem => by
        simpa using List.mem_takeWhile_imp hmem
      generalize (str.takeWhile fun b => b != 0) = pre at hit hnul ⊢
      have hmatch : (pre = [] ∨ (survivors adds).map Prod.fst = [] ∨
          ∃ k ∈ (survivors adds).map Prod.fst, pre <+: k) ↔
          (pre = [] ∨ ∃ e ∈ es, pre <+: e.key) := by
        constructor
        · rintro (hpre | hempty | ⟨k, hk, hpre⟩)
          · exact .inl hpre
          · obtain ⟨e, he⟩ := List.exists_mem_of_ne_nil _ ht.ne_nil
            have hk := (hkeys e.key).mp (List.mem_map_of_mem he)
            simp [hempty] at hk
          · obtain ⟨e, he, rfl⟩ := List.mem_map.mp ((hkeys k).mpr hk)
            exact .inr ⟨e, he, hpre⟩
        · rintro (hpre | ⟨e, he, hpre⟩)
          · exact .inl hpre
          · exact .inr (.inr ⟨e.key, (hkeys _).mp (List.mem_map_of_mem he), hpre⟩)
      rw [hmatch]
      by_cases hpre : pre = []
      · subst hpre
        obtain rfl : dictIterate d = it := by
          rw [dictFindPrefix] at hit
          exact Except.ok.inj hit
        exact ⟨fun _ => .inl rfl, fun _ => ht.pending_iterate.replays ht⟩
      · have hfind := ht.dictFindPrefix hpre hnul
        -- what is found does not depend on the fuel
        have hsame : ∀ {bound : Nat} {it' : Iter},
            (∀ fuel ≥ bound, dictFindPrefix fuel d pre = .ok it') → it = it' := by
          intro bound it' hok
          exact dictFindPrefix_unique hit (hok bound (Nat.le_refl _))
        cases hdesc : PrefixTree.descend pre t with
        | none =>
          rw [hdesc] at hfind
          obtain ⟨bound, hok⟩ := hfind
          obtain rfl := hsame hok
          refine ⟨fun hreplays => absurd hreplays ht.not_replays, ?_⟩
          rintro (hnil | ⟨e, he, hprefix⟩)
          · exact absurd hnil hpre
          · exact absurd hprefix (ht.filter_eq_nil_iff.mp hdesc e he)
        | some r =>
          obtain ⟨i, u⟩ := r
          rw [hdesc] at hfind
          obtain ⟨bound, it', hok, hpending⟩ := hfind
          obtain rfl := hsame hok
          refine ⟨fun _ => .inr ?_, fun _ => hpending.replays ht⟩
          by_contra hnone
          push Not at hnone
          exact absurd (ht.filter_eq_nil_iff.mpr hnone) (by simp [hdesc])

/-- A search for the key itself. -/
theorem replays_match : ∃ q buf d it,
    (encoderBuild q (added [([97], none)])).1 = .ok buf ∧ dictOpen buf = .ok d ∧
      IterKind.obtain 9 d (.findPrefix [97]) = .ok it ∧ Replays it := by
  obtain ⟨buf, h⟩ := exists_build (.keepingLast ⟨[], .null⟩) (added [([97], none)])
    (by decide +kernel)
  obtain ⟨d, hopen, _⟩ := dictLookupN_of_build h
  have hobtain : (match (encoderBuild (.keepingLast ⟨[], .null⟩) (added [([97], none)])).1 with
    | .ok buf => match dictOpen buf with
      | .ok d => (IterKind.obtain 9 d (.findPrefix [97])).toBool
      | .error _ => false
    | .error _ => false) = true := by decide +kernel
  simp only [h, hopen] at hobtain
  rcases hit : IterKind.obtain 9 d (.findPrefix [97]) with e | it
  · simp [hit, Except.toBool] at hobtain
  · refine ⟨_, buf, d, it, h, hopen, hit, (replays_iff_matches h hopen hit).mpr ?_⟩
    exact .inr (.inr ⟨[97], by decide, by decide⟩)

/-- A search for "b" over the key "a" gives nothing at first and "a" after a reset. -/
theorem not_replays_without_match : ∃ q buf d it,
    (encoderBuild q (added [([97], none)])).1 = .ok buf ∧ dictOpen buf = .ok d ∧
      IterKind.obtain 9 d (.findPrefix [98]) = .ok it ∧ ¬ Replays it := by
  obtain ⟨buf, h⟩ := exists_build (.keepingLast ⟨[], .null⟩) (added [([97], none)])
    (by decide +kernel)
  obtain ⟨d, hopen, _⟩ := dictLookupN_of_build h
  have hrun : (match (encoderBuild (.keepingLast ⟨[], .null⟩) (added [([97], none)])).1 with
    | .ok buf => match dictOpen buf with
      | .ok d => match IterKind.obtain 9 d (.findPrefix [98]) with
        | .ok it => decide ((iterNextN 1 (iterReset (iterNextN 0 it).2)).1 ≠ (iterNextN 1 it).1)
        | .error _ => false
      | .error _ => false
    | .error _ => false) = true := by decide +kernel
  simp only [h, hopen] at hrun
  rcases hit : IterKind.obtain 9 d (.findPrefix [98]) with e | it
  · simp [hit] at hrun
  · simp only [hit, decide_eq_true_eq] at hrun
    exact ⟨_, buf, d, it, h, hopen, hit, fun hreplays => hrun (hreplays 0 1)⟩

end Triepack
