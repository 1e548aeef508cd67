import Triepack.Dictionary.RoundTrip

/-!
# Keys that were not added

A lookup finds nothing that was not added as long as it stays inside the trie. The stream has
no mark where the trie ends, so a key that extends the greatest one goes on into the value store
or, without one, into the padding and the checksum. There it is rejected unless the symbols it
meets, terminals apart, begin with a BRANCH.
-/

namespace Triepack

/-- A key that was not added is not found, provided that no greatest key in front of it leads
out of the trie to a BRANCH. -/
theorem dictLookupN_not_added {q : Qsort} {adds : List Addition} {buf : List UInt8}
    {d : Dict} (h : (encoderBuild q (added adds)).1 = .ok buf) (hopen : dictOpen buf = .ok d)
    {key : List UInt8} (hkey : ∀ a ∈ adds, a.1 ≠ key)
    (hbehind : ∀ a ∈ survivors adds, (∀ b ∈ survivors adds, b.1 ≤ a.1) → a.1 <+: key →
      RunsOut d (d.reader d.valueStart)) :
    dictLookupN d key = .error (.rc .notFound) := by
  obtain ⟨d', hopen', _, _, hcount, hrep⟩ :=
    dictOpenImpl_encoderBuild true (opts_added adds) (Prod.ext h rfl)
  obtain rfl : d = d' := Except.ok.inj (hopen.symm.trans hopen')
  by_cases hnil : sortedEntries q (added adds).entries = []
  · rw [hnil, List.length_nil] at hcount
    simp only [dictLookupN, hcount, if_true]
  obtain ⟨t, ht⟩ := hrep hnil
  -- what was encoded was added
  have hadded : ∀ e ∈ sortedEntries q (added adds).entries, ∃ a ∈ survivors adds, a.1 = e.key := by
    intro e he
    have hmem := mem_of_mem_sortedEntries he
    rw [entries_added, List.mem_map] at hmem
    obtain ⟨a, ha, rfl⟩ := hmem
    exact ⟨a, ha, rfl⟩
  have habsent : ∀ e ∈ sortedEntries q (added adds).entries, e.key ≠ key := by
    intro e he
    obtain ⟨a, ha, hae⟩ := hadded e he
    rw [← hae]
    exact hkey a ((survivors_suffix adds).subset ha)
  obtain hmiss | ⟨pre, g, hlast, hprefix, hreach⟩ := ht.dictLookupN_of_absent habsent
  · exact hmiss
  have hg : g ∈ sortedEntries q (added adds).entries := by simp [hlast]
  obtain ⟨a, ha, hag⟩ := hadded g hg
  have hgreatest : ∀ b ∈ survivors adds, b.1 ≤ a.1 := by
    intro b hb
    obtain ⟨e, he, hbe⟩ := @exists_mem_sortedEntries q (added adds).entries b.entry
      (by rw [entries_added]; exact List.mem_map_of_mem hb)
    have hasc := ht.ascending
    rw [hlast] at he hasc
    have hle : e.key ≤ g.key := by
      rcases List.mem_append.mp he with he | he
      · exact List.le_of_lt ((List.pairwise_append.mp hasc).2.2 e he g (by simp))
      · rw [List.mem_singleton.mp he]
        exact List.le_refl _
    rw [hag]
    exact (show e.key = b.1 from hbe) ▸ hle
  have hlt : g.key.length < key.length := by
    refine lt_of_le_of_ne hprefix.length_le fun hlen => habsent g hg ?_
    exact hprefix.eq_of_length hlen
  obtain ⟨r, hret⟩ := (hbehind a ha hgreatest (by rw [hag]; exact hprefix)).returns ht.codes hlt
  rw [ht.dictLookupN_eq (hreach.returns hret)]

/-- The file of the key "a" alone, with a null value. -/
def soloFile : List UInt8 :=
  [84, 82, 80, 0, 1, 0, 0, 0, 0, 0, 0, 1, 0, 0, 0, 38, 0, 0, 0, 44, 0, 0, 0, 0, 0, 0, 0, 44,
    0, 0, 0, 0, 48, 112, 83, 149, 135, 0, 176, 200, 201, 116]

/-- "ab" leaves its trie and meets END and SKIP in the checksum. -/
theorem dictLookupN_soloFile : ∃ d, dictOpen soloFile = .ok d ∧
    dictLookupN d [97, 98] = .error (.rc .notFound) := by
  have hbehind : (match dictOpen soloFile with
    | .ok d => decide (
        bsReadBits d.sym.bitsPerSymbol (d.reader d.valueStart) =
          (.ok (d.sym.ctrlCodes .end_), d.reader (d.valueStart + 3)) ∧
        bsReadBits d.sym.bitsPerSymbol (d.reader (d.valueStart + 3)) =
          (.ok (d.sym.ctrlCodes .skip), d.reader (d.valueStart + 6)) ∧
        d.sym.ctrlCodes .skip ≠ d.sym.ctrlCodes .end_ ∧
        d.sym.ctrlCodes .skip ≠ d.sym.ctrlCodes .endVal ∧
        d.sym.ctrlCodes .skip ≠ d.sym.ctrlCodes .branch)
    | .error _ => false) = true := by decide +kernel
  rcases hopen : dictOpen soloFile with e | d
  · simp [hopen] at hbehind
  · simp only [hopen, decide_eq_true_eq] at hbehind
    obtain ⟨hend, hskip, h0, h1, h5⟩ := hbehind
    exact ⟨d, rfl, @dictLookupN_not_added (.keepingLast ⟨[], .null⟩) [([97], none)] _ d
      (by decide +kernel) hopen _ (by decide) fun _ _ _ _ => .end_ hend (.symbol hskip h0 h1 h5)⟩

/-- The file of "a" with -4097 and "b" with the empty blob. -/
def minusFile : List UInt8 :=
  [84, 82, 80, 0, 1, 0, 0, 1, 0, 0, 0, 2, 0, 0, 0, 46, 0, 0, 0, 96, 0, 0, 0, 0, 0, 0, 0, 128,
    0, 0, 0, 0, 48, 128, 83, 149, 133, 138, 129, 32, 236, 64, 57, 1, 40, 20, 7, 0, 71, 139, 240,
    152]

/-- There the lookup of "ba" takes a part of -4097 for a BRANCH with a child "a" and finds a
key. -/
theorem dictLookupN_beyond_last : ∃ q adds buf d key,
    (encoderBuild q (added adds)).1 = .ok buf ∧ dictOpen buf = .ok d ∧ (∀ a ∈ adds, a.1 ≠ key) ∧
      dictLookupN d key = .ok .null := by
  have hlookup : (match dictOpen minusFile with
    | .ok d => decide (dictLookupN d [98, 97] = .ok .null)
    | .error _ => false) = true := by decide +kernel
  rcases hopen : dictOpen minusFile with e | d
  · simp [hopen] at hlookup
  · rw [hopen] at hlookup
    exact ⟨.keepingLast ⟨[], .null⟩, [([97], some (.int (-4097))), ([98], some (.blob []))],
      minusFile, d, [98, 97], by decide +kernel, hopen, by decide, of_decide_eq_true hlookup⟩

end Triepack
