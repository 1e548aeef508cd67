import Triepack.Dictionary.RoundTrip

/-!
# Keys that are added more than once

`dedup_entries` keeps the last entry of a run of equal keys, which is the last one added only if
`qsort` leaves the run in the order of addition. The C standard does not promise that.
-/

namespace Triepack

/-- No later addition has the key of this one. -/
def IsLast (adds : List Addition) (a : Addition) : Prop :=
  ∃ pre post, adds = pre ++ a :: post ∧ ∀ b ∈ post, b.1 ≠ a.1

/-- The bytes open as a dictionary with one key for each key that was added, and the value of a
key is that of its last addition. -/
def LastWins (adds : List Addition) (buf : List UInt8) : Prop :=
  ∃ d, dictOpen buf = .ok d ∧ dictCount d = (adds.map Prod.fst).dedup.length ∧
    ∀ a, IsLast adds a → ∃ v, dictLookupN d a.1 = .ok v ∧ v.map (Slice.read buf) = a.2.getD .null

/-- Every key is still there, and its additions that are agree. -/
structure TiesAgree (adds : List Addition) : Prop where
  survives : ∀ a ∈ adds, ∃ b ∈ survivors adds, b.1 = a.1
  agree : ∀ a ∈ survivors adds, ∀ b ∈ survivors adds, a.1 = b.1 → a.entry = b.entry

theorem exists_isLast {adds : List Addition} {a : Addition} (h : a ∈ adds) :
    ∃ b, IsLast adds b ∧ b.1 = a.1 := by
  induction adds using List.reverseRecOn with
  | nil => simp at h
  | append_singleton adds c ih =>
    by_cases hc : c.1 = a.1
    · exact ⟨c, ⟨adds, [], rfl, by simp⟩, hc⟩
    · have ha : a ∈ adds := by
        rcases List.mem_append.mp h with h | h
        · exact h
        · exact absurd (List.mem_singleton.mp h ▸ rfl) hc
      obtain ⟨b, ⟨pre, post, rfl, hpost⟩, hb⟩ := ih ha
      refine ⟨b, ⟨pre, post ++ [c], by simp, fun x hx => ?_⟩, hb⟩
      rcases List.mem_append.mp hx with hx | hx
      · exact hpost x hx
      · rw [List.mem_singleton.mp hx, hb]
        exact hc

theorem IsLast.mem {adds : List Addition} {a : Addition} (h : IsLast adds a) : a ∈ adds := by
  obtain ⟨pre, post, rfl, _⟩ := h
  simp

/-- When any addition of a key survives, its last one does. -/
theorem IsLast.mem_of_suffix {adds later : List Addition} {a b : Addition} (h : IsLast adds a)
    (hlater : later <:+ adds) (hb : b ∈ later) (hkey : b.1 = a.1) : a ∈ later := by
  obtain ⟨pre, post, hadds, hpost⟩ := h
  have hsuffix : a :: post <:+ adds := ⟨pre, hadds.symm⟩
  rcases List.suffix_or_suffix_of_suffix hlater hsuffix with hle | hle
  · rcases List.suffix_cons_iff.mp hle with rfl | hle
    · simp
    · exact absurd hkey (hpost b (hle.subset hb))
  · exact hle.subset (by simp)

section Built

variable {q : Qsort} {adds : List Addition} {buf : List UInt8}

theorem keys_subset : (sortedEntries q (added adds).entries).map Entry.key ⊆
    (adds.map Prod.fst).dedup := by
  intro key hkey
  obtain ⟨e, he, rfl⟩ := List.mem_map.mp hkey
  obtain ⟨a, ha, rfl⟩ := exists_survivor he
  exact List.mem_dedup.mpr (List.mem_map_of_mem ((survivors_suffix adds).subset ha))

/-- All keys are counted exactly when all of them survive. -/
theorem length_sortedEntries_eq_iff :
    (sortedEntries q (added adds).entries).length = (adds.map Prod.fst).dedup.length ↔
      ∀ a ∈ adds, ∃ b ∈ survivors adds, b.1 = a.1 := by
  have hnodup := (strictlyAscending_sortedEntries q (added adds).entries).nodup_keys
  rw [← List.length_map (f := Entry.key)]
  constructor
  · intro hlen a ha
    have hperm := (List.subperm_of_subset hnodup keys_subset).perm_of_length_le hlen.ge
    have hkey : a.1 ∈ (sortedEntries q (added adds).entries).map Entry.key :=
      hperm.mem_iff.mpr (List.mem_dedup.mpr (List.mem_map_of_mem ha))
    obtain ⟨e, he, hea⟩ := List.mem_map.mp hkey
    obtain ⟨b, hb, rfl⟩ := exists_survivor he
    exact ⟨b, hb, hea⟩
  · intro hall
    refine List.Perm.length_eq ((List.perm_ext_iff_of_nodup hnodup (List.nodup_dedup _)).mpr ?_)
    refine fun key => ⟨fun hkey => keys_subset hkey, fun hkey => ?_⟩
    obtain ⟨a, ha, rfl⟩ := List.mem_map.mp (List.mem_dedup.mp hkey)
    obtain ⟨b, hb, hba⟩ := hall a ha
    obtain ⟨e, he, heb⟩ := exists_sortedEntry q hb
    exact List.mem_map.mpr ⟨e, he, heb.trans hba⟩

/-- Additions that agree are told apart by no order that `qsort` chooses. -/
theorem TiesAgree.lastWins (hadds : TiesAgree adds)
    (h : (encoderBuild q (added adds)).1 = .ok buf) : LastWins adds buf := by
  obtain ⟨d, hopen, _, hcount, hlookup⟩ := dictLookupN_of_build h
  refine ⟨d, hopen, hcount.trans (length_sortedEntries_eq_iff.mpr hadds.survives), fun a ha => ?_⟩
  obtain ⟨b, hb, hba⟩ := hadds.survives a ha.mem
  obtain ⟨e, he, heb⟩ := exists_sortedEntry q hb
  obtain ⟨c, hc, rfl⟩ := exists_survivor he
  have hca : c.1 = a.1 := heb.trans hba
  have hentry := hadds.agree c hc a (ha.mem_of_suffix (survivors_suffix adds) hb hba) hca
  rw [hentry] at he
  exact hlookup a.entry he

end Built

/-- An entry that `qsort` leaves behind those with its key is the one that is encoded. -/
theorem mem_sortedEntries_keepingLast {last : Entry} {es : List Entry} (h : last ∈ es) :
    last ∈ sortedEntries (.keepingLast last) es := by
  obtain ⟨e, he, hkey⟩ := exists_mem_sortedEntries (.keepingLast last) h
  obtain ⟨pre, post, hsort, hpost⟩ :=
    dedupEntries_last (ascending_sortEntries (.keepingLast last) es) he
  have hmem := (perm_sortEntries (.keepingLast last) es).mem_iff.mpr h
  have hpair := pairwise_keepingLast last es
  rw [hsort] at hmem hpair
  rcases List.mem_append.mp hmem with hpre | hcons
  · rcases (List.pairwise_append.mp hpair).2.2 last hpre e (by simp) with hlt | ⟨_, hlast⟩
    · exact absurd (hkey ▸ hlt) (List.lt_irrefl _)
    · rwa [hlast rfl] at he
  · rcases List.mem_cons.mp hcons with rfl | hmem
    · exact he
    · exact absurd hkey.symm (hpost last hmem)

theorem LastWins.survives {q : Qsort} {adds : List Addition} {buf : List UInt8}
    (h : (encoderBuild q (added adds)).1 = .ok buf) (hwins : LastWins adds buf) :
    ∀ a ∈ adds, ∃ b ∈ survivors adds, b.1 = a.1 := by
  obtain ⟨d, hopen, hcount, _⟩ := hwins
  obtain ⟨d', hopen', _, hcount', _⟩ := dictLookupN_of_build h
  obtain rfl : d = d' := Except.ok.inj (hopen.symm.trans hopen')
  exact length_sortedEntries_eq_iff.mp (hcount'.symm.trans hcount)

/-- The value of an addition that `qsort` leaves last is the one its key gets. -/
theorem LastWins.agree {adds : List Addition} {buf : List UInt8} {a b : Addition}
    (ha : a ∈ survivors adds) (h : (encoderBuild (.keepingLast a.entry) (added adds)).1 = .ok buf)
    (hwins : LastWins adds buf) (hb : IsLast adds b) (hkey : b.1 = a.1) : a.entry = b.entry := by
  obtain ⟨d, hopen, _, hvalue⟩ := hwins
  obtain ⟨d', hopen', _, _, hlookup⟩ := dictLookupN_of_build h
  obtain rfl : d = d' := Except.ok.inj (hopen.symm.trans hopen')
  obtain ⟨v, hv, hvb⟩ := hvalue b hb
  obtain ⟨w, hw, hwa⟩ := hlookup a.entry (mem_sortedEntries_keepingLast (by
    rw [entries_added]
    exact List.mem_map_of_mem ha))
  rw [hkey] at hv
  obtain rfl : v = w := Except.ok.inj (hv.symm.trans hw)
  simp only [Addition.entry, hkey, Entry.mk.injEq, true_and]
  exact hwa.symm.trans hvb

/-- Where every order of equal keys builds, the last addition wins in every one of them exactly
if no key was lost and the additions of a key agree. -/
theorem lastWins_iff_tiesAgree {adds : List Addition}
    (h : ∀ q, ∃ buf, (encoderBuild q (added adds)).1 = .ok buf) :
    (∀ q buf, (encoderBuild q (added adds)).1 = .ok buf → LastWins adds buf) ↔ TiesAgree adds := by
  constructor
  · intro hwins
    refine ⟨?_, fun a ha b hb hab => ?_⟩
    · obtain ⟨buf, hbuf⟩ := h (.keepingLast ⟨[], .null⟩)
      exact (hwins _ buf hbuf).survives hbuf
    · obtain ⟨c, hc, hca⟩ := exists_isLast ((survivors_suffix adds).subset ha)
      obtain ⟨buf, hbuf⟩ := h (.keepingLast a.entry)
      obtain ⟨buf', hbuf'⟩ := h (.keepingLast b.entry)
      exact ((hwins _ buf hbuf).agree ha hbuf hc hca).trans
        ((hwins _ buf' hbuf').agree hb hbuf' hc (hca.trans hab)).symm
  · exact fun hadds q buf hbuf => hadds.lastWins hbuf

/-- Equal entries have only one order. -/
theorem sortEntries_replicate (q : Qsort) (n : Nat) (e : Entry) :
    sortEntries q (List.replicate n e) = List.replicate n e :=
  List.perm_replicate.mp (perm_sortEntries q _)

/-- A repeated addition. -/
theorem lastWins_repeated : ∃ q buf,
    (encoderBuild q (added (List.replicate 2 ([1], some (.uint 7))))).1 = .ok buf ∧
      LastWins (List.replicate 2 ([1], some (.uint 7))) buf := by
  have hentries : (added (List.replicate 2 ([1], some (.uint 7)))).entries =
      List.replicate 2 ⟨[1], .uint 7⟩ := by decide
  obtain ⟨buf, h⟩ := exists_build (.keepingLast ⟨[], .null⟩)
    (added (List.replicate 2 ([1], some (.uint 7)))) (by decide +kernel)
  have hbuild : ∀ q, ∃ buf,
      (encoderBuild q (added (List.replicate 2 ([1], some (.uint 7))))).1 = .ok buf := by
    intro q
    refine ⟨buf, ?_⟩
    simp only [encoderBuild, sortedEntries, hentries, sortEntries_replicate] at h ⊢
    exact h
  exact ⟨_, buf, h, (lastWins_iff_tiesAgree hbuild).mpr ⟨by decide, by decide⟩ _ buf h⟩

/-- Of the values 1 and 2 the first stays, if `qsort` leaves it behind the second. -/
theorem not_lastWins_of_ties : ∃ q buf,
    (encoderBuild q (added [([1], some (.uint 1)), ([1], some (.uint 2))])).1 = .ok buf ∧
      ¬ LastWins [([1], some (.uint 1)), ([1], some (.uint 2))] buf := by
  obtain ⟨buf, h⟩ := exists_build (.keepingLast ⟨[1], .uint 1⟩)
    (added [([1], some (.uint 1)), ([1], some (.uint 2))]) (by decide +kernel)
  refine ⟨_, buf, h, fun hwins => ?_⟩
  have hagree := LastWins.agree (a := ([1], some (.uint 1))) (b := ([1], some (.uint 2)))
    (by decide) h hwins ⟨[([1], some (.uint 1))], [], rfl, by simp⟩ rfl
  exact absurd hagree (by decide)

end Triepack
