import Triepack.Dictionary.Iteration
import Triepack.Json.IndexOrder
import Triepack.Json.Partial
import Triepack.Json.WalkTrie

/-!
# Extraction against iteration

On a built dictionary `extract_entries` gives what draining `tp_dict_iterate` gives, less the
metadata, as long as keys lie below others on the way to the greatest key only. The walk finds the
keys in the order of the trie, which the sort leaves alone, and looks every value up by its key.
-/

namespace Triepack

open BitString WhileLoop

/-- An entry with the bytes of its value. -/
def FlatEntry.pair (buf : List UInt8) (e : FlatEntry) : List UInt8 × Value (List UInt8) :=
  (e.key, e.val.map (Slice.read buf))

/-- `extract_entries` succeeds with the pairs that iteration gives, in their order and less the
metadata. -/
def WalkAgrees (qs : FlatQsort) (buf : List UInt8) : Prop :=
  ∃ d es flat rootType, dictOpen buf = .ok d ∧ Iterates d es false ∧
    extractEntries qs buf = .ok (flat, rootType) ∧
    flat.map (FlatEntry.pair buf) = (es.map Entry.pair).filter fun e => decide (IsPlain e.1)

/-- A key that lies above another one lies above the greatest key. -/
def OnWayToGreatest (keys : List (List UInt8)) : Prop :=
  ∀ k ∈ keys, ∀ k' ∈ keys, k <+: k' → k ≠ k' → ∀ m ∈ keys, (∀ x ∈ keys, x ≤ m) → k <+: m

/-- The keys that the walk is made for: they fit into its buffer and its frames. -/
structure WalkFits (keys : List (List UInt8)) : Prop where
  lengths : ∀ k ∈ keys, k.length ≤ 4095
  depths : ∀ k ∈ keys, PrefixTree.branchDepth keys k ≤ walkDepth

section Congr

variable {keys keys' : List (List UInt8)} (hkeys : ∀ k, k ∈ keys' ↔ k ∈ keys)

include hkeys

theorem WalkFits.congr (h : WalkFits keys) : WalkFits keys' where
  lengths k hk := h.lengths k ((hkeys k).mp hk)
  depths k hk := by
    have hdepth := h.depths k ((hkeys k).mp hk)
    simpa only [PrefixTree.branchDepth, PrefixTree.PartsAt, hkeys] using hdepth

theorem OnWayToGreatest.congr (h : OnWayToGreatest keys) : OnWayToGreatest keys' := by
  simpa only [OnWayToGreatest, hkeys] using h

end Congr

/-- The branch that a key has of its own is not too deep either. -/
theorem WalkFits.nesting_le {keys : List (List UInt8)} (h : WalkFits keys) {k : List UInt8}
    (hk : k ∈ keys) : PrefixTree.nesting keys k ≤ walkDepth := by
  by_contra hdeep
  obtain ⟨k', hk', hlt⟩ :=
    (PrefixTree.exists_nesting_lt_iff keys walkDepth).mp ⟨k, hk, Nat.not_le.mp hdeep⟩
  exact absurd (h.depths k' hk') (by omega)

/-! ## The walk over a built trie -/

/-- What the loop of the walk returns, the walk returns: its fuel is enough for any bytes. -/
theorem extractWalk_of_returns {d : Dict} (hd : d.Sound) (hstart : d.trieStart ≤ 8 * d.buf.length)
    {w : Walk} {r : Reader}
    (h : Returns (Op.loopStep (extractBody d)) (⟨[], [], []⟩, d.reader d.trieStart) (.ok w, r)) :
    (extractWalk d (bsReaderCreate d.buf)).1 = .ok w := by
  have hbounds := extractWalk_bounds hd (.create hd.length_lt) rfl
  have hseek : bsReaderSeek d.trieStart (bsReaderCreate d.buf) = (.ok (), d.reader d.trieStart) :=
    seek_reader hd hstart
  rw [extractWalk, Op.bind_ok hseek, Op.loop] at hbounds ⊢
  rcases hrun : run (Op.loopStep (extractBody d)) (8 * d.buf.length + 2)
      (⟨[], [], []⟩, d.reader d.trieStart) with _ | out
  · simp [hrun] at hbounds
  · rw [Returns.unique ⟨_, hrun⟩ h]

section Represents

variable {d : Dict} {es : List Entry} {t : Trie} (hd : Represents d es t)

include hd

theorem Represents.keys_eq : t.keys = es.map Entry.key := by
  rw [PrefixTree.keys, hd.entries_eq_pairs, List.map_map]
  rfl

theorem Represents.size_eq : t.size = dictCount d := by
  rw [PrefixTree.size, hd.entries_eq, List.length_map, dictCount, hd.numKeys_eq]

/-- The greatest key is the last one. -/
theorem Represents.prefixFreeButLast (h : OnWayToGreatest (es.map Entry.key)) : t.PrefixFreeButLast := by
  intro k hk k' hk' hpre hne m hm
  rw [hd.keys_eq] at hk hk' hm
  refine h k hk k' hk' hpre hne m (List.mem_of_getLast? hm) fun x hx => ?_
  have hasc : (es.map Entry.key).Pairwise (· < ·) := List.pairwise_map.mpr hd.ascending
  obtain ⟨init, hinit⟩ := List.getLast?_eq_some_iff.mp hm
  rw [hinit] at hasc hx
  rcases List.mem_append.mp hx with hx | hx
  · exact List.le_of_lt ((List.pairwise_append.mp hasc).2.2 x hx m (by simp))
  · rw [List.mem_singleton.mp hx]
    exact List.le_refl m

theorem Represents.walking (hfits : WalkFits (es.map Entry.key)) :
    Walking d (usedBytes (es.map Entry.key)) t d.trieStart 0 [] [] [] where
  stands := hd.trieAt
  pending := trivial
  paths := by simp
  depth y hy := by
    rw [hd.compact.nested_eq, hd.entries_eq_pairs] at hy
    obtain ⟨e, he, rfl⟩ := List.mem_map.mp hy
    obtain ⟨x, hx, rfl⟩ := List.mem_map.mp he
    have hnest := hfits.nesting_le (List.mem_map_of_mem hx)
    simpa [Entry.pair, Function.comp_def] using hnest
  lengths key hkey := by
    rw [hd.keys_eq] at hkey
    have hlen := hfits.lengths key hkey
    rw [List.nil_append, keyBufSize]
    omega
  count := by
    rw [hd.size_eq]
    simp

/-- The walk finds the keys in their order. -/
theorem Represents.extractWalk_eq (hfits : WalkFits (es.map Entry.key))
    (hway : OnWayToGreatest (es.map Entry.key)) (hstart : d.trieStart ≤ 8 * d.buf.length) :
    ∃ w, (extractWalk d (bsReaderCreate d.buf)).1 = .ok w ∧
      w.entries = es.map fun e => foundEntry d e.key := by
  have hlt : dictCount d < 2 ^ 32 := by
    rw [dictCount, hd.numKeys_eq]
    exact hd.count_lt
  obtain ⟨w, r, hreturns, hentries⟩ := finishes_of_butLast hd.sound hd.codes hlt t
    (hd.prefixFreeButLast hway) (hd.walking hfits) (by simp) (by simp [hd.size_eq])
  refine ⟨w, extractWalk_of_returns hd.sound hstart hreturns, ?_⟩
  rw [hentries, hd.keys_eq]
  simp

/-- A key is recorded with its value. -/
theorem Represents.foundEntry_pair {e : Entry} (he : e ∈ es) :
    (foundEntry d e.key).pair d.buf = e.pair := by
  obtain ⟨v, hlookup, hread⟩ := hd.dictLookupN_of_mem he
  simp only [FlatEntry.pair, foundEntry, foundValue, hlookup, hread, Entry.pair]

end Represents

/-! ## The sort -/

/-- Entries in ascending order stay as they are. -/
theorem sortFlat_of_ascending (qs : FlatQsort) {es : List FlatEntry}
    (hasc : es.Pairwise fun a b => a.key < b.key) : sortFlat qs es = es := by
  rw [sortFlat]
  split_ifs
  · have hkeys : (es.map FlatEntry.key).Nodup :=
      List.pairwise_map.mpr (hasc.imp fun {a b} hlt (heq : a.key = b.key) =>
        List.lt_irrefl b.key (heq ▸ hlt))
    have hsorted : (qs.sort es).Pairwise fun a b => a.key ≤ b.key :=
      (qs.ascending es).imp fun h => (flatEntryCmp_nonpos_iff _ _).mp h
    have hes : es.Pairwise fun a b => a.key ≤ b.key := hasc.imp fun hlt => List.le_of_lt hlt
    apply List.Perm.eq_of_pairwise _ hsorted hes (qs.perm es)
    intro a b ha hb hab hba
    exact List.inj_on_of_nodup_map hkeys ((qs.perm es).mem_iff.mp ha) hb (List.le_antisymm hab hba)
  · rfl

/-- The plain ones of the entries found, as pairs. -/
theorem Represents.pairs_found {d : Dict} {es : List Entry} {t : Trie} (hd : Represents d es t) :
    (((es.map fun e => foundEntry d e.key).filter fun e => decide (IsPlain e.key)).map
      (FlatEntry.pair d.buf)) = (es.map Entry.pair).filter fun e => decide (IsPlain e.1) := by
  rw [List.filter_map, List.filter_map, List.map_map]
  exact List.map_congr_left fun e he => hd.foundEntry_pair (List.mem_of_mem_filter he)

/-! ## Extraction -/

/-- Extraction from the built bytes of entries on whose way to the greatest key the branching
keys are. -/
theorem Represents.extractEntries_eq {d : Dict} {es : List Entry} {t : Trie} (hd : Represents d es t)
    (qs : FlatQsort) (hopen : dictOpen d.buf = .ok d) (hstart : d.trieStart ≤ 8 * d.buf.length)
    (hfits : WalkFits (es.map Entry.key)) (hway : OnWayToGreatest (es.map Entry.key)) :
    ∃ flat rootType, extractEntries qs d.buf = .ok (flat, rootType) ∧
      flat.map (FlatEntry.pair d.buf) = (es.map Entry.pair).filter fun e => decide (IsPlain e.1) := by
  obtain ⟨w, hwalk, hentries⟩ := hd.extractWalk_eq hfits hway hstart
  obtain ⟨rootType, hroot⟩ := lookupRootType_ok hd.sound
  have hasc : (es.map fun e => foundEntry d e.key).Pairwise fun a b => a.key < b.key :=
    List.pairwise_map.mpr hd.ascending
  refine ⟨_, rootType, ?_, hd.pairs_found⟩
  rw [extractEntries, hopen, except_ok_bind, hwalk, except_ok_bind, hroot, except_ok_bind, hentries,
    sortFlat_of_ascending qs (hasc.filter _)]

/-- From a dictionary without keys nothing is extracted. -/
theorem extractEntries_of_empty {d : Dict} (hd : d.Sound) (qs : FlatQsort)
    (hopen : dictOpen d.buf = .ok d) (hstart : d.trieStart ≤ 8 * d.buf.length)
    (hcount : d.info.numKeys = 0) : ∃ rootType, extractEntries qs d.buf = .ok ([], rootType) := by
  have hbody : extractBody d ⟨[], [], []⟩ (d.reader d.trieStart) =
      (.ok (.inr ⟨[], [], []⟩), d.reader d.trieStart) := by
    rw [extractBody, if_pos (by simp [dictCount, hcount])]
    rfl
  have hwalk := extractWalk_of_returns hd hstart (.of_inr (Op.loopStep_done hbody))
  obtain ⟨rootType, hroot⟩ := lookupRootType_ok hd
  refine ⟨rootType, ?_⟩
  rw [extractEntries, hopen, except_ok_bind, hwalk, except_ok_bind, hroot, except_ok_bind]
  rfl

/-- Where keys lie below others on the way to the greatest key only, extraction agrees with
iteration. -/
theorem walkAgrees_of_onWayToGreatest {q : Qsort} {adds : List Addition} {buf : List UInt8}
    (qs : FlatQsort) (h : (encoderBuild q (added adds)).1 = .ok buf)
    (hfits : WalkFits ((survivors adds).map Prod.fst))
    (hway : OnWayToGreatest ((survivors adds).map Prod.fst)) : WalkAgrees qs buf := by
  obtain ⟨d, hopen, rfl, ⟨hsound, hstart⟩, hcount, hrep⟩ :=
    dictOpenImpl_encoderBuild true (opts_added adds) (Prod.ext h rfl)
  have hkeys := mem_keys_sortedEntries q adds
  by_cases hnil : sortedEntries q (added adds).entries = []
  · have hzero : d.info.numKeys = 0 := by rw [hcount, hnil, List.length_nil]
    obtain ⟨rootType, hextract⟩ := extractEntries_of_empty hsound qs hopen hstart hzero
    exact ⟨d, [], [], rootType, hopen, iterates_of_empty hzero, hextract, rfl⟩
  · obtain ⟨t, ht⟩ := hrep hnil
    have hfits := hfits.congr hkeys
    obtain ⟨flat, rootType, hextract, hpairs⟩ :=
      ht.extractEntries_eq qs hopen hstart hfits (hway.congr hkeys)
    obtain ⟨-, hiter⟩ | ⟨pre, x, post, hes, -, hdeep, -⟩ := ht.iterates
    · exact ⟨d, _, flat, rootType, hopen, hiter, hextract, hpairs⟩
    · have hx : x ∈ sortedEntries q (added adds).entries := by simp [hes]
      exact absurd hdeep (Nat.not_lt.mpr (hfits.nesting_le (List.mem_map_of_mem hx)))

/-- Two keys below others on the way to the greatest one, and one that is not. -/
theorem walkAgrees_of_onWayToGreatest_four : ∃ buf, WalkAgrees .byInsertion buf := by
  obtain ⟨buf, h⟩ := exists_build (.keepingLast ⟨[], .null⟩)
    (added [([98, 99], some (.uint 7)), ([97, 97], none), ([98], some (.string [1])), ([98, 99, 100], none)])
    (by decide +kernel)
  refine ⟨buf, walkAgrees_of_onWayToGreatest .byInsertion h ⟨by decide, by decide⟩ ?_⟩
  unfold OnWayToGreatest
  decide

/-- With "ab" below "a" and "c" behind them the walk finds "b" in place of "ab". -/
theorem not_walkAgrees_branching_first : ∃ q adds buf, (encoderBuild q (added adds)).1 = .ok buf ∧
    WalkFits ((survivors adds).map Prod.fst) ∧ ∀ qs, ¬ WalkAgrees qs buf := by
  obtain ⟨buf, h⟩ := exists_build (.keepingLast ⟨[], .null⟩)
    (added [([97], none), ([97, 98], none), ([99], none)]) (by decide +kernel)
  have hrun : (match (encoderBuild (.keepingLast ⟨[], .null⟩)
      (added [([97], none), ([97, 98], none), ([99], none)])).1 with
    | .ok buf => match dictOpen buf with
      | .ok d => match (extractWalk d (bsReaderCreate buf)).1 with
        | .ok w => decide (w.entries.map FlatEntry.key = [[97], [98], [98, 99]])
        | .error _ => false
      | .error _ => false
    | .error _ => false) = true := by decide +kernel
  obtain ⟨d, es, hopen, -, hkeys, -, hiter⟩ := iterates_of_build h
  refine ⟨_, _, buf, h, ⟨by decide, by decide⟩, ?_⟩
  rintro qs ⟨d', es', flat, rootType, hopen', hiter', hextract, hpairs⟩
  obtain rfl : d = d' := Except.ok.inj (hopen.symm.trans hopen')
  -- what iteration gives are the added keys
  obtain rfl : es = es' := by
    obtain ⟨-, hes⟩ | ⟨pre, x, post, -, -, -, hcut⟩ := hiter
    · exact (hes.unique hiter').1
    · exact absurd (hcut.unique hiter').2 (by simp)
  rcases hwalk : (extractWalk d (bsReaderCreate buf)).1 with e | w
  · simp [h, hopen, hwalk] at hrun
  simp only [h, hopen, hwalk, decide_eq_true_eq] at hrun
  rw [extractEntries, hopen, except_ok_bind, hwalk, except_ok_bind] at hextract
  rcases hroot : lookupRootType d with e | root
  · simp [hroot, bind, Except.bind] at hextract
  rw [hroot, except_ok_bind] at hextract
  obtain ⟨rfl, -⟩ := Prod.mk.inj (Except.ok.inj hextract)
  have hfound : [98] ∈ w.entries.map FlatEntry.key := by rw [hrun]; decide
  obtain ⟨e, he, hkey⟩ := List.mem_map.mp hfound
  have hflat := (perm_sortFlat qs (w.entries.filter fun e => decide (IsPlain e.key))).mem_iff.mpr
    (List.mem_filter.mpr ⟨he, by rw [hkey]; decide⟩)
  have hpair := List.mem_map_of_mem (f := FlatEntry.pair buf) hflat
  rw [hpairs] at hpair
  obtain ⟨x, hx, hxe⟩ := List.mem_map.mp (List.mem_of_mem_filter hpair)
  have hxkey : x.key = [98] := (congrArg Prod.fst hxe).trans hkey
  have hin := (hkeys [98]).mp (hxkey ▸ List.mem_map_of_mem hx)
  exact absurd hin (by decide)

end Triepack
