import Triepack.Core.DictLookup

/-!
# The dictionary round trip

What is built from distinct keys opens as their dictionary and gives every value back. The
count of the encoder is the limit: from 2^32 keys on, those in front of the last multiple of
2^32 are lost without an error.
-/

namespace Triepack

open BitString

/-- The encoder after the additions. -/
def added (adds : List Addition) : Encoder := encoderAddAll freshEncoder adds

/-- The bytes open as a dictionary with a key for each addition, where every key has the value
it was added with. -/
def RoundTrip (adds : List Addition) (buf : List UInt8) : Prop :=
  ∃ d, dictOpen buf = .ok d ∧ dictCount d = adds.length ∧
    ∀ a ∈ adds, ∃ v, dictLookupN d a.1 = .ok v ∧ v.map (Slice.read buf) = a.2.getD .null

theorem opts_added (adds : List Addition) : (added adds).opts.bitsPerSymbol = 0 := by
  rw [added, opts_addAll]
  rfl

theorem entries_added (adds : List Addition) :
    (added adds).entries = (survivors adds).map Addition.entry := entries_addAll rfl adds

theorem added_of_survivors_nil {adds : List Addition} (h : survivors adds = []) :
    added adds = freshEncoder := by
  have hopts := opts_addAll freshEncoder adds
  have hentries := entries_added adds
  rw [h] at hentries
  rw [added] at hentries ⊢
  generalize encoderAddAll freshEncoder adds = enc at *
  obtain ⟨opts, entries, _⟩ := enc
  subst hopts hentries
  rfl

theorem exists_build (q : Qsort) (enc : Encoder) (h : (encoderBuild q enc).1.toBool = true) :
    ∃ buf, (encoderBuild q enc).1 = .ok buf := by
  rcases hbuild : (encoderBuild q enc).1 with e | buf
  · simp [hbuild, Except.toBool] at h
  · exact ⟨buf, rfl⟩

theorem nodup_keys_added {adds : List Addition} (h : (adds.map Prod.fst).Nodup) :
    ((added adds).entries.map Entry.key).Nodup := by
  rw [entries_added, List.map_map]
  exact h.sublist ((survivors_suffix adds).sublist.map _)

section Built

variable {q : Qsort} {adds : List Addition}

theorem exists_survivor {e : Entry} (h : e ∈ sortedEntries q (added adds).entries) :
    ∃ a ∈ survivors adds, a.entry = e := by
  have hmem := mem_of_mem_sortedEntries h
  rw [entries_added, List.mem_map] at hmem
  exact hmem

theorem exists_sortedEntry (q : Qsort) {a : Addition} (h : a ∈ survivors adds) :
    ∃ e ∈ sortedEntries q (added adds).entries, e.key = a.1 :=
  exists_mem_sortedEntries q (e := a.entry) (by
    rw [entries_added]
    exact List.mem_map_of_mem h)

end Built

/-- Every key that is encoded is found with the value that is encoded. -/
theorem dictLookupN_of_build {q : Qsort} {adds : List Addition} {buf : List UInt8}
    (h : (encoderBuild q (added adds)).1 = .ok buf) :
    ∃ d, dictOpen buf = .ok d ∧ d.buf = buf ∧
      dictCount d = (sortedEntries q (added adds).entries).length ∧
      ∀ e ∈ sortedEntries q (added adds).entries,
        ∃ v, dictLookupN d e.key = .ok v ∧ v.map (Slice.read buf) = e.val := by
  obtain ⟨d, hopen, hbuf, _, hcount, hrep⟩ :=
    dictOpenImpl_encoderBuild true (opts_added adds) (Prod.ext h rfl)
  refine ⟨d, hopen, hbuf, hcount, fun e he => ?_⟩
  obtain ⟨t, ht⟩ := hrep (List.ne_nil_of_mem he)
  rw [← hbuf]
  exact ht.dictLookupN_of_mem he

theorem dictCount_of_build {q : Qsort} {adds : List Addition} {buf : List UInt8}
    (hkeys : (adds.map Prod.fst).Nodup) (h : (encoderBuild q (added adds)).1 = .ok buf) {d : Dict}
    (hopen : dictOpen buf = .ok d) : dictCount d = adds.length % 2 ^ 32 := by
  obtain ⟨d', hopen', _, hcount, _⟩ := dictLookupN_of_build h
  obtain rfl : d = d' := Except.ok.inj (hopen.symm.trans hopen')
  rw [hcount, (sortedEntries_perm q (nodup_keys_added hkeys)).length_eq, entries_added,
    List.length_map, length_survivors]

/-- No dictionary counts 2^32 keys. -/
theorem RoundTrip.length_lt {q : Qsort} {adds : List Addition} {buf : List UInt8}
    (hkeys : (adds.map Prod.fst).Nodup) (h : (encoderBuild q (added adds)).1 = .ok buf)
    (hround : RoundTrip adds buf) : adds.length < 2 ^ 32 := by
  obtain ⟨d, hopen, hcount, _⟩ := hround
  rw [dictCount_of_build hkeys h hopen] at hcount
  omega

/-- A build from distinct keys round-trips if they can be counted. -/
theorem RoundTrip.of_length_lt {q : Qsort} {adds : List Addition} {buf : List UInt8}
    (hkeys : (adds.map Prod.fst).Nodup) (h : (encoderBuild q (added adds)).1 = .ok buf)
    (hlt : adds.length < 2 ^ 32) : RoundTrip adds buf := by
  obtain ⟨d, hopen, _, _, hlookup⟩ := dictLookupN_of_build h
  refine ⟨d, hopen, ?_, fun a ha => ?_⟩
  · rw [dictCount_of_build hkeys h hopen, Nat.mod_eq_of_lt hlt]
  · refine hlookup a.entry ((sortedEntries_perm q (nodup_keys_added hkeys)).mem_iff.mpr ?_)
    rw [entries_added, survivors_eq_self hlt]
    exact List.mem_map_of_mem ha

/-- A build from distinct keys round-trips exactly when fewer than 2^32 were added. -/
theorem roundTrip_iff_length_lt {q : Qsort} {adds : List Addition} {buf : List UInt8}
    (hkeys : (adds.map Prod.fst).Nodup)
    (h : (encoderBuild q (added adds)).1 = .ok buf) :
    RoundTrip adds buf ↔ adds.length < 2 ^ 32 :=
  ⟨RoundTrip.length_lt hkeys h, RoundTrip.of_length_lt hkeys h⟩

/-- A key below another one, and the empty key. -/
theorem roundTrip_three : ∃ buf,
    RoundTrip [([7, 0], some (.string [1, 2])), ([], some (.int (-5))), ([7], none)] buf := by
  obtain ⟨buf, h⟩ := exists_build (.keepingLast ⟨[], .null⟩)
    (added [([7, 0], some (.string [1, 2])), ([], some (.int (-5))), ([7], none)])
    (by decide +kernel)
  exact ⟨buf, (roundTrip_iff_length_lt (by decide) h).mpr (by decide)⟩

/-- All keys of 32 bytes over two letters. -/
def everyWord : List Addition :=
  (List.range (2 ^ 32)).map fun i => ((natBits 32 i).map fun b => if b then 1 else 0, none)

theorem nodup_everyWord : (everyWord.map Prod.fst).Nodup := by
  rw [everyWord, List.map_map]
  refine List.Nodup.map_on (fun i hi j hj hij => ?_) List.nodup_range
  have hletters : Function.Injective fun b : Bool => if b then (1 : UInt8) else 0 := by decide
  have hbits := congrArg bitsNat (List.map_injective_iff.mpr hletters hij)
  rw [bitsNat_natBits, bitsNat_natBits] at hbits
  have hi' := List.mem_range.mp hi
  have hj' := List.mem_range.mp hj
  omega

/-- From all of them the empty dictionary is built. -/
theorem exists_build_everyWord : survivors everyWord = [] ∧
    ∃ buf, (encoderBuild (.keepingLast ⟨[], .null⟩) (added everyWord)).1 = .ok buf := by
  have hlen : everyWord.length = 2 ^ 32 := by rw [everyWord, List.length_map, List.length_range]
  have hnil : survivors everyWord = [] := by
    rw [← List.length_eq_zero_iff, length_survivors, hlen, Nat.mod_self]
  obtain ⟨buf, h⟩ := exists_build (.keepingLast ⟨[], .null⟩) freshEncoder (by decide +kernel)
  rw [← added_of_survivors_nil hnil] at h
  exact ⟨hnil, buf, h⟩

theorem not_roundTrip_everyWord : ∃ q buf, (everyWord.map Prod.fst).Nodup ∧
    (encoderBuild q (added everyWord)).1 = .ok buf ∧ ¬ RoundTrip everyWord buf := by
  obtain ⟨_, buf, h⟩ := exists_build_everyWord
  refine ⟨_, buf, nodup_everyWord, h, fun hround => ?_⟩
  have hlt := hround.length_lt nodup_everyWord h
  rw [everyWord, List.length_map, List.length_range] at hlt
  omega

end Triepack
