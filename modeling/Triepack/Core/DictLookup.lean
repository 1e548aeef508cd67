import Triepack.Core.LookupTrie

/-!
# Looking up in a built dictionary

In a dictionary that represents its entries every key of theirs is found with its value. Any
other key is not found, unless it extends the greatest one: then the walk leaves the trie and
takes what stands behind it for symbols.
-/

namespace Triepack

open BitString WhileLoop

section Represents

variable {d : Dict} {es : List Entry} {t : Trie} (hd : Represents d es t)

include hd

theorem Represents.trieAt : TrieAt d (usedBytes (es.map Entry.key)) d.trieStart t 0 where
  stands := hd.trie_at
  compact := hd.compact
  used := by
    intro e he
    rw [hd.entries_eq, List.mem_map] at he
    obtain ⟨e, he, rfl⟩ := he
    intro b hb
    exact mem_usedBytes.mpr ⟨e.key, List.mem_map_of_mem he, by simpa [suffixEntry] using hb⟩

theorem Represents.ne_nil : es ≠ [] := by
  rintro rfl
  exact hd.compact.entries_ne_nil (by rw [hd.entries_eq]; rfl)

theorem Represents.key_of_mem_entries {e : List UInt8 × Value (List UInt8)} (he : e ∈ t.entries) :
    ∃ x ∈ es, e = (x.key, x.val) := by
  rw [hd.entries_eq, List.mem_map] at he
  obtain ⟨x, hx, rfl⟩ := he
  exact ⟨x, hx, by simp [suffixEntry]⟩

theorem Represents.trie_end_le : d.valueStart ≤ 8 * d.buf.length := by
  have hle := hd.trieAt.end_le hd.sound
  rw [hd.valueStart_eq]
  exact hle

/-- Where the value of an entry stands. -/
def Dict.valueAt (d : Dict) (es : List Entry) (i : Nat) : Nat :=
  valuePos d.valueStart (es.map Entry.val) i

/-- The value store is skipped up to an entry's value, and that value is read. -/
theorem Represents.value_at (hv : d.info.hasValues = true) {i : Nat} (hi : i < es.length) :
    skipValues i (d.reader d.valueStart) = (.ok (), d.reader (d.valueAt es i)) ∧
    d.valueAt es i ≤ 8 * d.buf.length ∧
    ∃ v, valueDecode (d.reader (d.valueAt es i)) = (.ok v, d.reader (d.valueAt es (i + 1))) ∧
      v.map (Slice.read d.buf) = es[i].val := by
  have hhave := hd.hasValues_eq.symm.trans hv
  have hat := hd.values_at
  rw [storeBits, if_pos hhave] at hat
  obtain ⟨hskip, hsound, v, hdec, hread⟩ :=
    values_of_at (r := d.reader d.valueStart) (hd.sound.reader hd.trie_end_le)
      (fun v hv => by
        obtain ⟨e, he, rfl⟩ := List.mem_map.mp hv
        exact hd.encodable hhave e he) hat (i := i) (by simpa using hi)
  refine ⟨hskip, ?_, v, hdec, by simpa using hread⟩
  have hle := hsound.pos_le
  rw [show ({ d.reader d.valueStart with
    pos := valuePos (d.reader d.valueStart).pos (es.map Entry.val) i } : Reader).bitLen =
      (d.reader 0).bitLen from rfl, hd.sound.bitLen] at hle
  exact hle

/-- Without a value store every value is null. -/
theorem Represents.val_eq_null (hv : d.info.hasValues = false) {e : Entry} (he : e ∈ es) :
    e.val = .null := by
  have hnone := hd.hasValues_eq.symm.trans hv
  rw [entriesHaveValues, List.any_eq_false] at hnone
  exact Value.tag_eq_zero.mp (by simpa using hnone e he)

/-- `tp_dict_lookup_n` is its loop over the trie and, where that gives an index, one look into
the value store. -/
theorem Represents.dictLookupN_eq {key : List UInt8} {out : Except Stop (Option Nat) × Reader}
    (h : Returns (Op.loopStep (lookupBody d.sym key)) ((0, false), d.reader d.trieStart) out) :
    dictLookupN d key =
      (match out.1 with
        | .error e => .error e
        | .ok none => .ok .null
        | .ok (some valueIndex) =>
          if d.info.hasValues then
            ((do bsReaderSeek d.valueStart; skipValues valueIndex; valueDecode : Rd (Value Slice))
              out.2).1
          else .ok .null) := by
  have hle := hd.trieAt.end_le hd.sound
  have hseek : bsReaderSeek d.trieStart (bsReaderCreate d.buf) = (.ok (), d.reader d.trieStart) :=
    @seek_reader d 0 hd.sound d.trieStart (by omega)
  have hloop := Op.loop_of_returns h
    (lookup_run_isSome hd.sound key (hd.sound.reader (by omega)) rfl)
  have hcount : d.info.numKeys ≠ 0 := by
    rw [hd.numKeys_eq]
    exact (List.length_pos_of_ne_nil hd.ne_nil).ne'
  obtain ⟨result, r⟩ := out
  rw [dictLookupN, if_neg hcount, lookupValue, Op.bind_ok hseek]
  cases result with
  | error e => rw [Op.bind_error hloop]
  | ok found =>
    rw [Op.bind_ok hloop]
    cases found with
    | none => rfl
    | some valueIndex =>
      dsimp only
      split_ifs <;> rfl

/-- Every key is found with its value. -/
theorem Represents.dictLookupN_of_mem {e : Entry} (he : e ∈ es) :
    ∃ v, dictLookupN d e.key = .ok v ∧ v.map (Slice.read d.buf) = e.val := by
  have hmem : (e.key, e.val) ∈ t.entries := by
    rw [hd.entries_eq]
    exact List.mem_map.mpr ⟨e, he, by simp [suffixEntry]⟩
  cases lookup_walk hd.sound hd.codes hd.trieAt (k := e.key) rfl (Nat.zero_le _) with
  | missing r absent returns => exact absurd rfl (absent _ hmem)
  | beyond pre g v last isPrefix absent reaches => exact absurd rfl (absent _ hmem)
  | found i v p entry returns =>
    have hentry : es[i]?.map (suffixEntry 0) = some (e.key, v) := by
      rw [← List.getElem?_map, ← hd.entries_eq]
      exact entry
    obtain ⟨x, hx, hxe⟩ := Option.map_eq_some_iff.mp hentry
    obtain ⟨hkey, rfl⟩ : x.key = e.key ∧ x.val = v := by simpa [suffixEntry] using hxe
    obtain rfl : x = e := StrictlyAscending.eq_of_key hd.ascending (List.mem_of_getElem? hx) he hkey
    obtain ⟨hi, hget⟩ := List.getElem?_eq_some_iff.mp hx
    rw [hd.dictLookupN_eq returns, Nat.zero_add]
    have hcount := hd.count_lt
    by_cases hv : d.info.hasValues = true ∧ x.val.tag ≠ 0
    · obtain ⟨hskip, _, v, hdec, hread⟩ := hd.value_at hv.1 hi
      simp only [if_pos hv, if_pos hv.1, u32_of_lt (show i < 2 ^ 32 by omega)]
      refine ⟨v, ?_, by rw [hread, hget]⟩
      rw [Op.bind_ok (seek_reader hd.sound hd.trie_end_le), Op.bind_ok hskip, hdec]
    · simp only [if_neg hv]
      refine ⟨.null, rfl, ?_⟩
      rw [not_and_or, not_not, Bool.not_eq_true] at hv
      obtain hv | hv := hv
      · rw [hd.val_eq_null hv he]
        rfl
      · rw [Value.tag_eq_zero.mp hv]
        rfl

/-- Any other key is not found inside the trie. One that extends the greatest key leaves it. -/
theorem Represents.dictLookupN_of_absent {key : List UInt8} (hkey : ∀ e ∈ es, e.key ≠ key) :
    dictLookupN d key = .error (.rc .notFound) ∨
      ∃ pre g, es = pre ++ [g] ∧ g.key <+: key ∧
        Reaches (Op.loopStep (lookupBody d.sym key)) ((0, false), d.reader d.trieStart)
          ((g.key.length, true), d.reader d.valueStart) := by
  cases lookup_walk hd.sound hd.codes hd.trieAt (k := key) rfl (Nat.zero_le _) with
  | found i v p entry returns =>
    obtain ⟨x, hx, hxe⟩ := hd.key_of_mem_entries (List.mem_of_getElem? entry)
    exact absurd (Prod.mk.inj hxe).1.symm (hkey x hx)
  | missing r absent returns =>
    rw [hd.dictLookupN_eq returns]
    exact .inl rfl
  | beyond pre g v last isPrefix absent reaches =>
    rw [hd.entries_eq, List.map_eq_append_iff] at last
    obtain ⟨before, after, rfl, _, hlast⟩ := last
    obtain ⟨x, rfl, hx⟩ := List.map_eq_singleton_iff.mp hlast
    obtain ⟨rfl, rfl⟩ : x.key = g ∧ x.val = v := by simpa [suffixEntry] using hx
    refine .inr ⟨before, x, rfl, isPrefix, ?_⟩
    rw [hd.valueStart_eq]
    simpa [Dict.trieLen] using reaches

end Represents

/-- From the cursor on stand terminals, and behind them the buffer ends or a symbol stands that
is not BRANCH. -/
inductive RunsOut (d : Dict) : Reader → Prop where
  | eof {r r' : Reader} {code : TpErr}
      (read : bsReadBits d.sym.bitsPerSymbol r = (.error (.rc code), r')) : RunsOut d r
  | symbol {r r' : Reader} {code : Nat}
      (read : bsReadBits d.sym.bitsPerSymbol r = (.ok code, r'))
      (noEnd : code ≠ d.sym.ctrlCodes .end_) (noEndVal : code ≠ d.sym.ctrlCodes .endVal)
      (noBranch : code ≠ d.sym.ctrlCodes .branch) : RunsOut d r
  | end_ {r r' : Reader}
      (read : bsReadBits d.sym.bitsPerSymbol r = (.ok (d.sym.ctrlCodes .end_), r'))
      (rest : RunsOut d r') : RunsOut d r
  | endVal {r r' r'' : Reader} {vi : Nat}
      (read : bsReadBits d.sym.bitsPerSymbol r = (.ok (d.sym.ctrlCodes .endVal), r'))
      (index : bsReadVarintU r' = (.ok vi, r'')) (rest : RunsOut d r'') : RunsOut d r

/-- Then a key that goes on is not found, whatever the symbols were written as. -/
theorem RunsOut.returns {d : Dict} {used : List UInt8} (hcodes : d.sym.Codes used)
    {key : List UInt8} {keyIdx : Nat} (hlt : keyIdx < key.length) {r : Reader} (h : RunsOut d r) :
    ∃ r', Returns (Op.loopStep (lookupBody d.sym key)) ((keyIdx, true), r)
      (.error (.rc .notFound), r') := by
  have h0 : d.sym.ctrlCodes .end_ = 0 := hcodes.ctrl _
  have h1 : d.sym.ctrlCodes .endVal = 1 := hcodes.ctrl _
  have h5 : d.sym.ctrlCodes .branch = 5 := hcodes.ctrl _
  induction h with
  | @eof r r' code read =>
    have hbody : lookupBody d.sym key (keyIdx, true) r = (.error (.rc .notFound), r') :=
      Op.bind_error (by simp only [readLookupSymbol, read, if_true])
    exact ⟨_, .of_inr (Op.loopStep_error hbody)⟩
  | @symbol r r' code read noEnd noEndVal noBranch =>
    have hbody := lookupBody_of_read hcodes key keyIdx true read
    rw [h0] at noEnd
    rw [h1] at noEndVal
    rw [h5] at noBranch
    rw [if_neg noEnd, if_neg noEndVal, if_neg noBranch, if_pos rfl] at hbody
    exact ⟨_, .of_inr (Op.loopStep_error hbody)⟩
  | @end_ r r' read rest ih =>
    obtain ⟨out, hout⟩ := ih
    have hbody := lookupBody_of_read hcodes key keyIdx true read
    rw [if_pos h0, if_neg hlt.ne] at hbody
    exact ⟨out, .of_inl (Op.loopStep_next hbody) hout⟩
  | @endVal r r' r'' vi read index rest ih =>
    obtain ⟨out, hout⟩ := ih
    have hbody := lookupBody_of_read hcodes key keyIdx true read
    rw [if_neg (by omega), if_pos h1, Op.bind_ok index, if_neg hlt.ne] at hbody
    exact ⟨out, .of_inl (Op.loopStep_next hbody) hout⟩

end Triepack
