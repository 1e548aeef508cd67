import Triepack.Core.SizeBound
import Triepack.Dictionary.Canonical
import Triepack.Library.Simulation
import Triepack.Python.Stream

/-!
# The two dictionary encoders write the same bytes

The stream is the same, so what is left is the checksum, the patches and the order of the entries.
-/

namespace Triepack.Python

open BitString CallStack

/-! ## The checksum -/

theorem table_eq : table = crc32Table.map UInt32.toNat := by decide +kernel

theorem crcStep_eq (crc : UInt32) (b : UInt8) : crcStep crc.toNat b = (crc32Step crc b).toNat := by
  have hshift : (crc.toNat >>> 8) &&& 0x00FFFFFF = crc.toNat >>> 8 := by
    have hlt := crc.toNat_lt
    rw [show 0x00FFFFFF = 2 ^ 24 - 1 from rfl, Nat.and_two_pow_sub_one_eq_mod, Nat.mod_eq_of_lt]
    rw [Nat.shiftRight_eq_div_pow]
    omega
  have hindex : ((crc ^^^ b.toUInt32) &&& 0xFF).toNat = (crc.toNat ^^^ b.toNat) &&& 0xFF := by
    simp
  have hget : ∀ i, table.getD i 0 = (crc32Table.getD i 0).toNat := by
    intro i
    rw [table_eq, List.getD_eq_getElem?_getD, List.getElem?_map, List.getD_eq_getElem?_getD]
    cases crc32Table[i]? <;> rfl
  rw [crcStep, crc32Step, hshift, hget, ← hindex, UInt32.toNat_xor, UInt32.toNat_shiftRight]
  rfl

theorem crc32_eq (data : List UInt8) : crc32 data = (Triepack.crc32 data).toNat := by
  have hfold : ∀ crc : UInt32,
      data.foldl crcStep crc.toNat = (data.foldl crc32Step crc).toNat := by
    induction data with
    | nil => exact fun _ => rfl
    | cons b data ih =>
      intro crc
      rw [List.foldl_cons, List.foldl_cons, crcStep_eq, ih]
  have hlt := (Triepack.crc32 data).toNat_lt
  rw [crc32, show (0xFFFFFFFF : Nat) = (0xFFFFFFFF : UInt32).toNat from rfl, hfold, ← UInt32.toNat_xor]
  change (Triepack.crc32 data).toNat &&& (2 ^ 32 - 1) = _
  rw [Nat.and_two_pow_sub_one_eq_mod, Nat.mod_eq_of_lt hlt]

/-! ## Patches -/

theorem be32_ofNat (value : Nat) : be32 (UInt32.ofNat value) =
    [UInt8.ofNat ((value >>> 24) &&& 0xFF), UInt8.ofNat ((value >>> 16) &&& 0xFF),
      UInt8.ofNat ((value >>> 8) &&& 0xFF), UInt8.ofNat (value &&& 0xFF)] := by
  have hmask : ∀ n : Nat, n &&& 0xFF = n % 256 := fun n => Nat.and_two_pow_sub_one_eq_mod n 8
  simp only [be32, hmask, UInt32.toNat_ofNat', Nat.shiftRight_eq_div_pow, List.cons.injEq,
    ← UInt8.toNat_inj, UInt8.toNat_ofNat', and_true]
  omega

theorem patchU32_eq {buf : List UInt8} {offset : Nat} (h : offset + 4 ≤ buf.length) (value : Nat) :
    patchU32 buf offset value = patchBytes buf offset (be32 (UInt32.ofNat value)) := by
  obtain ⟨a, b, c, d, rest, hdrop⟩ : ∃ a b c d rest, buf.drop offset = a :: b :: c :: d :: rest := by
    match hd : buf.drop offset with
    | a :: b :: c :: d :: rest => exact ⟨a, b, c, d, rest, rfl⟩
    | [] | [_] | [_, _] | [_, _, _] =>
      have hlen := congrArg List.length hd
      simp only [List.length_drop, List.length_cons, List.length_nil] at hlen
      omega
  have hlen : (buf.take offset).length = offset := by
    rw [List.length_take]
    omega
  have hbuf : buf = buf.take offset ++ a :: b :: c :: d :: rest := by
    rw [← hdrop, List.take_append_drop]
  rw [patchBytes, be32_ofNat, ← List.drop_drop, hdrop]
  conv_lhs => rw [hbuf]
  generalize buf.take offset = pre at hlen ⊢
  subst hlen
  simp [patchU32]

theorem length_patchBytes {buf bytes : List UInt8} {offset : Nat}
    (h : offset + bytes.length ≤ buf.length) : (patchBytes buf offset bytes).length = buf.length := by
  rw [patchBytes, List.length_append, List.length_append, List.length_take, List.length_drop]
  omega

/-- Patches that follow each other are one patch. -/
theorem patchBytes_patchBytes {buf as bs : List UInt8} {offset : Nat}
    (h : offset + as.length + bs.length ≤ buf.length) :
    patchBytes (patchBytes buf offset as) (offset + as.length) bs = patchBytes buf offset (as ++ bs) := by
  have hlen : (buf.take offset ++ as).length = offset + as.length := by
    rw [List.length_append, List.length_take]
    omega
  rw [patchBytes, patchBytes, patchBytes, List.take_left' hlen, ← List.drop_drop, List.drop_left' hlen,
    List.drop_drop, List.length_append, ← Nat.add_assoc, List.append_assoc, List.append_assoc,
    List.append_assoc, List.append_assoc]

theorem patchU32_patchBytes {buf as : List UInt8} {offset : Nat}
    (h : offset + as.length + 4 ≤ buf.length) (value : Nat) :
    patchU32 (patchBytes buf offset as) (offset + as.length) value =
      patchBytes buf offset (as ++ be32 (UInt32.ofNat value)) := by
  rw [patchU32_eq (by rw [length_patchBytes (by omega)]; exact h), patchBytes_patchBytes h]

theorem patchOffsets_eq (offs : StreamOffsets) {buf : List UInt8} (h : 28 ≤ buf.length) :
    patchOffsets offs buf = patchFile offs buf := by
  have h12 := @patchU32_eq buf 12 (by omega) offs.trieDataOffset
  have h16 := @patchU32_patchBytes buf (be32 (UInt32.ofNat offs.trieDataOffset)) 12
    (by simp only [length_be32]; omega) offs.valueStoreOffset
  have h20 := @patchU32_patchBytes buf (be32 (UInt32.ofNat offs.trieDataOffset) ++
    be32 (UInt32.ofNat offs.valueStoreOffset)) 12
    (by simp only [List.length_append, length_be32]; omega) 0
  have h24 := @patchU32_patchBytes buf (be32 (UInt32.ofNat offs.trieDataOffset) ++
    be32 (UInt32.ofNat offs.valueStoreOffset) ++ be32 (UInt32.ofNat 0)) 12
    (by simp only [List.length_append, length_be32]; omega) offs.totalDataBits
  simp only [List.length_append, length_be32, Nat.reduceAdd] at h16 h20 h24
  have hlen : (patchBytes buf 12 (be32 (UInt32.ofNat offs.trieDataOffset) ++
      be32 (UInt32.ofNat offs.valueStoreOffset) ++ be32 (UInt32.ofNat 0) ++
        be32 (UInt32.ofNat offs.totalDataBits))).length = buf.length :=
    length_patchBytes (by simp only [List.length_append, length_be32]; omega)
  simp only [patchOffsets, h12, h16, h20, h24, crc32_eq]
  rw [patchU32_eq (by omega), UInt32.ofNat_toNat]
  rfl

/-! ## The order of the entries -/

theorem key_le_iff {as bs : List UInt8} : as ≤ bs ↔ as < bs ∨ as = bs := by
  constructor
  · intro h
    rcases key_trichotomy as bs with hlt | heq | hgt
    · exact .inl hlt
    · exact .inr heq
    · exact absurd hgt (List.not_lt.mpr h)
  · rintro (h | rfl)
    · exact List.le_of_lt h
    · exact List.le_refl as

instance : Std.Total fun a b : Item => a.1 ≤ b.1 where
  total a b := List.le_total a.1 b.1

instance : IsTrans Item fun a b => a.1 ≤ b.1 where
  trans _ _ _ := List.le_trans

theorem strictlyAscending_sortItems {items : List Item} (h : (items.map Prod.fst).Nodup) :
    StrictlyAscending ((sortItems items).map entry) := by
  have hsorted := List.pairwise_insertionSort (fun a b : Item => a.1 ≤ b.1) items
  have hnodup : (sortItems items).Pairwise fun a b => a.1 ≠ b.1 :=
    List.pairwise_map.mp (((List.perm_insertionSort _ items).map Prod.fst).nodup_iff.mpr h)
  refine List.pairwise_map.mpr ((hsorted.and hnodup).imp fun {a b} hab => ?_)
  exact (key_le_iff.mp hab.1).resolve_right hab.2

/-- Whatever the order of the additions, both encoders come to the same entries. -/
theorem map_sortItems {items : List Item} (h : (items.map Prod.fst).Nodup) (q : Qsort)
    {es : List Entry} (hes : es.Perm (items.map entry)) :
    (sortItems items).map entry = sortedEntries q es := by
  have hnodup : (es.map Entry.key).Nodup := by
    rw [(hes.map Entry.key).nodup_iff, List.map_map]
    exact h
  have hperm : ((sortItems items).map entry).Perm (sortedEntries q es) :=
    ((List.perm_insertionSort _ items).map entry).trans
      (hes.symm.trans (sortedEntries_perm q hnodup).symm)
  refine List.Perm.eq_of_pairwise (fun a b _ _ hab hba => ?_) (strictlyAscending_sortItems h)
    (strictlyAscending_sortedEntries q es) hperm
  exact absurd (List.lt_trans hab hba) (List.lt_irrefl _)

/-! ## The file -/

theorem bytesBits_toBytes {w : BitWriter} (h : w.pos % 8 = 0) :
    bytesBits w.toBytes = w.mirror.bits := by
  have hbytes : w.toBytes = w.mirror.buf.take (w.mirror.pos / 8) := by
    rw [BitWriter.toBytes, Nat.shiftRight_eq_div_pow]
    exact congrArg w.buf.take (by simp only [BitWriter.mirror]; omega)
  rw [hbytes, Writer.bytesBits_take h]

/-- Behind a stream the checksum of its padded bytes is written. -/
theorem finish_of_stream {n : Write StreamOffsets} {bits : List Bool} {offs : StreamOffsets}
    (h : Appends 0 n bits offs) :
    ∃ u v w, n (.init 256) = .ok (offs, u) ∧ alignToByte u = .ok ((), v) ∧
      writeU32 (crc32 v.toBytes) v = .ok ((), w) ∧
      w.toBytes = v.toBytes ++ be32 (Triepack.crc32 v.toBytes) ∧
      bytesBits v.toBytes = bits ++ padBits bits.length := by
  obtain ⟨u, hu, huv, hub⟩ := h (.init 256) (Writer.Valid.create 256 0) rfl
  obtain ⟨v, hv, hvv, hvb⟩ := alignToByte_appends u.pos u huv rfl
  obtain ⟨w, hw, hwv, hwb⟩ := writeU32_appends v.pos (crc32 v.toBytes) v hvv rfl
  have hinit : (BitWriter.init 256).mirror.bits = [] := bits_create 256 0
  rw [hinit, List.nil_append] at hub
  have hupos : u.pos = bits.length := by rw [← hub]; exact huv.length_bits.symm
  rw [hub, hupos] at hvb
  have hvpos : v.pos % 8 = 0 := by
    have hlen : v.pos = v.mirror.bits.length := hvv.length_bits.symm
    rw [hlen, hvb, List.length_append, padBits, List.length_replicate]
    omega
  have hwpos : w.pos % 8 = 0 := by
    have hlen : w.pos = w.mirror.bits.length := hwv.length_bits.symm
    rw [hlen, hwb, List.length_append, length_natBits, hvv.length_bits]
    change (v.pos + 32) % 8 = 0
    omega
  have hout : w.toBytes = v.toBytes ++ be32 (Triepack.crc32 v.toBytes) := by
    apply bytesBits_injective
    rw [bytesBits_toBytes hwpos, hwb, bytesBits_append, bytesBits_toBytes hvpos, bytesBits_be32,
      crc32_eq]
  exact ⟨u, v, w, hu, hv, hw, hout, by rw [bytesBits_toBytes hvpos, hvb]⟩

/-- The file of a stream: its bytes and their checksum, patched. -/
theorem encode_of_stream {frames : Frames} {data : Dict} {bits : List Bool} {offs : StreamOffsets}
    (hcount : alphabetSize (sortItems data.items) ≤ 249)
    (h : Appends 0 (writeStream frames (sortItems data.items)) bits offs) :
    ∃ bytes, bytesBits bytes = bits ++ padBits bits.length ∧
      encode frames data = .ok (patchOffsets offs (bytes ++ be32 (Triepack.crc32 bytes))) := by
  obtain ⟨u, v, w, hu, hv, hw, hout, hbytes⟩ := finish_of_stream h
  refine ⟨v.toBytes, hbytes, ?_⟩
  have hsmall : ¬ alphabetSize (sortItems data.items) + numControlCodes > 255 := by
    rw [show numControlCodes = 6 from rfl]
    omega
  simp only [encode, if_neg hsmall, hu, hv, hw, bind, Except.bind, hout]

/-- A stream for which the stack has no room. -/
theorem encode_of_overruns {frames : Frames} {data : Dict}
    (hcount : alphabetSize (sortItems data.items) ≤ 249)
    (h : Overruns 0 (writeStream frames (sortItems data.items))) :
    encode frames data = .error .recursionError := by
  have hsmall : ¬ alphabetSize (sortItems data.items) + numControlCodes > 255 := by
    rw [show numControlCodes = 6 from rfl]
    omega
  simp only [encode, if_neg hsmall, h (.init 256) (Writer.Valid.create 256 0) rfl, bind, Except.bind]

/-- The number of bits in the data stream that `encode` writes on a stack that is deep enough. -/
def dataStreamBits (data : Dict) : Nat :=
  match writeStream .unbounded (sortItems data.items) (.init 256) with
  | .ok (offs, _) => offs.totalDataBits
  | .error _ => 0

theorem dataStreamBits_eq {data : Dict} {bits : List Bool} {offs : StreamOffsets}
    (h : Appends 0 (writeStream .unbounded (sortItems data.items)) bits offs) :
    dataStreamBits data = offs.totalDataBits := by
  obtain ⟨u, hu, _⟩ := h (.init 256) (Writer.Valid.create 256 0) rfl
  rw [dataStreamBits, hu]

theorem sortItems_perm (items : List Item) : (sortItems items).Perm items := List.perm_insertionSort _ _

theorem alphabetSize_sortItems (items : List Item) : alphabetSize (sortItems items) = alphabetSize items := by
  have hused : usedTable (sortItems items) = usedTable items := funext fun b => (sortItems_perm items).any_eq
  rw [alphabetSize, alphabetSize, hused]

/-- The frames do not depend on the order of the items. -/
theorem writeFits_sortItems (frames : Frames) (items : List Item) :
    WriteFits frames (sortItems items) ↔ WriteFits frames items := by
  have hkeys : ∀ k, k ∈ (sortItems items).map Prod.fst ↔ k ∈ items.map Prod.fst := fun k =>
    ((sortItems_perm items).map Prod.fst).mem_iff
  simp only [WriteFits, writeFrames, ← PrefixTree.pathCost_one, PrefixTree.pathCost_congr _ hkeys,
    (sortItems_perm items).mem_iff]

section Sections

variable {items : List Item} {trie : List Bool} (hcount : (usedBytes (keys items)).length ≤ 249)
  (hcode : TrieCode (analyzeSymbols 0 (keys items)) (items.map entry) trie)

/-- The sections of the file, as the C encoder lays them out. -/
def streamLayout : StreamLayout 0 (items.map entry) where
  config := configBits items
  trie := trie
  config_eq := configBits_eq _ hcount
  trie_eq := hcode
  encodable _ e he := by
    obtain ⟨x, _, rfl⟩ := List.mem_map.mp he
    exact x.2.encodable_toValue

theorem offsets_streamLayout : (streamLayout hcount hcode).offsets = streamOffsets items trie := rfl

/-- The bits of the padded stream are those that the C encoder lays out. -/
theorem streamBits_padded : streamBits items trie ++ padBits (streamBits items trie).length =
    bytesBits (headerBytes (placeholderHeader (items.map entry))) ++ (streamLayout hcount hcode).bits := by
  have hlen : (streamBits items trie).length =
      (streamLayout hcount hcode).storePos + (streamLayout hcount hcode).store.length := by
    simp only [streamBits, List.length_append, length_headerBits, streamLayout, StreamLayout.store,
      StreamLayout.storePos]
    omega
  rw [hlen, streamBits, StreamLayout.bits]
  simp only [List.append_assoc]
  rfl

end Sections

/-- On a dictionary whose stream the offsets can address both encoders refuse the alphabet, or C returns the
bytes that Python returns if its stack has room. -/
theorem encoders_outcome {data : Dict} (hrange : ∀ e ∈ data.items, e.2.InRange)
    (hbits : dataStreamBits data ≤ 2 ^ 32 - 1) (q : Qsort) {adds : List Addition}
    (hadds : (adds.map Addition.entry).Perm (data.items.map entry)) :
    (249 < alphabetSize data.items ∧
        (encoderBuild q (encoderAddAll freshEncoder adds)).1 = .error (.rc .alphabet) ∧
        ∀ frames, encode frames data = .error .valueError) ∨
      alphabetSize data.items ≤ 249 ∧
        ∃ buf, (encoderBuild q (encoderAddAll freshEncoder adds)).1 = .ok buf ∧
          ∀ frames, encode frames data =
            if WriteFits frames data.items then .ok buf else .error .recursionError := by
  have hperm := sortItems_perm data.items
  obtain ⟨trie, n, hlen, hroom, hpy, hc⟩ := exists_trie (strictlyAscending_sortItems data.nodup)
  have hsrange : ∀ e ∈ sortItems data.items, e.2.InRange := fun e he => hrange e (hperm.mem_iff.mp he)
  have hstream := fun frames => @writeStream_appends frames _ _ hsrange _ (hpy frames)
  rw [dataStreamBits_eq ((hstream .unbounded).appends (by simp))] at hbits
  -- every entry takes a bit, so the additions are fewer than 2^32
  have hsmall : (sortItems data.items).length < 2 ^ 32 := by
    simp only [streamOffsets] at hbits
    omega
  have hentries : (encoderAddAll freshEncoder adds).entries = adds.map Addition.entry := by
    have hcount := hadds.length_eq
    rw [List.length_map, List.length_map, ← hperm.length_eq] at hcount
    rw [entries_addAll rfl, survivors_eq_self (by omega)]
  have hsorted : sortedEntries q (encoderAddAll freshEncoder adds).entries =
      (sortItems data.items).map entry := by
    rw [hentries, map_sortItems data.nodup q hadds]
  have hopts : (encoderAddAll freshEncoder adds).opts.bitsPerSymbol = 0 := by
    rw [opts_addAll]
    rfl
  have hsize := alphabetSize_sortItems data.items
  by_cases hcount : (usedBytes (keys (sortItems data.items))).length ≤ 249
  · obtain ⟨hcode, htrie⟩ := hc hsmall
    obtain ⟨vi, htrie⟩ := htrie (256 + (configBits (sortItems data.items)).length)
    have halpha : alphabetSize (sortItems data.items) ≤ 249 := by rwa [alphabetSize_eq]
    obtain ⟨bytes, hbytes, hbuild⟩ := encoderBuild_of_layout hopts hsorted (by omega) hcount
      (streamLayout hcount hcode) htrie hbits
    refine .inr ⟨hsize ▸ halpha, _, hbuild, fun frames => ?_⟩
    by_cases hfits : WriteFits frames data.items
    · have happends := (hstream frames).appends
        ((hroom frames).mpr ((writeFits_sortItems frames data.items).mpr hfits))
      obtain ⟨bytes', hbytes', hencode⟩ := encode_of_stream halpha happends
      rw [streamBits_padded hcount hcode, ← hbytes] at hbytes'
      obtain rfl := bytesBits_injective hbytes'
      have hlong : 28 ≤ (bytes' ++ be32 (Triepack.crc32 bytes')).length := by
        have hlen := congrArg List.length hbytes
        rw [length_bytesBits, List.length_append, length_headerBits] at hlen
        rw [List.length_append]
        omega
      rw [patchOffsets_eq _ hlong] at hencode
      rw [hencode, if_pos hfits]
      rfl
    · rw [if_neg hfits]
      refine encode_of_overruns halpha ((hstream frames).overruns fun h => hfits ?_)
      exact (writeFits_sortItems frames data.items).mp ((hroom frames).mp h)
  · refine .inl ⟨by rw [← hsize, alphabetSize_eq]; omega, ?_, fun frames => ?_⟩
    · simp only [encoderBuild, hopts, hsorted, symbolCount_analyzeSymbols]
      rw [if_pos (Nat.add_lt_add_right (Nat.lt_of_not_le hcount) 6)]
    · simp only [encode, alphabetSize_eq]
      rw [if_pos (by rw [show numControlCodes = 6 from rfl]; omega)]

/-- On a dictionary whose stream the offsets can address the encoders agree exactly if both refuse the
alphabet or the stack of the Python encoder has room for the nesting of the keys. -/
theorem encoders_agree_iff (frames : Frames) {data : Dict} (hrange : ∀ e ∈ data.items, e.2.InRange)
    (hbits : dataStreamBits data ≤ 2 ^ 32 - 1) {enc : Encoder} (hcreate : encoderCreate = .ok enc)
    (q : Qsort) {adds : List Addition}
    (hadds : (adds.map Addition.entry).Perm (data.items.map entry)) :
    SameResult (encoderBuild q (encoderAddAll enc adds)).1 (encode frames data) ↔
      249 < alphabetSize data.items ∨ WriteFits frames data.items := by
  obtain rfl : freshEncoder = enc := Except.ok.inj hcreate
  obtain ⟨hlarge, hbuild, hencode⟩ | ⟨hsmall, buf, hbuild, hencode⟩ :=
    encoders_outcome hrange hbits q hadds
  · rw [hbuild, hencode frames]
    exact iff_of_true rfl (.inl hlarge)
  · rw [hbuild, hencode frames]
    by_cases hfits : WriteFits frames data.items
    · rw [if_pos hfits]
      exact iff_of_true rfl (.inr hfits)
    · rw [if_neg hfits]
      refine iff_of_false (by simp [SameResult, Except.toOption]) ?_
      rintro (hlarge | h)
      · omega
      · exact hfits h

/-- A number and a string under two keys, added in the other order. -/
def twoItems : Dict := ⟨[([97], .int (-7)), ([97, 98], .str [104, 105])], by decide⟩

theorem encoders_agree_iff_twoItems :
    SameResult (encoderBuild (.keepingLast ⟨[], .null⟩) (encoderAddAll freshEncoder
        [([97, 98], some (.string [104, 105])), ([97], some (.int (-7)))])).1
        (encode (.atMost 992) twoItems) ↔
      249 < alphabetSize twoItems.items ∨ WriteFits (.atMost 992) twoItems.items :=
  encoders_agree_iff _ (by decide) (by decide +kernel) encoderCreate_eq _ (by decide)

/-! ## Keys nested a thousand deep -/

theorem length_le_fileRoom (width : Nat) (es : List Entry) : es.length ≤ fileRoom width es := by
  have hcode : es.length ≤ codeRoom width * es.length := Nat.le_mul_of_pos_left _ (Nat.succ_pos _)
  rw [fileRoom, trieRoom]
  omega

/-- A dictionary that is known to fit is addressed. -/
theorem dataStreamBits_le {data : Dict} (hrange : ∀ e ∈ data.items, e.2.InRange)
    (hcount : alphabetSize data.items ≤ 249) (hroom : fileRoom 8 (data.items.map entry) ≤ uint32Max) :
    dataStreamBits data ≤ uint32Max := by
  have hperm := sortItems_perm data.items
  obtain ⟨trie, n, _, _, hpy, hc⟩ := exists_trie (strictlyAscending_sortItems data.nodup)
  have hsrange : ∀ e ∈ sortItems data.items, e.2.InRange := fun e he => hrange e (hperm.mem_iff.mp he)
  have hstream := (writeStream_appends hsrange (hpy .unbounded)).appends (by simp)
  rw [← fileRoom_perm (hperm.map entry)] at hroom
  have hlen := length_le_fileRoom 8 ((sortItems data.items).map entry)
  rw [List.length_map] at hlen
  obtain ⟨hcode, _⟩ := hc (by
    have hmax : uint32Max < 2 ^ 32 := by decide
    omega)
  rw [← alphabetSize_sortItems, alphabetSize_eq] at hcount
  have hwidth := fileRoom_mono (@symbolWidth_le 0 _ hcount) ((sortItems data.items).map entry)
  rw [dataStreamBits_eq hstream, ← offsets_streamLayout hcount hcode]
  have htotal := (streamLayout hcount hcode).totalDataBits_le hcount (hwidth.trans hroom)
  exact htotal.trans (hwidth.trans hroom)

/-- `{'a' * i: None for i in range(1, n + 1)}`. -/
def chain (n : Nat) : Dict where
  items := (List.range n).map fun i => (List.replicate (i + 1) 0x61, .none)
  nodup := by
    rw [List.map_map]
    refine List.Nodup.map (fun i j h => ?_) List.nodup_range
    simpa using congrArg List.length h

/-- The additions that stand for the items of a dictionary. -/
def additions (items : List Item) : List Addition := items.map fun e => (e.1, some e.2.toValue)

theorem alphabetSize_chain (n : Nat) : alphabetSize (chain n).items ≤ 249 := by
  have hone : allBytes.countP (fun b => decide (b = 0x61)) ≤ 249 := by decide +kernel
  refine (List.countP_mono_left fun b _ hb => ?_).trans hone
  obtain ⟨e, he, hmem⟩ := List.any_eq_true.mp hb
  obtain ⟨i, _, rfl⟩ := List.mem_map.mp he
  rw [List.contains_iff_mem] at hmem
  exact decide_eq_true (List.eq_of_mem_replicate hmem)

/-- Every shorter key parts from the longest one. -/
theorem le_branchDepth_chain (n : Nat) :
    n ≤ PrefixTree.branchDepth ((chain (n + 1)).items.map Prod.fst) (List.replicate (n + 1) 0x61) := by
  have hparts : ∀ i ∈ List.range n, PrefixTree.PartsAt ((chain (n + 1)).items.map Prod.fst)
      (List.replicate (n + 1) 0x61) (i + 1) := by
    intro i hi
    rw [List.mem_range] at hi
    refine ⟨List.replicate (i + 1) 0x61, ?_, ?_, ?_⟩
    · rw [chain, List.map_map]
      exact List.mem_map_of_mem (List.mem_range.mpr (by omega))
    · rw [List.take_replicate, Nat.min_eq_left (by omega)]
    · rw [List.getElem?_replicate, List.getElem?_replicate, if_neg (by omega), if_pos (by omega)]
      simp
  have hall := List.countP_eq_length.mpr fun i hi => decide_eq_true (hparts i hi)
  rw [List.length_range] at hall
  rw [PrefixTree.branchDepth, List.length_replicate, List.range_succ_eq_map, List.countP_cons, List.countP_map]
  exact hall.ge.trans (Nat.le_add_right _ _)

theorem inRange_chain (n : Nat) : ∀ e ∈ (chain n).items, e.2.InRange := by
  intro e he
  obtain ⟨i, _, rfl⟩ := List.mem_map.mp he
  trivial

theorem not_writeFits_chain {n k : Nat} (h : k + 2 < n) : ¬ WriteFits (.atMost k) (chain (n + 1)).items := by
  intro hfits
  have hmem : (List.replicate (n + 1) 0x61, .none) ∈ (chain (n + 1)).items :=
    List.mem_map_of_mem (List.mem_range.mpr (Nat.lt_succ_self n))
  have hlast := hfits _ hmem
  have hdepth := le_branchDepth_chain n
  simp only [writeFrames, if_true, Frames.more_atMost, Frames.room_atMost] at hlast
  omega

theorem fileRoom_chain (n : Nat) : fileRoom 8 ((chain n).items.map entry) =
    3996 + 6 * 8 + trieRoom 8 ((List.range n).map fun i => i + 1).sum n + n * 96 := by
  have hkeys : ((chain n).items.map entry).map (fun e => e.key.length) = (List.range n).map fun i => i + 1 := by
    simp [chain, entry, Function.comp_def]
  have hvals : (((chain n).items.map entry).map fun e => valueRoom e.val) = List.replicate n 96 := by
    simp [chain, entry, Function.comp_def, valueRoom, PyValue.toValue, Value.payloadLength]
  have hlen : ((chain n).items.map entry).length = n := by simp [chain]
  rw [fileRoom, hkeys, hvals, hlen, List.sum_replicate, smul_eq_mul]

/-- With the default limit of a thousand frames Python raises where C builds a file. -/
theorem not_encoders_agree_chain :
    (∀ e ∈ (chain 1100).items, e.2.InRange) ∧ dataStreamBits (chain 1100) ≤ 2 ^ 32 - 1 ∧
      ¬ SameResult (encoderBuild (.keepingLast ⟨[], .null⟩)
          (encoderAddAll freshEncoder (additions (chain 1100).items))).1
        (encode (.atMost 992) (chain 1100)) := by
  have hrange := inRange_chain 1100
  have halpha := alphabetSize_chain 1100
  have hsum : ((List.range 1100).map fun i => i + 1).sum = 605550 := by decide +kernel
  have hroom : fileRoom 8 ((chain 1100).items.map entry) ≤ uint32Max := by
    rw [fileRoom_chain, hsum]
    decide
  have hbits := dataStreamBits_le hrange halpha hroom
  have hadds : ((additions (chain 1100).items).map Addition.entry).Perm ((chain 1100).items.map entry) := by
    rw [additions, List.map_map]
    exact .rfl
  refine ⟨hrange, hbits, ?_⟩
  obtain ⟨hlarge, _⟩ | ⟨_, buf, hbuild, hencode⟩ :=
    encoders_outcome hrange hbits (.keepingLast ⟨[], .null⟩) hadds
  · omega
  · rw [hbuild, hencode, if_neg (not_writeFits_chain (n := 1099) (by omega))]
    simp [SameResult, Except.toOption]

end Triepack.Python
