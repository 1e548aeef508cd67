import Mathlib.Algebra.Order.BigOperators.Group.List
import Triepack.Core.BuildSucceeds
import Triepack.Library.TreeSize

/-!
# How large a file is

A file is linear in its keys and values: `fileRoom` is a number of bits that is known before the
build. When it fits the 32-bit offsets the build succeeds, and the file has at most that many bits
between its header and its checksum.
-/

namespace Triepack

open BitString

/-! ## The trie -/

/-- The most that a control code and the number behind it take. -/
def codeRoom (width : Nat) : Nat := width + 40

/-- Numbers below `2 ^ 35` take five bytes. -/
theorem length_leb_le {v : Nat} (h : v < 2 ^ 35) : (Leb128.bits v).length ≤ 40 :=
  @Leb128.length_bits_le 5 v (by omega) (by omega)

/-- Four codes for every key, and a symbol for every letter. -/
def trieRoom (width letters keys : Nat) : Nat := width * letters + 4 * (codeRoom width * keys)

theorem trieRoom_mono {width width' letters letters' keys keys' : Nat} (hw : width ≤ width')
    (hl : letters ≤ letters') (hk : keys ≤ keys') :
    trieRoom width letters keys ≤ trieRoom width' letters' keys' := by
  have hletters := Nat.mul_le_mul hw hl
  have hkeys := Nat.mul_le_mul (show codeRoom width ≤ codeRoom width' by simp only [codeRoom]; omega) hk
  simp only [trieRoom]
  omega

section TrieRoom

variable {sym : SymbolInfo} {hasValues : Bool}

theorem length_termBits_le (vi : Nat) (term : Option (Value (List UInt8))) :
    (termBits sym hasValues vi term).length ≤ codeRoom sym.bitsPerSymbol * term.toList.length := by
  have hvi : u32 vi < 2 ^ 35 := by
    have := Nat.mod_lt vi (show 0 < 2 ^ 32 by omega)
    simp only [u32]
    omega
  have hleb := length_leb_le hvi
  cases term with
  | none => simp [termBits]
  | some val =>
    simp only [termBits, codeRoom, Option.toList_some, List.length_singleton, Nat.mul_one]
    split_ifs
    · rw [List.length_append, length_symbolBits]
      omega
    · rw [length_symbolBits]
      omega

/-- A child with its preamble leaves two of its four codes to its parent. -/
theorem length_kidsBits_le {kids : List Trie} (hbound : trieRoom sym.bitsPerSymbol
      (PrefixTree.kidsLetters kids) (kids.map PrefixTree.size).sum < 2 ^ 35)
    (h : ∀ t ∈ kids, ∀ vi, (trieBits sym hasValues t vi).length + 3 * codeRoom sym.bitsPerSymbol ≤
      trieRoom sym.bitsPerSymbol t.letters t.size) (vi : Nat) :
    (kidsBits sym hasValues kids vi).length + 2 * (codeRoom sym.bitsPerSymbol * kids.length) ≤
      trieRoom sym.bitsPerSymbol (PrefixTree.kidsLetters kids) (kids.map PrefixTree.size).sum := by
  induction kids generalizing vi with
  | nil => simp [kidsBits]
  | cons t ts ih =>
    have ht := h t (by simp) vi
    simp only [trieRoom, PrefixTree.kidsLetters, List.map_cons, List.sum_cons, Nat.mul_add] at hbound ht ⊢
    have hts := ih (by simp only [trieRoom]; omega) (fun u hu => h u (by simp [hu])) (vi + t.size)
    have hskip : (if ts.isEmpty then [] else skipBits sym (trieBits sym hasValues t vi).length).length ≤
        codeRoom sym.bitsPerSymbol := by
      split_ifs
      · exact Nat.zero_le _
      · have hleb := @length_leb_le (trieBits sym hasValues t vi).length (by omega)
        rw [skipBits, List.length_append, length_symbolBits, codeRoom]
        omega
    simp only [trieRoom] at hts
    rw [kidsBits, List.length_append, List.length_append, List.length_cons, Nat.mul_succ]
    omega

/-- A compact tree takes no more than its letters and its keys allow. -/
theorem length_trieBits_le {t : Trie} (hc : t.Compact)
    (hbound : trieRoom sym.bitsPerSymbol t.letters t.size < 2 ^ 35) (vi : Nat) :
    (trieBits sym hasValues t vi).length + 3 * codeRoom sym.bitsPerSymbol ≤
      trieRoom sym.bitsPerSymbol t.letters t.size := by
  induction hc generalizing vi with
  | @intro l term kids compact labels heads two ih =>
    have hterm := @length_termBits_le sym hasValues vi term
    have hsize := PrefixTree.size_node l term kids
    have hletters : (PrefixTree.node l term kids).letters = l.length + PrefixTree.kidsLetters kids := rfl
    have hroom : trieRoom sym.bitsPerSymbol (PrefixTree.kidsLetters kids) (kids.map PrefixTree.size).sum ≤
        trieRoom sym.bitsPerSymbol (PrefixTree.node l term kids).letters (PrefixTree.node l term kids).size :=
      trieRoom_mono le_rfl (by omega) (by omega)
    have hkids := @length_kidsBits_le sym hasValues kids (by omega) (fun t ht => ih t ht ((trieRoom_mono le_rfl
      (PrefixTree.letters_le_kidsLetters ht) (List.le_sum_of_mem (List.mem_map_of_mem ht))).trans_lt (by omega)))
      (vi + term.toList.length)
    have hlabel : l.length * sym.bitsPerSymbol = sym.bitsPerSymbol * l.length := Nat.mul_comm _ _
    rw [trieBits, List.length_append, List.length_append, length_labelBits]
    simp only [trieRoom, hsize, hletters, Nat.mul_add] at hkids hbound ⊢
    cases hnil : kids.isEmpty with
    | true =>
      -- a leaf ends a key, which pays for its terminal and for what it leaves
      obtain rfl := List.isEmpty_iff.mp hnil
      cases term with
      | none => simp at two
      | some v =>
        simp only [Option.toList_some, List.length_singleton, Nat.mul_one] at hterm ⊢
        simp only [if_true, List.length_nil]
        omega
    | false =>
      have hcount : kids.length ≤ (kids.map PrefixTree.size).sum := PrefixTree.length_le_sum_size compact
      have hbranch : (branchBits sym kids.length).length ≤ codeRoom sym.bitsPerSymbol := by
        have hleb := @length_leb_le kids.length (by
          have := Nat.mul_le_mul_right (kids.map PrefixTree.size).sum (show 1 ≤ codeRoom sym.bitsPerSymbol by
            simp only [codeRoom]; omega)
          omega)
        rw [branchBits, List.length_append, length_symbolBits, codeRoom]
        omega
      -- without a key of its own a branch has two children, which leave it two codes each
      have hpaid : 2 * codeRoom sym.bitsPerSymbol ≤ codeRoom sym.bitsPerSymbol * term.toList.length +
          codeRoom sym.bitsPerSymbol * kids.length := by
        rw [← Nat.mul_add, Nat.mul_comm 2]
        refine Nat.mul_le_mul_left _ ?_
        have hpos : 0 < kids.length := by
          cases kids with
          | nil => simp at hnil
          | cons t ts => simp
        cases term with
        | none => exact (two rfl).trans (Nat.le_add_left _ _)
        | some v =>
          rw [Option.toList_some, List.length_singleton]
          omega
      simp only [Bool.false_eq_true, if_false, List.length_append]
      omega

end TrieRoom

/-! ## The value store -/

/-- The bytes of a string or blob. -/
def Value.payloadLength : Value (List UInt8) → Nat
  | .string s | .blob s => s.length
  | _ => 0

/-- A tag, a number of ten bytes at most and the payload, aligned. -/
def valueRoom (val : Value (List UInt8)) : Nat := 8 * (val.payloadLength + 12)

theorem length_sliceBits_le {bytes : List UInt8} (h : bytes.length < 2 ^ 35) (p : Nat) :
    (sliceBits p bytes).length ≤ 8 * bytes.length + 47 := by
  have hleb := length_leb_le h
  simp only [sliceBits, List.length_append, length_bytesBits, padBits, List.length_replicate]
  omega

theorem length_leb_uint64_le (v : UInt64) : (Leb128.bits v.toNat).length ≤ 80 :=
  @Leb128.length_bits_le 10 v.toNat (by omega) (v.toNat_lt.trans (by norm_num))

theorem length_valueBits_le {val : Value (List UInt8)} (h : valueRoom val < 2 ^ 35) (p : Nat) :
    (valueBits p val).length ≤ valueRoom val := by
  have hpayload : (payloadBits (p + 4) val).length ≤ 8 * val.payloadLength + 80 := by
    cases val with
    | int i => exact (length_leb_uint64_le _).trans (Nat.le_add_left _ _)
    | uint u => exact (length_leb_uint64_le _).trans (Nat.le_add_left _ _)
    | string s | blob s =>
      have hlen : s.length < 2 ^ 35 := by
        simp only [valueRoom, Value.payloadLength] at h
        omega
      have := length_sliceBits_le hlen (p + 4)
      simp only [payloadBits, Value.payloadLength]
      omega
    | bool _ | float32 _ | float64 _ | null | array | dict | undefined _ => simp [payloadBits]
  rw [valueBits, List.length_append, length_natBits, valueRoom]
  omega

theorem length_valuesBits_le {vals : List (Value (List UInt8))} (h : (vals.map valueRoom).sum < 2 ^ 35) (p : Nat) :
    (valuesBits p vals).length ≤ (vals.map valueRoom).sum := by
  induction vals generalizing p with
  | nil => exact Nat.zero_le _
  | cons v vs ih =>
    rw [List.map_cons, List.sum_cons] at h ⊢
    have hv : (valueBits p v).length ≤ valueRoom v := length_valueBits_le (by omega) p
    have hvs := ih (by omega) (p + (valueBits p v).length)
    rw [valuesBits, List.length_append]
    omega

/-! ## The file -/

/-- The most that the data stream takes with symbols of this width. -/
def fileRoom (width : Nat) (es : List Entry) : Nat :=
  3996 + 6 * width + trieRoom width (es.map fun e => e.key.length).sum es.length +
    (es.map fun e => valueRoom e.val).sum

theorem fileRoom_mono {width width' : Nat} (hw : width ≤ width') (es : List Entry) :
    fileRoom width es ≤ fileRoom width' es := by
  have := @trieRoom_mono width width' _ _ _ _ hw (le_refl (es.map fun e => e.key.length).sum) (le_refl es.length)
  simp only [fileRoom]
  omega

theorem fileRoom_sublist {es es' : List Entry} (h : es.Sublist es') (width : Nat) :
    fileRoom width es ≤ fileRoom width es' := by
  have hkeys := (h.map fun e => e.key.length).sum_le_sum fun _ _ => Nat.zero_le _
  have hvals := (h.map fun e => valueRoom e.val).sum_le_sum fun _ _ => Nat.zero_le _
  have := @trieRoom_mono width width _ _ _ _ le_rfl hkeys h.length_le
  simp only [fileRoom]
  omega

theorem fileRoom_perm {es es' : List Entry} (h : es.Perm es') (width : Nat) :
    fileRoom width es = fileRoom width es' := by
  simp only [fileRoom, (h.map fun e => e.key.length).sum_eq, (h.map fun e => valueRoom e.val).sum_eq, h.length_eq]

theorem length_tableBits_le (used : List UInt8) : (tableBits used).length ≤ 16 * used.length := by
  induction used with
  | nil => exact Nat.zero_le _
  | cons b bs ih =>
    have hleb := @Leb128.length_bits_le 2 b.toNat (by omega) (b.toNat_lt.trans (by norm_num))
    rw [tableBits, List.flatMap_cons, List.length_append, List.length_cons, ← tableBits]
    omega

theorem length_configBits_le (width : Nat) {used : List UInt8} (h : used.length ≤ 249) :
    (configBits width used).length ≤ 3996 + 6 * width := by
  have htable := length_tableBits_le used
  have hctrl : (ctrlBits width TpCtrl.all).length = 6 * width := by
    simp only [ctrlBits, TpCtrl.all, List.flatMap_cons, List.flatMap_nil, List.length_append, length_natBits,
      List.length_nil]
    omega
  simp only [configBits, List.length_append, length_natBits, hctrl]
  omega

theorem TrieCode.length_le {sym : SymbolInfo} {es : List Entry} {trie : List Bool} (h : TrieCode sym es trie)
    (hbound : trieRoom sym.bitsPerSymbol (es.map fun e => e.key.length).sum es.length < 2 ^ 35) :
    trie.length ≤ trieRoom sym.bitsPerSymbol (es.map fun e => e.key.length).sum es.length := by
  rw [TrieCode] at h
  split_ifs at h with hnil
  · rw [h]
    exact Nat.zero_le _
  · obtain ⟨t, hc, hentries, rfl⟩ := h
    have hsize : t.size = es.length := by rw [PrefixTree.size, hentries, List.length_map]
    have hletters : t.letters ≤ (es.map fun e => e.key.length).sum := by
      have hkeys := hc.letters_le
      rw [PrefixTree.keyLetters, hentries, List.map_map] at hkeys
      exact hkeys
    have hroom := @trieRoom_mono sym.bitsPerSymbol _ _ _ _ _ le_rfl hletters hsize.le
    have := @length_trieBits_le sym (entriesHaveValues es) t hc (hroom.trans_lt hbound) 0
    omega

namespace StreamLayout

variable {bps : Nat} {es : List Entry} (l : StreamLayout bps es)

/-- What a build writes is within the bound. -/
theorem totalDataBits_le (hcount : (usedBytes (es.map Entry.key)).length ≤ 249)
    (hbound : fileRoom (symbolWidth bps (usedBytes (es.map Entry.key))) es ≤ uint32Max) :
    l.offsets.totalDataBits ≤ fileRoom (symbolWidth bps (usedBytes (es.map Entry.key))) es := by
  have hmax : uint32Max < 2 ^ 35 := by decide
  simp only [fileRoom] at hbound ⊢
  have hconfig := length_configBits_le (symbolWidth bps (usedBytes (es.map Entry.key))) hcount
  have htrie := l.trie_eq.length_le (by rw [bitsPerSymbol_analyzeSymbols]; omega)
  rw [bitsPerSymbol_analyzeSymbols] at htrie
  have hstore : l.store.length ≤ (es.map fun e => valueRoom e.val).sum := by
    rw [StreamLayout.store, storeBits]
    split_ifs
    · have hmap : ((es.map Entry.val).map valueRoom).sum = (es.map fun e => valueRoom e.val).sum := by
        rw [List.map_map]
        rfl
      have hvals := @length_valuesBits_le (es.map Entry.val) (by omega) l.storePos
      omega
    · exact Nat.zero_le _
  rw [← l.config_eq] at hconfig
  simp only [StreamLayout.offsets]
  omega

theorem length_bits_le : l.bits.length ≤ l.offsets.totalDataBits + 7 := by
  simp only [StreamLayout.bits, StreamLayout.offsets, List.length_append, padBits, List.length_replicate]
  omega

end StreamLayout

/-- The bytes of the keys that are left are those of all keys. -/
theorem length_usedBytes_sortedEntries_le (q : Qsort) (es : List Entry) :
    (usedBytes ((sortedEntries q es).map Entry.key)).length ≤ (usedBytes (es.map Entry.key)).length := by
  refine ((nodup_usedBytes _).subperm fun b hb => ?_).length_le
  obtain ⟨key, hkey, hmem⟩ := mem_usedBytes.mp hb
  obtain ⟨e, he, rfl⟩ := List.mem_map.mp hkey
  exact mem_usedBytes.mpr ⟨e.key, List.mem_map_of_mem (mem_of_mem_sortedEntries he), hmem⟩

theorem symbolWidth_le {bps : Nat} {used : List UInt8} (hcount : used.length ≤ 249) :
    symbolWidth bps used ≤ max 8 bps := by
  obtain ⟨_, hhigh, _⟩ := @autoBits_spec (used.length + 6) (by omega) (by omega)
  rw [symbolWidth, show numControlCodes = 6 from rfl]
  split_ifs <;> omega

/-- Sorted entries have a layout, which is what is written. -/
theorem exists_streamLayout {bps : Nat} (hbps : bps ≤ 15) {es : List Entry} (hasc : StrictlyAscending es)
    (hcount : (usedBytes (es.map Entry.key)).length ≤ 249) (hval : ∀ e ∈ es, e.val.Encodable) :
    ∃ (l : StreamLayout bps es) (vi : Nat), Wr.Appends (256 + l.config.length) (if es.length > 0 then
        trieWrite (analyzeSymbols bps (es.map Entry.key)) (entriesHaveValues es) es.length es 0 0
      else pure 0) l.trie vi := by
  have hwidth := symbolWidth_bounds hbps hcount
  by_cases hnil : es = []
  · have hcode : TrieCode (analyzeSymbols bps (es.map Entry.key)) es [] := by rw [TrieCode, if_pos hnil]
    refine ⟨⟨_, [], rfl, hcode, fun _ => hval⟩, 0, ?_⟩
    rw [if_neg (by simp [hnil])]
    exact .pure _ _
  · rw [← bitsPerSymbol_analyzeSymbols] at hwidth
    obtain ⟨t, ht⟩ := exists_laidOut (entriesHaveValues es) hwidth.1 hwidth.2 hnil le_rfl
      ⟨hasc, [], rfl, fun _ _ => List.nil_prefix⟩
    have hcode : TrieCode (analyzeSymbols bps (es.map Entry.key)) es
        (trieBits (analyzeSymbols bps (es.map Entry.key)) (entriesHaveValues es) t 0) := by
      rw [TrieCode, if_neg hnil]
      exact ⟨t, ht.compact, ht.entries_eq, rfl⟩
    refine ⟨⟨_, _, rfl, hcode, fun _ => hval⟩, u32 (0 + t.size), ?_⟩
    rw [if_pos (List.length_pos_iff.mpr hnil)]
    exact ht.appends 0 _

section Build

variable {q : Qsort} {enc : Encoder}

/-- The bound holds of the entries that are left when it holds of all. -/
theorem fileRoom_sortedEntries_le (hcount : (usedBytes (enc.entries.map Entry.key)).length ≤ 249) :
    fileRoom (symbolWidth enc.opts.bitsPerSymbol (usedBytes ((sortedEntries q enc.entries).map Entry.key)))
      (sortedEntries q enc.entries) ≤ fileRoom (max 8 enc.opts.bitsPerSymbol) enc.entries := by
  have hsub : fileRoom (max 8 enc.opts.bitsPerSymbol) (sortedEntries q enc.entries) ≤
      fileRoom (max 8 enc.opts.bitsPerSymbol) enc.entries := by
    rw [← fileRoom_perm (perm_sortEntries q enc.entries)]
    exact fileRoom_sublist (dedupEntries_sublist _) _
  exact (fileRoom_mono (symbolWidth_le ((length_usedBytes_sortedEntries_le q enc.entries).trans hcount)) _).trans hsub

/-- What is known to fit is built. -/
theorem exists_build_of_room (hopts : enc.opts.bitsPerSymbol ≤ 15)
    (hcount : (usedBytes (enc.entries.map Entry.key)).length ≤ 249) (hval : ∀ e ∈ enc.entries, e.val.Encodable)
    (hroom : fileRoom (max 8 enc.opts.bitsPerSymbol) enc.entries ≤ uint32Max) :
    ∃ buf, (encoderBuild q enc).1 = .ok buf := by
  have hcount' := (length_usedBytes_sortedEntries_le q enc.entries).trans hcount
  obtain ⟨l, vi, htrie⟩ := exists_streamLayout hopts (strictlyAscending_sortedEntries q enc.entries) hcount'
    fun e he => hval e (mem_of_mem_sortedEntries he)
  have hfits := @fileRoom_sortedEntries_le q enc hcount
  have htotal := l.totalDataBits_le hcount' (hfits.trans hroom)
  obtain ⟨_, _, hbuild⟩ := encoderBuild_of_layout rfl rfl hopts hcount' l htrie (by omega)
  exact ⟨_, hbuild⟩

/-- Around the data stream stand the header, the bits up to a byte boundary and the checksum. -/
theorem length_le_of_build {buf : List UInt8} (hopts : enc.opts.bitsPerSymbol ≤ 15)
    (hcount : (usedBytes (enc.entries.map Entry.key)).length ≤ 249)
    (hroom : fileRoom (max 8 enc.opts.bitsPerSymbol) enc.entries ≤ uint32Max)
    (h : (encoderBuild q enc).1 = .ok buf) :
    8 * buf.length ≤ 8 * (headerSize + 4) + fileRoom (max 8 enc.opts.bitsPerSymbol) enc.entries + 7 := by
  have hfits := @fileRoom_sortedEntries_le q enc hcount
  obtain ⟨hcount', l, _, body, hbody, hbuf⟩ := encoderBuild_layout hopts (Prod.ext h rfl)
  have htotal := l.totalDataBits_le hcount' (hfits.trans hroom)
  have hbits := l.length_bits_le
  rw [← hbody, length_bytesBits] at hbits
  rw [hbuf]
  simp only [List.length_append, length_headerBytes, length_be32]
  omega

end Build

/-- Keys of at most 249 different bytes and values that are implemented are built into a file
whenever they are known to fit its offsets, and the file is as small as that. -/
theorem encoderBuild_within (q : Qsort) {enc : Encoder} (hopts : enc.opts.bitsPerSymbol ≤ 15)
    (hcount : (usedBytes (enc.entries.map Entry.key)).length ≤ 249) (hval : ∀ e ∈ enc.entries, e.val.Encodable)
    (hroom : fileRoom (max 8 enc.opts.bitsPerSymbol) enc.entries ≤ uint32Max) :
    ∃ buf, (encoderBuild q enc).1 = .ok buf ∧
      8 * buf.length ≤ 8 * (headerSize + 4) + fileRoom (max 8 enc.opts.bitsPerSymbol) enc.entries + 7 := by
  obtain ⟨buf, hbuild⟩ := @exists_build_of_room q enc hopts hcount hval hroom
  exact ⟨buf, hbuild, length_le_of_build hopts hcount hroom hbuild⟩

def twoKeysEncoder : Encoder :=
  ⟨encoderDefaults, [⟨[97, 98], .string [1, 2]⟩, ⟨[97], .int (-5)⟩, ⟨[97], .null⟩], by decide⟩

/-- Two keys with a string and a number, one of them added again. -/
theorem encoderBuild_within_two : ∃ buf, (encoderBuild (.keepingLast ⟨[], .null⟩) twoKeysEncoder).1 = .ok buf ∧
    8 * buf.length ≤ 8 * (headerSize + 4) + 4956 + 7 := by
  have hval : ∀ e ∈ twoKeysEncoder.entries, e.val.Encodable := by simp [twoKeysEncoder, Value.Encodable]
  exact @encoderBuild_within _ twoKeysEncoder (by decide) (by decide +kernel) hval (by decide +kernel)

end Triepack
