import Triepack.Core.BuildSucceeds
import Triepack.Python.Layout

/-!
# The stream that both encoders write

Header, configuration, trie and value store of a dictionary have the same bits in Python and in C. What
Python takes on its stack for the trie is a matter of how the keys are nested.
-/

namespace Triepack.Python

open BitString CallStack

/-! ## Symbols -/

section Symbols

variable (items : List Item)

/-- The keys of the entries. -/
abbrev keys : List (List UInt8) := (items.map entry).map Entry.key

theorem filter_usedTable : allBytes.filter (usedTable items) = usedBytes (keys items) := by
  refine List.filter_congr fun b _ => ?_
  rw [usedTable, keys, List.any_map, List.any_map]
  rfl

theorem alphabetSize_eq : alphabetSize items = (usedBytes (keys items)).length := by
  rw [alphabetSize, List.countP_eq_length_filter, filter_usedTable]

theorem length_usedBytes_le (keys : List (List UInt8)) : (usedBytes keys).length ≤ 256 :=
  (List.length_filter_le _ _).trans (by simp [allBytes])

theorem bpsLoop_eq (totalSymbols fuel bps : Nat) :
    bpsLoop totalSymbols fuel bps = autoBitsLoop totalSymbols fuel bps := by
  induction fuel generalizing bps with
  | zero => rfl
  | succ fuel ih => rw [bpsLoop, autoBitsLoop, ih]

theorem bps_context : (context items).bps = (analyzeSymbols 0 (keys items)).bitsPerSymbol := by
  rw [bitsPerSymbol_analyzeSymbols, symbolWidth, if_pos rfl]
  simp only [context, bpsLoop_eq, alphabetSize_eq]
  rfl

/-- Bytes that are not used are passed over. -/
theorem foldl_assignStep (used : UInt8 → Bool) (bs : List UInt8) {t : SymbolTables}
    {sym : SymbolInfo} (hmap : t.symbolMap = sym.symbolMap)
    (hrev : ∀ i < 256, t.reverseMap i = sym.reverseMap i) :
    (bs.foldl (assignStep used) t).symbolMap =
        (assignSymbols (bs.filter used) t.code sym).symbolMap ∧
      ∀ i < 256, (bs.foldl (assignStep used) t).reverseMap i =
        (assignSymbols (bs.filter used) t.code sym).reverseMap i := by
  induction bs generalizing t sym with
  | nil => exact ⟨hmap, hrev⟩
  | cons b bs ih =>
    rw [List.foldl_cons, assignStep]
    by_cases hb : used b
    · rw [if_pos hb, List.filter_cons_of_pos hb, assignSymbols]
      refine ih (by rw [hmap]) fun i hi => ?_
      by_cases hcode : t.code < 256
      · by_cases hic : i = t.code
        · simp [hcode, hic]
        · simp [hcode, Function.update_of_ne hic, hrev i hi]
      · simp [hcode, Function.update_of_ne (show i ≠ t.code by omega), hrev i hi]
    · rw [if_neg hb, List.filter_cons_of_neg hb]
      exact ih hmap hrev

theorem symbolTables_eq :
    (symbolTables items).symbolMap = (analyzeSymbols 0 (keys items)).symbolMap ∧
      ∀ i < 256, (symbolTables items).reverseMap i =
        (analyzeSymbols 0 (keys items)).reverseMap i := by
  rw [analyzeSymbols, ← filter_usedTable]
  exact foldl_assignStep (usedTable items) allBytes rfl fun _ _ => rfl

theorem context_matches : (context items).Matches (analyzeSymbols 0 (keys items)) where
  bps := bps_context items
  symbolMap := (symbolTables_eq items).1
  ctrl c := by
    rw [ctrlCodes_analyzeSymbols]
    cases c <;> rfl

/-- The width is that of a bit field, also for an alphabet that is refused. -/
theorem bitsPerSymbol_bounds (keys : List (List UInt8)) :
    0 < (analyzeSymbols 0 keys).bitsPerSymbol ∧ (analyzeSymbols 0 keys).bitsPerSymbol ≤ 64 := by
  have hused := length_usedBytes_le keys
  rw [bitsPerSymbol_analyzeSymbols, symbolWidth, if_pos rfl]
  set total := (usedBytes keys).length + Triepack.numControlCodes with htotal
  obtain ⟨_, hpos, hmin⟩ := @autoBitsLoop_spec total total 1 (by omega) (by omega) (.inl rfl)
  change 1 ≤ autoBits total at hpos
  change autoBits total = 1 ∨ 2 ^ (autoBits total - 1) < total at hmin
  refine ⟨hpos, ?_⟩
  by_contra hlarge
  have := Nat.pow_le_pow_right (show 0 < 2 by omega) (show 9 ≤ autoBits total - 1 by omega)
  rw [show Triepack.numControlCodes = 6 from rfl] at htotal
  omega

/-- The bits of the configuration, whatever the size of the alphabet. -/
def configBits : List Bool :=
  natBits 4 (context items).bps ++ (natBits 8 (alphabetSize items + numControlCodes) ++
    ((List.range numControlCodes).flatMap (fun c => natBits (context items).bps ((context items).ctrl c)) ++
      (List.range' numControlCodes (alphabetSize items)).flatMap fun cd =>
        Leb128.bits (if cd < 256 then ((symbolTables items).reverseMap cd).toNat else 0)))

theorem writeConfig_appends (p : Nat) :
    Appends p (writeConfig (context items) (alphabetSize items + numControlCodes)
      (symbolTables items).reverseMap) (configBits items) () := by
  obtain ⟨hpos, hle⟩ := bitsPerSymbol_bounds (keys items)
  rw [← bps_context] at hpos hle
  rw [writeConfig, configBits, Nat.add_sub_cancel]
  refine (writeBits_appends p (by omega) (by omega)).bind ((writeBits_appends _ (by omega) (by omega)).bind
    (Appends.bind (.forM (fun q c _ => writeBits_appends q hpos hle) _) (.forM (fun q cd _ => ?_) _)))
  exact_mod_cast writeVarUint_appends q _

/-- With an alphabet that is accepted it is the configuration of the C encoder. -/
theorem configBits_eq (hcount : (usedBytes (keys items)).length ≤ 249) :
    configBits items = Triepack.configBits (symbolWidth 0 (usedBytes (keys items))) (usedBytes (keys items)) := by
  have hbps := bps_context items
  rw [bitsPerSymbol_analyzeSymbols] at hbps
  have hctrl : (List.range numControlCodes).flatMap
      (fun c => natBits (context items).bps ((context items).ctrl c)) =
        ctrlBits (symbolWidth 0 (usedBytes (keys items))) TpCtrl.all := by
    rw [hbps]
    rfl
  have htable : (List.range' numControlCodes (alphabetSize items)).flatMap (fun cd =>
        Leb128.bits (if cd < 256 then ((symbolTables items).reverseMap cd).toNat else 0)) =
      tableBits (usedBytes (keys items)) := by
    rw [tableBits, List.flatMap_def, List.flatMap_def, alphabetSize_eq]
    refine congrArg List.flatten (List.ext_getElem (by simp) fun i hi hi' => ?_)
    rw [List.length_map] at hi'
    have hrev : (analyzeSymbols 0 (keys items)).reverseMap (6 + i) = (usedBytes (keys items))[i] :=
      (assignSymbols_getElem (nodup_usedBytes (keys items)) hi'
        (by rw [show Triepack.numControlCodes = 6 from rfl]; omega)).2
    rw [List.getElem_map, List.getElem_map, List.getElem_range', Nat.one_mul,
      show numControlCodes = 6 from rfl, if_pos (by omega), (symbolTables_eq items).2 _ (by omega), hrev]
  rw [configBits, hctrl, htable, hbps, alphabetSize_eq]
  rfl

end Symbols

/-! ## Values -/

def PyValue.tag : PyValue → Nat
  | .none => tpNull
  | .bool _ => tpBool
  | .int val => if val < 0 then tpInt else tpUint
  | .float _ => tpFloat64
  | .str _ => tpString
  | .bytes _ => tpBlob

def PyValue.payloadBits (p : Nat) : PyValue → List Bool
  | .none => []
  | .bool val => natBits 1 (if val then 1 else 0)
  | .int val => Leb128.bits (if val < 0 then -val * 2 - 1 else val).toNat
  | .float bits => natBits 64 bits.toNat
  | .str utf8 => sliceBits p utf8
  | .bytes data => sliceBits p data

/-- The bits of a value that starts at bit `p`, integers being of any size. -/
def PyValue.bits (p : Nat) (v : PyValue) : List Bool := natBits 4 v.tag ++ v.payloadBits (p + 4)

/-- The bits of values stored one after another from bit `p` on. -/
def itemsBits (p : Nat) : List Item → List Bool
  | [] => []
  | e :: es => e.2.bits p ++ itemsBits (p + (e.2.bits p).length) es

theorem writeVarInt_appends (p : Nat) {val : Int} (hneg : val < 0) :
    Appends p (writeVarInt val) (Leb128.bits (-val * 2 - 1).toNat) () := by
  rw [writeVarInt, if_neg (by omega)]
  have hbits := writeVarUint_appends p (-val * 2 - 1).toNat
  rwa [Int.toNat_of_nonneg (by omega)] at hbits

/-- A length, the padding and the bytes. -/
theorem writeSlice_appends (p : Nat) (bytes : List UInt8) :
    Appends p (do
      writeVarUint bytes.length
      alignToByte
      writeBytes bytes) (sliceBits p bytes) () :=
  (writeVarUint_appends p _).bind ((alignToByte_appends _).bind (writeBytes_appends _ bytes))

theorem encodeValue_appends (p : Nat) (v : PyValue) : Appends p (encodeValue v) (v.bits p) () := by
  have htag : ∀ tag, Appends p (writeBits tag 4) (natBits 4 tag) () := fun tag =>
    writeBits_appends p (by omega) (by omega)
  cases v with
  | none =>
    rw [show PyValue.bits p .none = natBits 4 tpNull ++ [] from rfl, List.append_nil]
    exact htag tpNull
  | bool val => exact (htag tpBool).bind (writeBit_appends _ val)
  | int val =>
    rw [encodeValue, PyValue.bits, PyValue.tag, PyValue.payloadBits]
    split_ifs with hneg
    · exact (htag tpInt).bind (writeVarInt_appends _ hneg)
    · have hbits := writeVarUint_appends (p + 4) val.toNat
      rw [Int.toNat_of_nonneg (by omega)] at hbits
      exact (htag tpUint).bind hbits
  | float bits =>
    have hbits : Appends (p + 4) (writeU64 (bits.toNat >>> 32) (bits.toNat &&& 0xFFFFFFFF))
        (natBits 64 bits.toNat) () := by
      rw [natBits_add 32 32, ← Nat.shiftRight_eq_div_pow, ← natBits_mod 32 bits.toNat,
        ← Nat.and_two_pow_sub_one_eq_mod]
      exact writeU64_appends _ _ _
    exact (htag tpFloat64).bind hbits
  | str utf8 => exact (htag tpString).bind (writeSlice_appends _ utf8)
  | bytes data => exact (htag tpBlob).bind (writeSlice_appends _ data)

theorem encodeValues_appends (p : Nat) (items : List Item) :
    Appends p (encodeValues items) (itemsBits p items) () := by
  induction items generalizing p with
  | nil => exact .pure p ()
  | cons e items ih => exact (encodeValue_appends p e.2).bind (ih _)

/-! ## Values of the C encoder -/

/-- The integers that both encoders are promised. -/
def PyValue.InRange : PyValue → Prop
  | .int val => -2 ^ 63 ≤ val ∧ val < 2 ^ 64
  | _ => True

instance : DecidablePred PyValue.InRange := fun v => by
  cases v <;> unfold PyValue.InRange <;> infer_instance

theorem PyValue.encodable_toValue (v : PyValue) : v.toValue.Encodable := by
  cases v with
  | int val =>
    rw [PyValue.toValue]
    split_ifs <;> trivial
  | _ => trivial

/-- A negative integer is zigzagged to the number that Python computes. -/
theorem toNat_zigzag_ofInt {val : Int} (hlow : -2 ^ 63 ≤ val) (hneg : val < 0) :
    (zigzag (Int64.ofInt val)).toNat = (-val * 2 - 1).toNat := by
  have hint := toInt_eq_toUInt64 (Int64.ofInt val)
  have hlt := (Int64.ofInt val).toUInt64.toNat_lt
  rw [Int64.toInt_ofInt_of_le hlow (by omega)] at hint
  rw [toNat_zigzag]
  split_ifs at hint ⊢ <;> omega

/-- Integers that both encoders are promised have the same bits. -/
theorem PyValue.bits_eq (p : Nat) {v : PyValue} (h : v.InRange) :
    v.bits p = valueBits p v.toValue := by
  cases v with
  | int val =>
    rw [PyValue.bits, PyValue.tag, PyValue.payloadBits, PyValue.toValue]
    split_ifs with hneg
    · rw [← toNat_zigzag_ofInt h.1 hneg]
      rfl
    · have hval : (UInt64.ofNat val.toNat).toNat = val.toNat := by
        have hlt := h.2
        rw [UInt64.toNat_ofNat', Nat.mod_eq_of_lt (by omega)]
      have huint : valueBits p (.uint (UInt64.ofNat val.toNat)) =
        natBits 4 tpUint ++ Leb128.bits (UInt64.ofNat val.toNat).toNat := rfl
      rw [huint, hval]
  | _ => rfl

theorem itemsBits_eq (p : Nat) {items : List Item} (h : ∀ e ∈ items, e.2.InRange) :
    itemsBits p items = valuesBits p ((items.map entry).map Entry.val) := by
  induction items generalizing p with
  | nil => rfl
  | cons e items ih =>
    have hbits := e.2.bits_eq p (h e (by simp))
    rw [itemsBits, ih _ fun x hx => h x (by simp [hx]), hbits]
    rfl

theorem hasValues_eq (items : List Item) :
    hasValues items = entriesHaveValues (items.map entry) := by
  simp only [hasValues, entriesHaveValues, List.any_map, Function.comp_def, entry, tag_toValue]

/-! ## The stream -/

theorem writeHeader_fields (p flags numKeys : Nat) :
    Appends p (writeHeader flags numKeys)
      (tpMagic.flatMap (fun b => natBits 8 b.toNat) ++ (natBits 8 tpVersionMajor ++
        (natBits 8 tpVersionMinor ++ (natBits 16 flags ++ (natBits 32 numKeys ++ (natBits 32 0 ++
          (natBits 32 0 ++ (natBits 32 0 ++ (natBits 32 0 ++ natBits 32 0))))))))) () := by
  refine (Appends.forM (fun q b _ => writeU8_appends q b.toNat) p).bind ?_
  iterate 2 refine (writeU8_appends _ _).bind ?_
  refine (writeU16_appends _ flags).bind ?_
  iterate 5 refine (writeU32_appends _ _).bind ?_
  exact writeU32_appends _ 0

theorem writeHeader_appends (p : Nat) (items : List Item) :
    Appends p (writeHeader (if hasValues items then tpFlagHasValues else 0) items.length)
      (bytesBits (headerBytes (placeholderHeader (items.map entry)))) () := by
  have hflags : (placeholderHeader (items.map entry)).flags.toNat =
      if hasValues items then tpFlagHasValues else 0 := by
    rw [placeholderHeader, hasValues_eq]
    split_ifs <;> rfl
  have hkeys : natBits 32 (placeholderHeader (items.map entry)).numKeys.toNat =
      natBits 32 items.length := by
    rw [placeholderHeader, UInt32.toNat_ofNat', natBits_mod, List.length_map]
  have hfields := writeHeader_fields p (if hasValues items then tpFlagHasValues else 0) items.length
  simp only [tpMagic, List.flatMap_cons, List.flatMap_nil, List.append_nil, List.append_assoc] at hfields
  rw [bytesBits_headerBytes, hflags, hkeys]
  exact hfields

/-- The frames that are opened for an item, that of the outermost `_trie_write` and one for each branch on
the way to the key. `write_var_uint` and what it calls take four for the index of a value; where there is
none, three are left of those that took the number of children. -/
def writeFrames (keys : List (List UInt8)) (e : Item) : Nat :=
  1 + PrefixTree.branchDepth keys e.1 + if e.2 = .none then 3 else 4

/-- There is room for all of them inside the frame of `encode`. -/
def WriteFits (frames : Frames) (items : List Item) : Prop :=
  ∀ e ∈ items, (frames.more 6).Room (writeFrames (items.map Prod.fst) e)

instance (frames : Frames) (items : List Item) : Decidable (WriteFits frames items) :=
  inferInstanceAs (Decidable (∀ e ∈ items, (frames.more 6).Room (writeFrames (items.map Prod.fst) e)))

/-- The trie of some items, as it is written: the bits and the frames that it takes. -/
def WritesTrie (frames : Frames) (n : Nat) (items : List Item) (trie : List Bool) : Prop :=
  ∀ p, ∃ vi, AppendsIn (frames.more 5) n p
    (if items ≠ [] then trieWrite (context items) items.length (frames.more 5) items 0 0 else pure 0) trie vi

theorem writeLeaf_hasValues {items : List Item} {e : Item} (he : e ∈ items) :
    writeLeaf (hasValues items) e.2.toValue = if e.2 = .none then 3 else 4 := by
  have hhas : e.2 ≠ .none → hasValues items = true := fun hne =>
    List.any_eq_true.mpr ⟨e, he, decide_eq_true hne⟩
  rw [writeLeaf]
  simp only [tag_toValue]
  split_ifs with h h' h'
  · exact absurd h' h.2
  · rfl
  · rfl
  · exact absurd ⟨hhas h', h'⟩ h

/-- The cost of the trie is that of its items. -/
theorem room_writeCost_iff {items : List Item} {t : Trie} (hc : t.Compact)
    (hentries : t.entries = (items.map entry).map (suffixEntry 0)) (frames : Frames) :
    (frames.more 5).Room (writeCost (hasValues items) t) ↔ WriteFits frames items := by
  have hkeys : t.entries.map Prod.fst = items.map Prod.fst := by
    rw [hentries, List.map_map, List.map_map]
    rfl
  have hle : ∀ n, writeCost (hasValues items) t ≤ n ↔
      ∀ e ∈ items, writeFrames (items.map Prod.fst) e ≤ n + 1 := by
    intro n
    rw [writeCost, hc.cost_le_iff, hkeys, hentries, List.map_map, List.forall_mem_map]
    refine forall₂_congr fun e he => ?_
    rw [writeFrames, ← writeLeaf_hasValues he, ← PrefixTree.pathCost_one]
    change PrefixTree.pathCost _ _ e.1 + writeLeaf _ e.2.toValue ≤ n ↔ _
    omega
  cases frames with
  | unbounded => simp [WriteFits]
  | atMost k => exact hle (k + 5)

/-- The trie of sorted items, with all that is needed of it on both sides. -/
theorem exists_trie {items : List Item} (hasc : StrictlyAscending (items.map entry)) :
    ∃ (trie : List Bool) (n : Nat), items.length ≤ trie.length ∧
      (∀ frames : Frames, (frames.more 5).Room n ↔ WriteFits frames items) ∧
      (∀ frames, WritesTrie frames n items trie) ∧
      (items.length < 2 ^ 32 →
        TrieCode (analyzeSymbols 0 (keys items)) (items.map entry) trie ∧
        ∀ p, ∃ vi, Wr.Appends p
          (if (items.map entry).length > 0 then
            Triepack.trieWrite (analyzeSymbols 0 (keys items)) (entriesHaveValues (items.map entry))
              (items.map entry).length (items.map entry) 0 0
          else pure 0) trie vi) := by
  obtain ⟨hpos, hle⟩ := bitsPerSymbol_bounds (keys items)
  by_cases hne : items = []
  · subst hne
    refine ⟨[], 0, le_rfl, fun frames => ?_, fun frames p => ⟨0, ?_⟩, fun _ => ⟨rfl, fun p => ⟨0, ?_⟩⟩⟩
    · simp [WriteFits]
    · exact (Appends.pure p 0).needs
    · exact .pure p 0
  · obtain ⟨t, ht⟩ := exists_laidOut (context_matches items) hpos hle hne le_rfl
      ⟨hasc, [], rfl, fun _ _ => List.nil_prefix⟩
    have hsize : t.size = items.length := by
      rw [ht.inC.size_eq_length, List.length_map]
    have hlen := @size_le_length_trieBits _ (context items).hasValues hpos t 0
    refine ⟨_, writeCost (hasValues items) t, hsize ▸ hlen,
      room_writeCost_iff ht.inC.compact ht.inC.entries_eq, fun frames p => ⟨0 + t.size, ?_⟩,
      fun hlt => ⟨?_, fun p => ⟨u32 (0 + t.size), ?_⟩⟩⟩
    · rw [if_pos hne]
      exact ht.appends _ (Frames.Room.mono (Frames.room_more 5) (by omega)) 0 p
    · rw [TrieCode, if_neg (by simpa using hne)]
      refine ⟨t, ht.inC.compact, ht.inC.entries_eq, ?_⟩
      rw [trieBits_eq (by omega), ← hasValues_eq]
      rfl
    · have happends := ht.inC.appends 0 p
      rw [if_pos (by simpa [List.length_pos_iff] using hne), List.length_map, ← hasValues_eq,
        trieBits_eq (by omega)]
      exact happends

/-- The sections of the stream of some items. -/
def streamOffsets (items : List Item) (trie : List Bool) : StreamOffsets where
  trieDataOffset := (configBits items).length
  valueStoreOffset := (configBits items).length + trie.length
  totalDataBits := (configBits items).length + trie.length +
    (storeBits (256 + (configBits items).length + trie.length) (items.map entry)).length

def streamBits (items : List Item) (trie : List Bool) : List Bool :=
  bytesBits (headerBytes (placeholderHeader (items.map entry))) ++
    (configBits items ++ (trie ++
      storeBits (256 + (configBits items).length + trie.length) (items.map entry)))

theorem writeStore_appends (p : Nat) (items : List Item) :
    Appends p (if hasValues items then encodeValues items else pure ())
      (if hasValues items then itemsBits p items else []) () := by
  split_ifs
  · exact encodeValues_appends p items
  · exact .pure p ()

/-- The stream with any calls that write the value store. -/
def streamWith (frames : Frames) (store : Write Unit) (deduped : List Item) : Write StreamOffsets := do
  let totalSymbols := alphabetSize deduped + numControlCodes
  let ctx := context deduped
  writeHeader (if ctx.hasValues then tpFlagHasValues else 0) deduped.length
  let dataStart ← position
  writeConfig ctx totalSymbols (symbolTables deduped).reverseMap
  let triePos ← position
  let _ ← (if deduped ≠ [] then trieWrite ctx deduped.length (frames.more 5) deduped 0 0 else pure 0)
  let valuePos ← position
  (if ctx.hasValues then store else pure ())
  let endPos ← position
  pure ⟨triePos - dataStart, valuePos - dataStart, endPos - dataStart⟩

theorem streamWith_appends {frames : Frames} {n : Nat} {items : List Item} {trie bits : List Bool}
    {store : Write Unit} (htrie : WritesTrie frames n items trie)
    (hstore : Appends (256 + (configBits items).length + trie.length)
      (if hasValues items then store else pure ()) bits ()) :
    AppendsIn (frames.more 5) n 0 (streamWith frames store items)
      (bytesBits (headerBytes (placeholderHeader (items.map entry))) ++
        (configBits items ++ (trie ++ bits)))
      ⟨(configBits items).length, (configBits items).length + trie.length,
        (configBits items).length + trie.length + bits.length⟩ := by
  have hdata : 0 + (bytesBits (headerBytes (placeholderHeader (items.map entry)))).length = 256 := by
    rw [length_headerBits]
  obtain ⟨vi, ht⟩ := htrie (256 + (configBits items).length)
  have hend : Appends (256 + (configBits items).length + trie.length) (do
      (if hasValues items then store else pure ())
      let endPos ← position
      pure (⟨256 + (configBits items).length - 256, 256 + (configBits items).length + trie.length - 256,
        endPos - 256⟩ : StreamOffsets)) (bits ++ [])
      ⟨(configBits items).length, (configBits items).length + trie.length,
        (configBits items).length + trie.length + bits.length⟩ := by
    have hoffs : (⟨256 + (configBits items).length - 256,
        256 + (configBits items).length + trie.length - 256,
        256 + (configBits items).length + trie.length + bits.length - 256⟩ : StreamOffsets) =
        ⟨(configBits items).length, (configBits items).length + trie.length,
          (configBits items).length + trie.length + bits.length⟩ := by
      simp only [StreamOffsets.mk.injEq]
      omega
    refine hstore.bind (.position_bind ?_)
    rw [← hoffs]
    exact .pure _ _
  rw [List.append_nil] at hend
  refine AppendsIn.congr ((writeHeader_appends 0 items).needs.bind fun _ => .position_bind ?_)
    (by rw [Nat.zero_max])
  rw [hdata]
  refine AppendsIn.congr ((writeConfig_appends items 256).needs.bind fun _ =>
    .position_bind (ht.bind fun _ => .position_bind hend.needs)) ?_
  rw [Nat.zero_max, Nat.max_zero]

/-- The stream with its value store, whatever the integers. -/
theorem writeStream_appends_store {frames : Frames} {n : Nat} {items : List Item} {trie store : List Bool}
    (htrie : WritesTrie frames n items trie)
    (hstore : (if hasValues items then
        itemsBits (256 + (configBits items).length + trie.length) items else []) = store) :
    AppendsIn (frames.more 5) n 0 (writeStream frames items)
      (bytesBits (headerBytes (placeholderHeader (items.map entry))) ++
        (configBits items ++ (trie ++ store)))
      ⟨(configBits items).length, (configBits items).length + trie.length,
        (configBits items).length + trie.length + store.length⟩ := by
  subst hstore
  exact streamWith_appends htrie (writeStore_appends _ items)

theorem writeStream_appends {frames : Frames} {n : Nat} {items : List Item}
    (hval : ∀ e ∈ items, e.2.InRange) {trie : List Bool} (htrie : WritesTrie frames n items trie) :
    AppendsIn (frames.more 5) n 0 (writeStream frames items) (streamBits items trie)
      (streamOffsets items trie) := by
  refine writeStream_appends_store htrie ?_
  rw [storeBits, ← hasValues_eq, itemsBits_eq _ hval]

end Triepack.Python
