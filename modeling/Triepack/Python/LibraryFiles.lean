import Triepack.Library.FloatFormat
import Triepack.Python.RoundTrip

/-!
# Files of the C library in Python

The C library stores kinds of values that the Python module does not write: non-negative numbers as signed
ones, and singles. What it builds of readable entries is decoded to these entries, a single as a double that
denotes the same.
-/

namespace Triepack.Python

open BitString CallStack FloatFormat

/-! ## Singles as doubles -/

/-- The double that is read for a single denotes what the single does. -/
theorem datum_widen {bits : Nat} (h : bits < 2 ^ 32) :
    binary64.datum (widen bits).toNat = binary32.datum bits := by
  have hfrac := binary32.frac_lt bits
  have hexp := binary32.exp_lt bits
  have hpack : binary32.pack (binary32.negative bits) (binary32.exp bits) (binary32.frac bits) = bits :=
    pack_fields h
  generalize binary32.negative bits = s at *
  generalize binary32.exp bits = exp at *
  generalize binary32.frac bits = frac at *
  subst hpack
  rw [datum_pack hexp hfrac]
  simp only [binary32] at hexp hfrac
  have hsign : pack binary32 s exp frac / 2 ^ 31 = s.toNat := by
    simp only [pack, binary32]
    omega
  have hexp' : pack binary32 s exp frac / 2 ^ 23 % 2 ^ 8 = exp := by
    simp only [pack, binary32]
    omega
  have hfrac' : pack binary32 s exp frac % 2 ^ 23 = frac := by
    simp only [pack, binary32]
    omega
  have hwide : ∀ e f, e < 2 ^ 11 → f < 2 ^ 52 →
      binary64.datum (UInt64.ofNat (s.toNat * 2 ^ 63 + (e * 2 ^ 52 + f))).toNat = binary64.denote s e f := by
    intro e f he hf
    have hs : s.toNat ≤ 1 := s.toNat_le
    have hbits : (UInt64.ofNat (s.toNat * 2 ^ 63 + (e * 2 ^ 52 + f))).toNat = binary64.pack s e f := by
      simp only [UInt64.toNat_ofNat', pack, binary64]
      omega
    rw [hbits, datum_pack he hf]
  simp only [widen, hsign, hexp', hfrac']
  by_cases hspecial : exp = 255
  · rw [if_pos hspecial, hwide _ _ (by omega) (by omega), hspecial]
    simp [denote, binary32, binary64]
  rw [if_neg hspecial]
  by_cases hnormal : exp = 0
  · rw [if_neg (by simpa using hnormal), hnormal]
    by_cases hzero : frac = 0
    · rw [if_pos hzero, hzero]
      exact (hwide 0 0 (by omega) (by omega)).trans (by simp [denote, binary32, binary64])
    · obtain ⟨hlow, hhigh⟩ := shifted_bounds hzero hfrac
      have hlog : frac.log2 < 23 := (Nat.log2_lt hzero).mpr hfrac
      -- the leading one is added to the exponent
      have hsplit : (frac.log2 + 873) * 2 ^ 52 + frac * 2 ^ (52 - frac.log2) =
          (frac.log2 + 874) * 2 ^ 52 + (frac * 2 ^ (52 - frac.log2) - 2 ^ 52) := by omega
      rw [if_neg hzero, hsplit, hwide _ _ (by omega) (by omega), denote_subnormal s hzero hfrac]
  · rw [if_pos hnormal, hwide _ _ (by omega) (by omega), denote_normal s hnormal (by omega)]

/-! ## Values -/

/-- What a stored value is read as. A single becomes a double that denotes the same. -/
def ReadAs : Value (List UInt8) → PyValue → Prop
  | .null, x => x = .none
  | .bool val, x => x = .bool val
  | .int val, x => x = .int val.toInt
  | .uint val, x => x = .int val.toNat
  | .float32 bits, x => ∃ wide : UInt64, x = .float wide ∧ binary64.datum wide.toNat = binary32.datum bits.toNat
  | .float64 bits, x => x = .float bits
  | .string val, x => x = .str val
  | .blob val, x => x = .bytes val
  | .array, _ | .dict, _ | .undefined _, _ => False

/-- One of the eight kinds, and a string has an encoding. -/
def Readable : Value (List UInt8) → Prop
  | .string val => IsText val
  | .array | .dict | .undefined _ => False
  | _ => True

instance : DecidablePred Readable
  | .string val => inferInstanceAs (Decidable (IsText val))
  | .array | .dict | .undefined _ => inferInstanceAs (Decidable False)
  | .null | .bool _ | .int _ | .uint _ | .float32 _ | .float64 _ | .blob _ => inferInstanceAs (Decidable True)

/-- What stands where is read by the same steps. -/
theorem decodeValue_of_toValue (p : Nat) {x : PyValue} (hrange : x.InRange) (hfits : x.Fits)
    (htext : x.IsText) : ReadsAt p decodeValue (valueBits p x.toValue) x := by
  rw [← x.bits_eq p hrange]
  exact decodeValue_reads p hfits htext

/-- Non-negative numbers are even when they are zigzagged. -/
theorem readVarInt_of_nonneg (p : Nat) {val : Int64} (h : 0 ≤ val.toInt) :
    ReadsAt p readVarInt (Leb128.bits (zigzag val).toNat) val.toInt := by
  have hint := toInt_eq_toUInt64 val
  have hlt := val.toUInt64.toNat_lt
  obtain ⟨raw, hraw⟩ : ∃ raw, raw = 2 * val.toInt.toNat := ⟨_, rfl⟩
  have hzigzag : (zigzag val).toNat = raw := by
    rw [toNat_zigzag]
    split_ifs at hint ⊢ <;> omega
  have hbound : raw < varUintBound := by
    rw [varUintBound]
    split_ifs at hint <;> omega
  have heven : raw &&& 1 = 0 := by
    rw [Nat.and_one_is_mod]
    omega
  have hhalf : ((raw >>> 1 : Nat) : Int) = val.toInt := by
    rw [Nat.shiftRight_eq_div_pow]
    omega
  have hread := (readVarUint_reads p hbound).map fun raw : Nat =>
    if raw &&& 1 ≠ 0 then -((raw >>> 1 : Nat) : Int) - 1 else ((raw >>> 1 : Nat) : Int)
  rw [if_neg (by rw [heven]; simp), hhalf] at hread
  have hloop : readVarInt = (do
      let raw ← readVarUint
      return if raw &&& 1 ≠ 0 then -((raw >>> 1 : Nat) : Int) - 1 else ((raw >>> 1 : Nat) : Int)) := by
    rw [readVarInt]
    congr 1
    funext raw
    split_ifs <;> rfl
  rwa [hloop, hzigzag]

/-- Every kind of value that the library stores is read, single by single as the double of its number. -/
theorem decodeValue_readsValue (p : Nat) {val : Value (List UInt8)} (h : Readable val)
    (hlen : (valueBits p val).length < varUintBound) :
    ∃ x, ReadAs val x ∧ ReadsAt p decodeValue (valueBits p val) x := by
  have hslice : ∀ bytes : List UInt8, 4 + (sliceBits (p + 4) bytes).length < varUintBound →
      bytes.length < varUintBound := by
    intro bytes hlt
    simp only [sliceBits, List.length_append, length_bytesBits] at hlt
    omega
  have htag : ∀ tag < 16, ReadsAt p (readBits 4) (natBits 4 tag) tag := fun tag hlt =>
    readBits_reads p (by omega) (by omega) hlt
  rw [valueBits, List.length_append, length_natBits] at hlen
  cases val with
  | null => exact ⟨_, rfl, decodeValue_of_toValue p (x := .none) trivial trivial trivial⟩
  | bool val => exact ⟨_, rfl, decodeValue_of_toValue p (x := .bool val) trivial trivial trivial⟩
  | int val =>
    refine ⟨_, rfl, ?_⟩
    have hlow := val.le_toInt
    have hhigh := val.toInt_lt
    by_cases hneg : val.toInt < 0
    · have hvalue : (PyValue.int val.toInt).toValue = .int val := by
        rw [PyValue.toValue, if_pos hneg, Int64.ofInt_toInt]
      have hread := decodeValue_of_toValue p (x := .int val.toInt) (by constructor <;> omega)
        (by constructor <;> omega) trivial
      rwa [hvalue] at hread
    · rw [decodeValue, valueBits]
      refine (htag tpInt (by decide)).bind ?_
      exact (readVarInt_of_nonneg _ (by omega)).map PyValue.int
  | uint val =>
    refine ⟨_, rfl, ?_⟩
    have hlt := val.toNat_lt
    have hvalue : (PyValue.int val.toNat).toValue = .uint val := by
      rw [PyValue.toValue, if_neg (by omega), Int.toNat_natCast, UInt64.ofNat_toNat]
    have hread := decodeValue_of_toValue p (x := .int val.toNat) (by constructor <;> omega)
      (by constructor <;> omega) trivial
    rwa [hvalue] at hread
  | float32 bits =>
    refine ⟨_, ⟨widen bits.toNat, rfl, datum_widen bits.toNat_lt⟩, ?_⟩
    rw [decodeValue, valueBits]
    refine (htag tpFloat32 (by decide)).bind ?_
    exact (readBits_reads _ (by omega) (by omega) bits.toNat_lt).map fun n => PyValue.float (widen n)
  | float64 bits => exact ⟨_, rfl, decodeValue_of_toValue p (x := .float bits) trivial trivial trivial⟩
  | string val =>
    exact ⟨_, rfl, decodeValue_of_toValue p (x := .str val) trivial (hslice val hlen) h⟩
  | blob val =>
    exact ⟨_, rfl, decodeValue_of_toValue p (x := .bytes val) trivial (hslice val hlen) trivial⟩
  | array | dict | undefined => exact h.elim

/-! ## Files -/

/-- The item that an entry comes back as. -/
def ReadBack (e : Entry) (x : Item) : Prop := x.1 = e.key ∧ ReadAs e.val x.2

theorem decodeValues_readsValues (p : Nat) {es : List Entry} (h : ∀ e ∈ es, Readable e.val)
    (hlen : (valuesBits p (es.map Entry.val)).length < varUintBound) :
    ∃ items, List.Forall₂ ReadBack es items ∧
      ∀ d, ReadsAt p (decodeValues (es.map Entry.key) d) (valuesBits p (es.map Entry.val)) (d.setAll items) := by
  induction es generalizing p with
  | nil => exact ⟨[], .nil, fun d => .pure p d⟩
  | cons e es ih =>
    rw [List.map_cons, valuesBits, List.length_append] at hlen
    obtain ⟨x, hx, hread⟩ := decodeValue_readsValue p (h e (by simp)) (by omega)
    obtain ⟨items, hitems, hrest⟩ :=
      ih (p + (valueBits p e.val).length) (fun f hf => h f (by simp [hf])) (by omega)
    exact ⟨(e.key, x) :: items, .cons ⟨rfl, hx⟩ hitems, fun d => hread.bind (hrest (d.set e.key x))⟩

theorem keys_of_readBack {es : List Entry} {items : List Item} (h : List.Forall₂ ReadBack es items) :
    items.map Prod.fst = es.map Entry.key := by
  induction h with
  | nil => rfl
  | cons hx _ ih => rw [List.map_cons, List.map_cons, hx.1, ih]

section Layout

variable {es : List Entry} (l : StreamLayout 0 es)

/-- The trie of a file is one that can be walked. -/
theorem stands_of_layout (hne : es ≠ []) (hlt : es.length < 2 ^ 32) (hsmall : l.trie.length < 2 ^ 32)
    (htext : ∀ e ∈ es, IsText e.key) {buf : List UInt8} (hat : At (bytesBits buf) (256 + l.config.length) l.trie) :
    ∃ t : Trie, Stands (analyzeSymbols 0 (es.map Entry.key)) (entriesHaveValues es)
        (usedBytes (es.map Entry.key)) buf True [] (256 + l.config.length) t 0 ∧
      l.trie = trieBits (analyzeSymbols 0 (es.map Entry.key)) (entriesHaveValues es) t 0 ∧
      t.entries = es.map (suffixEntry 0) ∧ l.trie.length < 8 * buf.length + 2 := by
  obtain ⟨t, hcompact, hentries, hbits⟩ : ∃ t : Trie, t.Compact ∧ t.entries = es.map (suffixEntry 0) ∧
      l.trie = Triepack.trieBits (analyzeSymbols 0 (es.map Entry.key)) (entriesHaveValues es) t 0 := by
    have h := l.trie_eq
    rwa [TrieCode, if_neg hne] at h
  have hsize : t.size = es.length := by rw [PrefixTree.size, hentries, List.length_map]
  rw [← trieBits_eq (by omega)] at hbits
  have hentry : ∀ e ∈ t.entries, ∃ f ∈ es, f.key = e.1 := by
    intro e he
    rw [hentries] at he
    obtain ⟨f, hf, rfl⟩ := List.mem_map.mp he
    exact ⟨f, hf, rfl⟩
  have hpos := List.length_pos_iff.mpr hne
  have hle := @size_le_length_trieBits _ (entriesHaveValues es) (bitsPerSymbol_bounds (es.map Entry.key)).1 t 0
  rw [← hbits] at hle
  have hroom := hat.le (List.ne_nil_of_length_pos (by omega))
  rw [length_bytesBits] at hroom
  refine ⟨t, ⟨hbits ▸ hat, hcompact, fun e he b hb => ?_, fun e he => ?_, fun _ => ?_⟩, hbits, hentries, by omega⟩
  · obtain ⟨f, hf, hkey⟩ := hentry e he
    exact mem_usedBytes.mpr ⟨f.key, List.mem_map_of_mem hf, hkey ▸ hb⟩
  · obtain ⟨f, hf, hkey⟩ := hentry e he
    rw [List.nil_append, ← hkey]
    exact (htext f hf).isUtf8
  · rw [← hbits, varUintBound, hsize]
    omega

/-- The keys that wait for their values are in the order of the values. -/
theorem sort_keys_assign (hasc : StrictlyAscending es) :
    ((Dict.empty.assign (es.map Entry.key)).items.map Prod.fst).insertionSort (· ≤ ·) = es.map Entry.key := by
  have hsorted : (es.map Entry.key).Pairwise (· < ·) := List.pairwise_map.mpr hasc
  have hmap : (Dict.empty.assign (es.map Entry.key)).items.map Prod.fst = es.map Entry.key := by
    rw [keys_assign_empty hasc.nodup_keys, List.map_map]
    exact List.map_id _
  rw [hmap]
  exact (hsorted.imp List.le_of_lt).insertionSort_eq

/-- The walk over the trie of a file assigns its keys, if the stack has room for it. -/
theorem walk_of_layout {frames : Frames} (hne : es ≠ []) (hlt : es.length < 2 ^ 32)
    (htotal : l.offsets.totalDataBits ≤ uint32Max) (htext : ∀ e ∈ es, IsText e.key)
    {cfg : Config} (hm : cfg.Matches (analyzeSymbols 0 (es.map Entry.key)) (usedBytes (es.map Entry.key)))
    {r : BitReader} (htrie : At (bytesBits r.buf) (256 + l.config.length) l.trie) :
    (WalkFits frames es → ∃ label, dfsWalk cfg (8 * r.buf.length + 2) (frames.more 5) l.storePos
        ⟨{ r with pos := 256 + l.config.length }, [], .empty⟩ =
      .ok ((), ⟨{ r with pos := l.storePos }, label, Dict.empty.assign (es.map Entry.key)⟩)) ∧
    (¬ WalkFits frames es → dfsWalk cfg (8 * r.buf.length + 2) (frames.more 5) l.storePos
        ⟨{ r with pos := 256 + l.config.length }, [], .empty⟩ = .error .recursionError) := by
  have hsmall : l.trie.length + l.store.length < 2 ^ 32 := by
    simp only [StreamLayout.offsets, uint32Max] at htotal
    omega
  obtain ⟨t, hstands, hbits, hentries, hfuel⟩ := stands_of_layout l hne hlt (by omega) htext htrie
  have hpos : 256 + l.config.length + l.trie.length = l.storePos := rfl
  rw [hbits] at hfuel hpos
  have hwalk := @dfsWalk_trie (frames.more 5) _ _ _ _ _ _ hm _ _ _ .empty t _ hstands hfuel
  have hkeys : keysBelow [] t.entries = es.map Entry.key := by
    rw [keysBelow, hentries, List.map_map]
    rfl
  rw [hkeys, hpos] at hwalk
  have hroom := room_walkCost_iff hstands.compact hentries frames
  exact ⟨fun hfits => ⟨_, hwalk.eq trivial (hroom.mpr hfits)⟩,
    fun hfits => hwalk.eq_error trivial fun h => hfits (hroom.mp h)⟩

/-- The walk over the trie of a file and the pass over its values. -/
theorem readItems_of_layout {frames : Frames} (hne : es ≠ []) (hasc : StrictlyAscending es)
    (hlt : es.length < 2 ^ 32) (htotal : l.offsets.totalDataBits ≤ uint32Max)
    (hread : ∀ e ∈ es, IsText e.key ∧ Readable e.val)
    {cfg : Config} (hm : cfg.Matches (analyzeSymbols 0 (es.map Entry.key)) (usedBytes (es.map Entry.key)))
    {r : BitReader} (htrie : At (bytesBits r.buf) (256 + l.config.length) l.trie)
    (hstore : At (bytesBits r.buf) l.storePos l.store) (hfits : WalkFits frames es) :
    ∃ d, readItems frames cfg (entriesHaveValues es) (256 + l.config.length) l.storePos r = .ok d ∧
      List.Forall₂ ReadBack es d.items := by
  obtain ⟨label, hwalk⟩ :=
    (walk_of_layout l hne hlt htotal (fun e he => (hread e he).1) hm htrie).1 hfits
  have hitems := keys_assign_empty hasc.nodup_keys
  rw [readItems_of_walk hwalk]
  simp only [sort_keys_assign hasc]
  by_cases hhas : entriesHaveValues es = true
  · have hvalues : l.store = valuesBits l.storePos (es.map Entry.val) := by
      rw [StreamLayout.store, storeBits, if_pos hhas]
    obtain ⟨items, hback, hvals⟩ := decodeValues_readsValues l.storePos (fun e he => (hread e he).2) (by
      simp only [StreamLayout.offsets, uint32Max] at htotal
      rw [← hvalues, varUintBound]
      omega)
    rw [hvalues] at hstore
    refine ⟨_, by rw [if_pos hhas, hvals _ ⟨r.buf, l.storePos⟩ rfl hstore]; rfl, ?_⟩
    have hall := @items_setAll (Dict.empty.assign (es.map Entry.key)) [] items (by
      rw [hitems, ← keys_of_readBack hback, List.map_map]
      rfl)
    rwa [hall]
  · -- without a value store all values are null
    refine ⟨_, by rw [if_neg hhas], ?_⟩
    rw [hitems, List.map_map, List.forall₂_map_right_iff]
    refine List.forall₂_same.mpr fun e he => ⟨rfl, ?_⟩
    have hnone : ∀ e ∈ es, e.val.tag = 0 := by simpa [entriesHaveValues] using hhas
    rw [Value.tag_eq_zero.mp (hnone e he)]
    rfl

end Layout

/-- The Python module reads every file that the C library builds of readable entries, unless the keys are
nested too deep for the stack. -/
theorem decode_encoderBuild {q : Qsort} {enc enc' : Encoder} {buf : List UInt8} (frames : Frames)
    (hopts : enc.opts.bitsPerSymbol = 0) (h : encoderBuild q enc = (.ok buf, enc'))
    (hread : ∀ e ∈ sortedEntries q enc.entries, IsText e.key ∧ Readable e.val) :
    (WalkFits frames (sortedEntries q enc.entries) →
        ∃ d, decode frames buf = .ok d ∧ List.Forall₂ ReadBack (sortedEntries q enc.entries) d.items) ∧
      (¬ WalkFits frames (sortedEntries q enc.entries) → decode frames buf = .error .recursionError) := by
  have hlayout := encoderBuild_layout (by omega) h
  rw [hopts] at hlayout
  obtain ⟨hcount, l, htotal, body, hbody, rfl⟩ := hlayout
  have hasc := strictlyAscending_sortedEntries q enc.entries
  have hlt := (length_sortedEntries_le q enc.entries).trans_lt enc.count_lt
  generalize sortedEntries q enc.entries = es at *
  obtain ⟨_, hconfig, htrie, hstore⟩ := l.bits_at (h := fileHeader es l.offsets)
    (be32 (Triepack.crc32 (headerBytes (fileHeader es l.offsets) ++ body))) hbody
  -- the configuration depends on the keys only
  set items : List Item := es.map fun e => (e.key, .none) with hitems
  have hkeys : keys items = es.map Entry.key := by
    rw [keys, hitems, List.map_map, List.map_map]
    rfl
  rw [← hkeys] at hcount
  obtain ⟨cfg, hm, hreads⟩ := readConfig_reads 256 hcount
  have hbits : configBits items = l.config := by rw [configBits_eq items hcount, l.config_eq, hkeys]
  rw [hbits] at hreads
  rw [hkeys] at hm hcount
  have hrun := hreads ⟨fileBytes (fileHeader es l.offsets) body, 256⟩ rfl hconfig
  change (_ → ∃ d, decode frames (fileBytes (fileHeader es l.offsets) body) = .ok d ∧ _) ∧
    (_ → decode frames (fileBytes (fileHeader es l.offsets) body) = _)
  have hnum : (fileHeader es l.offsets).numKeys.toNat = es.length := by
    simp only [fileHeader, placeholderHeader, UInt32.toNat_ofNat']
    omega
  have hflags : decide ((fileHeader es l.offsets).flags.toNat &&& tpFlagHasValues ≠ 0) = entriesHaveValues es := by
    have hbit : ∀ b : Bool,
        decide ((if b = true then flagHasValues else 0).toNat &&& tpFlagHasValues ≠ 0) = b := by decide
    exact hbit _
  have htrieStart : 256 + (fileHeader es l.offsets).trieDataOffset.toNat = 256 + l.config.length := by
    simp only [fileHeader, StreamLayout.offsets, uint32Max, UInt32.toNat_ofNat'] at htotal ⊢
    omega
  have hvalueStart : 256 + (fileHeader es l.offsets).valueStoreOffset.toNat = l.storePos := by
    simp only [fileHeader, StreamLayout.offsets, StreamLayout.storePos, uint32Max, UInt32.toNat_ofNat'] at htotal ⊢
    omega
  rw [decode_fileBytes frames rfl rfl hrun, hnum, hflags, htrieStart, hvalueStart]
  by_cases hnil : es = []
  · subst hnil
    exact ⟨fun _ => ⟨_, rfl, .nil⟩, fun hfits => absurd (by simp [WalkFits]) hfits⟩
  · rw [if_neg (by simpa using hnil)]
    exact ⟨readItems_of_layout l hnil hasc hlt htotal hread hm htrie hstore, fun hfits =>
      readItems_of_error ((walk_of_layout l hnil hlt htotal (fun e he => (hread e he).1) hm htrie).2 hfits)⟩

/-- A single, a positive number that is stored as a signed one, and a string. -/
def kindsEncoder : Encoder := encoderAddAll freshEncoder
  [([98], some (.string [0xC3, 0xA9])), ([97, 98], some (.int 5)), ([97], some (.float32 0x40490FDB))]

theorem decode_encoderBuild_kinds : ∃ buf d,
    (encoderBuild (.keepingLast ⟨[], .null⟩) kindsEncoder).1 = .ok buf ∧ decode (.atMost 992) buf = .ok d ∧
      List.Forall₂ ReadBack (sortedEntries (.keepingLast ⟨[], .null⟩) kindsEncoder.entries) d.items := by
  have hbuilt : (encoderBuild (.keepingLast ⟨[], .null⟩) kindsEncoder).1.toOption.isSome := by decide +kernel
  rcases hbuf : (encoderBuild (.keepingLast ⟨[], .null⟩) kindsEncoder).1 with e | buf
  · rw [hbuf] at hbuilt
    simp [Except.toOption] at hbuilt
  · obtain ⟨d, hd⟩ := (@decode_encoderBuild _ kindsEncoder _ buf (.atMost 992) rfl (Prod.ext hbuf rfl)
      (by decide +kernel)).1 (by decide +kernel)
    exact ⟨buf, d, rfl, hd⟩

end Triepack.Python
