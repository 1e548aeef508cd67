import Triepack.Core.Open
import Triepack.Python.Agreement
import Triepack.Python.Walk

/-!
# Reading back a file of the Python encoder

Every section is read as it was written, unless it has a number that ten groups cannot hold. The
header keeps offsets and the number of keys only modulo 2^32.
-/

namespace Triepack.Python

open BitString CallStack

/-! ## Strings -/

/-- The string has an encoding. -/
def IsText (utf8 : List UInt8) : Prop := utf8.toByteArray.IsValidUTF8

instance (utf8 : List UInt8) : Decidable (IsText utf8) :=
  inferInstanceAs (Decidable utf8.toByteArray.IsValidUTF8)

theorem IsText.isUtf8 {utf8 : List UInt8} (h : IsText utf8) : JsonText.IsUtf8 utf8 := by
  obtain ⟨cs, hcs⟩ := h
  refine ⟨cs, ?_⟩
  have hdata := congrArg (fun b : ByteArray => b.data.toList) hcs
  simpa [List.utf8Encode] using hdata

def PyValue.IsText : PyValue → Prop
  | .str utf8 => Python.IsText utf8
  | _ => True

instance : DecidablePred PyValue.IsText
  | .str utf8 => inferInstanceAs (Decidable (Python.IsText utf8))
  | .none | .bool _ | .int _ | .float _ | .bytes _ => inferInstanceAs (Decidable True)

/-! ## Values -/

/-- The numbers of the value take at most ten groups. -/
def PyValue.Fits : PyValue → Prop
  | .int val => -2 ^ 69 ≤ val ∧ val < 2 ^ 70
  | .str utf8 => utf8.length < 2 ^ 70
  | .bytes data => data.length < 2 ^ 70
  | _ => True

instance : DecidablePred PyValue.Fits
  | .int val => inferInstanceAs (Decidable (-2 ^ 69 ≤ val ∧ val < 2 ^ 70))
  | .str utf8 => inferInstanceAs (Decidable (utf8.length < 2 ^ 70))
  | .bytes data => inferInstanceAs (Decidable (data.length < 2 ^ 70))
  | .none | .bool _ | .float _ => inferInstanceAs (Decidable True)

theorem readVarInt_reads (p : Nat) {val : Int} (hlow : -2 ^ 69 ≤ val) (hneg : val < 0) :
    ReadsAt p readVarInt (Leb128.bits (-val * 2 - 1).toNat) val := by
  have hraw : (-val * 2 - 1).toNat < varUintBound := by
    rw [varUintBound]
    omega
  have hodd : (-val * 2 - 1).toNat &&& 1 = 1 := by
    rw [Nat.and_one_is_mod]
    omega
  have hhalf : -(((-val * 2 - 1).toNat >>> 1 : Nat) : Int) - 1 = val := by
    rw [Nat.shiftRight_eq_div_pow]
    omega
  have hlast : ReadsAt (p + (Leb128.bits (-val * 2 - 1).toNat).length)
      (if (-val * 2 - 1).toNat &&& 1 ≠ 0 then
        (pure (-(((-val * 2 - 1).toNat >>> 1 : Nat) : Int) - 1) : Read Int)
      else pure (((-val * 2 - 1).toNat >>> 1 : Nat) : Int)) [] val := by
    rw [hodd, if_pos (by omega), hhalf]
    exact .pure _ _
  have h := (readVarUint_reads p hraw).bind (f := fun raw =>
    if raw &&& 1 ≠ 0 then (pure (-((raw >>> 1 : Nat) : Int) - 1) : Read Int)
    else pure ((raw >>> 1 : Nat) : Int)) hlast
  rwa [List.append_nil] at h

theorem decodeValue_reads (p : Nat) {v : PyValue} (hfits : v.Fits) (htext : v.IsText) :
    ReadsAt p decodeValue (v.bits p) v := by
  have htag : v.tag < 2 ^ 4 := by
    cases v <;> simp only [PyValue.tag] <;> first | decide | (split_ifs <;> decide)
  have hread := readBits_reads p (by omega) (by omega) htag
  have hpos : p + (natBits 4 v.tag).length = p + 4 := by rw [length_natBits]
  rw [decodeValue, PyValue.bits]
  refine hread.bind ?_
  rw [hpos]
  cases v with
  | none => exact .pure _ _
  | bool val =>
    have h := (readBit_reads (p + 4) val).map fun b => PyValue.bool (b != 0)
    cases val <;> exact h
  | int val =>
    by_cases hneg : val < 0
    · simp only [PyValue.tag, PyValue.payloadBits, if_pos hneg]
      exact (readVarInt_reads _ hfits.1 hneg).map PyValue.int
    · simp only [PyValue.tag, PyValue.payloadBits, if_neg hneg]
      have hraw : val.toNat < varUintBound := by
        have hhigh := hfits.2
        rw [varUintBound]
        omega
      have h := (readVarUint_reads (p + 4) hraw).map fun v => PyValue.int v
      rw [Int.toNat_of_nonneg (by omega)] at h
      exact h
  | float bits =>
    have hlt := bits.toNat_lt
    have hhi := readBits_reads (p + 4) (n := 32) (v := bits.toNat / 2 ^ 32) (by omega) (by omega) (by omega)
    have hlo := readBits_reads (p + 4 + (natBits 32 (bits.toNat / 2 ^ 32)).length) (n := 32)
      (v := bits.toNat % 2 ^ 32) (by omega) (by omega) (by omega)
    have h := hhi.bind (f := fun hi => (do
      let lo ← readU32
      return PyValue.float (UInt64.ofNat (hi * 2 ^ 32 + lo)) : Read PyValue))
      (hlo.map fun lo => PyValue.float (UInt64.ofNat (bits.toNat / 2 ^ 32 * 2 ^ 32 + lo)))
    rw [Nat.div_add_mod', UInt64.ofNat_toNat, natBits_mod, ← natBits_add 32 32] at h
    exact h
  | str utf8 =>
    have htext : decodeUtf8 utf8 = .ok utf8 := if_pos htext
    have hlast : ReadsAt (p + 4 + (sliceBits (p + 4) utf8).length) (do
        let utf8 ← StateT.lift (decodeUtf8 utf8)
        return PyValue.str utf8 : Read PyValue) [] (.str utf8) := by
      rw [htext]
      exact .pure _ _
    have h := (readSlice_reads (p + 4) hfits).bind (f := fun raw => (do
      let utf8 ← StateT.lift (decodeUtf8 raw)
      return PyValue.str utf8 : Read PyValue)) hlast
    rwa [List.append_nil] at h
  | bytes data => exact (readSlice_reads _ hfits).map PyValue.bytes

/-- A value with a number that does not fit is not read back. -/
theorem decodeValue_overflows (p : Nat) {v : PyValue} (hfits : ¬ v.Fits) :
    OverflowsAt p decodeValue (v.bits p) := by
  have htag : v.tag < 2 ^ 4 := by
    cases v <;> simp only [PyValue.tag] <;> first | decide | (split_ifs <;> decide)
  have hread := readBits_reads p (by omega) (by omega) htag
  have hpos : p + (natBits 4 v.tag).length = p + 4 := by rw [length_natBits]
  have hslice : ∀ bytes : List UInt8, ¬ bytes.length < 2 ^ 70 →
      OverflowsAt (p + 4) readSlice (sliceBits (p + 4) bytes) := fun bytes hlen =>
    ((readVarUint_overflows (p + 4) (Nat.le_of_not_lt hlen)).bind).append _
  rw [decodeValue, PyValue.bits]
  refine hread.bind_overflows ?_
  rw [hpos]
  cases v with
  | none | bool | float => exact absurd trivial hfits
  | int val =>
    by_cases hneg : val < 0
    · have hraw : varUintBound ≤ (-val * 2 - 1).toNat := by
        simp only [PyValue.Fits] at hfits
        rw [varUintBound]
        omega
      simp only [PyValue.tag, PyValue.payloadBits, if_pos hneg]
      exact (readVarUint_overflows _ hraw).bind.bind
    · have hraw : varUintBound ≤ val.toNat := by
        simp only [PyValue.Fits] at hfits
        rw [varUintBound]
        omega
      simp only [PyValue.tag, PyValue.payloadBits, if_neg hneg]
      exact (readVarUint_overflows _ hraw).bind
  | str utf8 => exact (hslice utf8 hfits).bind
  | bytes data => exact (hslice data hfits).bind

/-! ## The value store -/

/-- Assign the values of items. -/
def Dict.setAll (d : Dict) (items : List Item) : Dict := items.foldl (fun d e => d.set e.1 e.2) d

theorem decodeValues_reads (p : Nat) {items : List Item} (hfits : ∀ e ∈ items, e.2.Fits)
    (htext : ∀ e ∈ items, e.2.IsText) (d : Dict) :
    ReadsAt p (decodeValues (items.map Prod.fst) d) (itemsBits p items) (d.setAll items) := by
  induction items generalizing p d with
  | nil => exact .pure p d
  | cons e items ih =>
    exact (decodeValue_reads p (hfits e (by simp)) (htext e (by simp))).bind
      (ih _ (fun x hx => hfits x (by simp [hx])) (fun x hx => htext x (by simp [hx])) _)

theorem decodeValues_overflows (p : Nat) {items : List Item} (hfits : ∃ e ∈ items, ¬ e.2.Fits)
    (htext : ∀ e ∈ items, e.2.IsText) (d : Dict) :
    OverflowsAt p (decodeValues (items.map Prod.fst) d) (itemsBits p items) := by
  induction items generalizing p d with
  | nil => simp at hfits
  | cons e items ih =>
    by_cases he : e.2.Fits
    · have hrest : ∃ x ∈ items, ¬ x.2.Fits := by
        obtain ⟨x, hx, hnot⟩ := hfits
        rcases List.mem_cons.mp hx with rfl | hx
        · exact absurd he hnot
        · exact ⟨x, hx, hnot⟩
      exact (decodeValue_reads p he (htext e (by simp))).bind_overflows
        (ih _ hrest (fun x hx => htext x (by simp [hx])) _)
    · exact (decodeValue_overflows p he).bind.append _

/-- Values are only assigned to keys that are there. -/
theorem keys_decodeValues {keys : List (List UInt8)} {d d' : Dict} {r r' : BitReader}
    (hkeys : keys ⊆ d.items.map Prod.fst) (h : decodeValues keys d r = .ok (d', r')) :
    d'.items.map Prod.fst = d.items.map Prod.fst := by
  induction keys generalizing d r with
  | nil =>
    obtain ⟨rfl, -⟩ := Prod.mk.inj (Except.ok.inj h)
    rfl
  | cons key keys ih =>
    obtain ⟨hkey, hkeys⟩ := List.cons_subset.mp hkeys
    obtain ⟨val, u, _, hrest⟩ := run_bind_eq_ok h
    have hset : (d.set key val).items.map Prod.fst = d.items.map Prod.fst := by
      rw [Dict.items_set, keys_setItem, if_pos hkey]
    rw [ih (by rwa [hset]) hrest, hset]

/-! ## Assignments -/

/-- New keys go to the end. -/
theorem items_assign {d : Dict} {keys : List (List UInt8)}
    (h : (d.items.map Prod.fst ++ keys).Nodup) :
    (d.assign keys).items = d.items ++ keys.map fun key => (key, .none) := by
  induction keys generalizing d with
  | nil => simp [Dict.assign]
  | cons key keys ih =>
    have hnew : key ∉ d.items.map Prod.fst := by
      intro hmem
      exact (List.nodup_append.mp h).2.2 key hmem key (by simp) rfl
    have hitems : (d.set key .none).items = d.items ++ [(key, .none)] := by
      rw [Dict.items_set, setItem_eq, if_neg hnew]
    have hrest := @ih (d.set key .none) (by
      rw [hitems]
      simpa using h)
    rw [hitems, List.append_assoc] at hrest
    exact hrest

/-- The keys that wait for their values are in the order of the values. -/
theorem items_setAll {d : Dict} {front items : List Item}
    (h : d.items = front ++ items.map fun e => (e.1, .none)) : (d.setAll items).items = front ++ items := by
  induction items generalizing d front with
  | nil => simpa [Dict.setAll] using h
  | cons e items ih =>
    have hnodup := d.nodup
    rw [h, List.map_append, List.map_cons, List.map_cons] at hnodup
    obtain ⟨_, hrest, hdisj⟩ := List.nodup_append.mp hnodup
    obtain ⟨hnot, _⟩ := List.nodup_cons.mp hrest
    have hset : (d.set e.1 e.2).items = (front ++ [e]) ++ items.map fun e => (e.1, .none) := by
      have hmem : e.1 ∈ d.items.map Prod.fst := by
        rw [h]
        simp
      have hfront : ∀ x ∈ front, (if x.1 = e.1 then (e.1, e.2) else x) = x := by
        intro x hx
        exact if_neg (hdisj x.1 (List.mem_map_of_mem hx) e.1 (by simp))
      have hitems : ∀ x ∈ items.map (fun e => (e.1, PyValue.none)),
          (if x.1 = e.1 then (e.1, e.2) else x) = x := by
        intro x hx
        have hkey := List.mem_map_of_mem (f := Prod.fst) hx
        refine if_neg fun heq => hnot ?_
        rwa [heq] at hkey
      rw [Dict.items_set, setItem_eq, if_pos hmem, h, List.map_append, List.map_cons, List.map_cons, if_pos rfl,
        List.map_congr_left hfront, List.map_congr_left hitems]
      simp
    have hall := ih hset
    rw [List.append_assoc] at hall
    exact hall

/-! ## The configuration -/

theorem readCtrlCodes_reads (p : Nat) {bps : Nat} (hlow : 3 ≤ bps) (hhigh : bps ≤ 8) (cs : List TpCtrl) :
    ReadsAt p (readCtrlCodes bps cs.length) (ctrlBits bps cs) (cs.map TpCtrl.index) := by
  induction cs generalizing p with
  | nil => exact .pure p []
  | cons c cs ih =>
    have hlt : c.index < 2 ^ bps :=
      (c.index_lt).trans_le ((by decide : 6 ≤ 2 ^ 3).trans (Nat.pow_le_pow_right (by omega) hlow))
    exact (readBits_reads p (by omega) (by omega) hlt).bind ((ih _).map fun codes => c.index :: codes)

/-- The bytes of the table get the symbols from `cd` on. -/
theorem readSymbolTable_reads (p : Nat) {cd : Nat} (used : List UInt8) (hcd : cd + used.length ≤ 256)
    (reverseMap : Nat → UInt8) :
    ∃ rm, ReadsAt p (readSymbolTable used.length cd reverseMap) (tableBits used) rm ∧
      (∀ i < cd, rm i = reverseMap i) ∧ ∀ i (hi : i < used.length), rm (cd + i) = used[i] := by
  induction used generalizing p cd reverseMap with
  | nil => exact ⟨reverseMap, .pure p _, fun _ _ => rfl, fun i hi => absurd hi (by simp)⟩
  | cons b used ih =>
    rw [List.length_cons] at hcd
    have hsmall : b.toNat < varUintBound := b.toNat_lt.trans_le (by decide)
    obtain ⟨rm, hreads, hbelow, hget⟩ := @ih (p + (Leb128.bits b.toNat).length) (cd + 1) (by omega)
      (Function.update reverseMap cd b)
    refine ⟨rm, (readVarUint_reads p hsmall).bind ?_, fun i hi => ?_, fun i hi => ?_⟩
    · rw [if_pos ⟨by omega, b.toNat_lt⟩, UInt8.ofNat_toNat]
      exact hreads
    · rw [hbelow i (by omega), Function.update_of_ne (by omega)]
    · cases i with
      | zero => rw [Nat.add_zero, hbelow cd (by omega), Function.update_self, List.getElem_cons_zero]
      | succ i =>
        have hrest := hget i (by simpa using hi)
        rwa [Nat.add_right_comm, Nat.add_assoc] at hrest

theorem readConfig_reads (p : Nat) {items : List Item} (hcount : (usedBytes (keys items)).length ≤ 249) :
    ∃ cfg : Config, cfg.Matches (analyzeSymbols 0 (keys items)) (usedBytes (keys items)) ∧
      ReadsAt p readConfig (configBits items) cfg := by
  have hcodes := codes_analyzeSymbols hcount
  obtain ⟨_, hroom⟩ := widthFits_auto hcount
  have hwidth := bitsPerSymbol_analyzeSymbols 0 (keys items)
  have hlow := hcodes.three_le
  have hhigh := hcodes.le_eight
  have hlen : (usedBytes (keys items)).length + 6 - 6 = (usedBytes (keys items)).length := by omega
  rw [configBits_eq items hcount, Triepack.configBits]
  rw [hwidth] at hlow hhigh
  generalize hbps : symbolWidth 0 (usedBytes (keys items)) = bps at *
  obtain ⟨rm, htable, _, hget⟩ := @readSymbolTable_reads
    (p + (natBits 4 bps).length + (natBits 8 ((usedBytes (keys items)).length + 6)).length +
      (ctrlBits bps TpCtrl.all).length) 6 (usedBytes (keys items)) (by omega) fun _ => 0
  refine ⟨⟨bps, TpCtrl.all.map TpCtrl.index, rm⟩, ⟨hcodes, hwidth.symm, fun c => ?_, fun b hb => ?_⟩, ?_⟩
  · cases c <;> rfl
  · obtain ⟨i, hi, rfl⟩ := List.getElem_of_mem hb
    have hmap : (analyzeSymbols 0 (keys items)).symbolMap (usedBytes (keys items))[i] = 6 + i :=
      (assignSymbols_getElem (nodup_usedBytes (keys items)) hi
        (by rw [show Triepack.numControlCodes = 6 from rfl]; omega)).1
    exact (congrArg rm hmap).trans (hget i hi)
  · refine (readBits_reads p (by omega) (by omega) (by omega)).bind ?_
    rw [if_neg (by omega)]
    refine (readBits_reads _ (by omega) (by omega) (by omega)).bind ?_
    rw [show numControlCodes = 6 from rfl, Nat.one_shiftLeft, if_neg (by omega), hlen]
    refine (readCtrlCodes_reads _ hlow hhigh TpCtrl.all).bind ?_
    exact htable.map fun rm => Config.mk bps (TpCtrl.all.map TpCtrl.index) rm

/-! ## The header -/

theorem u32At_append {as : List UInt8} (v : UInt32) (cs : List UInt8) {i : Nat} (hi : i = as.length) :
    u32At (as ++ (be32 v ++ cs)) i = v.toNat := by
  subst hi
  have hget₀ := @getD_append_add as (be32 v) cs 0 (by simp)
  rw [Nat.add_zero] at hget₀
  rw [u32At, hget₀, getD_append_add (by simp), getD_append_add (by simp), getD_append_add (by simp)]
  simp only [be32, List.getD_cons_zero, List.getD_cons_succ, or_be32]

/-- The fields that `decode` takes out of the header. -/
theorem header_fields (h : Header) (rest : List UInt8) :
    (headerBytes h ++ rest).take 4 = [h.magic0, h.magic1, h.magic2, h.magic3] ∧
      (headerBytes h ++ rest).getD 4 0 = h.versionMajor ∧
      u16At (headerBytes h ++ rest) 6 = h.flags.toNat ∧
      u32At (headerBytes h ++ rest) 8 = h.numKeys.toNat ∧
      u32At (headerBytes h ++ rest) 12 = h.trieDataOffset.toNat ∧
      u32At (headerBytes h ++ rest) 16 = h.valueStoreOffset.toNat := by
  have hsplit : ∀ (as : List UInt8) (v : UInt32) (cs : List UInt8) (i : Nat),
      headerBytes h ++ rest = as ++ (be32 v ++ cs) → i = as.length →
      u32At (headerBytes h ++ rest) i = v.toNat := by
    intro as v cs i heq hi
    rw [heq, u32At_append v cs hi]
  refine ⟨rfl, rfl, ?_, ?_, ?_, ?_⟩
  · have hlt := h.flags.toNat_lt
    change ((UInt8.ofNat (h.flags.toNat >>> 8)).toNat <<< 8) ||| (UInt8.ofNat h.flags.toNat).toNat = _
    rw [shiftLeft_or (n := 8) (UInt8.toNat_lt _), UInt8.toNat_ofNat', UInt8.toNat_ofNat',
      Nat.shiftRight_eq_div_pow]
    omega
  · exact hsplit ([h.magic0, h.magic1, h.magic2, h.magic3, h.versionMajor, h.versionMinor] ++
      be16 h.flags) h.numKeys _ 8 (by simp [headerBytes]; rfl) rfl
  · exact hsplit ([h.magic0, h.magic1, h.magic2, h.magic3, h.versionMajor, h.versionMinor] ++
      be16 h.flags ++ be32 h.numKeys) h.trieDataOffset _ 12 (by simp [headerBytes]; rfl) rfl
  · exact hsplit ([h.magic0, h.magic1, h.magic2, h.magic3, h.versionMajor, h.versionMinor] ++
      be16 h.flags ++ be32 h.numKeys ++ be32 h.trieDataOffset) h.valueStoreOffset _ 16
        (by simp [headerBytes]; rfl) rfl

/-! ## The file -/

/-- A header, the data and their checksum. -/
def fileBytes (h : Header) (body : List UInt8) : List UInt8 :=
  headerBytes h ++ (body ++ be32 (Triepack.crc32 (headerBytes h ++ body)))

theorem length_fileBytes (h : Header) (body : List UInt8) :
    (fileBytes h body).length = 36 + body.length := by
  simp only [fileBytes, List.length_append, length_headerBytes, length_be32, headerSize]
  omega

/-- The checksum is that of the bytes in front of it. -/
theorem crc_fileBytes (h : Header) (body : List UInt8) :
    crc32 ((fileBytes h body).take ((fileBytes h body).length - 4)) =
      u32At (fileBytes h body) ((fileBytes h body).length - 4) := by
  have hsplit : fileBytes h body =
      (headerBytes h ++ body) ++ (be32 (Triepack.crc32 (headerBytes h ++ body)) ++ []) := by
    rw [fileBytes, List.append_nil, List.append_assoc]
  have hfront : (fileBytes h body).length - 4 = (headerBytes h ++ body).length := by
    rw [length_fileBytes, List.length_append, length_headerBytes, headerSize]
    omega
  rw [hfront, hsplit, u32At_append _ [] rfl, List.take_left, crc32_eq]

/-- A file of this version whose configuration is read. -/
theorem decode_fileBytes (frames : Frames) {h : Header} {body : List UInt8} {cfg : Config} {r : BitReader}
    (hmagic : [h.magic0, h.magic1, h.magic2, h.magic3] = tpMagic)
    (hversion : h.versionMajor.toNat = tpVersionMajor)
    (hconfig : readConfig ⟨fileBytes h body, 256⟩ = .ok (cfg, r)) :
    decode frames (fileBytes h body) = if h.numKeys.toNat = 0 then .ok .empty
      else readItems frames cfg (decide (h.flags.toNat &&& tpFlagHasValues ≠ 0))
        (256 + h.trieDataOffset.toNat) (256 + h.valueStoreOffset.toNat) r := by
  obtain ⟨htake, hmajor, hflags, hnum, htrie, hvalue⟩ :=
    header_fields h (body ++ be32 (Triepack.crc32 (headerBytes h ++ body)))
  rw [← fileBytes] at htake hmajor hflags hnum htrie hvalue
  have hlen := length_fileBytes h body
  have hcrc := crc_fileBytes h body
  generalize fileBytes h body = buf at *
  simp only [decode]
  rw [if_neg (by rw [hlen, tpHeaderSize]; omega), if_neg (by rw [htake, hmagic]; simp),
    if_neg (by rw [hmajor, hversion]; simp), if_neg (by rw [hcrc]; simp), hflags, hnum, htrie, hvalue,
    show tpHeaderSize * 8 = 256 from rfl, hconfig]
  rfl

/-- The bits that stand behind a header in front of the checksum. -/
def sectionBits (items : List Item) (trie store : List Bool) : List Bool :=
  configBits items ++ (trie ++ (store ++
    padBits (256 + (configBits items).length + trie.length + store.length)))

/-- The store of some items behind a trie. -/
def storeOf (items : List Item) (trie : List Bool) : List Bool :=
  if hasValues items then itemsBits (256 + (configBits items).length + trie.length) items else []

/-- The header of a file; its numbers are reduced modulo 2^32. -/
def headerOf (items : List Item) (trie : List Bool) : Header :=
  fileHeader (items.map entry) ⟨(configBits items).length, (configBits items).length + trie.length,
    (configBits items).length + trie.length + (storeOf items trie).length⟩

/-- The bytes that `encode` returns, if the stack has room for the trie. -/
theorem encode_eq {data : Dict} (hcount : alphabetSize data.items ≤ 249) {trie : List Bool} {n : Nat}
    (hroom : ∀ frames : Frames, (frames.more 5).Room n ↔ WriteFits frames (sortItems data.items))
    (htrie : ∀ frames, WritesTrie frames n (sortItems data.items) trie) :
    ∃ body, bytesBits body =
        sectionBits (sortItems data.items) trie (storeOf (sortItems data.items) trie) ∧
      ∀ frames, encode frames data =
        if WriteFits frames data.items then
          .ok (fileBytes (headerOf (sortItems data.items) trie) body)
        else .error .recursionError := by
  rw [← alphabetSize_sortItems] at hcount
  have hstream := fun frames => @writeStream_appends_store _ _ _ _ (storeOf (sortItems data.items) trie)
    (htrie frames) rfl
  have hfits := fun frames => (hroom frames).trans (writeFits_sortItems frames data.items)
  obtain ⟨bytes, hbytes, _⟩ := encode_of_stream hcount ((hstream .unbounded).appends (by simp))
  have hlen : 0 + 256 + (configBits (sortItems data.items)).length + trie.length +
      (storeOf (sortItems data.items) trie).length =
      (bytesBits (headerBytes (placeholderHeader ((sortItems data.items).map entry))) ++
        (configBits (sortItems data.items) ++ (trie ++ storeOf (sortItems data.items) trie))).length := by
    simp only [List.length_append, length_headerBits]
    omega
  obtain ⟨body, rfl, hbody⟩ := @exists_body (placeholderHeader ((sortItems data.items).map entry))
    (sectionBits (sortItems data.items) trie (storeOf (sortItems data.items) trie)) bytes (by
      rw [hbytes, ← hlen, sectionBits, Nat.zero_add]
      simp only [List.append_assoc])
  refine ⟨body, hbody, fun frames => ?_⟩
  by_cases hfit : WriteFits frames data.items
  · obtain ⟨bytes', hbytes', hencode⟩ := encode_of_stream hcount ((hstream frames).appends ((hfits frames).mpr hfit))
    obtain rfl := bytesBits_injective (hbytes'.trans hbytes.symm)
    rw [if_pos hfit, hencode,
      patchOffsets_eq _ (by simp only [List.length_append, length_headerBytes, headerSize]; omega), patchFile_eq]
    rfl
  · rw [if_neg hfit]
    exact encode_of_overruns hcount ((hstream frames).overruns fun h => hfit ((hfits frames).mp h))

/-- Where the sections of a file stand. -/
theorem sections_at {h : Header} {body : List UInt8} {items : List Item} {trie store : List Bool}
    (hbody : bytesBits body = sectionBits items trie store) :
    At (bytesBits (fileBytes h body)) 256 (configBits items) ∧
      At (bytesBits (fileBytes h body)) (256 + (configBits items).length) trie ∧
      At (bytesBits (fileBytes h body)) (256 + (configBits items).length + trie.length) store := by
  have hall : At (bytesBits (fileBytes h body)) 0 (bytesBits (headerBytes h) ++
      (configBits items ++ (trie ++ store))) := by
    refine ⟨padBits (256 + (configBits items).length + trie.length + store.length) ++
      bytesBits (be32 (Triepack.crc32 (headerBytes h ++ body))), ?_⟩
    rw [List.drop_zero, fileBytes, bytesBits_append, bytesBits_append, hbody, sectionBits]
    simp only [List.append_assoc]
  have hdata := hall.right
  rw [length_headerBits, Nat.zero_add] at hdata
  exact ⟨hdata.left, hdata.right.left, hdata.right.right⟩

/-- What `decode` makes of a file of the encoder is up to the reduced numbers of its header. -/
theorem decode_file {items : List Item} {trie : List Bool} {body : List UInt8}
    (hcount : (usedBytes (keys items)).length ≤ 249)
    (hbody : bytesBits body = sectionBits items trie (storeOf items trie)) :
    ∃ (cfg : Config) (r : BitReader),
      cfg.Matches (analyzeSymbols 0 (keys items)) (usedBytes (keys items)) ∧
      r.buf = fileBytes (headerOf items trie) body ∧
      ∀ frames, decode frames (fileBytes (headerOf items trie) body) =
        if items.length % 2 ^ 32 = 0 then .ok .empty
        else readItems frames cfg (hasValues items) (256 + (configBits items).length % 2 ^ 32)
          (256 + ((configBits items).length + trie.length) % 2 ^ 32) r := by
  obtain ⟨cfg, hm, hconfig⟩ := readConfig_reads 256 hcount
  obtain ⟨hat, _, _⟩ := sections_at (h := headerOf items trie) hbody
  have hrun := hconfig ⟨fileBytes (headerOf items trie) body, 256⟩ rfl hat
  have hbit : ∀ b : Bool,
      decide ((if b = true then flagHasValues else 0).toNat &&& tpFlagHasValues ≠ 0) = b := by decide
  have hflags : decide ((headerOf items trie).flags.toNat &&& tpFlagHasValues ≠ 0) = hasValues items := by
    rw [hasValues_eq]
    exact hbit _
  refine ⟨cfg, ⟨fileBytes (headerOf items trie) body, 256 + (configBits items).length⟩, hm, rfl,
    fun frames => ?_⟩
  rw [decode_fileBytes frames rfl rfl hrun, hflags]
  simp only [headerOf, fileHeader, placeholderHeader, UInt32.toNat_ofNat', List.length_map]

end Triepack.Python
