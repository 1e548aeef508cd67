import Triepack.Bitstream.RoundTrip

/-!
# The 32-byte file header
-/

namespace Triepack

open BitString

/-- `tp_header`. -/
structure Header where
  magic0 : UInt8 := 0
  magic1 : UInt8 := 0
  magic2 : UInt8 := 0
  magic3 : UInt8 := 0
  versionMajor : UInt8 := 0
  versionMinor : UInt8 := 0
  flags : UInt16 := 0
  numKeys : UInt32 := 0
  trieDataOffset : UInt32 := 0
  valueStoreOffset : UInt32 := 0
  suffixTableOffset : UInt32 := 0
  totalDataBits : UInt32 := 0
  reserved : UInt32 := 0
  deriving DecidableEq, Repr

def headerSize : Nat := 32

def formatVersionMajor : UInt8 := 1

def formatVersionMinor : UInt8 := 0

def flagHasValues : UInt16 := 1

def flagHasSuffixTable : UInt16 := 2

def flagCompactMode : UInt16 := 8

/-- The magic bytes `"TRP\0"`. -/
def Header.MagicOk (h : Header) : Prop :=
  h.magic0 = 0x54 ∧ h.magic1 = 0x52 ∧ h.magic2 = 0x50 ∧ h.magic3 = 0x00

instance : DecidablePred Header.MagicOk := fun h => by unfold Header.MagicOk; infer_instance

/-- `tp_header_write`. -/
def headerWrite (h : Header) : Wr Unit := do
  bsWriteU8 h.magic0
  bsWriteU8 h.magic1
  bsWriteU8 h.magic2
  bsWriteU8 h.magic3
  bsWriteU8 h.versionMajor
  bsWriteU8 h.versionMinor
  bsWriteU16 h.flags
  bsWriteU32 h.numKeys
  bsWriteU32 h.trieDataOffset
  bsWriteU32 h.valueStoreOffset
  bsWriteU32 h.suffixTableOffset
  bsWriteU32 h.totalDataBits
  bsWriteU32 h.reserved

/-- The fields of `tp_header_read` behind the version. -/
def headerReadFields (h : Header) : Rd Header := do
  let flags ← bsReadU16
  let numKeys ← bsReadU32
  let trieDataOffset ← bsReadU32
  let valueStoreOffset ← bsReadU32
  let suffixTableOffset ← bsReadU32
  let totalDataBits ← bsReadU32
  let reserved ← bsReadU32
  return { h with flags, numKeys, trieDataOffset, valueStoreOffset, suffixTableOffset,
                  totalDataBits, reserved }

/-- `tp_header_read`. -/
def headerRead : Rd Header := do
  let magic0 ← bsReadU8
  let magic1 ← bsReadU8
  let magic2 ← bsReadU8
  let magic3 ← bsReadU8
  if ¬ ({ magic0, magic1, magic2, magic3 } : Header).MagicOk then Op.fail .badMagic
  else do
    let versionMajor ← bsReadU8
    let versionMinor ← bsReadU8
    if versionMajor ≠ formatVersionMajor then Op.fail .version
    else headerReadFields { magic0, magic1, magic2, magic3, versionMajor, versionMinor }

/-! ## The header as bytes -/

/-- A 16-bit number, high byte first. -/
def be16 (v : UInt16) : List UInt8 := [UInt8.ofNat (v.toNat >>> 8), UInt8.ofNat v.toNat]

/-- A 32-bit number, high byte first. -/
def be32 (v : UInt32) : List UInt8 :=
  [UInt8.ofNat (v.toNat >>> 24), UInt8.ofNat (v.toNat >>> 16), UInt8.ofNat (v.toNat >>> 8),
    UInt8.ofNat v.toNat]

def headerBytes (h : Header) : List UInt8 :=
  [h.magic0, h.magic1, h.magic2, h.magic3, h.versionMajor, h.versionMinor] ++
    (be16 h.flags ++ (be32 h.numKeys ++ (be32 h.trieDataOffset ++ (be32 h.valueStoreOffset ++
      (be32 h.suffixTableOffset ++ (be32 h.totalDataBits ++ be32 h.reserved))))))

theorem byteBits_ofNat (v : Nat) : byteBits (UInt8.ofNat v) = natBits 8 v := by
  rw [byteBits, UInt8.toNat_ofNat', natBits_mod]

theorem bytesBits_be16 (v : UInt16) : bytesBits (be16 v) = natBits 16 v.toNat := by
  rw [natBits_add 8 8]
  simp only [be16, bytesBits_cons, bytesBits_nil, byteBits_ofNat, Nat.shiftRight_eq_div_pow,
    List.append_nil]

theorem bytesBits_be32 (v : UInt32) : bytesBits (be32 v) = natBits 32 v.toNat := by
  rw [natBits_add 8 24, natBits_add 8 16, natBits_add 8 8]
  simp only [be32, bytesBits_cons, bytesBits_nil, byteBits_ofNat, Nat.shiftRight_eq_div_pow,
    List.append_nil]

@[simp] theorem length_be16 (v : UInt16) : (be16 v).length = 2 := rfl

@[simp] theorem length_be32 (v : UInt32) : (be32 v).length = 4 := rfl

@[simp] theorem length_headerBytes (h : Header) : (headerBytes h).length = headerSize := by
  simp [headerBytes, headerSize]

theorem bytesBits_headerBytes (h : Header) : bytesBits (headerBytes h) =
    natBits 8 h.magic0.toNat ++ (natBits 8 h.magic1.toNat ++ (natBits 8 h.magic2.toNat ++
      (natBits 8 h.magic3.toNat ++ (natBits 8 h.versionMajor.toNat ++
        (natBits 8 h.versionMinor.toNat ++ (natBits 16 h.flags.toNat ++
          (natBits 32 h.numKeys.toNat ++ (natBits 32 h.trieDataOffset.toNat ++
            (natBits 32 h.valueStoreOffset.toNat ++ (natBits 32 h.suffixTableOffset.toNat ++
              (natBits 32 h.totalDataBits.toNat ++ natBits 32 h.reserved.toNat))))))))))) := by
  simp only [headerBytes, bytesBits_append, bytesBits_be16, bytesBits_be32, bytesBits_cons,
    bytesBits_nil, byteBits, List.append_assoc, List.nil_append]

theorem headerWrite_appends (p : Nat) (h : Header) :
    Wr.Appends p (headerWrite h) (bytesBits (headerBytes h)) () := by
  have field : ∀ q n v, 0 < n → n ≤ 64 → Wr.Appends q (bsWriteBits v n) (natBits n v) () :=
    fun q n v hn hn' => bsWriteBits_appends q hn hn'
  rw [bytesBits_headerBytes]
  unfold headerWrite
  iterate 12 refine (field _ _ _ (by omega) (by omega)).bind ?_
  exact field _ _ _ (by omega) (by omega)

/-- A header with the right magic and version that stands at the cursor is read back. -/
theorem headerRead_reads {h : Header} (hmagic : h.MagicOk)
    (hversion : h.versionMajor = formatVersionMajor) :
    Rd.Reads headerRead (bytesBits (headerBytes h)) h := by
  rw [bytesBits_headerBytes]
  unfold headerRead
  iterate 4 refine (bsReadU8_reads _).bind ?_
  split
  · exact absurd hmagic (by assumption)
  · iterate 2 refine (bsReadU8_reads _).bind ?_
    rw [if_neg (not_not.mpr hversion)]
    unfold headerReadFields
    refine (bsReadU16_reads _).bind ?_
    iterate 5 refine (bsReadU32_reads _).bind ?_
    exact (bsReadU32_reads h.reserved).map fun reserved => { h with reserved := reserved }

theorem headerRead_safe : Rd.Safe headerRead := by
  unfold headerRead
  iterate 4 refine bsReadU8_safe.bind fun _ => ?_
  split
  · exact .fail _
  · iterate 2 refine bsReadU8_safe.bind fun _ => ?_
    split
    · exact .fail _
    · refine bsReadU16_safe.bind fun _ => ?_
      iterate 6 refine bsReadU32_safe.bind fun _ => ?_
      exact .pure _

end Triepack
