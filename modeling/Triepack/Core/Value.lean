import Triepack.Bitstream.RoundTrip

/-!
# Typed values

A value is a 4-bit type tag and a payload; strings and blobs start at the next byte boundary
of the whole stream, so what a value occupies depends on where it starts (`valueBits`). The
encoder is given the bytes of a string, the decoder hands out a slice of its buffer: `Value`
is generic in what stands for them.
-/

namespace Triepack

open BitString

/-- `tp_value` with its type tag. Arrays and dictionaries are declared but not implemented,
and a decoder can meet the six 4-bit tags that no enumerator has. -/
inductive Value (σ : Type) where
  | null
  | bool (val : Bool)
  | int (val : Int64)
  | uint (val : UInt64)
  | float32 (bits : UInt32)
  | float64 (bits : UInt64)
  | string (val : σ)
  | blob (val : σ)
  | array
  | dict
  | undefined (code : Fin 6)
  deriving DecidableEq, Repr

/-- The bytes `[off, off + len)` of the buffer that a string or blob points into. -/
structure Slice where
  off : Nat
  len : Nat
  deriving DecidableEq, Repr

def Slice.read (buf : List UInt8) (s : Slice) : List UInt8 := (buf.drop s.off).take s.len

namespace Value

variable {σ τ : Type}

/-- `tp_value_type`. -/
def tag : Value σ → Nat
  | .null => 0
  | .bool _ => 1
  | .int _ => 2
  | .uint _ => 3
  | .float32 _ => 4
  | .float64 _ => 5
  | .string _ => 6
  | .blob _ => 7
  | .array => 8
  | .dict => 9
  | .undefined code => 10 + code.val

def map (f : σ → τ) : Value σ → Value τ
  | .null => .null
  | .bool val => .bool val
  | .int val => .int val
  | .uint val => .uint val
  | .float32 bits => .float32 bits
  | .float64 bits => .float64 bits
  | .string val => .string (f val)
  | .blob val => .blob (f val)
  | .array => .array
  | .dict => .dict
  | .undefined code => .undefined code

/-- One of the eight kinds that are implemented. -/
def Supported : Value σ → Prop
  | .array | .dict | .undefined _ => False
  | _ => True

instance : DecidablePred (Supported (σ := σ)) := fun v => by
  cases v <;> unfold Supported <;> infer_instance

/-- What `tp_value_encode` accepts. -/
def Encodable : Value σ → Prop
  | .array | .dict => False
  | _ => True

theorem Supported.encodable {v : Value σ} (h : v.Supported) : v.Encodable := by
  cases v <;> first | exact h.elim | trivial

theorem tag_eq_zero {v : Value σ} : v.tag = 0 ↔ v = .null := by
  cases v <;> simp [tag]

theorem tag_lt (v : Value σ) : v.tag < 16 := by
  cases v <;> simp only [tag] <;> omega

@[simp] theorem supported_map (f : σ → τ) (v : Value σ) : (v.map f).Supported ↔ v.Supported := by
  cases v <;> rfl

@[simp] theorem map_eq_null (f : σ → τ) (v : Value σ) : v.map f = .null ↔ v = .null := by
  cases v <;> simp [map]

end Value

/-- `tp_value_encode`. -/
def valueEncode (val : Value (List UInt8)) : Wr Unit := do
  bsWriteBits val.tag 4
  match val with
  | .null => pure ()
  | .bool b => bsWriteBit (if b then 1 else 0)
  | .int i => bsWriteVarintS i
  | .uint u => bsWriteVarintU u.toNat
  | .float32 bits => bsWriteU32 bits
  | .float64 bits => bsWriteU64 bits
  | .string s => do
    bsWriteVarintU s.length
    bsWriterAlignToByte
    bsWriteBytes s
  | .blob b => do
    bsWriteVarintU b.length
    bsWriterAlignToByte
    bsWriteBytes b
  | .array => Wr.fail .invalidParam
  | .dict => Wr.fail .invalidParam
  | .undefined _ => pure ()

/-- The payload of a string or blob in `tp_value_decode`. -/
def sliceDecode : Rd Slice := do
  let len ← bsReadVarintU
  bsReaderAlignToByte
  let off ← bsReaderDirectPtr len
  return ⟨off, len⟩

/-- `tp_value_decode` with the buffer of the dictionary as its base. -/
def valueDecode : Rd (Value Slice) := do
  let tag ← bsReadBits 4
  match tag with
  | 0 => return .null
  | 1 => return .bool ((← bsReadBit) != 0)
  | 2 => return .int (← bsReadVarintS)
  | 3 => return .uint (UInt64.ofNat (← bsReadVarintU))
  | 4 => return .float32 (← bsReadU32)
  | 5 => return .float64 (← bsReadU64)
  | 6 => return .string (← sliceDecode)
  | 7 => return .blob (← sliceDecode)
  | 8 => Op.fail .invalidParam
  | 9 => Op.fail .invalidParam
  | tag => return .undefined (Fin.ofNat 6 (tag - 10))

/-! ## What a value occupies -/

/-- The bits of a length-prefixed payload whose length starts at bit `p`. -/
def sliceBits (p : Nat) (bytes : List UInt8) : List Bool :=
  Leb128.bits bytes.length ++
    (padBits (p + (Leb128.bits bytes.length).length) ++ bytesBits bytes)

def payloadBits (p : Nat) : Value (List UInt8) → List Bool
  | .bool b => natBits 1 (if b then 1 else 0)
  | .int i => Leb128.bits (zigzag i).toNat
  | .uint u => Leb128.bits u.toNat
  | .float32 bits => natBits 32 bits.toNat
  | .float64 bits => natBits 64 bits.toNat
  | .string s => sliceBits p s
  | .blob b => sliceBits p b
  | _ => []

/-- The bits of a value that starts at bit `p`. -/
def valueBits (p : Nat) (val : Value (List UInt8)) : List Bool :=
  natBits 4 val.tag ++ payloadBits (p + 4) val

theorem sliceEncode_appends (p : Nat) (bytes : List UInt8) :
    Wr.Appends p (do
      bsWriteVarintU bytes.length
      bsWriterAlignToByte
      bsWriteBytes bytes) (sliceBits p bytes) () :=
  (bsWriteVarintU_appends p _).bind ((bsWriterAlignToByte_appends _).bind
    (bsWriteBytes_appends _ bytes))

theorem valueEncode_appends (p : Nat) {val : Value (List UInt8)} (h : val.Encodable) :
    Wr.Appends p (valueEncode val) (valueBits p val) () := by
  have htag := bsWriteBits_appends p (v := val.tag) (n := 4) (by omega) (by omega)
  refine htag.bind ?_
  rw [length_natBits]
  cases val with
  | null => exact .pure _ ()
  | bool b => exact bsWriteBit_appends _ _
  | int i => exact bsWriteVarintS_appends _ i
  | uint u => exact bsWriteVarintU_appends _ _
  | float32 bits => exact bsWriteBits_appends _ (by omega) (by omega)
  | float64 bits => exact bsWriteBits_appends _ (by omega) (by omega)
  | string s => exact sliceEncode_appends _ s
  | blob b => exact sliceEncode_appends _ b
  | array => exact h.elim
  | dict => exact h.elim
  | undefined code => exact .pure _ ()

/-- Arrays and dictionaries do not encode. -/
theorem valueEncode_error {val : Value (List UInt8)} (h : ¬ val.Encodable) {w : Writer}
    (hw : w.Valid) : valueEncode val w = .error (.rc .invalidParam) := by
  obtain ⟨t, ht, _, _⟩ := bsWriteBits_appends w.pos (v := val.tag) (n := 4) (by omega)
    (by omega) w hw rfl
  unfold valueEncode
  rw [Wr.bind_ok ht]
  cases val with
  | array => rfl
  | dict => rfl
  | _ => exact absurd trivial h

/-! ## Reading a value back -/

/-- A payload that stands at the cursor is sliced out of the buffer. -/
theorem sliceDecode_within {r : Reader} (hr : r.Within) {bytes : List UInt8}
    (h : At r.bits r.pos (sliceBits r.pos bytes)) :
    ∃ s : Slice, sliceDecode r = (.ok s, { r with pos := r.pos + (sliceBits r.pos bytes).length }) ∧
      s.read r.buf = bytes ∧ s.len = bytes.length ∧ s.off + s.len ≤ r.buf.length := by
  have hlen := hr.bitLen_lt
  have hbuf := hr.bitLen_le
  have hlast := hr.le h
  have hlenAt := h.left
  have hbytes := h.right.right
  rw [sliceBits, List.length_append, List.length_append, length_bytesBits] at hlast ⊢
  set q := r.pos + (Leb128.bits bytes.length).length with hq
  have halign : q + (padBits q).length = (q + 7) / 8 * 8 := by
    rw [padBits, List.length_replicate]
    omega
  rw [halign] at hbytes
  have hend : (q + 7) / 8 * 8 + 8 * bytes.length ≤ r.bitLen := by omega
  have hread := bsReadVarintU_readsWithin (v := bytes.length) (by omega) r hr hlenAt
  rw [← hq] at hread
  have hskip := bsReaderAlignToByte_within (@Reader.Within.move r hr q (by omega))
    (by simp only; omega)
  simp only at hskip
  have hptr := bsReaderDirectPtr_within (@Reader.Within.move r hr ((q + 7) / 8 * 8) (by omega))
    (by simp only; omega) hend
  simp only at hptr
  refine ⟨⟨(q + 7) / 8, bytes.length⟩, ?_, ?_, rfl, by simp only; omega⟩
  · rw [sliceDecode, Op.bind_ok hread, Op.bind_ok hskip, Op.bind_ok hptr]
    have hpos : (q + 7) / 8 * 8 + 8 * bytes.length =
        r.pos + ((Leb128.bits bytes.length).length + ((padBits q).length + 8 * bytes.length)) := by
      omega
    rw [hpos, Nat.mul_div_cancel _ (by omega : 0 < 8)]
    rfl
  · have hdrop : bytesBits bytes <+: bytesBits (r.buf.drop ((q + 7) / 8)) := by
      rw [← drop_bytesBits, Nat.mul_comm 8]
      exact hbytes.of_take
    obtain ⟨tl, htl⟩ := hdrop
    apply bytesBits_injective
    rw [Slice.read, ← take_bytesBits, ← htl, List.take_left' (by simp)]

/-- A value that stands at the cursor is read back, and the cursor ends behind it. -/
theorem valueDecode_within {r : Reader} (hr : r.Within) {val : Value (List UInt8)}
    (hval : val.Encodable) (h : At r.bits r.pos (valueBits r.pos val)) :
    ∃ v : Value Slice,
      valueDecode r = (.ok v, { r with pos := r.pos + (valueBits r.pos val).length }) ∧
      v.map (Slice.read r.buf) = val := by
  have htag : val.tag < 2 ^ 4 := val.tag_lt
  have hread := bsReadBits_readsWithin (by omega) (by omega) htag r hr h.left
  have hr' := hr.pass h.left
  have hpay := h.right
  rw [length_natBits] at hread hr' hpay
  have hlen : (valueBits r.pos val).length = 4 + (payloadBits (r.pos + 4) val).length := by
    rw [valueBits, List.length_append, length_natBits]
  rw [valueDecode, Op.bind_ok hread, hlen, ← Nat.add_assoc]
  cases val with
  | null => exact ⟨.null, rfl, rfl⟩
  | bool b =>
    have hbool : payloadBits (r.pos + 4) (.bool b) = natBits 1 b.toNat := by cases b <;> rfl
    rw [hbool] at hpay ⊢
    have hbit := bsReadBit_readsWithin b _ hr' hpay
    refine ⟨.bool b, ?_, rfl⟩
    simp only [Value.tag]
    rw [Op.bind_ok hbit]
    cases b <;> rfl
  | int i => exact ⟨.int i, (bsReadVarintS_readsWithin i).map Value.int _ hr' hpay, rfl⟩
  | uint u =>
    refine ⟨.uint u, ?_, rfl⟩
    have huint := (bsReadVarintU_readsWithin u.toNat_lt).map
      fun n => (Value.uint (UInt64.ofNat n) : Value Slice)
    rw [UInt64.ofNat_toNat] at huint
    exact huint _ hr' hpay
  | float32 bits => exact ⟨.float32 bits, (bsReadU32_readsWithin bits).map Value.float32 _ hr' hpay, rfl⟩
  | float64 bits => exact ⟨.float64 bits, (bsReadU64_readsWithin bits).map Value.float64 _ hr' hpay, rfl⟩
  | string s =>
    obtain ⟨sl, hsl, hsread, _, _⟩ := sliceDecode_within hr' hpay
    exact ⟨.string sl, Op.bind_ok hsl, congrArg Value.string hsread⟩
  | blob b =>
    obtain ⟨sl, hsl, hsread, _, _⟩ := sliceDecode_within hr' hpay
    exact ⟨.blob sl, Op.bind_ok hsl, congrArg Value.blob hsread⟩
  | array => exact hval.elim
  | dict => exact hval.elim
  | undefined code => exact ⟨.undefined code, by fin_cases code <;> rfl, rfl⟩

theorem valueDecode_of_at {r : Reader} (hr : r.Sound) {val : Value (List UInt8)}
    (hval : val.Encodable) (h : At (bytesBits r.buf) r.pos (valueBits r.pos val)) :
    ∃ v : Value Slice,
      valueDecode r = (.ok v, { r with pos := r.pos + (valueBits r.pos val).length }) ∧
      v.map (Slice.read r.buf) = val :=
  valueDecode_within hr.within hval (by rwa [hr.bits_eq])

/-! ## Untrusted values -/

theorem sliceDecode_safe : Rd.Safe sliceDecode :=
  bsReadVarintU_safe.bind fun _ => bsReaderAlignToByte_safe.bind fun _ =>
    (bsReaderDirectPtr_safe _).bind fun _ => .pure _

theorem valueDecode_safe : Rd.Safe valueDecode := by
  refine (bsReadBits_safe (by omega) (by omega)).bind fun tag => ?_
  split
  · exact .pure _
  · exact bsReadBit_safe.bind fun _ => .pure _
  · exact bsReadVarintS_safe.bind fun _ => .pure _
  · exact bsReadVarintU_safe.bind fun _ => .pure _
  · exact bsReadU32_safe.bind fun _ => .pure _
  · exact bsReadU64_safe.bind fun _ => .pure _
  · exact sliceDecode_safe.bind fun _ => .pure _
  · exact sliceDecode_safe.bind fun _ => .pure _
  · exact .fail _
  · exact .fail _
  · exact .pure _

end Triepack
