import Triepack.Bitstream.Fields

/-!
# A writer holds the concatenation of its fields

A field is one write operation with its arguments. Whatever is written to a new writer, its
buffer is the fields' bit strings one after another and zeros behind them, and the matching reads
give the fields back.
-/

namespace Triepack

open BitString

/-- `tp_bs_read_bytes`. -/
def bsReadBytes : Nat → Rd (List UInt8)
  | 0 => pure []
  | n + 1 => do
    let b ← bsReadU8
    let bs ← bsReadBytes n
    return b :: bs

/-- One write operation with its arguments. -/
inductive Field where
  | bit (value : UInt8)
  | bits (value : UInt64) (n : Nat) (hn : 0 < n ∧ n ≤ 64)
  | bitsSigned (value : Int64) (n : Nat) (hn : 0 < n ∧ n ≤ 64)
  | bytes (data : List UInt8)
  | varintU (value : UInt64)
  | varintS (value : Int64)
  | utf8 (cp : Char)
  | alignToByte
  | buffer (data : List UInt8) (bitLen : Nat) (h : bitLen ≤ 8 * data.length)

/-- What the operation that reads a field back returns. -/
inductive FieldValue where
  | none
  | nat (val : Nat)
  | int (val : Int64)
  | bytes (data : List UInt8)
  | bits (bs : List Bool)
  deriving DecidableEq, Repr

namespace Field

def write : Field → Wr Unit
  | .bit value => bsWriteBit value.toNat
  | .bits value n _ => bsWriteBits value.toNat n
  | .bitsSigned value n _ => bsWriteBitsSigned value n
  | .bytes data => bsWriteBytes data
  | .varintU value => bsWriteVarintU value.toNat
  | .varintS value => bsWriteVarintS value
  | .utf8 cp => bsWriteUtf8 cp.toNat
  | .alignToByte => bsWriterAlignToByte
  | .buffer data bitLen _ => bsWriterAppendBuffer data bitLen

/-- The matching read; an appended buffer is copied out into a new writer. -/
def read : Field → Rd FieldValue
  | .bit _ => do return .nat (← bsReadBit)
  | .bits _ n _ => do return .nat (← bsReadBits n)
  | .bitsSigned _ n _ => do return .int (← bsReadBitsSigned n)
  | .bytes data => do return .bytes (← bsReadBytes data.length)
  | .varintU _ => do return .nat (← bsReadVarintU)
  | .varintS _ => do return .int (← bsReadVarintS)
  | .utf8 _ => do return .nat (← bsReadUtf8)
  | .alignToByte => do
    bsReaderAlignToByte
    return .none
  | .buffer _ bitLen _ => fun r =>
    let copy := bsCopyBits bitLen r (bsWriterCreate 0 0)
    (copy.1.map fun _ => .bits copy.2.2.bits, copy.2.1)

/-- The bit string of a field at bit `p`. -/
def bitString (p : Nat) : Field → List Bool
  | .bit value => natBits 1 value.toNat
  | .bits value n _ => natBits n value.toNat
  | .bitsSigned value n _ => natBits n value.toUInt64.toNat
  | .bytes data => bytesBits data
  | .varintU value => Leb128.bits value.toNat
  | .varintS value => Leb128.bits (zigzag value).toNat
  | .utf8 cp => bytesBits (String.utf8EncodeChar cp)
  | .alignToByte => padBits p
  | .buffer data bitLen _ => (bytesBits data).take bitLen

/-- The value of a field: modulo `2 ^ n`, of signed fields the residue nearest to zero. -/
def value : Field → FieldValue
  | .bit value => .nat (value.toNat % 2)
  | .bits value n _ => .nat (value.toNat % 2 ^ n)
  | .bitsSigned value n _ => .int (.ofInt (value.toInt.bmod (2 ^ n)))
  | .bytes data => .bytes data
  | .varintU value => .nat value.toNat
  | .varintS value => .int value
  | .utf8 cp => .nat cp.toNat
  | .alignToByte => .none
  | .buffer data bitLen _ => .bits ((bytesBits data).take bitLen)

end Field

def writeFields : List Field → Wr Unit
  | [] => pure ()
  | f :: fs => do
    f.write
    writeFields fs

def readFields : List Field → Rd (List FieldValue)
  | [] => pure []
  | f :: fs => do
    let v ← f.read
    let vs ← readFields fs
    return v :: vs

/-- The bit strings of fields one after another, from bit `p` on. -/
def fieldsBits (p : Nat) : List Field → List Bool
  | [] => []
  | f :: fs => f.bitString p ++ fieldsBits (p + (f.bitString p).length) fs

/-! ## One field -/

theorem Field.write_appends (p : Nat) (f : Field) : Wr.Appends p f.write (f.bitString p) () := by
  cases f with
  | bit value => exact bsWriteBit_appends p _
  | bits value n hn => exact bsWriteBits_appends p hn.1 hn.2
  | bitsSigned value n hn => exact bsWriteBitsSigned_appends p value hn.1 hn.2
  | bytes data => exact bsWriteBytes_appends p data
  | varintU value => exact bsWriteVarintU_appends p _
  | varintS value => exact bsWriteVarintS_appends p value
  | utf8 cp => exact bsWriteUtf8_appends p cp
  | alignToByte => exact bsWriterAlignToByte_appends p
  | buffer data bitLen h => exact bsWriterAppendBuffer_appends p h

theorem bsReadBytes_readsWithin (data : List UInt8) :
    Rd.ReadsWithin (bsReadBytes data.length) (bytesBits data) data := by
  induction data with
  | nil => exact .pure []
  | cons b bs ih =>
    rw [bytesBits_cons, List.length_cons]
    exact (bsReadU8_readsWithin b).bind (ih.map fun bs => b :: bs)

theorem lowBitsSigned_eq {n : Nat} (hn : 0 < n) (hn' : n ≤ 64) (v : Int64) :
    lowBitsSigned n v = .ofInt (v.toInt.bmod (2 ^ n)) := by
  rw [← toInt_lowBitsSigned hn hn', Int64.ofInt_toInt]

/-- A field that stands at the cursor is read back, and the cursor ends behind it. -/
theorem Field.read_within (f : Field) {r : Reader} (hr : r.Within)
    (h : At r.bits r.pos (f.bitString r.pos)) :
    f.read r = (.ok f.value, { r with pos := r.pos + (f.bitString r.pos).length }) := by
  cases f with
  | bit value =>
    have hbit := bsReadBit_readsWithin (value.toNat.testBit 0)
    have hval : natBits 1 (value.toNat.testBit 0).toNat = natBits 1 value.toNat ∧
        (value.toNat.testBit 0).toNat = value.toNat % 2 := by
      rw [Nat.toNat_testBit, pow_zero, Nat.div_one]
      exact ⟨by rw [← natBits_mod 1 value.toNat, pow_one], rfl⟩
    rw [hval.1, hval.2] at hbit
    exact hbit.map FieldValue.nat r hr h
  | bits value n hn =>
    have hread := bsReadBits_readsWithin hn.1 hn.2 (Nat.mod_lt value.toNat (Nat.two_pow_pos n))
    rw [natBits_mod] at hread
    exact hread.map FieldValue.nat r hr h
  | bitsSigned value n hn =>
    have hread := bsReadBitsSigned_readsWithin value hn.1 hn.2
    rw [lowBitsSigned_eq hn.1 hn.2] at hread
    exact hread.map FieldValue.int r hr h
  | bytes data => exact (bsReadBytes_readsWithin data).map FieldValue.bytes r hr h
  | varintU value => exact (bsReadVarintU_readsWithin value.toNat_lt).map FieldValue.nat r hr h
  | varintS value => exact (bsReadVarintS_readsWithin value).map FieldValue.int r hr h
  | utf8 cp => exact (bsReadUtf8_readsWithin cp).map FieldValue.nat r hr h
  | alignToByte =>
    have hend : r.pos + (padBits r.pos).length = (r.pos + 7) / 8 * 8 := by
      rw [padBits, List.length_replicate]
      omega
    have hle := hr.le h
    simp only [Field.bitString] at hle ⊢
    rw [hend] at hle ⊢
    exact Op.bind_ok (bsReaderAlignToByte_within hr hle)
  | buffer data bitLen hbuf =>
    simp only [Field.bitString] at h ⊢
    have hlen : ((bytesBits data).take bitLen).length = bitLen := by
      rw [List.length_take, length_bytesBits, Nat.min_eq_left hbuf]
    have hle := hr.le h
    have hmax := hr.bitLen_lt
    obtain ⟨w, hcopy, _, hbits⟩ := bsCopyBits_spec hr h (Writer.Valid.create 0 0)
      (by simp only [bsWriterCreate]; omega)
    rw [hlen] at hcopy ⊢
    rw [bits_create, List.nil_append] at hbits
    simp only [Field.read, hcopy, hbits]
    rfl

/-! ## All fields -/

theorem writeFields_appends (p : Nat) (fs : List Field) :
    Wr.Appends p (writeFields fs) (fieldsBits p fs) () := by
  induction fs generalizing p with
  | nil => exact .pure p ()
  | cons f fs ih => exact (f.write_appends p).bind (ih _)

theorem readFields_within (fs : List Field) {r : Reader} (hr : r.Within)
    (h : At r.bits r.pos (fieldsBits r.pos fs)) :
    readFields fs r =
      (.ok (fs.map Field.value), { r with pos := r.pos + (fieldsBits r.pos fs).length }) := by
  induction fs generalizing r with
  | nil => rfl
  | cons f fs ih =>
    rw [readFields, Op.bind_ok (f.read_within hr h.left), Op.bind_ok (ih (hr.pass h.left) h.right),
      fieldsBits, List.length_append, ← Nat.add_assoc]
    rfl

/-- Whatever is written to a new writer, its buffer is the concatenation of the fields with
nothing but zeros behind it, and the fields are read back in order, as from the reader that
`tp_bs_writer_to_reader` makes of it. -/
theorem writer_concat (initialCap growth : Nat) (fs : List Field) :
    ∃ w, writeFields fs (bsWriterCreate initialCap growth) = .ok ((), w) ∧
      w.pos ≤ 8 * w.cap ∧ (bytesBits w.buf).take w.pos = fieldsBits 0 fs ∧
      (bytesBits w.buf).drop w.pos = List.replicate (8 * w.cap - w.pos) false ∧
      (∀ r : Reader, r.Over w → r.pos = 0 →
        readFields fs r = (.ok (fs.map Field.value), { r with pos := w.pos })) ∧
      (w.pos + 64 < 2 ^ 64 → readFields fs (bsWriterToReader w) =
        (.ok (fs.map Field.value), { bsWriterToReader w with pos := w.pos })) := by
  have hnew := Writer.Valid.create initialCap growth
  obtain ⟨w, hwrite, hvalid, hbits⟩ := writeFields_appends 0 fs _ hnew rfl
  rw [bits_create, List.nil_append] at hbits
  have hread : ∀ r : Reader, r.Over w → r.pos = 0 →
      readFields fs r = (.ok (fs.map Field.value), { r with pos := w.pos }) := by
    intro r hr hpos
    have hat := @Reader.Over.at_of_bits _ _ hr [] _ hbits
    rw [List.length_nil, ← hpos] at hat
    have hfields := readFields_within fs hr.within hat
    rw [hpos, ← hbits, hvalid.length_bits, Nat.zero_add] at hfields
    exact hfields
  exact ⟨w, hwrite, hvalid.pos_le, hbits, hvalid.tail_zero, hread,
    fun hlt => hread (bsWriterToReader w) (hvalid.over hlt) rfl⟩

end Triepack
