import Triepack.Core.Value
import Triepack.Python.Bitstream

/-!
# The bit reader of the Python module

A seek is not checked, and numbers of up to ten groups are not reduced. What stands at the cursor
is read back, and a number that takes more than ten groups raises.
-/

namespace Triepack.Python

open BitString CallStack

/-- What a call that reads raises, or a loop that does not end within the bound that the model puts
on it. -/
inductive ReadErr where
  | eofError | valueError | overflowError | unicodeError | recursionError | loop
  deriving DecidableEq, Repr

instance : Overflows ReadErr := ⟨.recursionError⟩

/-- `BitReader`. -/
structure BitReader where
  buf : List UInt8
  pos : Nat
  deriving DecidableEq, Repr

/-- `_bit_len`. -/
def BitReader.bitLen (r : BitReader) : Nat := r.buf.length * 8

/-- `remaining`. -/
def BitReader.remaining (r : BitReader) : Int := r.bitLen - r.pos

/-- A call that reads. -/
abbrev Read (α : Type) : Type := StateT BitReader (Except ReadErr) α

/-- `seek`. -/
def seek (bitPos : Nat) : Read Unit := fun r => .ok ((), { r with pos := bitPos })

/-- The loop of `read_bits` with `n` bits left. -/
def readBitsLoop (buf : List UInt8) : (n pos val : Nat) → Nat
  | 0, _, val => val
  | n + 1, pos, val =>
    let bit := ((buf.getD (pos >>> 3) 0).toNat >>> (7 - (pos &&& 7))) &&& 1
    readBitsLoop buf n (pos + 1) ((val <<< 1) ||| bit)

/-- `read_bits`. -/
def readBits (n : Nat) : Read Nat := fun r =>
  if n = 0 ∨ n > 64 then .error .valueError
  else if r.pos + n > r.bitLen then .error .eofError
  else .ok (readBitsLoop r.buf n r.pos 0, { r with pos := r.pos + n })

/-- `read_bit`. -/
def readBit : Read Nat := fun r =>
  if r.pos ≥ r.bitLen then .error .eofError
  else .ok (((r.buf.getD (r.pos >>> 3) 0).toNat >>> (7 - (r.pos &&& 7))) &&& 1,
    { r with pos := r.pos + 1 })

/-- `read_u8`. -/
def readU8 : Read Nat := readBits 8

/-- `read_u32`. -/
def readU32 : Read Nat := readBits 32

/-- The loop of `read_bytes` with `n` bytes left. -/
def readBytesLoop : (n : Nat) → Read (List UInt8)
  | 0 => pure []
  | n + 1 => do
    let b ← readU8
    let rest ← readBytesLoop n
    return UInt8.ofNat b :: rest

/-- `read_bytes`. -/
def readBytes (n : Nat) : Read (List UInt8) := fun r =>
  if (n * 8 : Int) > r.remaining then .error .valueError else readBytesLoop n r

/-- `align_to_byte`. -/
def skipToByte : Read Unit := fun r =>
  let rem := r.pos &&& 7
  .ok ((), if rem ≠ 0 then { r with pos := r.pos + (8 - rem) } else r)

/-! ## Variable-length numbers -/

/-- The loop of `read_var_uint` with `groups` of its ten groups left. -/
def readVarUintLoop : (groups val shift : Nat) → Read Nat
  | 0, _, _ => throw .overflowError
  | groups + 1, val, shift => do
    let byte ← readU8
    let val := val ||| ((byte &&& 0x7F) <<< shift)
    if byte &&& 0x80 = 0 then return val
    else readVarUintLoop groups val (shift + 7)

/-- `read_var_uint`. -/
def readVarUint : Read Nat := readVarUintLoop varintMaxGroups 0 0

/-- `read_var_int`. -/
def readVarInt : Read Int := do
  let raw ← readVarUint
  if raw &&& 1 ≠ 0 then return -(raw >>> 1 : Nat) - 1 else return (raw >>> 1 : Nat)

/-! ## What a call reads -/

/-- Where `bs` stands at the cursor, the call returns `a` and ends behind it. -/
def ReadsAt {α : Type} (p : Nat) (m : Read α) (bs : List Bool) (a : α) : Prop :=
  ∀ r : BitReader, r.pos = p → At (bytesBits r.buf) p bs →
    m r = .ok (a, { r with pos := p + bs.length })

/-- Where `bs` stands at the cursor, the call raises `OverflowError`. -/
def OverflowsAt {α : Type} (p : Nat) (m : Read α) (bs : List Bool) : Prop :=
  ∀ r : BitReader, r.pos = p → At (bytesBits r.buf) p bs → m r = .error .overflowError

section Run

variable {σ α β : Type} {m : StateT σ (Except ReadErr) α} {f : α → StateT σ (Except ReadErr) β}
  {s s' : σ} {a : α} {b : β} {e : ReadErr}

theorem run_bind_ok (h : m s = .ok (a, s')) : (m >>= f) s = f a s' := by
  change (m s >>= fun x => f x.1 x.2) = _
  rw [h]
  rfl

theorem run_bind_error (h : m s = .error e) : (m >>= f) s = .error e := by
  change (m s >>= fun x => f x.1 x.2) = _
  rw [h]
  rfl

theorem run_bind_eq_ok (h : (m >>= f) s = .ok (b, s')) :
    ∃ a u, m s = .ok (a, u) ∧ f a u = .ok (b, s') := by
  rcases hm : m s with e | ⟨a, u⟩
  · rw [run_bind_error hm] at h
    simp at h
  · exact ⟨a, u, rfl, (run_bind_ok hm).symm.trans h⟩

end Run

section ReadsAt

variable {α β : Type} {p : Nat} {bs cs : List Bool} {a : α} {b : β}

theorem ReadsAt.pure (p : Nat) (a : α) : ReadsAt p (pure a) [] a := by
  rintro r rfl _
  rfl

theorem ReadsAt.bind {m : Read α} {f : α → Read β} (hm : ReadsAt p m bs a)
    (hf : ReadsAt (p + bs.length) (f a) cs b) : ReadsAt p (m >>= f) (bs ++ cs) b := by
  intro r hr hat
  refine (run_bind_ok (hm r hr hat.left)).trans ?_
  rw [hf ⟨r.buf, p + bs.length⟩ rfl hat.right, List.length_append, Nat.add_assoc]

/-- A call that computes with what another one reads. -/
theorem ReadsAt.map {m : Read α} (hm : ReadsAt p m bs a) (f : α → β) :
    ReadsAt p (do return f (← m)) bs (f a) := by
  have h := hm.bind (f := fun x => (Pure.pure (f x) : Read β)) (.pure _ (f a))
  rwa [List.append_nil] at h

theorem OverflowsAt.bind {m : Read α} {f : α → Read β} (hm : OverflowsAt p m bs) :
    OverflowsAt p (m >>= f) bs := fun r hr hat => run_bind_error (hm r hr hat)

theorem ReadsAt.bind_overflows {m : Read α} {f : α → Read β} (hm : ReadsAt p m bs a)
    (hf : OverflowsAt (p + bs.length) (f a) cs) : OverflowsAt p (m >>= f) (bs ++ cs) :=
  fun r hr hat => (run_bind_ok (hm r hr hat.left)).trans
    (hf ⟨r.buf, p + bs.length⟩ rfl hat.right)

/-- What follows at the cursor plays no part. -/
theorem OverflowsAt.append {m : Read α} (hm : OverflowsAt p m bs) (cs : List Bool) :
    OverflowsAt p m (bs ++ cs) := fun r hr hat => hm r hr hat.left

end ReadsAt

theorem readBitsLoop_of_at {buf : List UInt8} {chunk : List Bool} {p val : Nat}
    (h : At (bytesBits buf) p chunk) : readBitsLoop buf chunk.length p val = accBits val chunk := by
  induction chunk generalizing p val with
  | nil => rfl
  | cons b bs ih =>
    have hbit : (bytesBits buf)[p]? = some b := by simpa using h.getElem? (i := 0) (by simp)
    have hnext : At (bytesBits buf) (p + 1) bs := by
      have hcons : At (bytesBits buf) p ([b] ++ bs) := by simpa using h
      simpa using hcons.right
    have hval : (val <<< 1) ||| b.toNat = 2 * val + b.toNat := by
      have hb : b.toNat < 2 ^ 1 := by cases b <;> decide
      rw [Nat.shiftLeft_eq, Nat.mul_comm, ← Nat.two_pow_add_eq_or_of_lt hb, pow_one]
    simp only [List.length_cons, readBitsLoop, getD_testBit hbit, hval]
    rw [ih hnext, accBits]

/-- A field of `n` bits. -/
theorem readBits_chunk (p : Nat) {n : Nat} (hn : 0 < n) (hn' : n ≤ 64) {chunk : List Bool}
    (hlen : chunk.length = n) : ReadsAt p (readBits n) chunk (bitsNat chunk) := by
  rintro r rfl hat
  have hle := hat.le (List.ne_nil_of_length_pos (by omega))
  rw [length_bytesBits, hlen] at hle
  rw [readBits, if_neg (by omega), if_neg (by rw [BitReader.bitLen]; omega), ← hlen,
    readBitsLoop_of_at hat]
  rfl

theorem readBits_reads (p : Nat) {n v : Nat} (hn : 0 < n) (hn' : n ≤ 64) (hv : v < 2 ^ n) :
    ReadsAt p (readBits n) (natBits n v) v := by
  have h := readBits_chunk p hn hn' (length_natBits n v)
  rwa [bitsNat_natBits, Nat.mod_eq_of_lt hv] at h

theorem readBit_reads (p : Nat) (b : Bool) : ReadsAt p readBit [b] b.toNat := by
  rintro r rfl hat
  have hle := hat.le (by simp)
  rw [length_bytesBits, List.length_singleton] at hle
  rw [readBit, if_neg (by rw [BitReader.bitLen]; omega),
    getD_testBit (by simpa using hat.getElem? (i := 0) (by simp))]
  rfl

theorem readBytesLoop_reads (p : Nat) (bytes : List UInt8) :
    ReadsAt p (readBytesLoop bytes.length) (bytesBits bytes) bytes := by
  induction bytes generalizing p with
  | nil => exact .pure p []
  | cons b bytes ih =>
    rw [bytesBits_cons, List.length_cons, readBytesLoop]
    refine (readBits_reads p (by omega) (by omega) b.toNat_lt).bind ?_
    simpa using (ih _).map fun rest => UInt8.ofNat b.toNat :: rest

theorem skipToByte_reads (p : Nat) : ReadsAt p skipToByte (padBits p) () := by
  rintro r rfl _
  have hmask : r.pos &&& 7 = r.pos % 8 := Nat.and_two_pow_sub_one_eq_mod r.pos 3
  simp only [skipToByte, hmask, padBits, List.length_replicate]
  split_ifs with hrem
  · have hend : r.pos + (8 - r.pos % 8) = r.pos + ((r.pos + 7) / 8 * 8 - r.pos) := by omega
    rw [hend]
  · have hend : (r.pos + 7) / 8 * 8 - r.pos = 0 := by omega
    rw [hend, Nat.add_zero]

/-! ## Variable-length numbers -/

/-- One more group goes above those that are there. -/
theorem or_group_below {val g shift : Nat} (hval : val < 2 ^ shift) :
    val ||| (g <<< shift) = g * 2 ^ shift + val := by
  rw [Nat.shiftLeft_eq, Nat.or_comm, Nat.mul_comm, Nat.two_pow_add_eq_or_of_lt hval]

/-- The loop goes on behind a group that is not the last. -/
theorem readVarUintLoop_group {groups val shift v : Nat} (hval : val < 2 ^ shift) :
    ∃ val', val' < 2 ^ (shift + 7) ∧ v / 128 * 2 ^ (shift + 7) + val' = v * 2 ^ shift + val ∧
      ∀ r : BitReader, At (bytesBits r.buf) r.pos (natBits 8 (v % 128 + 128)) →
        readVarUintLoop (groups + 1) val shift r =
          readVarUintLoop groups val' (shift + 7) { r with pos := r.pos + 8 } := by
  have hpow : 2 ^ (shift + 7) = 128 * 2 ^ shift := by rw [pow_add]; ring
  have hdiv : 128 * (v / 128) + v % 128 = v := Nat.div_add_mod v 128
  refine ⟨v % 128 * 2 ^ shift + val, ?_, ?_, fun r hat => ?_⟩
  · have hle : v % 128 * 2 ^ shift ≤ 127 * 2 ^ shift := Nat.mul_le_mul_right _ (by omega)
    omega
  · rw [hpow]
    conv_rhs => rw [← hdiv]
    ring
  · have hread := readBits_reads r.pos (n := 8) (by omega) (by omega) (by omega) r rfl hat
    have hmod : (v % 128 + 128) % 128 = v % 128 := by omega
    rw [length_natBits] at hread
    rw [readVarUintLoop, readU8, run_bind_ok hread, and_seven_bits, hmod, or_group_below hval,
      if_neg (by rw [and_continuation (by omega)]; omega)]

theorem readVarUintLoop_reads {groups val shift v : Nat} (hv : v < 128 ^ groups) (hpos : 0 < groups)
    (hval : val < 2 ^ shift) (p : Nat) :
    ReadsAt p (readVarUintLoop groups val shift) (Leb128.bits v) (v * 2 ^ shift + val) := by
  induction groups generalizing val shift v p with
  | zero => omega
  | succ groups ih =>
    rintro r rfl hat
    by_cases hlast : v < 128
    · rw [Leb128.bits_of_lt hlast] at hat ⊢
      have hread := readBits_reads r.pos (n := 8) (by omega) (by omega) (by omega) r rfl hat
      rw [readVarUintLoop, readU8, run_bind_ok hread, and_seven_bits, Nat.mod_eq_of_lt hlast,
        or_group_below hval, if_pos ((and_continuation (by omega)).mpr hlast)]
      rfl
    · rw [Leb128.bits_of_le (by omega)] at hat ⊢
      obtain ⟨val', hval', hsum, hgroup⟩ :=
        @readVarUintLoop_group groups val shift v hval
      have hdiv : v / 128 < 128 ^ groups := Nat.div_lt_of_lt_mul (by rwa [pow_succ, Nat.mul_comm] at hv)
      have hgroups : 0 < groups := by
        rcases Nat.eq_zero_or_pos groups with rfl | h
        · simp at hv
          omega
        · exact h
      have hright := hat.right
      rw [length_natBits] at hright
      rw [hgroup r hat.left, ih hdiv hgroups hval' (r.pos + 8) ⟨r.buf, r.pos + 8⟩ rfl hright, hsum,
        List.length_append, length_natBits, Nat.add_assoc]

theorem readVarUintLoop_overflows {groups val shift v : Nat} (hv : 128 ^ groups ≤ v)
    (hval : val < 2 ^ shift) (p : Nat) :
    OverflowsAt p (readVarUintLoop groups val shift) (Leb128.bits v) := by
  induction groups generalizing val shift v p with
  | zero => exact fun _ _ _ => rfl
  | succ groups ih =>
    rintro r rfl hat
    have hone := Nat.one_le_pow groups 128 (by omega)
    rw [pow_succ] at hv
    rw [Leb128.bits_of_le (by omega)] at hat
    obtain ⟨val', hval', _, hgroup⟩ := @readVarUintLoop_group groups val shift v hval
    have hright := hat.right
    rw [length_natBits] at hright
    rw [hgroup r hat.left]
    exact ih ((Nat.le_div_iff_mul_le (by omega)).mpr hv) hval' (r.pos + 8) ⟨r.buf, r.pos + 8⟩ rfl hright

/-- What ten groups can hold. -/
def varUintBound : Nat := 2 ^ 70

theorem readVarUint_reads (p : Nat) {v : Nat} (hv : v < varUintBound) :
    ReadsAt p readVarUint (Leb128.bits v) v := by
  have h := @readVarUintLoop_reads varintMaxGroups 0 0 v hv (by decide) (by decide) p
  rwa [pow_zero, Nat.mul_one, Nat.add_zero] at h

/-- A number that takes more than ten groups is not read back. -/
theorem readVarUint_overflows (p : Nat) {v : Nat} (hv : varUintBound ≤ v) :
    OverflowsAt p readVarUint (Leb128.bits v) :=
  @readVarUintLoop_overflows varintMaxGroups 0 0 v hv (by decide) p

/-- The part of `decode_value` that both kinds of byte strings share. -/
def readSlice : Read (List UInt8) := do
  let len ← readVarUint
  skipToByte
  readBytes len

/-- The bytes behind a length begin inside the buffer, also when there are none. -/
theorem readSlice_reads (p : Nat) {bytes : List UInt8} (hlen : bytes.length < varUintBound) :
    ReadsAt p readSlice (sliceBits p bytes) bytes := by
  rintro r rfl hat
  rw [sliceBits] at hat ⊢
  have hle := hat.left.le (List.ne_nil_of_length_pos (by have := Leb128.length_bits_pos bytes.length; omega))
  rw [length_bytesBits] at hle
  have hpad := skipToByte_reads _ ⟨r.buf, r.pos + (Leb128.bits bytes.length).length⟩ rfl hat.right.left
  have hbytes := readBytesLoop_reads _ bytes ⟨r.buf, _⟩ rfl hat.right.right
  refine (run_bind_ok (readVarUint_reads r.pos hlen r rfl hat.left)).trans
    ((run_bind_ok hpad).trans ?_)
  have hroom : r.pos + (Leb128.bits bytes.length).length +
      (padBits (r.pos + (Leb128.bits bytes.length).length)).length + 8 * bytes.length ≤
        8 * r.buf.length := by
    rcases eq_or_ne bytes [] with rfl | hne
    · simp only [padBits, List.length_replicate, List.length_nil] at hle ⊢
      omega
    · have hend := hat.right.right.le (List.ne_nil_of_length_pos (by
        rw [length_bytesBits]
        exact Nat.mul_pos (by omega) (List.length_pos_iff.mpr hne)))
      rwa [length_bytesBits, length_bytesBits] at hend
  rw [readBytes, if_neg (by simp only [BitReader.remaining, BitReader.bitLen]; omega), hbytes]
  simp only [List.length_append, Nat.add_assoc]

end Triepack.Python
