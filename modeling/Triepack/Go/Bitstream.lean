import Triepack.Library.Simulation
import Triepack.Python.Bitstream

/-!
# The bit writer of the Go module

The writer is a buffer and a cursor. A number that is written is a `uint64`, given as a natural; lengths and
positions are naturals too. The writer of the Python module does the same on the same buffer.
-/

namespace Triepack.Go

/-- An error that is returned, a panic, or a recursion that does not end within the bound that the model
puts on it. -/
inductive Fail where
  | err (text : String)
  | panic (text : String)
  | loop
  deriving DecidableEq, Repr

/-- `BitWriter`. -/
structure BitWriter where
  buf : List UInt8
  pos : Nat
  deriving DecidableEq, Repr

/-- `NewBitWriter`. -/
def newBitWriter (initialCap : Nat) : BitWriter where
  buf := List.replicate (if initialCap = 0 then 256 else initialCap) 0
  pos := 0

/-- A call that writes. -/
abbrev Write (α : Type) : Type := StateT BitWriter (Except Fail) α

/-- `Position`. -/
def position : Write Nat := fun w => .ok (w.pos, w)

/-- The loop of `ensure`. -/
def newCapLoop (needed : Nat) : (fuel newCap : Nat) → Nat
  | 0, newCap => newCap
  | fuel + 1, newCap => if newCap < needed then newCapLoop needed fuel (newCap * 2) else newCap

/-- `ensure`. -/
def BitWriter.ensure (w : BitWriter) (nBits : Nat) : BitWriter :=
  let needed := (w.pos + nBits + 7) >>> 3
  if needed ≤ w.buf.length then w
  else
    let newCap := newCapLoop needed needed (w.buf.length * 2)
    { w with buf := w.buf ++ List.replicate (newCap - w.buf.length) 0 }

/-- The bit at the cursor is set or cleared. -/
def BitWriter.putBit (w : BitWriter) (bit : Nat) : BitWriter :=
  let byteIdx := w.pos >>> 3
  let bitIdx := 7 - (w.pos &&& 7)
  { buf := w.buf.modify byteIdx fun byte =>
      if bit ≠ 0 then byte ||| ((1 : UInt8) <<< UInt8.ofNat bitIdx)
      else byte &&& ~~~((1 : UInt8) <<< UInt8.ofNat bitIdx)
    pos := w.pos + 1 }

/-- The loop of `WriteBits` with the low `n` bits of the value left. -/
def writeBitsLoop (value : Nat) : (n : Nat) → BitWriter → BitWriter
  | 0, w => w
  | n + 1, w => writeBitsLoop value n (w.putBit ((value >>> n) &&& 1))

/-- `WriteBits`. -/
def writeBits (value n : Nat) : Write Unit := fun w =>
  if n = 0 ∨ n > 64 then .error (.panic "WriteBits: n must be 1..64")
  else .ok ((), writeBitsLoop value n (w.ensure n))

/-- `WriteBit`. -/
def writeBit (val : Nat) : Write Unit := fun w => .ok ((), (w.ensure 1).putBit val)

/-- `WriteU8`. -/
def writeU8 (val : UInt8) : Write Unit := writeBits val.toNat 8

/-- `WriteU16`. -/
def writeU16 (val : UInt16) : Write Unit := writeBits val.toNat 16

/-- `WriteU32`. -/
def writeU32 (val : UInt32) : Write Unit := writeBits val.toNat 32

/-- `WriteU64`. -/
def writeU64 (hi lo : UInt32) : Write Unit := do
  writeBits hi.toNat 32
  writeBits lo.toNat 32

/-- `WriteBytes`. -/
def writeBytes (data : List UInt8) : Write Unit := data.forM writeU8

/-- `AlignToByte`. -/
def alignToByte : Write Unit := fun w =>
  let rem := w.pos &&& 7
  if rem ≠ 0 then
    let pad := 8 - rem
    let w := w.ensure pad
    .ok ((), { w with pos := w.pos + pad })
  else .ok ((), w)

/-- `ToBytes`. -/
def BitWriter.toBytes (w : BitWriter) : List UInt8 := w.buf.take ((w.pos + 7) >>> 3)

/-! ## Variable-length numbers -/

/-- `writeVarUint`. -/
def writeVarUint (value : Nat) : Write Unit := do
  let b := UInt8.ofNat (value &&& 0x7F)
  let v := value >>> 7
  writeU8 (if v > 0 then b ||| 0x80 else b)
  if _h : v = 0 then pure () else writeVarUint v
termination_by value
decreasing_by
  simp only [v, Nat.shiftRight_eq_div_pow] at _h ⊢
  omega

/-- `writeVarInt`. -/
def writeVarInt (value : Int64) : Write Unit :=
  let raw := (value <<< 1).toUInt64 ^^^ (value >>> 63).toUInt64
  writeVarUint raw.toNat

/-- `varUintBits`. -/
def varUintBits (val : Nat) : Nat :=
  if _h : val >>> 7 = 0 then 8 else 8 + varUintBits (val >>> 7)
termination_by val
decreasing_by
  simp only [Nat.shiftRight_eq_div_pow] at _h ⊢
  omega

/-! ## The writer of the Python module -/

/-- The Python writer with the same buffer and cursor. -/
def BitWriter.python (w : BitWriter) : Python.BitWriter := ⟨w.buf, w.pos⟩

/-- The calls do the same to a buffer and a cursor. -/
abbrev Sim {α : Type} (m : Write α) (n : Python.Write α) : Prop := Simulates BitWriter.python m n

theorem newCapLoop_eq (needed fuel newCap : Nat) :
    newCapLoop needed fuel newCap = Python.capLoop needed fuel newCap := by
  induction fuel generalizing newCap with
  | zero => rfl
  | succ fuel ih => rw [newCapLoop, Python.capLoop, ih]

theorem python_newBitWriter (initialCap : Nat) :
    (newBitWriter initialCap).python = Python.BitWriter.init initialCap := by
  rw [newBitWriter, BitWriter.python, Python.BitWriter.init]
  simp only [ite_not]

theorem python_ensure (w : BitWriter) (nBits : Nat) : (w.ensure nBits).python = w.python.ensure nBits := by
  have hpos : w.python.pos = w.pos := rfl
  have hbuf : w.python.buf = w.buf := rfl
  simp only [BitWriter.ensure, Python.BitWriter.ensure, newCapLoop_eq, hpos, hbuf]
  by_cases h : (w.pos + nBits + 7) >>> 3 ≤ w.buf.length
  · rw [if_pos h, if_pos h]
  · rw [if_neg h, if_neg h]
    rfl

theorem python_putBit (w : BitWriter) (bit : Nat) : (w.putBit bit).python = w.python.putBit bit := rfl

theorem python_writeBitsLoop (value n : Nat) (w : BitWriter) :
    (writeBitsLoop value n w).python = Python.writeBitsLoop value n w.python := by
  induction n generalizing w with
  | zero => rfl
  | succ n ih => rw [writeBitsLoop, ih, python_putBit, Python.writeBitsLoop]

theorem position_sim : Sim position Python.position := fun _ => rfl

theorem writeBits_sim (value n : Nat) : Sim (writeBits value n) (Python.writeBits value n) := by
  intro w
  rw [writeBits, Python.writeBits]
  split_ifs
  · rfl
  · rw [← python_ensure, ← python_writeBitsLoop]
    rfl

theorem writeBit_sim (val : Nat) : Sim (writeBit val) (Python.writeBit val) := by
  intro w
  rw [writeBit, Python.writeBit, ← python_ensure, ← python_putBit]
  rfl

theorem alignToByte_sim : Sim alignToByte Python.alignToByte := by
  intro w
  have hpos : w.python.pos = w.pos := rfl
  simp only [alignToByte, Python.alignToByte, hpos]
  by_cases hrem : w.pos &&& 7 ≠ 0
  · rw [if_pos hrem, if_pos hrem, ← python_ensure]
    rfl
  · rw [if_neg hrem, if_neg hrem]
    rfl

/-- The Python fields mask their value, which is in range here. -/
theorem writeMasked_sim {v n : Nat} (h : v < 2 ^ n) :
    Sim (writeBits v n) (Python.writeBits (v &&& (2 ^ n - 1)) n) := by
  rw [Nat.and_two_pow_sub_one_eq_mod, Nat.mod_eq_of_lt h]
  exact writeBits_sim v n

theorem writeU8_sim (val : UInt8) : Sim (writeU8 val) (Python.writeU8 val.toNat) := writeMasked_sim val.toNat_lt

theorem writeU16_sim (val : UInt16) : Sim (writeU16 val) (Python.writeU16 val.toNat) :=
  writeMasked_sim val.toNat_lt

theorem writeU32_sim (val : UInt32) : Sim (writeU32 val) (Python.writeU32 val.toNat) :=
  writeMasked_sim val.toNat_lt

theorem writeBytes_sim (data : List UInt8) : Sim (writeBytes data) (Python.writeBytes data) :=
  .forM data fun b _ => writeU8_sim b

theorem writeVarUintLoop_sim (value : Nat) : Sim (writeVarUint value) (Python.writeVarUintLoop value) := by
  induction value using Nat.strongRecOn with
  | ind value ih =>
    have hlow : value &&& 0x7F = value % 128 := Nat.and_two_pow_sub_one_eq_mod value 7
    have hrest : value >>> 7 = value / 128 := by rw [Nat.shiftRight_eq_div_pow]
    have hbyte : (if value / 128 > 0 then UInt8.ofNat (value % 128) ||| 0x80 else UInt8.ofNat (value % 128)).toNat =
        if value / 128 > 0 then value % 128 ||| 0x80 else value % 128 := by
      have hmod : value % 128 % 256 = value % 128 := by omega
      split_ifs
      · rw [UInt8.toNat_or, UInt8.toNat_ofNat', hmod]
        rfl
      · rw [UInt8.toNat_ofNat', hmod]
    have hfirst := writeU8_sim
      (if value / 128 > 0 then UInt8.ofNat (value % 128) ||| 0x80 else UInt8.ofNat (value % 128))
    rw [hbyte] at hfirst
    rw [writeVarUint, Python.writeVarUintLoop]
    simp only [hlow, hrest]
    refine hfirst.bind fun _ => ?_
    by_cases hlast : value / 128 = 0
    · rw [dif_pos hlast, dif_pos hlast]
      exact .pure _
    · rw [dif_neg hlast, dif_neg hlast]
      exact ih _ (by omega)

theorem writeVarUint_sim (value : Nat) : Sim (writeVarUint value) (Python.writeVarUint value) := by
  rw [Python.writeVarUint, if_neg (by omega)]
  exact writeVarUintLoop_sim value

theorem varUintBits_eq (val : Nat) : varUintBits val = Python.varUintBits val := by
  induction val using Nat.strongRecOn with
  | ind val ih =>
    rw [varUintBits, Python.varUintBits]
    split_ifs with h
    · rfl
    · rw [ih _ (by rw [Nat.shiftRight_eq_div_pow] at h ⊢; omega)]

end Triepack.Go
