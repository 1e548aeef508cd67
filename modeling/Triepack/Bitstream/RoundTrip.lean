import Triepack.Bitstream.Varint
import Triepack.Bitstream.Write

/-!
# Zigzag numbers read back
-/

namespace Triepack

open BitString

theorem toInt_eq_toUInt64 (v : Int64) :
    v.toInt = if 2 * v.toUInt64.toNat < 2 ^ 64 then (v.toUInt64.toNat : Int)
      else (v.toUInt64.toNat : Int) - 2 ^ 64 := by
  have h := BitVec.toInt_eq_toNat_cond v.toBitVec
  rw [Int64.toNat_toBitVec, Int64.toInt_toBitVec] at h
  simpa using h

theorem shiftRight_sign (v : Int64) :
    v >>> 63 = if 2 * v.toUInt64.toNat < 2 ^ 64 then 0 else -1 := by
  have hlt := v.toUInt64.toNat_lt
  have hint := toInt_eq_toUInt64 v
  have hdiv : (v >>> 63).toInt = v.toInt / 2 ^ 63 := by
    have hsmod : (63 : Int64).toBitVec.smod 64 = 63#64 := by decide
    rw [← Int64.toInt_toBitVec, Int64.toBitVec_shiftRight, hsmod, BitVec.toInt_sshiftRight',
      Int.shiftRight_eq_div_pow]
    rfl
  apply Int64.toInt_inj.mp
  rw [hdiv, hint]
  split_ifs
  · simp; omega
  · simp; omega

theorem toNat_zigzag (v : Int64) : (zigzag v).toNat =
    if 2 * v.toUInt64.toNat < 2 ^ 64 then 2 * v.toUInt64.toNat
    else 2 * (2 ^ 64 - v.toUInt64.toNat) - 1 := by
  have hlt := v.toUInt64.toNat_lt
  have hshift : (v.toUInt64 <<< 1).toNat = 2 * v.toUInt64.toNat % 2 ^ 64 := by
    rw [UInt64.toNat_shiftLeft]
    simp [Nat.shiftLeft_eq, Nat.mul_comm]
  rw [zigzag, shiftRight_sign]
  split_ifs with h
  · rw [show (0 : Int64).toUInt64 = 0 from rfl, UInt64.xor_zero, hshift, Nat.mod_eq_of_lt h]
  · have hones : ∀ u : UInt64, u ^^^ (-1 : Int64).toUInt64 = ~~~u := by
      intro u
      apply UInt64.toBitVec_inj.mp
      exact BitVec.xor_allOnes
    rw [hones, UInt64.toNat_not, hshift]
    simp [UInt64.size]
    omega

theorem unzigzag_zigzag (v : Int64) : unzigzag (zigzag v).toNat = v := by
  have hlt := v.toUInt64.toNat_lt
  have hint := toInt_eq_toUInt64 v
  apply Int64.toInt_inj.mp
  rw [unzigzag, toNat_zigzag, Nat.and_one_is_mod, Nat.shiftRight_eq_div_pow]
  by_cases hpos : 2 * v.toUInt64.toNat < 2 ^ 64
  · rw [if_pos hpos] at hint ⊢
    rw [if_neg (by omega), Int64.toInt_ofNat_of_lt (by omega)]
    omega
  · rw [if_neg hpos] at hint ⊢
    rw [if_pos (by omega), Int64.toInt_sub, Int64.toInt_neg_ofNat_of_le (by omega)]
    rw [Int64.toInt_one, Int.bmod_eq_of_le] <;> omega

theorem bsWriteVarintS_appends (p : Nat) (v : Int64) :
    Wr.Appends p (bsWriteVarintS v) (Leb128.bits (zigzag v).toNat) () :=
  bsWriteVarintU_appends p _

theorem bsReadVarintS_readsWithin (v : Int64) :
    Rd.ReadsWithin bsReadVarintS (Leb128.bits (zigzag v).toNat) v := by
  have h := (bsReadVarintU_readsWithin (zigzag v).toNat_lt).map unzigzag
  rwa [unzigzag_zigzag] at h

theorem bsReadVarintS_reads (v : Int64) :
    Rd.Reads bsReadVarintS (Leb128.bits (zigzag v).toNat) v := (bsReadVarintS_readsWithin v).reads

/-! ## Reading what a writer holds -/

/-- A reader over the buffer of a writer that sees at least what was written. -/
structure Reader.Over (r : Reader) (w : Writer) : Prop where
  within : r.Within
  buf_eq : r.buf = w.buf
  pos_le : w.pos ≤ r.bitLen

/-- `tp_bs_writer_to_reader`. -/
def bsWriterToReader (w : Writer) : Reader := ⟨w.buf, w.pos, 0⟩

theorem Writer.Valid.over {w : Writer} (hw : w.Valid) (hlt : w.pos + 64 < 2 ^ 64) :
    (bsWriterToReader w).Over w := ⟨⟨hw.pos_le, hlt, Nat.zero_le _⟩, rfl, le_rfl⟩

/-- What was written behind `pre` stands there for the reader. -/
theorem Reader.Over.at_of_bits {r : Reader} {w : Writer} (hr : r.Over w) {pre bs : List Bool}
    (h : w.bits = pre ++ bs) : At r.bits pre.length bs := by
  have hprefix : w.bits <+: r.bits := by
    rw [Writer.bits, Reader.bits, hr.buf_eq]
    exact List.take_prefix_take_left hr.pos_le
  obtain ⟨rest, hrest⟩ := hprefix
  exact at_of_eq_append (by rw [← hrest, h])

end Triepack
