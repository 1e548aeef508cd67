import Triepack.Bitstream.Read
import Triepack.Library.Leb128

/-!
# Reading LEB128 and zigzag numbers
-/

namespace Triepack

open BitString

def varintMaxGroups : Nat := 10

/-- The loop of `tp_bs_read_varint_u` with `groups` of its ten groups left. -/
def readVarintLoop : (groups shift val : Nat) → Rd Nat
  | 0, _, _ => Op.fail .overflow
  | groups + 1, shift, val => fun r =>
    if u64 (r.pos + 8) > r.bitLen then (.error (.rc .eof), r)
    else (do
      let byteVal ← bsReadBits 8
      let val := val ||| u64 ((byteVal &&& 0x7F) <<< shift)
      if byteVal &&& 0x80 = 0 then pure val
      else readVarintLoop groups (shift + 7) val) r

/-- `tp_bs_read_varint_u`. -/
def bsReadVarintU : Rd Nat := readVarintLoop varintMaxGroups 0 0

/-- The zigzag decoding in `tp_bs_read_varint_s`. -/
def unzigzag (raw : Nat) : Int64 :=
  if raw &&& 1 ≠ 0 then -(Int64.ofNat (raw >>> 1)) - 1 else Int64.ofNat (raw >>> 1)

/-- `tp_bs_read_varint_s`. -/
def bsReadVarintS : Rd Int64 := do return unzigzag (← bsReadVarintU)

/-! ## One group -/

theorem and_seven_bits (b : Nat) : b &&& 0x7F = b % 128 := Nat.and_two_pow_sub_one_eq_mod b 7

theorem and_continuation {b : Nat} (h : b < 256) : b &&& 0x80 = 0 ↔ b < 128 := by
  have hall : ∀ c : Fin 256, c.val &&& 0x80 = 0 ↔ c.val < 128 := by decide +kernel
  exact hall ⟨b, h⟩

theorem readVarintLoop_succ_within {r : Reader} (hr : r.Within) (groups shift val : Nat) :
    readVarintLoop (groups + 1) shift val r =
      (do
        let byteVal ← bsReadBits 8
        let val := val ||| u64 ((byteVal &&& 0x7F) <<< shift)
        if byteVal &&& 0x80 = 0 then pure val
        else readVarintLoop groups (shift + 7) val : Rd Nat) r := by
  simp only [readVarintLoop]
  split_ifs with heof
  · have hlen := hr.bitLen_lt
    have hpos := hr.pos_le
    rw [u64_of_lt (by omega)] at heof
    obtain ⟨_, hread⟩ | ⟨_, _, _, hle, _⟩ := bsReadBits_within hr (n := 8) (by omega) (by omega)
    · rw [Op.bind_error hread]
    · omega
  · rfl

theorem readVarintLoop_succ {r : Reader} (hr : r.Sound) (groups shift val : Nat) :
    readVarintLoop (groups + 1) shift val r =
      (do
        let byteVal ← bsReadBits 8
        let val := val ||| u64 ((byteVal &&& 0x7F) <<< shift)
        if byteVal &&& 0x80 = 0 then pure val
        else readVarintLoop groups (shift + 7) val : Rd Nat) r :=
  readVarintLoop_succ_within hr.within groups shift val

/-- Joining a group to the groups below it. -/
theorem or_group {val g shift : Nat} (hval : val < 2 ^ shift) (hg : g * 2 ^ shift < 2 ^ 64) :
    val ||| u64 (g <<< shift) = g * 2 ^ shift + val := by
  rw [Nat.shiftLeft_eq, u64_of_lt hg, Nat.or_comm, Nat.mul_comm, Nat.two_pow_add_eq_or_of_lt hval]

/-! ## Whole numbers -/

/-- The loop reads the number that stands at the cursor on top of the groups it has. -/
theorem readVarintLoop_of_at {n shift val v : Nat} {r : Reader} (hr : r.Within)
    (hat : At r.bits r.pos (Leb128.bits v)) (hn : shift + 7 * n = 70)
    (hval : val < 2 ^ shift) (hv : v * 2 ^ shift < 2 ^ 64) (hn' : 0 < n) :
    readVarintLoop n shift val r =
      (.ok (v * 2 ^ shift + val), { r with pos := r.pos + (Leb128.bits v).length }) := by
  induction n generalizing shift val v r with
  | zero => omega
  | succ n ih =>
    rw [readVarintLoop_succ_within hr]
    by_cases hlast : v < 128
    · rw [Leb128.bits_of_lt hlast] at hat
      have hread := bsReadBits_readsWithin (by omega) (by omega) (by omega) r hr hat
      rw [Op.bind_ok hread, length_natBits, Leb128.length_bits_of_lt hlast, and_seven_bits,
        if_pos ((and_continuation (by omega)).mpr hlast), Nat.mod_eq_of_lt hlast,
        or_group hval hv]
      rfl
    · have hsplit := Leb128.bits_of_le (show 128 ≤ v by omega)
      rw [hsplit] at hat
      have hread := bsReadBits_readsWithin (by omega) (by omega) (by omega) r hr hat.left
      have hmod : (v % 128 + 128) % 128 = v % 128 := by omega
      have hlow : v % 128 * 2 ^ shift < 2 ^ 64 :=
        lt_of_le_of_lt (Nat.mul_le_mul_right _ (Nat.mod_le v 128)) hv
      rw [Op.bind_ok hread, and_seven_bits, hmod,
        if_neg (by rw [and_continuation (by omega)]; omega), or_group hval hlow]
      have hpow : 2 ^ (shift + 7) = 128 * 2 ^ shift := by rw [pow_add]; ring
      have hdiv : 128 * (v / 128) + v % 128 = v := Nat.div_add_mod v 128
      have hval' : v % 128 * 2 ^ shift + val < 2 ^ (shift + 7) := by
        have : v % 128 * 2 ^ shift ≤ 127 * 2 ^ shift := Nat.mul_le_mul_right _ (by omega)
        omega
      have hsum : v / 128 * 2 ^ (shift + 7) + v % 128 * 2 ^ shift = v * 2 ^ shift := by
        rw [hpow]
        conv_rhs => rw [← hdiv]
        ring
      have hgroups : 0 < n := by
        rcases Nat.eq_zero_or_pos n with rfl | hpos
        · obtain rfl : shift = 63 := by omega
          omega
        · exact hpos
      rw [ih (hr.pass hat.left) hat.right (by omega) hval' (by omega) hgroups, hsplit,
        List.length_append, ← hsum]
      simp only [Nat.add_assoc]

theorem bsReadVarintU_readsWithin {v : Nat} (hv : v < 2 ^ 64) :
    Rd.ReadsWithin bsReadVarintU (Leb128.bits v) v := by
  intro r hr hat
  have h := @readVarintLoop_of_at 10 0 0 v r hr hat (by omega) (by simp) (by omega) (by omega)
  simpa [bsReadVarintU, varintMaxGroups] using h

theorem bsReadVarintU_reads {v : Nat} (hv : v < 2 ^ 64) :
    Rd.Reads bsReadVarintU (Leb128.bits v) v := (bsReadVarintU_readsWithin hv).reads

/-- What reading a number from a sound reader can do. -/
theorem readVarintLoop_sound {n shift val : Nat} {r : Reader} (hr : r.Sound)
    (hval : val < 2 ^ 64) :
    (∃ e r', readVarintLoop n shift val r = (.error (.rc e), r') ∧ r'.Sound ∧ r'.buf = r.buf) ∨
    ∃ v < 2 ^ 64, ∃ k, 0 < k ∧ r.pos + 8 * k ≤ r.bitLen ∧
      readVarintLoop n shift val r = (.ok v, { r with pos := r.pos + 8 * k }) := by
  induction n generalizing shift val r with
  | zero => exact .inl ⟨.overflow, r, rfl, hr, rfl⟩
  | succ n ih =>
    rw [readVarintLoop_succ hr]
    obtain ⟨_, hread⟩ | ⟨hle, b, hb, hread⟩ :=
      bsReadBits_sound hr (n := 8) (by omega) (by omega)
    · exact .inl ⟨.eof, r, Op.bind_error hread, hr, rfl⟩
    · rw [Op.bind_ok hread]
      have hval' : val ||| u64 ((b &&& 0x7F) <<< shift) < 2 ^ 64 :=
        Nat.or_lt_two_pow hval (u64_lt _)
      by_cases hlast : b &&& 0x80 = 0
      · rw [if_pos hlast]
        exact .inr ⟨_, hval', 1, by omega, hle, rfl⟩
      · rw [if_neg hlast]
        obtain ⟨e, r', he, hs, hbuf⟩ | ⟨v, hv, k, hk, hle', hok⟩ :=
          @ih (shift + 7) _ _ (hr.move hle) hval'
        · exact .inl ⟨e, r', he, hs, hbuf⟩
        · refine .inr ⟨v, hv, k + 1, by omega, ?_, ?_⟩
          · simp only at hle'
            omega
          · rw [hok]
            simp only [Prod.mk.injEq, Reader.mk.injEq, true_and]
            omega

theorem bsReadVarintU_sound {r : Reader} (hr : r.Sound) :
    (∃ e r', bsReadVarintU r = (.error (.rc e), r') ∧ r'.Sound ∧ r'.buf = r.buf) ∨
    ∃ v < 2 ^ 64, ∃ k, 0 < k ∧ r.pos + 8 * k ≤ r.bitLen ∧
      bsReadVarintU r = (.ok v, { r with pos := r.pos + 8 * k }) :=
  readVarintLoop_sound hr (by decide)

theorem bsReadVarintU_safe : Rd.Safe bsReadVarintU := by
  intro r hr
  obtain ⟨e, t, h, ht, hbuf⟩ | ⟨v, _, k, _, hle, h⟩ := bsReadVarintU_sound hr
  · rw [h]
    exact ⟨ht, hbuf, by simp⟩
  · rw [h]
    exact ⟨hr.move hle, rfl, by simp⟩

theorem bsReadVarintS_safe : Rd.Safe bsReadVarintS := bsReadVarintU_safe.bind fun _ => .pure _

end Triepack
