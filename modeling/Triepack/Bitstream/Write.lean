import Triepack.Bitstream.Basic
import Triepack.Library.Leb128

/-!
# Writing bits

The buffer of a writer is longer than what was written to it, and everything past the cursor
is zero: alignment only moves the cursor and relies on that. `Writer.bits` is what was written
so far, and `Wr.Appends` is the one thing that the layers above use: from a valid writer at a
given position the operation succeeds and appends the given bits.
-/

namespace Triepack

open BitString

/-- The loop of `ensure_capacity` that raises the new capacity. -/
def growLoop (growth needed : Nat) : (fuel newCap : Nat) → Nat
  | 0, newCap => newCap
  | fuel + 1, newCap =>
    if newCap < needed then
      growLoop growth needed fuel (if growth > 0 then newCap + growth else newCap * 2)
    else newCap

/-- The capacity that `ensure_capacity` arrives at, in at most `needed` rounds. -/
def grownCap (w : Writer) (needed : Nat) : Nat :=
  growLoop w.growth needed needed (if w.growth > 0 then w.cap + w.growth else w.cap * 2)

/-- `ensure_capacity`. -/
def ensureCapacity (w : Writer) (nBits : Nat) : Writer :=
  let needed := (w.pos + nBits + 7) / 8
  if needed ≤ w.cap then w
  else { w with buf := w.buf ++ List.replicate (grownCap w needed - w.cap) 0 }

/-- One byte with a bit set or cleared, as in `write_bit_msb`. -/
def setBit (byte : UInt8) (bitIdx : Nat) (val : Nat) : UInt8 :=
  if val ≠ 0 then byte ||| ((1 : UInt8) <<< UInt8.ofNat bitIdx)
  else byte &&& ~~~((1 : UInt8) <<< UInt8.ofNat bitIdx)

/-- `write_bit_msb`. -/
def writeBitMsb (buf : List UInt8) (bitPos val : Nat) : List UInt8 :=
  buf.modify (bitPos / 8) fun byte => setBit byte (7 - bitPos % 8) val

/-- The loop of `tp_bs_write_bits` with the low `n` bits of the value left. -/
def writeBitsLoop (value : Nat) : (n : Nat) → Writer → Writer
  | 0, w => w
  | n + 1, w =>
    writeBitsLoop value n
      { w with buf := writeBitMsb w.buf w.pos ((value >>> n) &&& 1), pos := w.pos + 1 }

/-- `tp_bs_write_bits`. -/
def bsWriteBits (value n : Nat) : Wr Unit := fun w =>
  if n = 0 ∨ n > 64 then .error (.rc .invalidParam)
  else .ok ((), writeBitsLoop value n (ensureCapacity w n))

/-- `tp_bs_write_bit`. -/
def bsWriteBit (value : Nat) : Wr Unit := fun w =>
  let w := ensureCapacity w 1
  .ok ((), { w with buf := writeBitMsb w.buf w.pos (value &&& 1), pos := w.pos + 1 })

/-- `tp_bs_writer_align_to_byte`. -/
def bsWriterAlignToByte : Wr Unit := fun w =>
  if w.pos % 8 ≠ 0 then
    let w' := ensureCapacity w (8 - w.pos % 8)
    .ok ((), { w' with pos := w'.pos + (8 - w.pos % 8) })
  else .ok ((), w)

/-- `tp_bs_write_u8`. -/
def bsWriteU8 (val : UInt8) : Wr Unit := bsWriteBits val.toNat 8

/-- `tp_bs_write_u16`. -/
def bsWriteU16 (val : UInt16) : Wr Unit := bsWriteBits val.toNat 16

/-- `tp_bs_write_u32`. -/
def bsWriteU32 (val : UInt32) : Wr Unit := bsWriteBits val.toNat 32

/-- `tp_bs_write_u64`. -/
def bsWriteU64 (val : UInt64) : Wr Unit := bsWriteBits val.toNat 64

/-- `tp_bs_write_bytes`. -/
def bsWriteBytes : List UInt8 → Wr Unit
  | [] => pure ()
  | b :: bs => do
    bsWriteU8 b
    bsWriteBytes bs

/-- `tp_bs_write_varint_u`. -/
def bsWriteVarintU (value : Nat) : Wr Unit := do
  let byteVal := value &&& 0x7F
  let rest := value >>> 7
  bsWriteBits (if rest ≠ 0 then byteVal ||| 0x80 else byteVal) 8
  if _h : rest ≠ 0 then bsWriteVarintU rest else pure ()
termination_by value
decreasing_by
  simp only [rest, Nat.shiftRight_eq_div_pow] at _h ⊢
  omega

/-- The zigzag encoding in `tp_bs_write_varint_s`. -/
def zigzag (value : Int64) : UInt64 := (value.toUInt64 <<< 1) ^^^ (value >>> 63).toUInt64

/-- `tp_bs_write_varint_s`. -/
def bsWriteVarintS (value : Int64) : Wr Unit := bsWriteVarintU (zigzag value).toNat

/-! ## What was written -/

/-- The bits before the cursor. -/
def Writer.bits (w : Writer) : List Bool := (bytesBits w.buf).take w.pos

/-- The cursor is inside the allocated buffer and everything after it is zero. -/
structure Writer.Valid (w : Writer) : Prop where
  cap_pos : 0 < w.cap
  pos_le : w.pos ≤ 8 * w.cap
  tail_zero : (bytesBits w.buf).drop w.pos = List.replicate (8 * w.cap - w.pos) false

theorem Writer.Valid.create (initialCap growth : Nat) : (bsWriterCreate initialCap growth).Valid := by
  refine ⟨?_, Nat.zero_le _, ?_⟩
  · simp only [bsWriterCreate, Writer.cap, List.length_replicate, defaultWriterCap]
    split <;> omega
  · simp [bsWriterCreate, Writer.cap, bytesBits_replicate_zero]

@[simp] theorem bits_create (initialCap growth : Nat) :
    (bsWriterCreate initialCap growth).bits = [] := by simp [Writer.bits, bsWriterCreate]

theorem Writer.Valid.length_bits {w : Writer} (hw : w.Valid) : w.bits.length = w.pos := by
  have := hw.pos_le
  simp only [Writer.bits, List.length_take, length_bytesBits, Writer.cap] at *
  omega

theorem Writer.Valid.bytesBits_eq {w : Writer} (hw : w.Valid) :
    bytesBits w.buf = w.bits ++ List.replicate (8 * w.cap - w.pos) false := by
  rw [← hw.tail_zero, Writer.bits, List.take_append_drop]

/-- A valid writer is known from its bits and the zeros behind them. -/
theorem Writer.Valid.of_bytesBits {w : Writer} {bs : List Bool} {zeros : Nat}
    (hcap : 0 < w.cap) (hpos : w.pos = bs.length)
    (h : bytesBits w.buf = bs ++ List.replicate zeros false) : w.Valid ∧ w.bits = bs := by
  have hlen := congrArg List.length h
  simp only [length_bytesBits, List.length_append, List.length_replicate] at hlen
  have hzeros : zeros = 8 * w.cap - w.pos := by simp only [Writer.cap]; omega
  refine ⟨⟨hcap, by simp only [Writer.cap]; omega, ?_⟩, ?_⟩
  · rw [h, hpos, List.drop_left, hzeros, hpos]
  · rw [Writer.bits, h, hpos, List.take_left]

/-- From a valid writer at bit `p` the operation succeeds and appends `bs`. -/
def Wr.Appends {α : Type} (p : Nat) (m : Wr α) (bs : List Bool) (a : α) : Prop :=
  ∀ w : Writer, w.Valid → w.pos = p →
    ∃ w', m w = .ok (a, w') ∧ w'.Valid ∧ w'.bits = w.bits ++ bs

section Appends

variable {α β : Type} {p : Nat} {bs cs : List Bool} {a : α} {b : β}

theorem Wr.Appends.pure (p : Nat) (a : α) : Wr.Appends p (pure a) [] a :=
  fun w hw _ => ⟨w, rfl, hw, by simp⟩

theorem Wr.Appends.bind {m : Wr α} {f : α → Wr β} (hm : Wr.Appends p m bs a)
    (hf : Wr.Appends (p + bs.length) (f a) cs b) : Wr.Appends p (m >>= f) (bs ++ cs) b := by
  intro w hw hp
  obtain ⟨u, hu, huv, hub⟩ := hm w hw hp
  have hupos : u.pos = p + bs.length := by
    rw [← huv.length_bits, hub, List.length_append, hw.length_bits, hp]
  obtain ⟨t, ht, htv, htb⟩ := hf u huv hupos
  exact ⟨t, (Wr.bind_ok hu).trans ht, htv, by rw [htb, hub, List.append_assoc]⟩

theorem Wr.Appends.map {m : Wr α} (f : α → β) (hm : Wr.Appends p m bs a) :
    Wr.Appends p (do return f (← m)) bs (f a) := by
  have h := hm.bind (f := fun x => Pure.pure (f x)) (.pure _ (f a))
  rwa [List.append_nil] at h

/-- The result of an operation known to append. -/
theorem Wr.Appends.ok {m : Wr α} (hm : Wr.Appends p m bs a) {w w' : Writer} {a' : α}
    (hw : w.Valid) (hp : w.pos = p) (h : m w = .ok (a', w')) :
    a' = a ∧ w'.Valid ∧ w'.bits = w.bits ++ bs := by
  obtain ⟨t, ht, htv, htb⟩ := hm w hw hp
  obtain ⟨rfl, rfl⟩ : a' = a ∧ w' = t := by simpa using h.symm.trans ht
  exact ⟨rfl, htv, htb⟩

end Appends

/-! ## The primitive operations -/

theorem le_growLoop {growth needed fuel newCap : Nat} (hcap : 0 < newCap)
    (hfuel : needed ≤ newCap + fuel) : needed ≤ growLoop growth needed fuel newCap := by
  induction fuel generalizing newCap with
  | zero => simpa [growLoop] using hfuel
  | succ fuel ih =>
    rw [growLoop]
    split
    · split <;> exact ih (by omega) (by omega)
    · omega

theorem le_grownCap {w : Writer} (hw : w.Valid) (needed : Nat) : needed ≤ grownCap w needed := by
  have hcap := hw.cap_pos
  unfold grownCap
  split <;> exact le_growLoop (by omega) (by omega)

theorem le_cap_ensureCapacity {w : Writer} (hw : w.Valid) (nBits : Nat) :
    w.pos + nBits ≤ 8 * (ensureCapacity w nBits).cap := by
  simp only [ensureCapacity]
  split_ifs with hfits
  · omega
  · have hgrow := le_grownCap hw ((w.pos + nBits + 7) / 8)
    simp only [Writer.cap, List.length_append, List.length_replicate] at hfits ⊢
    omega

theorem ensureCapacity_spec {w : Writer} (hw : w.Valid) (nBits : Nat) :
    (ensureCapacity w nBits).Valid ∧ (ensureCapacity w nBits).bits = w.bits ∧
      (ensureCapacity w nBits).pos = w.pos := by
  have hpos : (ensureCapacity w nBits).pos = w.pos := by
    simp only [ensureCapacity]
    split_ifs <;> rfl
  have hbuf : ∃ n, (ensureCapacity w nBits).buf = w.buf ++ List.replicate n 0 := by
    simp only [ensureCapacity]
    split_ifs
    · exact ⟨0, by simp⟩
    · exact ⟨_, rfl⟩
  obtain ⟨n, hn⟩ := hbuf
  have hbits : bytesBits (ensureCapacity w nBits).buf =
      w.bits ++ List.replicate (8 * w.cap - w.pos + 8 * n) false := by
    rw [hn, bytesBits_append, hw.bytesBits_eq, bytesBits_replicate_zero, List.append_assoc,
      List.replicate_add]
  have hcap : 0 < (ensureCapacity w nBits).cap := by
    have := hw.cap_pos
    simp only [Writer.cap, hn, List.length_append, List.length_replicate] at *
    omega
  obtain ⟨hvalid, heq⟩ := Writer.Valid.of_bytesBits hcap (by rw [hpos, hw.length_bits]) hbits
  exact ⟨hvalid, heq, hpos⟩

theorem testBit_mask (i j : Fin 8) :
    ((1 : UInt8) <<< UInt8.ofNat i).toNat.testBit j = decide (j = i) ∧
      (~~~((1 : UInt8) <<< UInt8.ofNat i)).toNat.testBit j = decide (j ≠ i) := by
  decide +revert

theorem testBit_setBit (byte : UInt8) (val : Nat) {i j : Nat} (hi : i < 8) (hj : j < 8) :
    (setBit byte i val).toNat.testBit j =
      if j = i then decide (val ≠ 0) else byte.toNat.testBit j := by
  obtain ⟨hset, hclear⟩ := testBit_mask ⟨i, hi⟩ ⟨j, hj⟩
  simp only [Fin.mk.injEq] at hset hclear
  by_cases hv : val = 0
  · rw [setBit, if_neg (by simpa using hv), UInt8.toNat_and, Nat.testBit_and, hclear]
    by_cases hij : j = i <;> simp [hij, hv]
  · rw [setBit, if_pos hv, UInt8.toNat_or, Nat.testBit_or, hset]
    by_cases hij : j = i <;> simp [hij, hv]

theorem byteBits_setBit (byte : UInt8) (k val : Nat) (hk : k < 8) :
    byteBits (setBit byte (7 - k) val) = (byteBits byte).set k (decide (val ≠ 0)) := by
  refine List.ext_getElem? fun i => ?_
  by_cases hi : i < 8
  · rw [byteBits, getElem?_natBits _ _ _ hi, testBit_setBit _ _ (by omega) (by omega),
      List.getElem?_set, byteBits, getElem?_natBits _ _ _ hi, length_natBits]
    by_cases hki : k = i
    · simp [hki, hi]
    · simp [hki, show ¬ 7 - i = 7 - k by omega]
  · rw [List.getElem?_eq_none (by simp; omega), List.getElem?_eq_none (by simp; omega)]

theorem bytesBits_writeBitMsb (buf : List UInt8) (bitPos val : Nat) :
    bytesBits (writeBitMsb buf bitPos val) = (bytesBits buf).set bitPos (decide (val ≠ 0)) := by
  induction buf generalizing bitPos with
  | nil => simp [writeBitMsb]
  | cons b bs ih =>
    by_cases hpos : bitPos < 8
    · rw [writeBitMsb, Nat.div_eq_of_lt hpos, Nat.mod_eq_of_lt hpos, List.modify_zero_cons,
        bytesBits_cons, bytesBits_cons, byteBits_setBit b bitPos val hpos,
        List.set_append_left _ _ (by simpa using hpos)]
    · have hdiv : bitPos / 8 = (bitPos - 8) / 8 + 1 := by omega
      have hmod : bitPos % 8 = (bitPos - 8) % 8 := by omega
      have htail := ih (bitPos - 8)
      rw [writeBitMsb] at htail
      rw [writeBitMsb, hdiv, hmod, List.modify_succ_cons, bytesBits_cons, bytesBits_cons, htail,
        List.set_append_right _ _ (by simpa using hpos), length_byteBits]

/-- Writing one bit at the cursor. -/
theorem writeBitMsb_spec {w : Writer} (hw : w.Valid) (hroom : w.pos < 8 * w.cap) (val : Nat) :
    ({ w with buf := writeBitMsb w.buf w.pos val, pos := w.pos + 1 } : Writer).Valid ∧
      ({ w with buf := writeBitMsb w.buf w.pos val, pos := w.pos + 1 } : Writer).bits =
        w.bits ++ [decide (val ≠ 0)] := by
  have hcap : (writeBitMsb w.buf w.pos val).length = w.cap := by
    simp [writeBitMsb, Writer.cap]
  obtain ⟨zeros, hzeros⟩ : ∃ z, 8 * w.cap - w.pos = z + 1 := ⟨8 * w.cap - w.pos - 1, by omega⟩
  refine @Writer.Valid.of_bytesBits _ _ zeros ?_ ?_ ?_
  · rw [Writer.cap, hcap]
    exact hw.cap_pos
  · simp [hw.length_bits]
  · rw [bytesBits_writeBitMsb, hw.bytesBits_eq, hzeros, List.replicate_succ,
      List.set_append_right _ _ (by rw [hw.length_bits]), hw.length_bits, Nat.sub_self,
      List.set_cons_zero]
    simp

theorem writeBitsLoop_spec {v n : Nat} {w : Writer} (hw : w.Valid)
    (hroom : w.pos + n ≤ 8 * w.cap) :
    (writeBitsLoop v n w).Valid ∧ (writeBitsLoop v n w).bits = w.bits ++ natBits n v := by
  induction n generalizing w with
  | zero => exact ⟨hw, by simp [writeBitsLoop, natBits]⟩
  | succ n ih =>
    obtain ⟨hvalid, hbits⟩ := writeBitMsb_spec hw (by omega) ((v >>> n) &&& 1)
    have hbit : decide ((v >>> n) &&& 1 ≠ 0) = v.testBit n := by
      rw [Nat.and_one_is_mod, Nat.shiftRight_eq_div_pow, ← Nat.toNat_testBit]
      cases v.testBit n <;> rfl
    obtain ⟨hv, hb⟩ := ih hvalid (by
      simp only [Writer.cap, writeBitMsb, List.length_modify] at hroom ⊢
      omega)
    refine ⟨hv, ?_⟩
    rw [writeBitsLoop, hb, hbits, hbit, natBits]
    simp

theorem bsWriteBits_appends (p : Nat) {v n : Nat} (hn : 0 < n) (hn' : n ≤ 64) :
    Wr.Appends p (bsWriteBits v n) (natBits n v) () := by
  intro w hw _
  obtain ⟨hvalid, hbits, hpos⟩ := ensureCapacity_spec hw n
  have hroom := le_cap_ensureCapacity hw n
  obtain ⟨hv, hb⟩ := writeBitsLoop_spec (v := v) hvalid (by rw [hpos]; exact hroom)
  exact ⟨_, by rw [bsWriteBits, if_neg (by omega)], hv, by rw [hb, hbits]⟩

theorem bsWriteBit_appends (p value : Nat) :
    Wr.Appends p (bsWriteBit value) (natBits 1 value) () := by
  intro w hw _
  obtain ⟨hvalid, hbits, hpos⟩ := ensureCapacity_spec hw 1
  have hroom := le_cap_ensureCapacity hw 1
  obtain ⟨hv, hb⟩ := writeBitsLoop_spec (v := value) (n := 1) hvalid (by rw [hpos]; exact hroom)
  refine ⟨_, rfl, ?_, ?_⟩
  · simpa [writeBitsLoop] using hv
  · rw [← hbits]
    simpa [writeBitsLoop] using hb

/-- The zero bits that take position `p` to a byte boundary. -/
def padBits (p : Nat) : List Bool := List.replicate ((p + 7) / 8 * 8 - p) false

theorem bsWriterAlignToByte_appends (p : Nat) :
    Wr.Appends p bsWriterAlignToByte (padBits p) () := by
  intro w hw hp
  by_cases hrem : w.pos % 8 = 0
  · refine ⟨w, by rw [bsWriterAlignToByte, if_neg (by omega)], hw, ?_⟩
    rw [padBits, ← hp, show (w.pos + 7) / 8 * 8 - w.pos = 0 by omega]
    simp
  · have hpad : (p + 7) / 8 * 8 - p = 8 - w.pos % 8 := by omega
    obtain ⟨hvalid, hbits, hpos⟩ := ensureCapacity_spec hw (8 - w.pos % 8)
    have hroom := le_cap_ensureCapacity hw (8 - w.pos % 8)
    refine ⟨_, by rw [bsWriterAlignToByte, if_pos hrem], ?_⟩
    refine @Writer.Valid.of_bytesBits _ _
      (8 * (ensureCapacity w (8 - w.pos % 8)).cap - (w.pos + (8 - w.pos % 8)))
      hvalid.cap_pos ?_ ?_
    · rw [List.length_append, hw.length_bits, padBits, List.length_replicate, hpad, hpos]
    · change bytesBits (ensureCapacity w (8 - w.pos % 8)).buf = _
      rw [hvalid.bytesBits_eq, hbits, hpos, padBits, hpad, List.append_assoc,
        List.replicate_append_replicate]
      congr 2
      omega

theorem bsWriteBytes_appends (p : Nat) (bytes : List UInt8) :
    Wr.Appends p (bsWriteBytes bytes) (bytesBits bytes) () := by
  induction bytes generalizing p with
  | nil => exact .pure p ()
  | cons b bs ih =>
    rw [bytesBits_cons]
    exact (bsWriteBits_appends p (by omega) (by omega)).bind (ih _)

theorem or_continuation {b : Nat} (h : b < 128) : b ||| 0x80 = b + 128 := by
  have hall : ∀ c : Fin 128, c.val ||| 0x80 = c.val + 128 := by decide +kernel
  exact hall ⟨b, h⟩

theorem bsWriteVarintU_appends (p value : Nat) :
    Wr.Appends p (bsWriteVarintU value) (Leb128.bits value) () := by
  induction value using Nat.strongRecOn generalizing p with
  | ind value ih =>
    have hlow : value &&& 0x7F = value % 128 := Nat.and_two_pow_sub_one_eq_mod value 7
    have hrest : value >>> 7 = value / 128 := by rw [Nat.shiftRight_eq_div_pow]
    rw [bsWriteVarintU]
    simp only [hlow, hrest]
    by_cases hlast : value < 128
    · have hz : value / 128 = 0 := Nat.div_eq_of_lt hlast
      rw [Leb128.bits_of_lt hlast, ← List.append_nil (natBits 8 value)]
      simp only [hz, ne_eq, not_true_eq_false, if_false, dite_false, Nat.mod_eq_of_lt hlast]
      exact (bsWriteBits_appends p (by omega) (by omega)).bind (.pure _ ())
    · have hnz : value / 128 ≠ 0 := by omega
      rw [Leb128.bits_of_le (by omega)]
      simp only [hnz, ne_eq, not_false_eq_true, if_true, dite_true,
        or_continuation (Nat.mod_lt value (by omega : 128 > 0))]
      exact (bsWriteBits_appends p (by omega) (by omega)).bind (ih _ (by omega) _)

end Triepack
