import Triepack.Bitstream.Fields

/-!
# The cursor of a reader

Every operation compares the position it would move to with the bit length, and computes that
position in 64 bits. Where the sum wraps it is small, and the comparison lets it pass.
-/

namespace Triepack

open BitString

/-- An operation that moves the cursor, with arguments of any size their types hold. -/
inductive CursorOp where
  | readBits (n : UInt32)
  | readBitsSigned (n : UInt32)
  | advance (n : UInt64)
  | seek (bitPos : UInt64)
  | alignToByte
  | directPtr (n : UInt64)
  | copyBits (n : UInt64) (w : Writer) (hw : w.Valid) (hcap : 8 * w.cap < 2 ^ 64)

namespace CursorOp

/-- How the operation ends, and the reader it leaves. -/
def run : CursorOp → Reader → Except Stop Unit × Reader
  | .readBits n, r => ((bsReadBits n.toNat r).1.map fun _ => (), (bsReadBits n.toNat r).2)
  | .readBitsSigned n, r =>
    ((bsReadBitsSigned n.toNat r).1.map fun _ => (), (bsReadBitsSigned n.toNat r).2)
  | .advance n, r => bsReaderAdvance n.toNat r
  | .seek bitPos, r => bsReaderSeek bitPos.toNat r
  | .alignToByte, r => bsReaderAlignToByte r
  | .directPtr n, r => ((bsReaderDirectPtr n.toNat r).1.map fun _ => (), (bsReaderDirectPtr n.toNat r).2)
  | .copyBits n w _ _, r => ((bsCopyBits n.toNat r w).1, (bsCopyBits n.toNat r w).2.1)

/-- Where the operation is asked to go, as a natural number. -/
def target : CursorOp → Reader → Nat
  | .readBits n, r => r.pos + n.toNat
  | .readBitsSigned n, r => r.pos + n.toNat
  | .advance n, r => r.pos + n.toNat
  | .seek bitPos, _ => bitPos.toNat
  | .alignToByte, r => (r.pos + 7) / 8 * 8
  | .directPtr n, r => r.pos + 8 * n.toNat
  | .copyBits n _ _ _, r => r.pos + n.toNat

/-- The operation ends with a result or a result code, the cursor inside: at its target when it
succeeds and where it was when it fails. -/
structure Exact (op : CursorOp) (r : Reader) : Prop where
  inside : (op.run r).2.pos ≤ (op.run r).2.bitLen
  moved : (op.run r).1 = .ok () → (op.run r).2 = { r with pos := op.target r }
  kept : ∀ e, (op.run r).1 = .error e → (∃ code, e = .rc code) ∧ (op.run r).2 = r

/-- No sum of the operation wraps around to a position that would be let pass. -/
def Fits : CursorOp → Reader → Prop
  | .readBits n, r => 0 < n.toNat → n.toNat ≤ 64 → r.pos + n.toNat < 2 ^ 64
  | .readBitsSigned n, r => 0 < n.toNat → n.toNat ≤ 64 → r.pos + n.toNat < 2 ^ 64
  | .advance n, r => r.pos + n.toNat < 2 ^ 64
  | .seek _, _ => True
  | .alignToByte, r => (r.pos + 7) / 8 * 8 < 2 ^ 64
  | .directPtr n, r =>
    r.pos % 8 = 0 → 2 ^ 64 ≤ r.pos + 8 * n.toNat → r.bitLen < (r.pos + 8 * n.toNat) % 2 ^ 64
  | .copyBits n w _ _, r =>
    r.pos + n.toNat < 2 ^ 64 ∧ (r.pos + n.toNat ≤ r.bitLen → w.pos + n.toNat + 7 < 2 ^ 64)

theorem Exact.of_error {op : CursorOp} {r : Reader} {code : TpErr}
    (h : op.run r = (.error (.rc code), r)) (hpos : r.pos ≤ r.bitLen) : op.Exact r := by
  refine ⟨by rw [h]; exact hpos, by simp [h], fun e he => ?_⟩
  rw [h] at he ⊢
  obtain rfl : Stop.rc code = e := by simpa using he
  exact ⟨⟨code, rfl⟩, rfl⟩

theorem Exact.of_ok {op : CursorOp} {r : Reader}
    (h : op.run r = (.ok (), { r with pos := op.target r })) (hle : op.target r ≤ r.bitLen) :
    op.Exact r := ⟨by rw [h]; exact hle, fun _ => by rw [h], by simp [h]⟩

/-- An operation that arrives anywhere else is not exact. -/
theorem Exact.not_of_pos {op : CursorOp} {r : Reader} (hne : (op.run r).2.pos ≠ r.pos)
    (htarget : (op.run r).2.pos ≠ op.target r) : ¬ op.Exact r := by
  intro h
  rcases hres : (op.run r).1 with e | ⟨⟩
  · exact hne (congrArg Reader.pos (h.kept e hres).2)
  · exact htarget (congrArg Reader.pos (h.moved hres))

end CursorOp

/-- The bits of the buffer up to a position that the bit length allows. -/
theorem at_window {r : Reader} (hbuf : r.bitLen ≤ 8 * r.buf.length) {n : Nat}
    (h : r.pos + n ≤ r.bitLen) : ∃ chunk, chunk.length = n ∧ At (bytesBits r.buf) r.pos chunk := by
  refine ⟨((bytesBits r.buf).drop r.pos).take n, ?_, at_take_drop _ _ _⟩
  rw [List.length_take, List.length_drop, length_bytesBits]
  omega

section Reads

variable {r : Reader} (hpos : r.pos ≤ r.bitLen) (hlen : r.bitLen < 2 ^ 64)
  (hbuf : r.bitLen ≤ 8 * r.buf.length)

include hpos hlen hbuf

/-- A field read, with a sum that fits and with one that wraps. -/
theorem bsReadBits_cursor (n : Nat) :
    (∃ code, bsReadBits n r = (.error (.rc code), r)) ∧ (0 < n → n ≤ 64 → r.pos + n < 2 ^ 64) ∨
    (∃ v, bsReadBits n r = (.ok v, { r with pos := r.pos + n })) ∧ r.pos + n ≤ r.bitLen ∨
    (0 < n ∧ n ≤ 64 ∧ 2 ^ 64 ≤ r.pos + n) ∧ (bsReadBits n r).2.pos = r.pos + n - 2 ^ 64 := by
  by_cases hn : n = 0 ∨ n > 64
  · exact .inl ⟨⟨.invalidParam, by rw [bsReadBits, if_pos hn]⟩, by omega⟩
  · by_cases hwrap : r.pos + n < 2 ^ 64
    · by_cases hend : r.pos + n ≤ r.bitLen
      · obtain ⟨chunk, rfl, hat⟩ := at_window hbuf hend
        refine .inr (.inl ⟨⟨bitsNat chunk, ?_⟩, hend⟩)
        rw [bsReadBits, if_neg hn, u64_of_lt hwrap, if_neg (by omega),
          bsReadBitsAt_of_at hat hwrap (by omega) (by omega)]
      · refine .inl ⟨⟨.eof, ?_⟩, fun _ _ => hwrap⟩
        rw [bsReadBits, if_neg hn, u64_of_lt hwrap, if_pos (by omega)]
    · have hsum : u64 (r.pos + n) = r.pos + n - 2 ^ 64 := by rw [u64]; omega
      refine .inr (.inr ⟨by omega, ?_⟩)
      rw [bsReadBits, if_neg hn, hsum, if_neg (by omega)]

theorem readBits_exact_iff (n : UInt32) :
    (CursorOp.readBits n).Exact r ↔ (CursorOp.readBits n).Fits r := by
  obtain ⟨⟨code, h⟩, hfits⟩ | ⟨⟨v, h⟩, hend⟩ | ⟨⟨hn, hn', hwrap⟩, hto⟩ :=
    bsReadBits_cursor hpos hlen hbuf n.toNat
  · exact iff_of_true (.of_error (by rw [CursorOp.run, h]; rfl) hpos) hfits
  · refine iff_of_true (.of_ok (by rw [CursorOp.run, h]; rfl) hend) fun _ _ => ?_
    omega
  · refine iff_of_false (CursorOp.Exact.not_of_pos ?_ ?_) fun h => ?_
    · simp only [CursorOp.run, hto]
      omega
    · simp only [CursorOp.run, hto, CursorOp.target]
      omega
    · have := h hn hn'
      omega

theorem readBitsSigned_exact_iff (n : UInt32) :
    (CursorOp.readBitsSigned n).Exact r ↔ (CursorOp.readBitsSigned n).Fits r := by
  have hrun : (CursorOp.readBitsSigned n).run r = (CursorOp.readBits n).run r := by
    simp only [CursorOp.run, bsReadBitsSigned_eq]
    cases (bsReadBits n.toNat r).1 <;> rfl
  have hsame : (CursorOp.readBitsSigned n).Exact r ↔ (CursorOp.readBits n).Exact r := by
    constructor
    · rintro ⟨hin, hmoved, hkept⟩
      rw [hrun] at hin hmoved hkept
      exact ⟨hin, hmoved, hkept⟩
    · rintro ⟨hin, hmoved, hkept⟩
      refine ⟨?_, ?_, ?_⟩
      all_goals rw [hrun]
      · exact hin
      · exact hmoved
      · exact hkept
  rw [hsame]
  exact readBits_exact_iff hpos hlen hbuf n

end Reads

section Moves

variable {r : Reader} (hpos : r.pos ≤ r.bitLen) (hlen : r.bitLen < 2 ^ 64)

include hpos

theorem seek_exact (bitPos : UInt64) : (CursorOp.seek bitPos).Exact r := by
  by_cases hend : bitPos.toNat ≤ r.bitLen
  · exact .of_ok (by rw [CursorOp.run, bsReaderSeek, if_neg (by omega)]; rfl) hend
  · exact .of_error (by rw [CursorOp.run, bsReaderSeek, if_pos (by omega)]) hpos

theorem directPtr_exact_iff (n : UInt64) :
    (CursorOp.directPtr n).Exact r ↔ (CursorOp.directPtr n).Fits r := by
  have hsum : u64 (r.pos + u64 (n.toNat * 8)) = (r.pos + 8 * n.toNat) % 2 ^ 64 := by
    rw [u64, u64, Nat.add_mod_mod, Nat.mul_comm]
  by_cases hal : r.pos % 8 = 0
  · by_cases hend : (r.pos + 8 * n.toNat) % 2 ^ 64 ≤ r.bitLen
    · have hrun : (CursorOp.directPtr n).run r =
          (.ok (), { r with pos := (r.pos + 8 * n.toNat) % 2 ^ 64 }) := by
        rw [CursorOp.run, bsReaderDirectPtr, if_neg (by omega), hsum, if_neg (by omega)]
        rfl
      by_cases hwrap : r.pos + 8 * n.toNat < 2 ^ 64
      · rw [Nat.mod_eq_of_lt hwrap] at hrun hend
        exact iff_of_true (.of_ok hrun hend) fun _ h => absurd hwrap (by omega)
      · refine iff_of_false (fun h => ?_) fun h => absurd (h hal (by omega)) (by omega)
        have hmoved := h.moved (by rw [hrun])
        rw [hrun] at hmoved
        have hto := congrArg Reader.pos hmoved
        simp only [CursorOp.target] at hto
        omega
    · refine iff_of_true (@CursorOp.Exact.of_error _ _ .eof ?_ hpos) fun _ _ => by omega
      rw [CursorOp.run, bsReaderDirectPtr, if_neg (by omega), hsum, if_pos (by omega)]
      rfl
  · refine iff_of_true (@CursorOp.Exact.of_error _ _ .notAligned ?_ hpos) fun h => absurd h hal
    rw [CursorOp.run, bsReaderDirectPtr, if_pos hal]
    rfl

include hlen

theorem advance_exact_iff (n : UInt64) :
    (CursorOp.advance n).Exact r ↔ (CursorOp.advance n).Fits r := by
  have hn := n.toNat_lt
  by_cases hwrap : r.pos + n.toNat < 2 ^ 64
  · refine iff_of_true ?_ hwrap
    by_cases hend : r.pos + n.toNat ≤ r.bitLen
    · exact .of_ok (by rw [CursorOp.run, bsReaderAdvance, u64_of_lt hwrap, if_neg (by omega)]; rfl) hend
    · exact .of_error (by rw [CursorOp.run, bsReaderAdvance, u64_of_lt hwrap, if_pos (by omega)]) hpos
  · have hsum : u64 (r.pos + n.toNat) = r.pos + n.toNat - 2 ^ 64 := by rw [u64]; omega
    have hto : ((CursorOp.advance n).run r).2.pos = r.pos + n.toNat - 2 ^ 64 := by
      rw [CursorOp.run, bsReaderAdvance, hsum, if_neg (by omega)]
    refine iff_of_false (CursorOp.Exact.not_of_pos ?_ ?_) hwrap
    · omega
    · simp only [hto, CursorOp.target]
      omega

theorem align_exact_iff : CursorOp.alignToByte.Exact r ↔ CursorOp.alignToByte.Fits r := by
  by_cases hrem : r.pos % 8 = 0
  · have htarget : (r.pos + 7) / 8 * 8 = r.pos := by omega
    refine iff_of_true (.of_ok ?_ (htarget.trans_le hpos)) (by simp only [CursorOp.Fits]; omega)
    simp only [CursorOp.run, bsReaderAlignToByte, CursorOp.target, htarget]
    rw [if_neg (by omega)]
  · have htarget : r.pos + (8 - r.pos % 8) = (r.pos + 7) / 8 * 8 := by omega
    by_cases hwrap : (r.pos + 7) / 8 * 8 < 2 ^ 64
    · refine iff_of_true ?_ hwrap
      by_cases hend : (r.pos + 7) / 8 * 8 ≤ r.bitLen
      · refine .of_ok ?_ hend
        rw [CursorOp.run, bsReaderAlignToByte, if_pos hrem, htarget, u64_of_lt hwrap,
          if_neg (by omega)]
        rfl
      · refine @CursorOp.Exact.of_error _ _ .eof ?_ hpos
        rw [CursorOp.run, bsReaderAlignToByte, if_pos hrem, htarget, u64_of_lt hwrap,
          if_pos (by omega)]
    · have hsum : u64 ((r.pos + 7) / 8 * 8) = 0 := by rw [u64]; omega
      have hto : (CursorOp.alignToByte.run r).2.pos = 0 := by
        rw [CursorOp.run, bsReaderAlignToByte, if_pos hrem, htarget, hsum, if_neg (by omega)]
      refine iff_of_false (CursorOp.Exact.not_of_pos ?_ ?_) hwrap
      · omega
      · simp only [hto, CursorOp.target]
        omega

end Moves

/-! ## Copying -/

/-- A copy touches a bit outside one of the buffers, or passes all its bits. -/
theorem copyBitsLoop_ends {n : Nat} {r : Reader} {w : Writer} (hr : r.pos < 2 ^ 64) :
    (∃ bit, (copyBitsLoop n r w).1 = .error (.oob bit)) ∨
    (copyBitsLoop n r w).1 = .ok () ∧
      (copyBitsLoop n r w).2.1 = { r with pos := u64 (r.pos + n) } := by
  induction n generalizing r w with
  | zero => exact .inr ⟨rfl, by rw [Nat.add_zero, u64_of_lt hr]; rfl⟩
  | succ n ih =>
    rw [copyBitsLoop]
    rcases hbit : readBitMsb r.buf r.pos with e | bit
    · rw [readBitMsb] at hbit
      split at hbit
      · simp at hbit
      · obtain rfl : Stop.oob r.pos = e := by simpa using hbit
        exact .inl ⟨r.pos, rfl⟩
    · simp only
      split_ifs with hroom
      · obtain h | ⟨hok, hto⟩ := @ih { r with pos := u64 (r.pos + 1) }
          { w with buf := writeBitMsb w.buf w.pos bit, pos := u64 (w.pos + 1) } (u64_lt _)
        · exact .inl h
        · refine .inr ⟨hok, ?_⟩
          rw [hto]
          simp only [u64, Nat.mod_add_mod, Nat.add_assoc, Nat.add_comm 1]
      · exact .inl ⟨w.pos, rfl⟩

/-- A copy that goes through had room for its bits. -/
theorem copyBitsLoop_room {n : Nat} {r : Reader} {w : Writer} (hw : w.pos ≤ 8 * w.cap)
    (hcap : 8 * w.cap < 2 ^ 64) (h : (copyBitsLoop n r w).1 = .ok ()) : w.pos + n ≤ 8 * w.cap := by
  induction n generalizing r w with
  | zero => exact hw
  | succ n ih =>
    rw [copyBitsLoop] at h
    rcases hbit : readBitMsb r.buf r.pos with e | bit
    · simp [hbit] at h
    · simp only [hbit] at h
      split_ifs at h with hroom
      · have hlen : (writeBitMsb w.buf w.pos bit).length = w.buf.length := by simp [writeBitMsb]
        rw [u64_of_lt (by omega : w.pos + 1 < 2 ^ 64)] at h
        have hle := ih (w := { w with buf := writeBitMsb w.buf w.pos bit, pos := w.pos + 1 })
          (by simp only [Writer.cap, hlen] at hroom ⊢; omega)
          (by simpa only [Writer.cap, hlen] using hcap) h
        simp only [Writer.cap, hlen] at hle ⊢
        omega

theorem copyBits_exact_iff {r : Reader} (hpos : r.pos ≤ r.bitLen) (hlen : r.bitLen < 2 ^ 64)
    (hbuf : r.bitLen ≤ 8 * r.buf.length) (n : UInt64) (w : Writer) (hw : w.Valid)
    (hcap : 8 * w.cap < 2 ^ 64) :
    (CursorOp.copyBits n w hw hcap).Exact r ↔ (CursorOp.copyBits n w hw hcap).Fits r := by
  have hn := n.toNat_lt
  -- a copy that stops at a bit outside is not exact
  have hoob : ∀ bit, ((CursorOp.copyBits n w hw hcap).run r).1 = .error (.oob bit) →
      ¬ (CursorOp.copyBits n w hw hcap).Exact r := by
    intro bit hbit h
    obtain ⟨⟨code, hcode⟩, _⟩ := h.kept _ hbit
    simp at hcode
  by_cases hwrap : r.pos + n.toNat < 2 ^ 64
  · by_cases hend : r.pos + n.toNat ≤ r.bitLen
    · by_cases hroom : w.pos + n.toNat + 7 < 2 ^ 64
      · refine iff_of_true ?_ ⟨hwrap, fun _ => hroom⟩
        obtain ⟨chunk, hchunk, hat⟩ := at_window hbuf hend
        obtain ⟨hvalid, _, hsame⟩ := ensureCapacity_spec hw n.toNat
        have hspace := le_cap_ensureCapacity hw n.toNat
        obtain ⟨w', hloop, _⟩ := copyBitsLoop_spec hat (by omega) hvalid (by omega)
          (by rw [hsame]; omega)
        refine .of_ok ?_ hend
        rw [hchunk] at hloop
        rw [CursorOp.run, bsCopyBits, u64_of_lt hwrap, if_neg (by omega), ensureCapacityU64_eq hroom,
          hloop]
        rfl
      · refine iff_of_false ?_ fun h => hroom (h.2 hend)
        have hkeep : ensureCapacityU64 w n.toNat = w := by
          have hle := hw.pos_le
          have hsum : u64 (w.pos + n.toNat + 7) = w.pos + n.toNat + 7 - 2 ^ 64 := by rw [u64]; omega
          rw [ensureCapacityU64, hsum, if_pos (by omega)]
        have hrun : ((CursorOp.copyBits n w hw hcap).run r).1 = (copyBitsLoop n.toNat r w).1 := by
          rw [CursorOp.run, bsCopyBits, u64_of_lt hwrap, if_neg (by omega), hkeep]
        obtain ⟨bit, hbit⟩ | ⟨hok, _⟩ := @copyBitsLoop_ends n.toNat r w (by omega)
        · exact hoob bit (hrun.trans hbit)
        · have hle := copyBitsLoop_room hw.pos_le hcap hok
          omega
    · refine iff_of_true (@CursorOp.Exact.of_error _ _ .eof ?_ hpos) ⟨hwrap, fun h => absurd h hend⟩
      rw [CursorOp.run, bsCopyBits, u64_of_lt hwrap, if_pos (by omega)]
  · refine iff_of_false ?_ fun h => hwrap h.1
    have hsum : u64 (r.pos + n.toNat) = r.pos + n.toNat - 2 ^ 64 := by rw [u64]; omega
    have hrun : (CursorOp.copyBits n w hw hcap).run r =
        ((copyBitsLoop n.toNat r (ensureCapacityU64 w n.toNat)).1,
          (copyBitsLoop n.toNat r (ensureCapacityU64 w n.toNat)).2.1) := by
      rw [CursorOp.run, bsCopyBits, hsum, if_neg (by omega)]
    obtain ⟨bit, hbit⟩ | ⟨_, hto⟩ :=
      @copyBitsLoop_ends n.toNat r (ensureCapacityU64 w n.toNat) (by omega)
    · exact hoob bit (by rw [hrun]; exact hbit)
    · refine CursorOp.Exact.not_of_pos ?_ ?_
      · rw [hrun, hto]
        simp only [hsum]
        omega
      · rw [hrun, hto]
        simp only [hsum, CursorOp.target]
        omega

/-- An operation is exact when no sum it computes wraps to a position that is let pass. -/
theorem cursor_exact_iff {r : Reader} (hpos : r.pos ≤ r.bitLen) (hlen : r.bitLen < 2 ^ 64)
    (hbuf : r.bitLen ≤ 8 * r.buf.length) (op : CursorOp) : op.Exact r ↔ op.Fits r := by
  cases op with
  | readBits n => exact readBits_exact_iff hpos hlen hbuf n
  | readBitsSigned n => exact readBitsSigned_exact_iff hpos hlen hbuf n
  | advance n => exact advance_exact_iff hpos hlen n
  | seek bitPos => exact iff_of_true (seek_exact hpos bitPos) trivial
  | alignToByte => exact align_exact_iff hpos hlen
  | directPtr n => exact directPtr_exact_iff hpos n
  | copyBits n w hw hcap => exact copyBits_exact_iff hpos hlen hbuf n w hw hcap

/-- A copy of eleven bits out of two bytes into a writer of one. -/
theorem cursor_exact_iff_copy :
    (CursorOp.copyBits 11 ⟨[0], 0, 0⟩ ⟨by decide, by decide, by decide⟩ (by decide)).Exact
        ⟨[0xAB, 0xCD], 16, 3⟩ ↔
      (CursorOp.copyBits 11 ⟨[0], 0, 0⟩ ⟨by decide, by decide, by decide⟩ (by decide)).Fits
        ⟨[0xAB, 0xCD], 16, 3⟩ :=
  cursor_exact_iff (by decide) (by decide) (by decide) _

/-- An advance by `2 ^ 64 - 8` succeeds and moves the cursor back by a byte. -/
theorem advance_moves_back :
    (CursorOp.advance 0xFFFFFFFFFFFFFFF8).run ⟨[0, 0], 16, 8⟩ = (.ok (), ⟨[0, 0], 16, 0⟩) ∧
      ¬ (CursorOp.advance 0xFFFFFFFFFFFFFFF8).Exact ⟨[0, 0], 16, 8⟩ := by
  refine ⟨by decide +kernel, CursorOp.Exact.not_of_pos ?_ ?_⟩
  · decide +kernel
  · decide +kernel

end Triepack
