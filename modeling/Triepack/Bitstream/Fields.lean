import Triepack.Bitstream.RoundTrip
import Triepack.Library.Json

/-!
# Signed fields, code points and whole buffers

The operations on streams that the dictionary format does not use. A signed field is its value
modulo `2 ^ n`, extended again by its top bit; a code point is its UTF-8 bytes; a buffer is
appended or copied bit by bit.
-/

namespace Triepack

open BitString

/-! ## Signed fields -/

/-- The sign extension in `tp_bs_read_bits_signed_at`. -/
def signExtend (n raw : Nat) : Int64 :=
  Int64.ofNat (if n < 64 ∧ raw &&& (1 <<< (n - 1)) ≠ 0 then raw ||| (2 ^ 64 - 1 - ((1 <<< n) - 1))
    else raw)

/-- `tp_bs_read_bits_signed_at`. -/
def bsReadBitsSignedAt (buf : List UInt8) (bitPos n : Nat) : Except Stop Int64 :=
  if n = 0 ∨ n > 64 then .error (.rc .invalidParam)
  else (bsReadBitsAt buf bitPos n).map (signExtend n)

/-- `tp_bs_read_bits_signed`. -/
def bsReadBitsSigned (n : Nat) : Rd Int64 := fun r =>
  if n = 0 ∨ n > 64 then (.error (.rc .invalidParam), r)
  else if u64 (r.pos + n) > r.bitLen then (.error (.rc .eof), r)
  else (bsReadBitsSignedAt r.buf r.pos n, { r with pos := u64 (r.pos + n) })

/-- `tp_bs_write_bits_signed`. -/
def bsWriteBitsSigned (value : Int64) (n : Nat) : Wr Unit :=
  if n = 0 ∨ n > 64 then Wr.fail .invalidParam
  else
    let raw := value.toUInt64.toNat
    bsWriteBits (if n < 64 then raw &&& ((1 <<< n) - 1) else raw) n

theorem or_signMask {n raw : Nat} (hn : n ≤ 64) (hraw : raw < 2 ^ n) :
    raw ||| (2 ^ 64 - 1 - ((1 <<< n) - 1)) = 2 ^ 64 - 2 ^ n + raw := by
  have hpow : 2 ^ 64 = 2 ^ n * 2 ^ (64 - n) := by rw [← pow_add, Nat.add_sub_cancel' hn]
  have hmask : 2 ^ 64 - 1 - ((1 <<< n) - 1) = 2 ^ n * (2 ^ (64 - n) - 1) := by
    have hpos := Nat.two_pow_pos n
    rw [Nat.shiftLeft_eq, Nat.mul_sub, ← hpow]
    omega
  rw [Nat.or_comm, hmask, ← Nat.two_pow_add_eq_or_of_lt hraw, Nat.mul_sub, ← hpow, Nat.mul_one]

theorem and_signBit {n raw : Nat} (hn : 0 < n) (hraw : raw < 2 ^ n) :
    raw &&& (1 <<< (n - 1)) ≠ 0 ↔ 2 ^ n ≤ 2 * raw := by
  have hpow : 2 ^ n = 2 * 2 ^ (n - 1) := by rw [← pow_succ', Nat.sub_add_cancel hn]
  have hpos := Nat.two_pow_pos (n - 1)
  rw [Nat.shiftLeft_eq, Nat.one_mul, Nat.and_two_pow, Nat.testBit_eq_decide_div_mod_eq]
  by_cases htop : 2 ^ (n - 1) ≤ raw
  · have hdiv : raw / 2 ^ (n - 1) = 1 := Nat.div_eq_of_lt_le (by omega) (by omega)
    simp only [hdiv]
    simp
    omega
  · rw [Nat.div_eq_of_lt (by omega)]
    simp
    omega

/-- A field is extended to the number of its residue that is nearest to zero. -/
theorem toInt_signExtend {n raw : Nat} (hn : 0 < n) (hn' : n ≤ 64) (hraw : raw < 2 ^ n) :
    (signExtend n raw).toInt = Int.bmod raw (2 ^ n) := by
  have hword : ∀ k : Nat, (Int64.ofNat k).toInt = Int.bmod k (2 ^ 64) := fun _ => Int64.toInt_ofNat'
  rw [signExtend, hword]
  have hle : 2 ^ n ≤ 2 ^ 64 := Nat.pow_le_pow_right (by omega) hn'
  have hmod : (raw : Int) % ((2 ^ n : Nat) : Int) = raw :=
    Int.emod_eq_of_lt (by omega) (by exact_mod_cast hraw)
  split_ifs with htop
  · rw [and_signBit hn hraw] at htop
    have hhalf : 2 ^ n * 2 ≤ 2 ^ 64 := by
      have := Nat.pow_le_pow_right (n := 2) (by omega) (show n + 1 ≤ 64 by omega)
      rwa [pow_succ] at this
    rw [or_signMask hn' hraw, Int.bmod_def, Int.bmod_def, hmod]
    have hwide : ((2 ^ 64 - 2 ^ n + raw : Nat) : Int) % ((2 ^ 64 : Nat) : Int) =
        (2 ^ 64 - 2 ^ n + raw : Nat) := Int.emod_eq_of_lt (by omega) (by omega)
    rw [hwide]
    split_ifs <;> omega
  · rcases Nat.lt_or_ge n 64 with hlt | hge
    · have hlow : 2 * raw < 2 ^ n := by
        by_contra h
        exact htop ⟨hlt, (and_signBit hn hraw).mpr (by omega)⟩
      have hwide : (raw : Int) % ((2 ^ 64 : Nat) : Int) = raw :=
        Int.emod_eq_of_lt (by omega) (by omega)
      rw [Int.bmod_def, Int.bmod_def, hmod, hwide]
      split_ifs <;> omega
    · obtain rfl : n = 64 := by omega
      rfl

/-- The number nearest to zero that has the low `n` bits of `v`. -/
def lowBitsSigned (n : Nat) (v : Int64) : Int64 := signExtend n (v.toUInt64.toNat % 2 ^ n)

theorem toInt_lowBitsSigned {n : Nat} (hn : 0 < n) (hn' : n ≤ 64) (v : Int64) :
    (lowBitsSigned n v).toInt = Int.bmod v.toInt (2 ^ n) := by
  have hdvd : ((2 ^ n : Nat) : Int) ∣ ((2 ^ 64 : Nat) : Int) := by
    exact_mod_cast Nat.pow_dvd_pow 2 hn'
  have hmod : ((v.toUInt64.toNat % 2 ^ n : Nat) : Int) = v.toInt % ((2 ^ n : Nat) : Int) := by
    rw [toInt_eq_toUInt64, Int.natCast_emod]
    split_ifs
    · rfl
    · have hsub : (v.toUInt64.toNat : Int) - 2 ^ 64 =
          (v.toUInt64.toNat : Int) - ((2 ^ 64 : Nat) : Int) := by norm_num
      rw [hsub, Int.sub_emod, Int.emod_eq_zero_of_dvd hdvd, Int.sub_zero, Int.emod_emod]
  rw [lowBitsSigned, toInt_signExtend hn hn' (Nat.mod_lt _ (Nat.two_pow_pos n)), hmod, Int.emod_bmod]

theorem bsWriteBitsSigned_appends (p : Nat) {n : Nat} (value : Int64) (hn : 0 < n) (hn' : n ≤ 64) :
    Wr.Appends p (bsWriteBitsSigned value n) (natBits n value.toUInt64.toNat) () := by
  have hraw : natBits n (if n < 64 then value.toUInt64.toNat &&& ((1 <<< n) - 1)
      else value.toUInt64.toNat) = natBits n value.toUInt64.toNat := by
    split_ifs
    · rw [Nat.shiftLeft_eq, Nat.one_mul, Nat.and_two_pow_sub_one_eq_mod, natBits_mod]
    · rfl
  have h := bsWriteBits_appends p (v := if n < 64 then value.toUInt64.toNat &&& ((1 <<< n) - 1)
      else value.toUInt64.toNat) hn hn'
  rw [hraw] at h
  rw [bsWriteBitsSigned, if_neg (by omega)]
  exact h

/-- The signed read is the unsigned one with its result extended. -/
theorem bsReadBitsSigned_eq (n : Nat) (r : Reader) :
    bsReadBitsSigned n r = ((bsReadBits n r).1.map (signExtend n), (bsReadBits n r).2) := by
  unfold bsReadBitsSigned bsReadBits bsReadBitsSignedAt
  split_ifs <;> rfl

theorem bsReadBitsSigned_readsWithin {n : Nat} (value : Int64) (hn : 0 < n) (hn' : n ≤ 64) :
    Rd.ReadsWithin (bsReadBitsSigned n) (natBits n value.toUInt64.toNat) (lowBitsSigned n value) := by
  intro r hr hat
  rw [← natBits_mod] at hat
  have h := bsReadBits_readsWithin hn hn' (Nat.mod_lt _ (Nat.two_pow_pos n)) r hr hat
  rw [length_natBits] at h
  rw [bsReadBitsSigned_eq, h, length_natBits]
  rfl

/-! ## Code points -/

/-- `tp_bs_write_utf8`. -/
def bsWriteUtf8 (cp : Nat) : Wr Unit :=
  if cp ≥ 0xD800 ∧ cp ≤ 0xDFFF then Wr.fail .invalidUtf8
  else if cp ≤ 0x7F then bsWriteU8 (.ofNat cp)
  else if cp ≤ 0x7FF then do
    bsWriteU8 (.ofNat (0xC0 ||| cp >>> 6))
    bsWriteU8 (.ofNat (0x80 ||| cp &&& 0x3F))
  else if cp ≤ 0xFFFF then do
    bsWriteU8 (.ofNat (0xE0 ||| cp >>> 12))
    bsWriteU8 (.ofNat (0x80 ||| (cp >>> 6) &&& 0x3F))
    bsWriteU8 (.ofNat (0x80 ||| cp &&& 0x3F))
  else if cp ≤ 0x10FFFF then do
    bsWriteU8 (.ofNat (0xF0 ||| cp >>> 18))
    bsWriteU8 (.ofNat (0x80 ||| (cp >>> 12) &&& 0x3F))
    bsWriteU8 (.ofNat (0x80 ||| (cp >>> 6) &&& 0x3F))
    bsWriteU8 (.ofNat (0x80 ||| cp &&& 0x3F))
  else Wr.fail .invalidUtf8

/-- The loop over the continuation bytes in `tp_bs_read_utf8`. -/
def readContinuation : (cont cp : Nat) → Rd Nat
  | 0, cp => pure cp
  | cont + 1, cp => do
    let b ← bsReadU8
    if b.toNat &&& 0xC0 ≠ 0x80 then Op.fail .invalidUtf8
    else readContinuation cont (u32 (cp <<< 6) ||| (b.toNat &&& 0x3F))

/-- The checks at the end of `tp_bs_read_utf8`: overlong forms and surrogates. -/
def checkCodePoint (cont cp : Nat) : Rd Nat :=
  if cont = 1 ∧ cp < 0x80 then Op.fail .invalidUtf8
  else if cont = 2 ∧ cp < 0x800 then Op.fail .invalidUtf8
  else if cont = 3 ∧ cp < 0x10000 then Op.fail .invalidUtf8
  else if cp ≥ 0xD800 ∧ cp ≤ 0xDFFF then Op.fail .invalidUtf8
  else pure cp

/-- `tp_bs_read_utf8`. -/
def bsReadUtf8 : Rd Nat := do
  let first ← bsReadU8
  let first := first.toNat
  if first &&& 0x80 = 0 then pure first
  else if first &&& 0xE0 = 0xC0 then readContinuation 1 (first &&& 0x1F) >>= checkCodePoint 1
  else if first &&& 0xF0 = 0xE0 then readContinuation 2 (first &&& 0x0F) >>= checkCodePoint 2
  else if first &&& 0xF8 = 0xF0 then readContinuation 3 (first &&& 0x07) >>= checkCodePoint 3
  else Op.fail .invalidUtf8

theorem char_lt (c : Char) : c.toNat < 0x110000 ∧ ¬ (c.toNat ≥ 0xD800 ∧ c.toNat ≤ 0xDFFF) := by
  have hvalid := c.valid
  simp only [UInt32.isValidChar, Nat.isValidChar] at hvalid
  rw [Char.toNat]
  omega

theorem or_tail (n : Nat) : 0x80 ||| n &&& 0x3F = n % 0x40 + 0x80 := by
  have hall : ∀ m : Fin 0x40, 0x80 ||| m.val = m.val + 0x80 := by decide +kernel
  rw [show (0x3F : Nat) = 2 ^ 6 - 1 from rfl, Nat.and_two_pow_sub_one_eq_mod]
  exact hall ⟨n % 2 ^ 6, Nat.mod_lt _ (by decide)⟩

theorem or_lead2 {n : Nat} (h : n < 0x20) : 0xC0 ||| n = n % 0x20 + 0xC0 := by
  have hall : ∀ m : Fin 0x20, 0xC0 ||| m.val = m.val % 0x20 + 0xC0 := by decide +kernel
  exact hall ⟨n, h⟩

theorem or_lead3 {n : Nat} (h : n < 0x10) : 0xE0 ||| n = n % 0x10 + 0xE0 := by
  have hall : ∀ m : Fin 0x10, 0xE0 ||| m.val = m.val % 0x10 + 0xE0 := by decide +kernel
  exact hall ⟨n, h⟩

theorem or_lead4 {n : Nat} (h : n < 8) : 0xF0 ||| n = n % 8 + 0xF0 := by
  have hall : ∀ m : Fin 8, 0xF0 ||| m.val = m.val % 8 + 0xF0 := by decide +kernel
  exact hall ⟨n, h⟩

theorem bsWriteU8_appends (p : Nat) (b : UInt8) : Wr.Appends p (bsWriteU8 b) (byteBits b) () :=
  bsWriteBits_appends p (by omega) (by omega)

theorem bsWriteUtf8_appends (p : Nat) (c : Char) :
    Wr.Appends p (bsWriteUtf8 c.toNat) (bytesBits (String.utf8EncodeChar c)) () := by
  obtain ⟨hlt, hsurrogate⟩ := char_lt c
  have h₆ : c.toNat >>> 6 = c.toNat / 64 := Nat.shiftRight_eq_div_pow ..
  have h₁₂ : c.toNat >>> 12 = c.toNat / 4096 := Nat.shiftRight_eq_div_pow ..
  have h₁₈ : c.toNat >>> 18 = c.toNat / 262144 := Nat.shiftRight_eq_div_pow ..
  have hval : c.val.toNat = c.toNat := rfl
  rw [bsWriteUtf8, if_neg hsurrogate, String.utf8EncodeChar]
  simp only [or_tail, h₆, h₁₂, h₁₈, hval]
  split_ifs with h₁ h₂ h₃
  · simpa [bytesBits_cons] using bsWriteU8_appends p (.ofNat c.toNat)
  · rw [or_lead2 (by omega), bytesBits_cons, bytesBits_cons, bytesBits_nil, List.append_nil]
    exact (bsWriteU8_appends _ _).bind (bsWriteU8_appends _ _)
  · rw [or_lead3 (by omega), bytesBits_cons, bytesBits_cons, bytesBits_cons, bytesBits_nil,
      List.append_nil]
    exact (bsWriteU8_appends _ _).bind ((bsWriteU8_appends _ _).bind (bsWriteU8_appends _ _))
  · rw [or_lead4 (by omega), bytesBits_cons, bytesBits_cons, bytesBits_cons, bytesBits_cons,
      bytesBits_nil, List.append_nil]
    exact (bsWriteU8_appends _ _).bind ((bsWriteU8_appends _ _).bind
      ((bsWriteU8_appends _ _).bind (bsWriteU8_appends _ _)))
  · omega

/-- The continuation bytes of the six-bit groups `ts` are read on top of `cp`. -/
theorem readContinuation_readsWithin {ts : List Nat} (hts : ∀ t ∈ ts, t < 0x40) {cp : Nat}
    (hcp : (cp + 1) * 64 ^ ts.length ≤ 2 ^ 32) :
    Rd.ReadsWithin (readContinuation ts.length cp)
      (bytesBits (ts.map fun t => .ofNat (t + 0x80))) (ts.foldl (fun cp t => cp * 64 + t) cp) := by
  induction ts generalizing cp with
  | nil => exact .pure cp
  | cons t ts ih =>
    have ht := hts t (by simp)
    have htoNat : (UInt8.ofNat (t + 0x80)).toNat = t + 0x80 := Leb128.toNat_ofNat_of_lt (by omega)
    have hmask : ∀ m : Fin 0x40, (m.val + 0x80) &&& 0xC0 = 0x80 ∧ (m.val + 0x80) &&& 0x3F = m.val := by
      decide +kernel
    obtain ⟨hlead, hlow⟩ := hmask ⟨t, ht⟩
    simp only at hlead hlow
    have hsplit : (cp + 1) * 64 ^ (t :: ts).length = (cp * 64 + 64) * 64 ^ ts.length := by
      rw [List.length_cons, pow_succ]
      ring
    have hone : 1 ≤ 64 ^ ts.length := Nat.one_le_pow _ _ (by omega)
    have hnext : (cp * 64 + t + 1) * 64 ^ ts.length ≤ 2 ^ 32 :=
      (Nat.mul_le_mul_right _ (by omega)).trans (hsplit ▸ hcp)
    have hword : cp * 64 + t < 2 ^ 32 := by
      have := Nat.mul_le_mul_left (cp * 64 + t + 1) hone
      omega
    have hjoin : u32 (cp <<< 6) ||| t = cp * 64 + t := by
      rw [Nat.shiftLeft_eq, u32_of_lt (by omega), Nat.mul_comm,
        ← Nat.two_pow_add_eq_or_of_lt (show t < 2 ^ 6 from ht)]
    rw [List.map_cons, bytesBits_cons, List.length_cons, readContinuation]
    refine (bsReadU8_readsWithin _).bind ?_
    rw [htoNat, hlead, if_neg (by simp), hlow, hjoin]
    exact ih (fun u hu => hts u (by simp [hu])) hnext

theorem lead_masks (b : Fin 256) : (b.val &&& 0x80 = 0 ↔ b.val < 0x80) ∧
    (b.val &&& 0xE0 = 0xC0 ↔ 0xC0 ≤ b.val ∧ b.val < 0xE0) ∧
    (b.val &&& 0xF0 = 0xE0 ↔ 0xE0 ≤ b.val ∧ b.val < 0xF0) ∧
    (b.val &&& 0xF8 = 0xF0 ↔ 0xF0 ≤ b.val ∧ b.val < 0xF8) := by
  revert b
  decide +kernel

theorem checkCodePoint_eq {cont cp : Nat} (h₁ : cont = 1 → 0x80 ≤ cp) (h₂ : cont = 2 → 0x800 ≤ cp)
    (h₃ : cont = 3 → 0x10000 ≤ cp) (hsurrogate : ¬ (cp ≥ 0xD800 ∧ cp ≤ 0xDFFF)) :
    checkCodePoint cont cp = pure cp := by
  rw [checkCodePoint, if_neg (by omega), if_neg (by omega), if_neg (by omega), if_neg hsurrogate]

/-- A lead byte and its continuation bytes are read as the code point they denote. -/
theorem multiByte_readsWithin {ts : List Nat} (hts : ∀ t ∈ ts, t < 0x40) {lead cp : Nat}
    (hlead : (lead + 1) * 64 ^ ts.length ≤ 2 ^ 32) (hcp : ts.foldl (fun cp t => cp * 64 + t) lead = cp)
    (hcheck : checkCodePoint ts.length cp = pure cp) :
    Rd.ReadsWithin (readContinuation ts.length lead >>= checkCodePoint ts.length)
      (bytesBits (ts.map fun t => .ofNat (t + 0x80))) cp := by
  have hread := readContinuation_readsWithin hts hlead
  rw [hcp] at hread
  have hbind := hread.bind (f := checkCodePoint ts.length) (by rw [hcheck]; exact .pure cp)
  rwa [List.append_nil] at hbind

theorem bsReadUtf8_readsWithin (c : Char) :
    Rd.ReadsWithin bsReadUtf8 (bytesBits (String.utf8EncodeChar c)) c.toNat := by
  obtain ⟨hlt, hsurrogate⟩ := char_lt c
  have hval : c.val.toNat = c.toNat := rfl
  have htoNat : ∀ {n : Nat}, n < 256 → (UInt8.ofNat n).toNat = n := Leb128.toNat_ofNat_of_lt
  rw [String.utf8EncodeChar]
  simp only [hval]
  split_ifs with h₁ h₂ h₃
  all_goals
    rw [bytesBits_cons]
    refine (bsReadU8_readsWithin _).bind ?_
  · obtain ⟨hb, -⟩ := lead_masks ⟨c.toNat, by omega⟩
    rw [htoNat (by omega), if_pos (hb.mpr (by simp only; omega))]
    exact .pure _
  · obtain ⟨hb, hb₁, -⟩ := lead_masks ⟨c.toNat / 0x40 % 0x20 + 0xC0, by omega⟩
    simp only at hb hb₁
    rw [htoNat (by omega), if_neg (by rw [hb]; omega), if_pos (hb₁.mpr (by omega))]
    have hlow : (c.toNat / 0x40 % 0x20 + 0xC0) &&& 0x1F = c.toNat / 0x40 := by
      rw [show (0x1F : Nat) = 2 ^ 5 - 1 from rfl, Nat.and_two_pow_sub_one_eq_mod]
      omega
    rw [hlow]
    refine @multiByte_readsWithin [c.toNat % 0x40] ?_ _ _ ?_ ?_ ?_
    · simp; omega
    · simp; omega
    · simp; omega
    · exact checkCodePoint_eq (by omega) (by simp) (by simp) hsurrogate
  · obtain ⟨hb, hb₁, hb₂, -⟩ := lead_masks ⟨c.toNat / 0x1000 % 0x10 + 0xE0, by omega⟩
    simp only at hb hb₁ hb₂
    rw [htoNat (by omega), if_neg (by rw [hb]; omega), if_neg (by rw [hb₁]; omega),
      if_pos (hb₂.mpr (by omega))]
    have hlow : (c.toNat / 0x1000 % 0x10 + 0xE0) &&& 0x0F = c.toNat / 0x1000 := by
      rw [show (0x0F : Nat) = 2 ^ 4 - 1 from rfl, Nat.and_two_pow_sub_one_eq_mod]
      omega
    rw [hlow]
    refine @multiByte_readsWithin [c.toNat / 0x40 % 0x40, c.toNat % 0x40] ?_ _ _ ?_ ?_ ?_
    · simp; omega
    · simp; omega
    · simp; omega
    · exact checkCodePoint_eq (by simp) (by omega) (by simp) hsurrogate
  · obtain ⟨hb, hb₁, hb₂, hb₃⟩ := lead_masks ⟨c.toNat / 0x40000 % 8 + 0xF0, by omega⟩
    simp only at hb hb₁ hb₂ hb₃
    rw [htoNat (by omega), if_neg (by rw [hb]; omega), if_neg (by rw [hb₁]; omega),
      if_neg (by rw [hb₂]; omega), if_pos (hb₃.mpr (by omega))]
    have hlow : (c.toNat / 0x40000 % 8 + 0xF0) &&& 0x07 = c.toNat / 0x40000 := by
      rw [show (0x07 : Nat) = 2 ^ 3 - 1 from rfl, Nat.and_two_pow_sub_one_eq_mod]
      omega
    rw [hlow]
    refine @multiByte_readsWithin
      [c.toNat / 0x1000 % 0x40, c.toNat / 0x40 % 0x40, c.toNat % 0x40] ?_ _ _ ?_ ?_ ?_
    · simp; omega
    · simp; omega
    · simp; omega
    · exact checkCodePoint_eq (by simp) (by simp) (by omega) hsurrogate

/-! ## Whole buffers -/

/-- The loop of `tp_bs_writer_append_buffer`: `n` more bits of `buf` from bit `i` on. -/
def appendBufferLoop (buf : List UInt8) : (n i : Nat) → Wr Unit
  | 0, _ => pure ()
  | n + 1, i => fun w =>
    match readBitMsb buf i with
    | .error e => .error e
    | .ok bit =>
      appendBufferLoop buf n (i + 1) { w with buf := writeBitMsb w.buf w.pos bit, pos := w.pos + 1 }

/-- `tp_bs_writer_append_buffer`. -/
def bsWriterAppendBuffer (buf : List UInt8) (bitLen : Nat) : Wr Unit := fun w =>
  appendBufferLoop buf bitLen 0 (ensureCapacity w bitLen)

/-- `ensure_capacity` for a number of bits that a caller chose, whose sum may wrap. -/
def ensureCapacityU64 (w : Writer) (nBits : Nat) : Writer :=
  let needed := u64 (w.pos + nBits + 7) / 8
  if needed ≤ w.cap then w
  else { w with buf := w.buf ++ List.replicate (grownCap w needed - w.cap) 0 }

/-- The loop of `tp_bs_copy_bits` with `n` bits to go. -/
def copyBitsLoop : (n : Nat) → Reader → Writer → Except Stop Unit × Reader × Writer
  | 0, r, w => (.ok (), r, w)
  | n + 1, r, w =>
    match readBitMsb r.buf r.pos with
    | .error e => (.error e, r, w)
    | .ok bit =>
      if w.pos / 8 < w.cap then
        copyBitsLoop n { r with pos := u64 (r.pos + 1) }
          { w with buf := writeBitMsb w.buf w.pos bit, pos := u64 (w.pos + 1) }
      else (.error (.oob w.pos), r, w)

/-- `tp_bs_copy_bits`. -/
def bsCopyBits (n : Nat) (r : Reader) (w : Writer) : Except Stop Unit × Reader × Writer :=
  if u64 (r.pos + n) > r.bitLen then (.error (.rc .eof), r, w)
  else copyBitsLoop n r (ensureCapacityU64 w n)

/-- The next bit of a chunk, as the loops over bits fetch it. -/
theorem readBitMsb_of_at {buf : List UInt8} {b : Bool} {bs : List Bool} {pos : Nat}
    (h : At (bytesBits buf) pos (b :: bs)) :
    readBitMsb buf pos = .ok b.toNat ∧ At (bytesBits buf) (pos + 1) bs := by
  have hget : (bytesBits buf)[pos]? = some b := by simpa using h.getElem? (i := 0) (by simp)
  have hcons : At (bytesBits buf) pos ([b] ++ bs) := by simpa using h
  refine ⟨?_, by simpa using hcons.right⟩
  rw [readBitMsb_eq, hget]

theorem decide_toNat_ne_zero (b : Bool) : decide (b.toNat ≠ 0) = b := by cases b <;> rfl

theorem appendBufferLoop_spec {buf : List UInt8} {chunk : List Bool} {i : Nat}
    (h : At (bytesBits buf) i chunk) {w : Writer} (hw : w.Valid)
    (hroom : w.pos + chunk.length ≤ 8 * w.cap) :
    ∃ w', appendBufferLoop buf chunk.length i w = .ok ((), w') ∧ w'.Valid ∧
      w'.bits = w.bits ++ chunk := by
  induction chunk generalizing i w with
  | nil => exact ⟨w, rfl, hw, by simp⟩
  | cons b bs ih =>
    rw [List.length_cons] at hroom
    obtain ⟨hbit, hnext⟩ := readBitMsb_of_at h
    obtain ⟨hvalid, hbits⟩ := writeBitMsb_spec hw (by omega) b.toNat
    rw [decide_toNat_ne_zero] at hbits
    obtain ⟨w', hloop, hvalid', hbits'⟩ := ih hnext hvalid (by
      simp only [Writer.cap, writeBitMsb, List.length_modify] at hroom ⊢
      omega)
    refine ⟨w', ?_, hvalid', ?_⟩
    · rw [List.length_cons, appendBufferLoop, hbit]
      exact hloop
    · rw [hbits', hbits, List.append_assoc, List.singleton_append]

theorem bsWriterAppendBuffer_appends (p : Nat) {buf : List UInt8} {bitLen : Nat}
    (h : bitLen ≤ 8 * buf.length) :
    Wr.Appends p (bsWriterAppendBuffer buf bitLen) ((bytesBits buf).take bitLen) () := by
  intro w hw _
  obtain ⟨hvalid, hbits, hpos⟩ := ensureCapacity_spec hw bitLen
  have hroom := le_cap_ensureCapacity hw bitLen
  have hlen : ((bytesBits buf).take bitLen).length = bitLen := by
    rw [List.length_take, length_bytesBits, Nat.min_eq_left h]
  have hat : At (bytesBits buf) 0 ((bytesBits buf).take bitLen) := by
    simpa using at_take_drop (bytesBits buf) 0 bitLen
  obtain ⟨w', hloop, hvalid', hbits'⟩ :=
    appendBufferLoop_spec hat hvalid (by rw [hlen, hpos]; exact hroom)
  rw [hlen] at hloop
  exact ⟨w', hloop, hvalid', by rw [hbits', hbits]⟩

theorem ensureCapacityU64_eq {w : Writer} {nBits : Nat} (h : w.pos + nBits + 7 < 2 ^ 64) :
    ensureCapacityU64 w nBits = ensureCapacity w nBits := by
  rw [ensureCapacityU64, ensureCapacity, u64_of_lt h]

theorem copyBitsLoop_spec {r : Reader} {chunk : List Bool} (h : At (bytesBits r.buf) r.pos chunk)
    (hr : r.pos + chunk.length < 2 ^ 64) {w : Writer} (hw : w.Valid)
    (hroom : w.pos + chunk.length ≤ 8 * w.cap) (hlt : w.pos + chunk.length < 2 ^ 64) :
    ∃ w', copyBitsLoop chunk.length r w =
        (.ok (), { r with pos := r.pos + chunk.length }, w') ∧ w'.Valid ∧
      w'.bits = w.bits ++ chunk := by
  induction chunk generalizing r w with
  | nil => exact ⟨w, rfl, hw, by simp⟩
  | cons b bs ih =>
    rw [List.length_cons] at hroom hr hlt
    obtain ⟨hbit, hnext⟩ := readBitMsb_of_at h
    obtain ⟨hvalid, hbits⟩ := writeBitMsb_spec hw (by omega) b.toNat
    rw [decide_toNat_ne_zero] at hbits
    obtain ⟨w', hloop, hvalid', hbits'⟩ := @ih { r with pos := r.pos + 1 } hnext
      (by simp only; omega) _ hvalid
      (by
        simp only [Writer.cap, writeBitMsb, List.length_modify] at hroom ⊢
        omega)
      (by simp only; omega)
    refine ⟨w', ?_, hvalid', ?_⟩
    · rw [List.length_cons, copyBitsLoop, hbit]
      simp only
      rw [if_pos (by omega), u64_of_lt (by omega), u64_of_lt (by omega), hloop]
      simp only [Nat.add_assoc, Nat.add_comm 1]
    · rw [hbits', hbits, List.append_assoc, List.singleton_append]

/-- Bits that stand at the cursor are copied behind what was written. -/
theorem bsCopyBits_spec {r : Reader} (hr : r.Within) {chunk : List Bool} (h : At r.bits r.pos chunk)
    {w : Writer} (hw : w.Valid) (hlt : w.pos + chunk.length + 7 < 2 ^ 64) :
    ∃ w', bsCopyBits chunk.length r w = (.ok (), { r with pos := r.pos + chunk.length }, w') ∧
      w'.Valid ∧ w'.bits = w.bits ++ chunk := by
  have hle := hr.le h
  have hmax := hr.bitLen_lt
  obtain ⟨hvalid, hbits, hpos⟩ := ensureCapacity_spec hw chunk.length
  have hroom := le_cap_ensureCapacity hw chunk.length
  obtain ⟨w', hloop, hvalid', hbits'⟩ := copyBitsLoop_spec h.of_take (by omega) hvalid
    (by rw [hpos]; exact hroom) (by rw [hpos]; omega)
  refine ⟨w', ?_, hvalid', by rw [hbits', hbits]⟩
  rw [bsCopyBits, u64_of_lt (by omega), if_neg (by omega), ensureCapacityU64_eq hlt, hloop]

end Triepack
