import Triepack.Bitstream.RoundTrip

/-!
# What the varint readers accept

Both readers stop after ten groups. The tenth has room for one bit only, and its other six are
shifted out of the word: a code of ten groups is read modulo `2 ^ 64`, not rejected.
-/

namespace Triepack

open BitString

/-- The loop of `tp_bs_read_varint_u_at` with `groups` of its ten groups left. -/
def readVarintAtLoop (buf : List UInt8) (bitPos : Nat) :
    (groups shift val totalBits : Nat) → Except Stop (Nat × Nat)
  | 0, _, _, _ => .error (.rc .overflow)
  | groups + 1, shift, val, totalBits =>
    match bsReadBitsAt buf (u64 (bitPos + totalBits)) 8 with
    | .error e => .error e
    | .ok byteVal =>
      let totalBits := totalBits + 8
      let val := val ||| u64 ((byteVal &&& 0x7F) <<< shift)
      if byteVal &&& 0x80 = 0 then .ok (val, totalBits)
      else readVarintAtLoop buf bitPos groups (shift + 7) val totalBits

/-- `tp_bs_read_varint_u_at`: the value and the bits it took. -/
def bsReadVarintUAt (buf : List UInt8) (bitPos : Nat) : Except Stop (Nat × Nat) :=
  readVarintAtLoop buf bitPos varintMaxGroups 0 0 0

/-- The bytes of a varint stand at the cursor. -/
structure Reader.VarintAt (r : Reader) (code : List UInt8) : Prop where
  isCode : Leb128.IsCode code
  at_pos : At r.bits r.pos (bytesBits code)

/-! ## The value of a code -/

/-- Joining a group that may reach past the word. -/
theorem or_group_mod {val g shift : Nat} (hval : val < 2 ^ shift) (hshift : shift ≤ 64) :
    val ||| u64 (g <<< shift) = (g * 2 ^ shift + val) % 2 ^ 64 := by
  have hpow : 2 ^ 64 = 2 ^ shift * 2 ^ (64 - shift) := by rw [← pow_add, Nat.add_sub_cancel' hshift]
  have hlow : g % 2 ^ (64 - shift) * 2 ^ shift + val < 2 ^ 64 := by
    have hlt := Nat.mod_lt g (Nat.two_pow_pos (64 - shift))
    calc g % 2 ^ (64 - shift) * 2 ^ shift + val
        < g % 2 ^ (64 - shift) * 2 ^ shift + 2 ^ shift := by omega
      _ = (g % 2 ^ (64 - shift) + 1) * 2 ^ shift := by ring
      _ ≤ 2 ^ (64 - shift) * 2 ^ shift := Nat.mul_le_mul_right _ hlt
      _ = 2 ^ 64 := by rw [hpow, Nat.mul_comm]
  have hshl : u64 (g <<< shift) = u64 ((g % 2 ^ (64 - shift)) <<< shift) := by
    rw [u64, u64, Nat.shiftLeft_eq, Nat.shiftLeft_eq, hpow, Nat.mul_comm g, Nat.mul_comm (g % _),
      Nat.mul_mod_mul_left, Nat.mul_mod_mul_left, Nat.mod_mod]
  rw [hshl, or_group hval (by omega), ← Nat.mod_eq_of_lt hlow]
  conv_rhs => rw [← Nat.mod_add_div g (2 ^ (64 - shift))]
  have hsplit : (g % 2 ^ (64 - shift) + 2 ^ (64 - shift) * (g / 2 ^ (64 - shift))) * 2 ^ shift + val =
      g % 2 ^ (64 - shift) * 2 ^ shift + val + 2 ^ 64 * (g / 2 ^ (64 - shift)) := by
    rw [hpow]
    ring
  rw [hsplit, Nat.add_mul_mod_self_left]

/-- A code of no more groups than are left is read, as far as the word goes. -/
theorem readVarintLoop_code {code : List UInt8} (hcode : Leb128.IsCode code) {n shift val : Nat}
    {r : Reader} (hr : r.Within) (hat : At r.bits r.pos (bytesBits code))
    (hn : shift + 7 * n = 70) (hlen : code.length ≤ n) (hval : val < 2 ^ shift) :
    readVarintLoop n shift val r =
      (.ok ((Leb128.byteValue code * 2 ^ shift + val) % 2 ^ 64),
        { r with pos := r.pos + 8 * code.length }) := by
  induction hcode generalizing n shift val r with
  | @last b hb =>
    obtain ⟨n, rfl⟩ : ∃ m, n = m + 1 := ⟨n - 1, by simp only [List.length_singleton] at hlen; omega⟩
    have hb' : b.toNat < 128 := hb
    have hread := bsReadBits_readsWithin (by omega) (by omega) b.toNat_lt r hr
      (by simpa [bytesBits_cons, byteBits] using hat)
    rw [readVarintLoop_succ_within hr, Op.bind_ok hread, and_seven_bits,
      if_pos ((and_continuation b.toNat_lt).mpr hb'), or_group_mod hval (by omega), length_natBits,
      Nat.mod_eq_of_lt hb']
    simp [Leb128.byteValue, Leb128.value, Nat.mod_eq_of_lt hb']
  | @more b bs hb hbs ih =>
    have hpos := hbs.length_pos
    rw [List.length_cons] at hlen
    obtain ⟨n, rfl⟩ : ∃ m, n = m + 1 := ⟨n - 1, by omega⟩
    have hb' : ¬ b.toNat < 128 := hb
    rw [bytesBits_cons, byteBits] at hat
    have hread := bsReadBits_readsWithin (by omega) (by omega) b.toNat_lt r hr hat.left
    have hpow : 2 ^ (shift + 7) = 128 * 2 ^ shift := by rw [pow_add]; ring
    have hmax : 2 ^ shift ≤ 2 ^ 56 := Nat.pow_le_pow_right (by omega) (by omega)
    have hgroup : b.toNat % 128 * 2 ^ shift ≤ 127 * 2 ^ shift := Nat.mul_le_mul_right _ (by omega)
    rw [readVarintLoop_succ_within hr, Op.bind_ok hread, and_seven_bits,
      if_neg (by rwa [and_continuation b.toNat_lt]), or_group hval (by omega),
      ih (hr.pass hat.left) hat.right (by omega) (by omega) (by omega), length_natBits]
    have hsum : Leb128.byteValue bs * 2 ^ (shift + 7) + (b.toNat % 128 * 2 ^ shift + val) =
        Leb128.byteValue (b :: bs) * 2 ^ shift + val := by
      rw [Leb128.byteValue_cons, hpow]
      ring
    rw [hsum, List.length_cons]
    simp only [Nat.add_assoc, Nat.mul_add, Nat.mul_one, Nat.add_comm 8]

/-- What the loop accepts is a code of no more groups than it had left. -/
theorem readVarintLoop_eq_ok {n shift val v : Nat} {r r' : Reader} (hr : r.Within)
    (h : readVarintLoop n shift val r = (.ok v, r')) :
    ∃ code, r.VarintAt code ∧ code.length ≤ n := by
  induction n generalizing shift val r with
  | zero => simp [readVarintLoop] at h
  | succ n ih =>
    rw [readVarintLoop_succ_within hr] at h
    obtain ⟨_, hread⟩ | ⟨chunk, hlen, hat, hle, hread⟩ :=
      bsReadBits_within hr (n := 8) (by omega) (by omega)
    · rw [Op.bind_error hread] at h
      simp at h
    · rw [Op.bind_ok hread] at h
      have hb : bitsNat chunk < 256 := by simpa [hlen] using bitsNat_lt chunk
      have hbyte : (UInt8.ofNat (bitsNat chunk)).toNat = bitsNat chunk := Leb128.toNat_ofNat_of_lt hb
      have hchunk : byteBits (UInt8.ofNat (bitsNat chunk)) = chunk := by
        rw [byteBits, hbyte, ← hlen, natBits_bitsNat]
      by_cases hlast : bitsNat chunk &&& 0x80 = 0
      · rw [and_continuation hb] at hlast
        refine ⟨[UInt8.ofNat (bitsNat chunk)], ⟨.last ?_, ?_⟩, by simp⟩
        · rw [UInt8.lt_iff_toNat_lt, hbyte]
          exact hlast
        · rwa [bytesBits_cons, hchunk, bytesBits_nil, List.append_nil]
      · rw [if_neg hlast] at h
        rw [and_continuation hb] at hlast
        obtain ⟨code, hcode, hlen'⟩ := ih (hr.move hle) h
        refine ⟨UInt8.ofNat (bitsNat chunk) :: code, ⟨.more ?_ hcode.isCode, ?_⟩, by simpa using hlen'⟩
        · rw [UInt8.lt_iff_toNat_lt, hbyte]
          exact hlast
        · rw [bytesBits_cons, hchunk]
          exact At.append.mpr ⟨hat, by rw [hlen]; exact hcode.at_pos⟩

/-- The reader returns the number that stands at the cursor modulo `2 ^ 64`. -/
theorem bsReadVarintU_code {r : Reader} (hr : r.Within) {code : List UInt8} (h : r.VarintAt code)
    (hlen : code.length ≤ varintMaxGroups) :
    bsReadVarintU r =
      (.ok (Leb128.byteValue code % 2 ^ 64), { r with pos := r.pos + 8 * code.length }) := by
  have hread := @readVarintLoop_code code h.isCode varintMaxGroups 0 0 r hr h.at_pos (by decide) hlen
    (by decide)
  rwa [pow_zero, Nat.mul_one, Nat.add_zero] at hread

/-! ## The stateless reader -/

/-- Unless the cursor meets the end, the two readers go the same way. -/
theorem readVarintAtLoop_eq {bitPos n shift val totalBits : Nat} {r : Reader} (hr : r.Within)
    (hpos : r.pos = bitPos + totalBits) (h : (readVarintLoop n shift val r).1 ≠ .error (.rc .eof)) :
    readVarintAtLoop r.buf bitPos n shift val totalBits =
        (readVarintLoop n shift val r).1.map
          (fun v => (v, totalBits + ((readVarintLoop n shift val r).2.pos - r.pos))) ∧
      r.pos ≤ (readVarintLoop n shift val r).2.pos := by
  induction n generalizing shift val totalBits r with
  | zero => exact ⟨rfl, le_rfl⟩
  | succ n ih =>
    have hmax := hr.bitLen_lt
    rw [readVarintLoop_succ_within hr] at h ⊢
    obtain ⟨_, hread⟩ | ⟨chunk, hlen, hat, hle, hread⟩ :=
      bsReadBits_within hr (n := 8) (by omega) (by omega)
    · rw [Op.bind_error hread] at h
      simp at h
    · have hstateless := bsReadBitsAt_of_at hat.of_take (by omega) (by omega) (by omega)
      rw [hlen, hpos] at hstateless
      rw [Op.bind_ok hread] at h ⊢
      simp only [readVarintAtLoop, u64_of_lt (show bitPos + totalBits < 2 ^ 64 by omega), hstateless]
      by_cases hlast : bitsNat chunk &&& 0x80 = 0
      · rw [if_pos hlast, if_pos hlast]
        simp [Except.map]
      · rw [if_neg hlast] at h ⊢
        rw [if_neg hlast]
        obtain ⟨heq, hmono⟩ := @ih _ _ (totalBits + 8) _ (hr.move hle) (by simp only; omega) h
        simp only at heq hmono
        refine ⟨?_, by omega⟩
        rw [heq]
        congr 1
        funext v
        congr 1
        omega

/-! ## Exactness -/

/-- What is promised of varints, the stream being that of `r`. -/
structure VarintsExact (r : Reader) : Prop where
  /-- An unsigned number is read back from where it was written, with its bits. -/
  unsigned : ∀ (v : UInt64) (w : Writer), w.Valid →
    ∃ w', bsWriteVarintU v.toNat w = .ok ((), w') ∧ w'.Valid ∧
      ∀ s : Reader, s.Over w' → s.pos = w.pos →
        bsReadVarintU s = (.ok v.toNat, { s with pos := w'.pos })
  /-- So is a signed one. -/
  signed : ∀ (v : Int64) (w : Writer), w.Valid →
    ∃ w', bsWriteVarintS v w = .ok ((), w') ∧ w'.Valid ∧
      ∀ s : Reader, s.Over w' → s.pos = w.pos →
        bsReadVarintS s = (.ok v, { s with pos := w'.pos })
  /-- A number that is returned is the one that the groups read denote. -/
  denotes : ∀ v r', bsReadVarintU r = (.ok v, r') →
    ∃ code, r.VarintAt code ∧ r'.pos = r.pos + 8 * code.length ∧ Leb128.byteValue code = v
  /-- Where the stream does not end first, the stateless reader agrees. -/
  stateless : (bsReadVarintU r).1 ≠ .error (.rc .eof) →
    bsReadVarintUAt r.buf r.pos =
      (bsReadVarintU r).1.map fun v => (v, (bsReadVarintU r).2.pos - r.pos)

/-- No code of ten groups or fewer that stands at the cursor denotes `2 ^ 64` or more. -/
def Reader.FitsWord (r : Reader) : Prop :=
  ∀ code, r.VarintAt code → code.length ≤ varintMaxGroups → Leb128.byteValue code < 2 ^ 64

theorem writeReads {α : Type} {m : Wr Unit} {rd : Rd α} {bs : List Bool} {a : α} {w : Writer}
    (hw : w.Valid) (hwrite : Wr.Appends w.pos m bs ()) (hread : Rd.ReadsWithin rd bs a) :
    ∃ w', m w = .ok ((), w') ∧ w'.Valid ∧
      ∀ s : Reader, s.Over w' → s.pos = w.pos → rd s = (.ok a, { s with pos := w'.pos }) := by
  obtain ⟨w', hok, hvalid, hbits⟩ := hwrite w hw rfl
  refine ⟨w', hok, hvalid, fun s hs hpos => ?_⟩
  have hat := hs.at_of_bits hbits
  rw [hw.length_bits, ← hpos] at hat
  have hend : s.pos + bs.length = w'.pos := by
    rw [← hvalid.length_bits, hbits, List.length_append, hw.length_bits, hpos]
  rw [hread s hs.within hat, hend]

/-- Varints are exact but for codes of ten groups that reach past the word: those are reduced. -/
theorem varintsExact_iff {r : Reader} (hr : r.Within) : VarintsExact r ↔ r.FitsWord := by
  constructor
  · intro h code hcode hlen
    have hread := bsReadVarintU_code hr hcode hlen
    obtain ⟨code', hcode', hpos, hval⟩ := h.denotes _ _ hread
    have hsame : code' = code := by
      have hlen' : code'.length = code.length := by simp only at hpos; omega
      refine bytesBits_injective (List.IsPrefix.eq_of_length ?_ (by simp [hlen']))
      exact List.prefix_of_prefix_length_le hcode'.at_pos hcode.at_pos (by simp [hlen'])
    rw [hsame] at hval
    exact hval ▸ Nat.mod_lt _ (by decide)
  · intro hfits
    refine ⟨fun v w hw => ?_, fun v w hw => ?_, fun v r' h => ?_, fun h => ?_⟩
    · exact writeReads hw (bsWriteVarintU_appends _ _) (bsReadVarintU_readsWithin v.toNat_lt)
    · exact writeReads hw (bsWriteVarintS_appends _ v) (bsReadVarintS_readsWithin v)
    · obtain ⟨code, hcode, hlen⟩ := readVarintLoop_eq_ok hr h
      rw [bsReadVarintU_code hr hcode hlen, Nat.mod_eq_of_lt (hfits code hcode hlen)] at h
      obtain ⟨rfl, rfl⟩ : Leb128.byteValue code = v ∧ _ = r' := by simpa using h
      exact ⟨code, hcode, rfl, rfl⟩
    · have hloop := (readVarintAtLoop_eq hr (Nat.add_zero r.pos).symm h).1
      simpa [bsReadVarintUAt, bsReadVarintU] using hloop

/-- A reader over the two groups of 300. -/
theorem varintsExact_iff_three_hundred :
    VarintsExact (bsReaderCreate [0xAC, 0x02]) ↔ (bsReaderCreate [0xAC, 0x02]).FitsWord :=
  varintsExact_iff (Reader.Sound.create (by decide)).within

/-- Nine empty groups and a tenth of two denote `2 ^ 64` and are read as zero. -/
theorem tenth_group_reduced :
    bsReadVarintU (bsReaderCreate [0x80, 0x80, 0x80, 0x80, 0x80, 0x80, 0x80, 0x80, 0x80, 0x02]) =
        (.ok 0, ⟨[0x80, 0x80, 0x80, 0x80, 0x80, 0x80, 0x80, 0x80, 0x80, 0x02], 80, 80⟩) ∧
      Leb128.byteValue [0x80, 0x80, 0x80, 0x80, 0x80, 0x80, 0x80, 0x80, 0x80, 0x02] = 2 ^ 64 ∧
      ¬ VarintsExact
        (bsReaderCreate [0x80, 0x80, 0x80, 0x80, 0x80, 0x80, 0x80, 0x80, 0x80, 0x02]) := by
  have hread : bsReadVarintU
      (bsReaderCreate [0x80, 0x80, 0x80, 0x80, 0x80, 0x80, 0x80, 0x80, 0x80, 0x02]) =
        (.ok 0, ⟨[0x80, 0x80, 0x80, 0x80, 0x80, 0x80, 0x80, 0x80, 0x80, 0x02], 80, 80⟩) := by
    decide +kernel
  refine ⟨hread, by decide +kernel, fun h => ?_⟩
  obtain ⟨code, hcode, hpos, hval⟩ := h.denotes _ _ hread
  have hlen : code.length = 10 := by
    have hstart : (bsReaderCreate [0x80, 0x80, 0x80, 0x80, 0x80, 0x80, 0x80, 0x80, 0x80,
      0x02]).pos = 0 := rfl
    rw [hstart] at hpos
    simp only at hpos
    omega
  have hsame : code = [0x80, 0x80, 0x80, 0x80, 0x80, 0x80, 0x80, 0x80, 0x80, 0x02] := by
    refine bytesBits_injective (List.IsPrefix.eq_of_length ?_ (by simp [hlen]))
    exact hcode.at_pos.of_take
  rw [hsame] at hval
  revert hval
  decide +kernel

end Triepack
