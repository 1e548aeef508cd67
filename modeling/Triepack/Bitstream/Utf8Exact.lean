import Triepack.Bitstream.Fields
import Triepack.Bitstream.VarintExact

/-!
# What the code point reader accepts

The writer takes the Unicode scalar values. The reader refuses overlong forms and surrogates, but
has no check of its own for the last code point: a form of four bytes reaches up to `0x1FFFFF`.
-/

namespace Triepack

open BitString

/-! ## One accepted form -/

theorem bsReadU8_eq_ok {r r' : Reader} {b : UInt8} (hr : r.Within)
    (h : bsReadU8 r = (.ok b, r')) :
    At r.bits r.pos (byteBits b) ∧ r.pos + 8 ≤ r.bitLen ∧ r' = { r with pos := r.pos + 8 } := by
  obtain ⟨n, t, hread, hpure⟩ := Op.bind_eq_ok h
  obtain ⟨rfl, rfl⟩ : UInt8.ofNat n = b ∧ t = r' := by simpa using hpure
  obtain ⟨_, heof⟩ | ⟨chunk, hlen, hat, hle, hok⟩ :=
    bsReadBits_within hr (n := 8) (by omega) (by omega)
  · rw [heof] at hread
    simp at hread
  · obtain ⟨rfl, rfl⟩ : bitsNat chunk = n ∧ _ = t := by simpa using hok.symm.trans hread
    have hb : bitsNat chunk < 256 := by simpa [hlen] using bitsNat_lt chunk
    refine ⟨?_, hle, rfl⟩
    rwa [byteBits, Leb128.toNat_ofNat_of_lt hb, ← hlen, natBits_bitsNat]

/-- The number that the six-bit groups `ts` denote behind `lead`. -/
def codeNumber (lead : Nat) (ts : List Nat) : Nat := ts.foldl (fun cp t => cp * 64 + t) lead

theorem codeNumber_cons (lead t : Nat) (ts : List Nat) :
    codeNumber lead (t :: ts) = codeNumber (lead * 64 + t) ts := rfl

/-- A lead byte and the continuation bytes of the groups `ts`. -/
def codeBytes (first : UInt8) (ts : List Nat) : List UInt8 :=
  first :: ts.map fun t => .ofNat (t + 0x80)

theorem continuation_masks (b : Fin 256) : (b.val &&& 0xC0 = 0x80 ↔ 0x80 ≤ b.val ∧ b.val < 0xC0) ∧
    (b.val &&& 0xC0 = 0x80 → b.val &&& 0x3F = b.val - 0x80) := by
  revert b
  decide +kernel

/-- The loop accepts continuation bytes only, and joins their groups. -/
theorem readContinuation_eq_ok {n cp v : Nat} {r r' : Reader} (hr : r.Within)
    (hcp : (cp + 1) * 64 ^ n ≤ 2 ^ 32) (h : readContinuation n cp r = (.ok v, r')) :
    ∃ ts : List Nat, ts.length = n ∧ (∀ t ∈ ts, t < 0x40) ∧
      At r.bits r.pos (bytesBits (ts.map fun t => .ofNat (t + 0x80))) ∧
      r' = { r with pos := r.pos + 8 * n } ∧ v = codeNumber cp ts := by
  induction n generalizing cp r with
  | zero =>
    obtain ⟨rfl, rfl⟩ : cp = v ∧ r = r' := by simpa [readContinuation] using h
    exact ⟨[], rfl, by simp, At.nil _ _, rfl, rfl⟩
  | succ n ih =>
    rw [readContinuation] at h
    obtain ⟨b, t, hread, hrest⟩ := Op.bind_eq_ok h
    obtain ⟨hat, hle, rfl⟩ := bsReadU8_eq_ok hr hread
    obtain ⟨hrange, hlow⟩ := continuation_masks ⟨b.toNat, b.toNat_lt⟩
    simp only at hrange hlow
    by_cases hcont : b.toNat &&& 0xC0 = 0x80
    · rw [if_neg (not_not.mpr hcont), hlow hcont] at hrest
      rw [hrange] at hcont
      have hpow : (cp + 1) * 64 ^ (n + 1) = (cp * 64 + 64) * 64 ^ n := by ring
      have hone : 1 ≤ 64 ^ n := Nat.one_le_pow _ _ (by omega)
      have hword : cp * 64 + 64 ≤ 2 ^ 32 := by
        have := Nat.mul_le_mul_left (cp * 64 + 64) hone
        omega
      have hjoin : u32 (cp <<< 6) ||| (b.toNat - 0x80) = cp * 64 + (b.toNat - 0x80) := by
        have hlt : b.toNat - 0x80 < 2 ^ 6 := by omega
        rw [Nat.shiftLeft_eq, u32_of_lt (by omega), Nat.mul_comm, ← Nat.two_pow_add_eq_or_of_lt hlt]
      rw [hjoin] at hrest
      have hnext : (cp * 64 + (b.toNat - 0x80) + 1) * 64 ^ n ≤ 2 ^ 32 :=
        (Nat.mul_le_mul_right _ (by omega)).trans (hpow ▸ hcp)
      obtain ⟨ts, hlen, hts, hats, hr', hv⟩ := ih (hr.move hle) hnext hrest
      have hbyte : UInt8.ofNat (b.toNat - 0x80 + 0x80) = b := by
        rw [Nat.sub_add_cancel hcont.1, UInt8.ofNat_toNat]
      refine ⟨(b.toNat - 0x80) :: ts, by simp [hlen], ?_, ?_, ?_, by rw [codeNumber_cons, hv]⟩
      · exact List.forall_mem_cons.mpr ⟨by omega, hts⟩
      · rw [List.map_cons, hbyte, bytesBits_cons]
        exact At.append.mpr ⟨hat, by rwa [length_byteBits]⟩
      · rw [hr']
        simp only [Reader.mk.injEq, true_and]
        omega
    · rw [if_pos hcont] at hrest
      simp at hrest

/-- The form that a successful read found: its bytes, and why they passed the checks. -/
structure AcceptedForm (first : UInt8) (ts : List Nat) (cp : Nat) : Prop where
  groups : ∀ t ∈ ts, t < 0x40
  form : ts = [] ∧ first.toNat < 0x80 ∧ cp = first.toNat ∨
    ts.length = 1 ∧ 0xC0 ≤ first.toNat ∧ first.toNat < 0xE0 ∧ 0x80 ≤ cp ∧
      cp = codeNumber (first.toNat - 0xC0) ts ∨
    ts.length = 2 ∧ 0xE0 ≤ first.toNat ∧ first.toNat < 0xF0 ∧ 0x800 ≤ cp ∧
      cp = codeNumber (first.toNat - 0xE0) ts ∨
    ts.length = 3 ∧ 0xF0 ≤ first.toNat ∧ first.toNat < 0xF8 ∧ 0x10000 ≤ cp ∧
      cp = codeNumber (first.toNat - 0xF0) ts
  no_surrogate : ¬ (cp ≥ 0xD800 ∧ cp ≤ 0xDFFF)

theorem checkCodePoint_eq_ok {cont cp v : Nat} {r r' : Reader}
    (h : checkCodePoint cont cp r = (.ok v, r')) :
    (cont = 1 → 0x80 ≤ v) ∧ (cont = 2 → 0x800 ≤ v) ∧ (cont = 3 → 0x10000 ≤ v) ∧
      ¬ (v ≥ 0xD800 ∧ v ≤ 0xDFFF) ∧ v = cp ∧ r' = r := by
  unfold checkCodePoint at h
  split_ifs at h with h₁ h₂ h₃ h₄
  all_goals simp at h
  obtain ⟨rfl, rfl⟩ := h
  exact ⟨by omega, by omega, by omega, h₄, rfl, rfl⟩

theorem lead_low (b : Fin 256) :
    (b.val &&& 0xE0 = 0xC0 → b.val &&& 0x1F = b.val - 0xC0) ∧
    (b.val &&& 0xF0 = 0xE0 → b.val &&& 0x0F = b.val - 0xE0) ∧
    (b.val &&& 0xF8 = 0xF0 → b.val &&& 0x07 = b.val - 0xF0) := by
  revert b
  decide +kernel

/-- A code point is read from a form that passed the checks, and from nothing else. -/
theorem bsReadUtf8_eq_ok {cp : Nat} {r r' : Reader} (hr : r.Within)
    (h : bsReadUtf8 r = (.ok cp, r')) :
    ∃ first ts, AcceptedForm first ts cp ∧ At r.bits r.pos (bytesBits (codeBytes first ts)) ∧
      r' = { r with pos := r.pos + 8 * (codeBytes first ts).length } := by
  obtain ⟨first, t, hread, hrest⟩ := Op.bind_eq_ok h
  obtain ⟨hat, hle, rfl⟩ := bsReadU8_eq_ok hr hread
  obtain ⟨hb, hb₁, hb₂, hb₃⟩ := lead_masks ⟨first.toNat, first.toNat_lt⟩
  obtain ⟨hl₁, hl₂, hl₃⟩ := lead_low ⟨first.toNat, first.toNat_lt⟩
  simp only at hb hb₁ hb₂ hb₃ hl₁ hl₂ hl₃ hrest
  -- the forms of more than one byte differ in the number of continuation bytes only
  have hmany : ∀ {n lead : Nat}, (lead + 1) * 64 ^ n ≤ 2 ^ 32 →
      (readContinuation n lead >>= checkCodePoint n) { r with pos := r.pos + 8 } = (.ok cp, r') →
      ∃ ts, ts.length = n ∧ (∀ t ∈ ts, t < 0x40) ∧ cp = codeNumber lead ts ∧
        (n = 1 → 0x80 ≤ cp) ∧ (n = 2 → 0x800 ≤ cp) ∧ (n = 3 → 0x10000 ≤ cp) ∧
        ¬ (cp ≥ 0xD800 ∧ cp ≤ 0xDFFF) ∧ At r.bits r.pos (bytesBits (codeBytes first ts)) ∧
        r' = { r with pos := r.pos + 8 * (codeBytes first ts).length } := by
    intro n lead hlead hform
    obtain ⟨v, u, hcont, hcheck⟩ := Op.bind_eq_ok hform
    obtain ⟨ts, hlen, hts, hats, rfl, hv⟩ := readContinuation_eq_ok (hr.move hle) hlead hcont
    obtain ⟨h₁, h₂, h₃, hsurrogate, rfl, rfl⟩ := checkCodePoint_eq_ok hcheck
    refine ⟨ts, hlen, hts, hv, h₁, h₂, h₃, hsurrogate, ?_, ?_⟩
    · rw [codeBytes, bytesBits_cons]
      exact At.append.mpr ⟨hat, by rwa [length_byteBits]⟩
    · simp only [codeBytes, List.length_cons, List.length_map, hlen, Reader.mk.injEq, true_and]
      omega
  split_ifs at hrest with h₀ h₁ h₂ h₃
  · obtain ⟨rfl, rfl⟩ : first.toNat = cp ∧ _ = r' := by simpa using hrest
    rw [hb] at h₀
    refine ⟨first, [], ⟨by simp, .inl ⟨rfl, h₀, rfl⟩, by omega⟩, ?_, rfl⟩
    simpa [codeBytes, bytesBits_cons, bytesBits_nil] using hat
  · rw [hl₁ h₁] at hrest
    rw [hb₁] at h₁
    obtain ⟨ts, hlen, hts, hcp, hmin, -, -, hsurrogate, hform⟩ := hmany (by omega) hrest
    exact ⟨first, ts, ⟨hts, .inr (.inl ⟨hlen, h₁.1, h₁.2, hmin rfl, hcp⟩), hsurrogate⟩, hform⟩
  · rw [hl₂ h₂] at hrest
    rw [hb₂] at h₂
    obtain ⟨ts, hlen, hts, hcp, -, hmin, -, hsurrogate, hform⟩ := hmany (by omega) hrest
    exact ⟨first, ts, ⟨hts, .inr (.inr (.inl ⟨hlen, h₂.1, h₂.2, hmin rfl, hcp⟩)), hsurrogate⟩, hform⟩
  · rw [hl₃ h₃] at hrest
    rw [hb₃] at h₃
    obtain ⟨ts, hlen, hts, hcp, -, -, hmin, hsurrogate, hform⟩ := hmany (by omega) hrest
    exact ⟨first, ts, ⟨hts, .inr (.inr (.inr ⟨hlen, h₃.1, h₃.2, hmin rfl, hcp⟩)), hsurrogate⟩, hform⟩
  · simp at hrest

/-! ## Code points and their bytes -/

theorem exists_char {cp : Nat} (hlast : cp < 0x110000) (h : ¬ (cp ≥ 0xD800 ∧ cp ≤ 0xDFFF)) :
    ∃ c : Char, c.toNat = cp := by
  have hvalid : cp.isValidChar := by
    unfold Nat.isValidChar
    omega
  exact ⟨Char.ofNatAux cp hvalid, rfl⟩

/-- The writer takes scalar values only. -/
theorem bsWriteUtf8_eq_ok {cp : Nat} {w w' : Writer} (h : bsWriteUtf8 cp w = .ok ((), w')) :
    ∃ c : Char, c.toNat = cp := by
  unfold bsWriteUtf8 at h
  split_ifs at h with h₀ h₁ h₂ h₃ h₄
  · exact absurd h (by simp [Wr.fail])
  · exact exists_char (by omega) h₀
  · exact exists_char (by omega) h₀
  · exact exists_char (by omega) h₀
  · exact exists_char (by omega) h₀
  · exact absurd h (by simp [Wr.fail])

/-- A form that denotes no more than the last code point is the encoding of a character. -/
theorem AcceptedForm.encodes {first : UInt8} {ts : List Nat} {cp : Nat}
    (h : AcceptedForm first ts cp) (hlast : cp < 0x110000) :
    ∃ c : Char, c.toNat = cp ∧ codeBytes first ts = String.utf8EncodeChar c := by
  obtain ⟨c, hc⟩ := exists_char hlast h.no_surrogate
  refine ⟨c, hc, ?_⟩
  have hval : c.val.toNat = cp := hc
  have hbyte : ∀ n : Nat, n = first.toNat → first = .ofNat n := by
    intro n hn
    rw [hn, UInt8.ofNat_toNat]
  have hgroups := h.groups
  rw [String.utf8EncodeChar, hval]
  obtain ⟨rfl, hlead, hcp⟩ | ⟨hlen, hlo, hhi, hmin, hcp⟩ | ⟨hlen, hlo, hhi, hmin, hcp⟩ |
    ⟨hlen, hlo, hhi, hmin, hcp⟩ := h.form
  · rw [if_pos (by omega), codeBytes, List.map_nil, hbyte cp hcp]
  · obtain ⟨t, rfl⟩ := List.length_eq_one_iff.mp hlen
    simp only [List.mem_singleton, forall_eq] at hgroups
    simp only [codeNumber, List.foldl_cons, List.foldl_nil] at hcp
    rw [if_neg (by omega), if_pos (by omega), codeBytes, List.map_singleton]
    rw [hbyte (cp / 0x40 % 0x20 + 0xC0) (by omega), show cp % 0x40 = t by omega]
  · obtain ⟨t, u, rfl⟩ := List.length_eq_two.mp hlen
    simp only [List.mem_cons, List.not_mem_nil, or_false, forall_eq_or_imp, forall_eq] at hgroups
    simp only [codeNumber, List.foldl_cons, List.foldl_nil] at hcp
    rw [if_neg (by omega), if_neg (by omega), if_pos (by omega), codeBytes]
    simp only [List.map_cons, List.map_nil]
    rw [hbyte (cp / 0x1000 % 0x10 + 0xE0) (by omega), show cp / 0x40 % 0x40 = t by omega,
      show cp % 0x40 = u by omega]
  · obtain ⟨t, u, v, rfl⟩ := List.length_eq_three.mp hlen
    simp only [List.mem_cons, List.not_mem_nil, or_false, forall_eq_or_imp, forall_eq] at hgroups
    simp only [codeNumber, List.foldl_cons, List.foldl_nil] at hcp
    rw [if_neg (by omega), if_neg (by omega), if_neg (by omega), codeBytes]
    simp only [List.map_cons, List.map_nil]
    rw [hbyte (cp / 0x40000 % 8 + 0xF0) (by omega), show cp / 0x1000 % 0x40 = t by omega,
      show cp / 0x40 % 0x40 = u by omega, show cp % 0x40 = v by omega]

/-! ## Beyond the last code point -/

/-- Four bytes in the form of a code point, whose number is above the last one. -/
structure BeyondLast (first b₁ b₂ b₃ : UInt8) : Prop where
  lead : first = 0xF4 ∧ 0x90 ≤ b₁ ∨ 0xF4 < first ∧ first < 0xF8
  continuation : ∀ b ∈ [b₁, b₂, b₃], 0x80 ≤ b ∧ b < 0xC0

/-- The bytes at the cursor do not denote a number above the last code point. -/
def Reader.UpToLast (r : Reader) : Prop :=
  ∀ first b₁ b₂ b₃, BeyondLast first b₁ b₂ b₃ → ¬ At r.bits r.pos (bytesBits [first, b₁, b₂, b₃])

/-- The reader returns the number above the last code point. -/
theorem BeyondLast.read {first b₁ b₂ b₃ : UInt8} (h : BeyondLast first b₁ b₂ b₃) {r : Reader}
    (hr : r.Within) (hat : At r.bits r.pos (bytesBits [first, b₁, b₂, b₃])) :
    ∃ cp, 0x110000 ≤ cp ∧ bsReadUtf8 r = (.ok cp, { r with pos := r.pos + 32 }) := by
  obtain ⟨hlead, hcont⟩ := h
  simp only [List.mem_cons, List.not_mem_nil, or_false, forall_eq_or_imp, forall_eq] at hcont
  simp only [UInt8.le_iff_toNat_le, UInt8.lt_iff_toNat_lt, ← UInt8.toNat_inj,
    UInt8.reduceToNat] at hcont hlead
  have hbyte : ∀ b : UInt8, 0x80 ≤ b.toNat → UInt8.ofNat (b.toNat - 0x80 + 0x80) = b := by
    intro b hb
    rw [Nat.sub_add_cancel hb, UInt8.ofNat_toNat]
  obtain ⟨hb, hb₁, hb₂, hb₃⟩ := lead_masks ⟨first.toNat, first.toNat_lt⟩
  obtain ⟨-, -, hlow⟩ := lead_low ⟨first.toNat, first.toNat_lt⟩
  simp only at hb hb₁ hb₂ hb₃ hlow
  have hlead' := hb₃.mpr ⟨by omega, by omega⟩
  obtain ⟨cp, hcp⟩ : ∃ cp, codeNumber (first.toNat - 0xF0)
      [b₁.toNat - 0x80, b₂.toNat - 0x80, b₃.toNat - 0x80] = cp := ⟨_, rfl⟩
  have hnumber : 0x110000 ≤ cp := by
    simp only [codeNumber, List.foldl_cons, List.foldl_nil] at hcp
    omega
  have hform := @multiByte_readsWithin [b₁.toNat - 0x80, b₂.toNat - 0x80, b₃.toNat - 0x80]
    (by simp; omega) (first.toNat - 0xF0) cp (by simp; omega) hcp
    (checkCodePoint_eq (by simp) (by simp) (by omega) (by omega))
  simp only [List.map_cons, List.map_nil, hbyte b₁ hcont.1.1, hbyte b₂ hcont.2.1.1,
    hbyte b₃ hcont.2.2.1] at hform
  refine ⟨cp, hnumber, ?_⟩
  have hread : Rd.ReadsWithin bsReadUtf8 (byteBits first ++ bytesBits [b₁, b₂, b₃]) cp := by
    refine (bsReadU8_readsWithin first).bind ?_
    rw [if_neg (by rw [hb]; omega), if_neg (by rw [hb₁]; omega), if_neg (by rw [hb₂]; omega),
      if_pos hlead', hlow hlead']
    exact hform
  rw [bytesBits_cons] at hat
  have hr' := hread r hr hat
  rwa [List.length_append, length_byteBits, length_bytesBits] at hr'

/-- A form above the last code point has four bytes. -/
theorem AcceptedForm.beyondLast {first : UInt8} {ts : List Nat} {cp : Nat}
    (h : AcceptedForm first ts cp) (hlast : 0x110000 ≤ cp) :
    ∃ b₁ b₂ b₃, codeBytes first ts = [first, b₁, b₂, b₃] ∧ BeyondLast first b₁ b₂ b₃ := by
  have hgroups := h.groups
  obtain ⟨-, hlead, hcp⟩ | ⟨hlen, hlo, hhi, -, hcp⟩ | ⟨hlen, hlo, hhi, -, hcp⟩ |
    ⟨hlen, hlo, hhi, -, hcp⟩ := h.form
  · omega
  · obtain ⟨t, rfl⟩ := List.length_eq_one_iff.mp hlen
    simp only [List.mem_singleton, forall_eq] at hgroups
    simp only [codeNumber, List.foldl_cons, List.foldl_nil] at hcp
    omega
  · obtain ⟨t, u, rfl⟩ := List.length_eq_two.mp hlen
    simp only [List.mem_cons, List.not_mem_nil, or_false, forall_eq_or_imp, forall_eq] at hgroups
    simp only [codeNumber, List.foldl_cons, List.foldl_nil] at hcp
    omega
  · obtain ⟨t, u, v, rfl⟩ := List.length_eq_three.mp hlen
    simp only [List.mem_cons, List.not_mem_nil, or_false, forall_eq_or_imp, forall_eq] at hgroups
    simp only [codeNumber, List.foldl_cons, List.foldl_nil] at hcp
    refine ⟨_, _, _, rfl, ?_, ?_⟩
    · simp only [UInt8.le_iff_toNat_le, UInt8.lt_iff_toNat_lt, ← UInt8.toNat_inj,
        UInt8.toNat_ofNat', UInt8.reduceToNat]
      omega
    · simp only [List.mem_cons, List.not_mem_nil, or_false, forall_eq_or_imp, forall_eq,
        UInt8.le_iff_toNat_le, UInt8.lt_iff_toNat_lt, UInt8.toNat_ofNat', UInt8.reduceToNat]
      omega

/-! ## Reader and writer -/

/-- What is promised of code points, the stream being that of `r`. -/
structure Utf8Inverse (r : Reader) : Prop where
  /-- A code point that the writer takes is read back from where it was written, with its bytes. -/
  writeRead : ∀ (cp : UInt32) (w w' : Writer), w.Valid → bsWriteUtf8 cp.toNat w = .ok ((), w') →
    w'.Valid ∧ ∀ s : Reader, s.Over w' → s.pos = w.pos →
      bsReadUtf8 s = (.ok cp.toNat, { s with pos := w'.pos })
  /-- The writer takes the code point that the reader returns, and writes the bytes it read. -/
  readWrite : ∀ cp r', bsReadUtf8 r = (.ok cp, r') → ∃ bytes : List UInt8,
    At r.bits r.pos (bytesBits bytes) ∧ r' = { r with pos := r.pos + 8 * bytes.length } ∧
      ∀ w : Writer, w.Valid →
        ∃ w', bsWriteUtf8 cp w = .ok ((), w') ∧ w'.Valid ∧ w'.bits = w.bits ++ bytesBits bytes

/-- Reader and writer are inverse but for the forms above the last code point: those are read. -/
theorem utf8Inverse_iff {r : Reader} (hr : r.Within) : Utf8Inverse r ↔ r.UpToLast := by
  constructor
  · intro h first b₁ b₂ b₃ hbeyond hat
    obtain ⟨cp, hcp, hread⟩ := hbeyond.read hr hat
    obtain ⟨bytes, -, -, hwrite⟩ := h.readWrite _ _ hread
    obtain ⟨w', hok, -⟩ := hwrite (bsWriterCreate 0 0) (.create 0 0)
    obtain ⟨c, hc⟩ := bsWriteUtf8_eq_ok hok
    have hlt := (char_lt c).1
    omega
  · intro hlast
    refine ⟨fun cp w w' hw h => ?_, fun cp r' h => ?_⟩
    · obtain ⟨c, hc⟩ := bsWriteUtf8_eq_ok h
      rw [← hc] at h ⊢
      obtain ⟨w₁, hok, hvalid, hback⟩ :=
        writeReads hw (bsWriteUtf8_appends _ c) (bsReadUtf8_readsWithin c)
      obtain rfl : w₁ = w' := by
        rw [h] at hok
        simpa using hok.symm
      exact ⟨hvalid, hback⟩
    · obtain ⟨first, ts, hform, hat, hr'⟩ := bsReadUtf8_eq_ok hr h
      have hcp : cp < 0x110000 := by
        by_contra hbeyond
        obtain ⟨b₁, b₂, b₃, hbytes, hbeyond⟩ := hform.beyondLast (by omega)
        rw [hbytes] at hat
        exact hlast first b₁ b₂ b₃ hbeyond hat
      obtain ⟨c, rfl, hbytes⟩ := hform.encodes hcp
      refine ⟨codeBytes first ts, hat, hr', fun w hw => ?_⟩
      rw [hbytes]
      exact bsWriteUtf8_appends _ c w hw rfl

/-- A reader over the letter with code point U+00E9. -/
theorem utf8Inverse_iff_e_acute :
    Utf8Inverse (bsReaderCreate [0xC3, 0xA9]) ↔ (bsReaderCreate [0xC3, 0xA9]).UpToLast :=
  utf8Inverse_iff (Reader.Sound.create (by decide)).within

/-- The four bytes of `0x110000` are read, and the writer refuses the number. -/
theorem beyond_last_read :
    bsReadUtf8 (bsReaderCreate [0xF4, 0x90, 0x80, 0x80]) =
        (.ok 0x110000, ⟨[0xF4, 0x90, 0x80, 0x80], 32, 32⟩) ∧
      (∀ w, bsWriteUtf8 0x110000 w = .error (.rc .invalidUtf8)) ∧
      ¬ Utf8Inverse (bsReaderCreate [0xF4, 0x90, 0x80, 0x80]) := by
  have hread : bsReadUtf8 (bsReaderCreate [0xF4, 0x90, 0x80, 0x80]) =
      (.ok 0x110000, ⟨[0xF4, 0x90, 0x80, 0x80], 32, 32⟩) := by
    decide +kernel
  refine ⟨hread, fun w => rfl, fun h => ?_⟩
  obtain ⟨bytes, -, -, hwrite⟩ := h.readWrite _ _ hread
  obtain ⟨w', hok, -⟩ := hwrite (bsWriterCreate 0 0) (.create 0 0)
  cases hok

end Triepack
