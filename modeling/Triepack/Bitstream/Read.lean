import Triepack.Bitstream.Basic

/-!
# Reading bits

The stateless reads take no length and touch whatever bit they are pointed at; the cursor
reads compare with `bitLen` first. A reader `Within` a buffer of possible size is over its
first bits, a `Sound` one over all of them; every cursor read keeps them so, and `At` says what
such a read returns.
-/

namespace Triepack

open BitString

/-- `read_bit_msb`. -/
def readBitMsb (buf : List UInt8) (bitPos : Nat) : Except Stop Nat :=
  match buf[bitPos / 8]? with
  | some byte => .ok ((byte.toNat >>> (7 - bitPos % 8)) &&& 1)
  | none => .error (.oob bitPos)

/-- The loop of `tp_bs_read_bits_at`: `n` more bits from `bitPos` on, below those in `val`. -/
def readBitsLoop (buf : List UInt8) : (n bitPos val : Nat) → Except Stop Nat
  | 0, _, val => .ok val
  | n + 1, bitPos, val =>
    match readBitMsb buf bitPos with
    | .ok bit => readBitsLoop buf n (u64 (bitPos + 1)) ((val <<< 1) ||| bit)
    | .error e => .error e

/-- `tp_bs_read_bits_at`. -/
def bsReadBitsAt (buf : List UInt8) (bitPos n : Nat) : Except Stop Nat :=
  if n = 0 ∨ n > 64 then .error (.rc .invalidParam) else readBitsLoop buf n bitPos 0

/-- `tp_bs_read_bits`. -/
def bsReadBits (n : Nat) : Rd Nat := fun r =>
  if n = 0 ∨ n > 64 then (.error (.rc .invalidParam), r)
  else if u64 (r.pos + n) > r.bitLen then (.error (.rc .eof), r)
  else (bsReadBitsAt r.buf r.pos n, { r with pos := u64 (r.pos + n) })

/-- `tp_bs_read_bit`. -/
def bsReadBit : Rd Nat := fun r =>
  if r.pos ≥ r.bitLen then (.error (.rc .eof), r)
  else (readBitMsb r.buf r.pos, { r with pos := u64 (r.pos + 1) })

/-- `tp_bs_peek_bits`. -/
def bsPeekBits (n : Nat) : Rd Nat := fun r =>
  if n = 0 ∨ n > 64 then (.error (.rc .invalidParam), r)
  else if u64 (r.pos + n) > r.bitLen then (.error (.rc .eof), r)
  else (bsReadBitsAt r.buf r.pos n, r)

/-- `tp_bs_read_u8`. -/
def bsReadU8 : Rd UInt8 := do return UInt8.ofNat (← bsReadBits 8)

/-- `tp_bs_read_u16`. -/
def bsReadU16 : Rd UInt16 := do return UInt16.ofNat (← bsReadBits 16)

/-- `tp_bs_read_u32`. -/
def bsReadU32 : Rd UInt32 := do return UInt32.ofNat (← bsReadBits 32)

/-- `tp_bs_read_u64`. -/
def bsReadU64 : Rd UInt64 := do return UInt64.ofNat (← bsReadBits 64)

/-- `tp_bs_reader_position`. -/
def bsReaderPosition : Rd Nat := fun r => (.ok r.pos, r)

/-- `tp_bs_reader_seek`. -/
def bsReaderSeek (bitPos : Nat) : Rd Unit := fun r =>
  if bitPos > r.bitLen then (.error (.rc .invalidPosition), r) else (.ok (), { r with pos := bitPos })

/-- `tp_bs_reader_advance`. -/
def bsReaderAdvance (n : Nat) : Rd Unit := fun r =>
  if u64 (r.pos + n) > r.bitLen then (.error (.rc .eof), r)
  else (.ok (), { r with pos := u64 (r.pos + n) })

/-- `tp_bs_reader_align_to_byte`. -/
def bsReaderAlignToByte : Rd Unit := fun r =>
  if r.pos % 8 ≠ 0 then
    if u64 (r.pos + (8 - r.pos % 8)) > r.bitLen then (.error (.rc .eof), r)
    else (.ok (), { r with pos := u64 (r.pos + (8 - r.pos % 8)) })
  else (.ok (), r)

/-- `tp_bs_reader_direct_ptr`: the pointer is the offset of the byte it points at. -/
def bsReaderDirectPtr (n : Nat) : Rd Nat := fun r =>
  if r.pos % 8 ≠ 0 then (.error (.rc .notAligned), r)
  else if u64 (r.pos + u64 (n * 8)) > r.bitLen then (.error (.rc .eof), r)
  else (.ok (r.pos / 8), { r with pos := u64 (r.pos + u64 (n * 8)) })

/-! ## Single bits and fields -/

theorem readBitMsb_eq (buf : List UInt8) (bitPos : Nat) :
    readBitMsb buf bitPos =
      match (bytesBits buf)[bitPos]? with
      | some b => .ok b.toNat
      | none => .error (.oob bitPos) := by
  rw [getElem?_bytesBits, readBitMsb]
  cases buf[bitPos / 8]? with
  | none => rfl
  | some byte => simp [Nat.toNat_testBit, Nat.shiftRight_eq_div_pow, Nat.and_one_is_mod]

/-- The loop spells the bits it passes, provided the position does not wrap on the way. -/
theorem readBitsLoop_of_at {buf : List UInt8} {chunk : List Bool} {pos val : Nat}
    (h : At (bytesBits buf) pos chunk) (hpos : pos + chunk.length < 2 ^ 64) :
    readBitsLoop buf chunk.length pos val = .ok (accBits val chunk) := by
  induction chunk generalizing pos val with
  | nil => rfl
  | cons b bs ih =>
    have hbit : (bytesBits buf)[pos]? = some b := by simpa using h.getElem? (i := 0) (by simp)
    have hnext : At (bytesBits buf) (pos + 1) bs := by
      have hcons : At (bytesBits buf) pos ([b] ++ bs) := by simpa using h
      simpa using hcons.right
    simp only [List.length_cons] at hpos
    have hval : (val <<< 1) ||| b.toNat = 2 * val + b.toNat := by
      have hb : b.toNat < 2 ^ 1 := by cases b <;> decide
      rw [Nat.shiftLeft_eq, Nat.mul_comm, ← Nat.two_pow_add_eq_or_of_lt hb, pow_one]
    rw [List.length_cons, readBitsLoop, readBitMsb_eq, hbit, u64_of_lt (by omega)]
    simp only [hval]
    rw [ih hnext (by omega), accBits]

/-- A loop that leaves the string has read its first bit outside. -/
theorem readBitsLoop_oob {buf : List UInt8} {n pos val : Nat} (hpos : pos + n < 2 ^ 64)
    (hout : 8 * buf.length < pos + n) (hlt : 0 < n) :
    ∃ bit, readBitsLoop buf n pos val = .error (.oob bit) ∧ 8 * buf.length ≤ bit := by
  induction n generalizing pos val with
  | zero => omega
  | succ n ih =>
    by_cases hin : pos < 8 * buf.length
    · obtain ⟨b, hget⟩ : ∃ b, (bytesBits buf)[pos]? = some b :=
        ⟨_, List.getElem?_eq_getElem (by simpa using hin)⟩
      rw [readBitsLoop, readBitMsb_eq, hget, u64_of_lt (by omega)]
      exact ih (by omega) (by omega) (by omega)
    · have hget : (bytesBits buf)[pos]? = none := List.getElem?_eq_none (by simpa using hin)
      rw [readBitsLoop, readBitMsb_eq, hget]
      exact ⟨pos, rfl, by omega⟩

theorem bsReadBitsAt_of_at {buf : List UInt8} {chunk : List Bool} {pos : Nat}
    (h : At (bytesBits buf) pos chunk) (hpos : pos + chunk.length < 2 ^ 64)
    (hn : 0 < chunk.length) (hn' : chunk.length ≤ 64) :
    bsReadBitsAt buf pos chunk.length = .ok (bitsNat chunk) := by
  rw [bsReadBitsAt, if_neg (by omega), readBitsLoop_of_at h hpos, bitsNat]

/-! ## Readers over part of a buffer -/

/-- A reader over the first bits of a buffer, its cursor among them: what
`tp_bs_writer_to_reader` hands out. No read of 64 bits passes the end of `uint64_t`. -/
structure Reader.Within (r : Reader) : Prop where
  bitLen_le : r.bitLen ≤ 8 * r.buf.length
  bitLen_lt : r.bitLen + 64 < 2 ^ 64
  pos_le : r.pos ≤ r.bitLen

/-- The bits that a reader is over. -/
def Reader.bits (r : Reader) : List Bool := (bytesBits r.buf).take r.bitLen

theorem Reader.Within.length_bits {r : Reader} (hr : r.Within) : r.bits.length = r.bitLen := by
  rw [Reader.bits, List.length_take, length_bytesBits, Nat.min_eq_left hr.bitLen_le]

theorem Reader.Within.move {r : Reader} (hr : r.Within) {pos : Nat} (h : pos ≤ r.bitLen) :
    ({ r with pos := pos } : Reader).Within := ⟨hr.bitLen_le, hr.bitLen_lt, h⟩

/-- A chunk that stands at the cursor ends inside. -/
theorem Reader.Within.le {r : Reader} (hr : r.Within) {bs : List Bool} (h : At r.bits r.pos bs) :
    r.pos + bs.length ≤ r.bitLen := by
  rcases eq_or_ne bs [] with rfl | hne
  · exact hr.pos_le
  · have hle := h.le hne
    rwa [hr.length_bits] at hle

theorem Reader.Within.pass {r : Reader} (hr : r.Within) {bs : List Bool} (h : At r.bits r.pos bs) :
    ({ r with pos := r.pos + bs.length } : Reader).Within := hr.move (hr.le h)

/-- The bits between the cursor and `n` bits on. -/
theorem Reader.Within.window {r : Reader} (hr : r.Within) {n : Nat} (h : r.pos + n ≤ r.bitLen) :
    ∃ chunk, chunk.length = n ∧ At r.bits r.pos chunk := by
  refine ⟨(r.bits.drop r.pos).take n, ?_, at_take_drop _ _ _⟩
  rw [List.length_take, List.length_drop, hr.length_bits]
  omega

/-- What a field read does: it fails at the end, and else returns the bits at the cursor. -/
theorem bsReadBits_within {r : Reader} (hr : r.Within) {n : Nat} (hn : 0 < n) (hn' : n ≤ 64) :
    (r.bitLen < r.pos + n ∧ bsReadBits n r = (.error (.rc .eof), r)) ∨
    ∃ chunk, chunk.length = n ∧ At r.bits r.pos chunk ∧ r.pos + n ≤ r.bitLen ∧
      bsReadBits n r = (.ok (bitsNat chunk), { r with pos := r.pos + n }) := by
  have hlen := hr.bitLen_lt
  have hpos := hr.pos_le
  have hwrap : u64 (r.pos + n) = r.pos + n := u64_of_lt (by omega)
  by_cases hend : r.pos + n ≤ r.bitLen
  · obtain ⟨chunk, rfl, hat⟩ := hr.window hend
    refine .inr ⟨chunk, rfl, hat, hend, ?_⟩
    rw [bsReadBits, if_neg (by omega), hwrap, if_neg (by omega),
      bsReadBitsAt_of_at hat.of_take (by omega) hn hn']
  · refine .inl ⟨by omega, ?_⟩
    rw [bsReadBits, if_neg (by omega), hwrap, if_pos (by omega)]

/-- A chunk that stands at the cursor is read as a number. -/
theorem bsReadBits_chunk {r : Reader} (hr : r.Within) {chunk : List Bool} (hn : 0 < chunk.length)
    (hn' : chunk.length ≤ 64) (h : At r.bits r.pos chunk) :
    bsReadBits chunk.length r =
      (.ok (bitsNat chunk), { r with pos := r.pos + chunk.length }) := by
  have hle := hr.le h
  have hlen := hr.bitLen_lt
  rw [bsReadBits, if_neg (by omega), u64_of_lt (by omega), if_neg (by omega),
    bsReadBitsAt_of_at h.of_take (by omega) hn hn']

theorem bsReadBit_within {r : Reader} (hr : r.Within) : bsReadBit r = bsReadBits 1 r := by
  have hlen := hr.bitLen_lt
  have hpos := hr.pos_le
  have hwrap : u64 (r.pos + 1) = r.pos + 1 := u64_of_lt (by omega)
  have hbit : bsReadBitsAt r.buf r.pos 1 = readBitMsb r.buf r.pos := by
    simp only [bsReadBitsAt, readBitsLoop]
    cases readBitMsb r.buf r.pos <;> simp
  unfold bsReadBit bsReadBits
  rw [hwrap, hbit]
  simp

theorem bsReaderAlignToByte_within {r : Reader} (hr : r.Within)
    (h : (r.pos + 7) / 8 * 8 ≤ r.bitLen) :
    bsReaderAlignToByte r = (.ok (), { r with pos := (r.pos + 7) / 8 * 8 }) := by
  have hlen := hr.bitLen_lt
  unfold bsReaderAlignToByte
  split_ifs with hrem hout
  · rw [u64_of_lt (by omega)] at hout
    omega
  · have hal : r.pos + (8 - r.pos % 8) = (r.pos + 7) / 8 * 8 := by omega
    rw [u64_of_lt (by omega), hal]
  · have hal : (r.pos + 7) / 8 * 8 = r.pos := by omega
    rw [hal]

theorem bsReaderDirectPtr_within {r : Reader} (hr : r.Within) {n : Nat} (hal : r.pos % 8 = 0)
    (h : r.pos + 8 * n ≤ r.bitLen) :
    bsReaderDirectPtr n r = (.ok (r.pos / 8), { r with pos := r.pos + 8 * n }) := by
  have hlen := hr.bitLen_lt
  rw [bsReaderDirectPtr, u64_of_lt (n := n * 8) (by omega), u64_of_lt (by omega), if_neg (by omega),
    if_neg (by omega), Nat.mul_comm n]

/-- Where `bs` stands at the cursor of a reader over part of a buffer, the operation returns
`a` and ends behind `bs`. -/
def Rd.ReadsWithin {α : Type} (m : Rd α) (bs : List Bool) (a : α) : Prop :=
  ∀ r : Reader, r.Within → At r.bits r.pos bs → m r = (.ok a, { r with pos := r.pos + bs.length })

section ReadsWithin

variable {α β : Type} {bs cs : List Bool} {a : α} {b : β}

theorem Rd.ReadsWithin.pure (a : α) : Rd.ReadsWithin (pure a) [] a := fun _ _ _ => rfl

theorem Rd.ReadsWithin.bind {m : Rd α} {f : α → Rd β} (hm : Rd.ReadsWithin m bs a)
    (hf : Rd.ReadsWithin (f a) cs b) : Rd.ReadsWithin (m >>= f) (bs ++ cs) b := by
  intro r hr hat
  rw [Op.bind_ok (hm r hr hat.left), hf _ (hr.pass hat.left) hat.right, List.length_append,
    Nat.add_assoc]

theorem Rd.ReadsWithin.map {m : Rd α} (f : α → β) (hm : Rd.ReadsWithin m bs a) :
    Rd.ReadsWithin (do return f (← m)) bs (f a) := by
  have h := hm.bind (f := fun x => Pure.pure (f x)) (.pure (f a))
  rwa [List.append_nil] at h

end ReadsWithin

theorem bsReadBits_readsWithin {n v : Nat} (hn : 0 < n) (hn' : n ≤ 64) (hv : v < 2 ^ n) :
    Rd.ReadsWithin (bsReadBits n) (natBits n v) v := by
  intro r hr hat
  have h := bsReadBits_chunk hr (by simpa using hn) (by simpa using hn') hat
  rw [length_natBits, bitsNat_natBits, Nat.mod_eq_of_lt hv] at h
  rw [length_natBits]
  exact h

theorem bsReadBit_readsWithin (b : Bool) :
    Rd.ReadsWithin bsReadBit (natBits 1 b.toNat) b.toNat := by
  intro r hr hat
  rw [bsReadBit_within hr]
  exact bsReadBits_readsWithin (by omega) (by omega) (by cases b <;> simp) r hr hat

theorem bsReadU8_readsWithin (v : UInt8) : Rd.ReadsWithin bsReadU8 (natBits 8 v.toNat) v := by
  have h := (bsReadBits_readsWithin (by omega) (by omega) v.toNat_lt).map UInt8.ofNat
  rwa [UInt8.ofNat_toNat] at h

theorem bsReadU16_readsWithin (v : UInt16) : Rd.ReadsWithin bsReadU16 (natBits 16 v.toNat) v := by
  have h := (bsReadBits_readsWithin (by omega) (by omega) v.toNat_lt).map UInt16.ofNat
  rwa [UInt16.ofNat_toNat] at h

theorem bsReadU32_readsWithin (v : UInt32) : Rd.ReadsWithin bsReadU32 (natBits 32 v.toNat) v := by
  have h := (bsReadBits_readsWithin (by omega) (by omega) v.toNat_lt).map UInt32.ofNat
  rwa [UInt32.ofNat_toNat] at h

theorem bsReadU64_readsWithin (v : UInt64) : Rd.ReadsWithin bsReadU64 (natBits 64 v.toNat) v := by
  have h := (bsReadBits_readsWithin (by omega) (by omega) v.toNat_lt).map UInt64.ofNat
  rwa [UInt64.ofNat_toNat] at h

/-! ## Sound readers -/

/-- A reader over the whole of a buffer that an address space can hold, its cursor inside. -/
structure Reader.Sound (r : Reader) : Prop where
  bitLen_eq : r.bitLen = 8 * r.buf.length
  bitLen_lt : r.bitLen < 2 ^ 63
  pos_le : r.pos ≤ r.bitLen

theorem Reader.Sound.within {r : Reader} (hr : r.Sound) : r.Within := by
  have hlen := hr.bitLen_lt
  exact ⟨hr.bitLen_eq.le, by omega, hr.pos_le⟩

theorem Reader.Sound.bits_eq {r : Reader} (hr : r.Sound) : r.bits = bytesBits r.buf := by
  rw [Reader.bits, hr.bitLen_eq, ← length_bytesBits, List.take_length]

theorem Reader.Sound.move {r : Reader} (hr : r.Sound) {pos : Nat} (h : pos ≤ r.bitLen) :
    ({ r with pos := pos } : Reader).Sound := ⟨hr.bitLen_eq, hr.bitLen_lt, h⟩

theorem Reader.Sound.create {buf : List UInt8} (h : buf.length < 2 ^ 60) :
    (bsReaderCreate buf).Sound := by
  have hlen : u64 (buf.length * 8) = 8 * buf.length := by rw [u64_of_lt] <;> omega
  exact ⟨hlen, by simp only [bsReaderCreate, hlen]; omega, Nat.zero_le _⟩

/-- The bits of a sound reader's buffer between its cursor and `n` bits on. -/
theorem Reader.Sound.window {r : Reader} (hr : r.Sound) {n : Nat} (h : r.pos + n ≤ r.bitLen) :
    ∃ chunk, chunk.length = n ∧ At (bytesBits r.buf) r.pos chunk := by
  rw [← hr.bits_eq]
  exact hr.within.window h

/-- What a field read of a sound reader can do. -/
theorem bsReadBits_sound {r : Reader} (hr : r.Sound) {n : Nat} (hn : 0 < n) (hn' : n ≤ 64) :
    (r.bitLen < r.pos + n ∧ bsReadBits n r = (.error (.rc .eof), r)) ∨
    (r.pos + n ≤ r.bitLen ∧ ∃ v < 2 ^ n, bsReadBits n r = (.ok v, { r with pos := r.pos + n })) := by
  obtain h | ⟨chunk, rfl, _, hend, h⟩ := bsReadBits_within hr.within hn hn'
  · exact .inl h
  · exact .inr ⟨hend, bitsNat chunk, bitsNat_lt chunk, h⟩

theorem bsPeekBits_eq {r : Reader} {n : Nat} :
    bsPeekBits n r = ((bsReadBits n r).1, r) := by
  unfold bsPeekBits bsReadBits
  split_ifs <;> rfl

theorem bsReadBit_eq {r : Reader} (hr : r.Sound) : bsReadBit r = bsReadBits 1 r :=
  bsReadBit_within hr.within

theorem bsReaderSeek_of_le {r : Reader} {pos : Nat} (h : pos ≤ r.bitLen) :
    bsReaderSeek pos r = (.ok (), { r with pos := pos }) := by
  rw [bsReaderSeek, if_neg (by omega)]

theorem bsReaderSeek_eq_ok {r r' : Reader} {pos : Nat} {u : Unit}
    (h : bsReaderSeek pos r = (.ok u, r')) : pos ≤ r.bitLen ∧ r' = { r with pos := pos } := by
  simp only [bsReaderSeek] at h
  split at h
  · simp at h
  · exact ⟨by omega, (Prod.mk.inj h).2.symm⟩

theorem bsReaderAlignToByte_sound {r : Reader} (hr : r.Sound) :
    bsReaderAlignToByte r = (.ok (), { r with pos := (r.pos + 7) / 8 * 8 }) := by
  have hpos := hr.pos_le
  have heq := hr.bitLen_eq
  exact bsReaderAlignToByte_within hr.within (by omega)

/-! ## Operations that read what stands at the cursor -/

/-- Where `bs` stands at the cursor of a sound reader, the operation returns `a` and ends
behind `bs`. -/
def Rd.Reads {α : Type} (m : Rd α) (bs : List Bool) (a : α) : Prop :=
  ∀ r : Reader, r.Sound → At (bytesBits r.buf) r.pos bs →
    m r = (.ok a, { r with pos := r.pos + bs.length })

/-- What reads on part of a buffer reads on a whole one. -/
theorem Rd.ReadsWithin.reads {α : Type} {m : Rd α} {bs : List Bool} {a : α}
    (h : Rd.ReadsWithin m bs a) : Rd.Reads m bs a := fun r hr hat =>
  h r hr.within (by rwa [hr.bits_eq])

/-- A chunk that stands at the cursor leaves the cursor inside when it is passed. -/
theorem Reader.Sound.pass {r : Reader} (hr : r.Sound) {bs : List Bool}
    (h : At (bytesBits r.buf) r.pos bs) :
    ({ r with pos := r.pos + bs.length } : Reader).Sound :=
  hr.move (hr.within.le (by rwa [hr.bits_eq]))

section Reads

variable {α β : Type} {bs cs : List Bool} {a : α} {b : β}

theorem Rd.Reads.pure (a : α) : Rd.Reads (pure a) [] a := fun _ _ _ => rfl

theorem Rd.Reads.bind {m : Rd α} {f : α → Rd β} (hm : Rd.Reads m bs a)
    (hf : Rd.Reads (f a) cs b) : Rd.Reads (m >>= f) (bs ++ cs) b := by
  intro r hr hat
  rw [Op.bind_ok (hm r hr hat.left), hf _ (hr.pass hat.left) hat.right, List.length_append,
    Nat.add_assoc]

theorem Rd.Reads.map {m : Rd α} (f : α → β) (hm : Rd.Reads m bs a) :
    Rd.Reads (do return f (← m)) bs (f a) := by
  have h := hm.bind (f := fun x => Pure.pure (f x)) (.pure (f a))
  rwa [List.append_nil] at h

end Reads

theorem bsReadBits_reads {n v : Nat} (hn : 0 < n) (hn' : n ≤ 64) (hv : v < 2 ^ n) :
    Rd.Reads (bsReadBits n) (natBits n v) v := (bsReadBits_readsWithin hn hn' hv).reads

theorem bsReadU8_reads (v : UInt8) : Rd.Reads bsReadU8 (natBits 8 v.toNat) v :=
  (bsReadU8_readsWithin v).reads

theorem bsReadU16_reads (v : UInt16) : Rd.Reads bsReadU16 (natBits 16 v.toNat) v :=
  (bsReadU16_readsWithin v).reads

theorem bsReadU32_reads (v : UInt32) : Rd.Reads bsReadU32 (natBits 32 v.toNat) v :=
  (bsReadU32_readsWithin v).reads

theorem bsReadU64_reads (v : UInt64) : Rd.Reads bsReadU64 (natBits 64 v.toNat) v :=
  (bsReadU64_readsWithin v).reads

/-! ## Operations that stay inside -/

/-- On a sound reader the operation keeps it sound and ends, if not with a result, with a
result code: it touches no bit outside the buffer. -/
def Rd.Safe {α : Type} (m : Rd α) : Prop :=
  ∀ r : Reader, r.Sound → (m r).2.Sound ∧ (m r).2.buf = r.buf ∧
    ∀ e, (m r).1 = .error e → ∃ code, e = .rc code

section Safe

variable {α β : Type}

theorem Rd.Safe.pure (a : α) : Rd.Safe (pure a) := fun r hr => ⟨hr, rfl, by simp⟩

theorem Rd.Safe.fail (code : TpErr) : Rd.Safe (Op.fail code : Rd α) :=
  fun r hr => ⟨hr, rfl, by simp⟩

theorem Rd.Safe.bind {m : Rd α} {f : α → Rd β} (hm : Rd.Safe m) (hf : ∀ a, Rd.Safe (f a)) :
    Rd.Safe (m >>= f) := by
  intro r hr
  obtain ⟨hs, hbuf, herr⟩ := hm r hr
  rcases hx : m r with ⟨e | a, t⟩
  · rw [Op.bind_error hx]
    rw [hx] at hs hbuf herr
    exact ⟨hs, hbuf, by simpa using herr⟩
  · rw [Op.bind_ok hx]
    rw [hx] at hs hbuf
    obtain ⟨hs', hbuf', herr'⟩ := hf a t hs
    exact ⟨hs', hbuf'.trans hbuf, herr'⟩

/-- How a safe operation ends. -/
theorem Rd.Safe.cases {m : Rd α} (hm : Rd.Safe m) {r : Reader} (hr : r.Sound) :
    ∃ t : Reader, t.Sound ∧ t.buf = r.buf ∧
      ((∃ code, m r = (.error (.rc code), t)) ∨ ∃ a, m r = (.ok a, t)) := by
  obtain ⟨hs, hbuf, herr⟩ := hm r hr
  refine ⟨(m r).2, hs, hbuf, ?_⟩
  rcases hx : m r with ⟨e | a, t⟩
  · obtain ⟨code, rfl⟩ := herr e (by rw [hx])
    exact .inl ⟨code, rfl⟩
  · exact .inr ⟨a, rfl⟩

end Safe

theorem bsReadBits_safe {n : Nat} (hn : 0 < n) (hn' : n ≤ 64) : Rd.Safe (bsReadBits n) := by
  intro r hr
  obtain ⟨_, h⟩ | ⟨hle, v, _, h⟩ := bsReadBits_sound hr hn hn'
  · rw [h]
    exact ⟨hr, rfl, by simp⟩
  · rw [h]
    exact ⟨hr.move hle, rfl, by simp⟩

theorem bsPeekBits_safe {n : Nat} (hn : 0 < n) (hn' : n ≤ 64) : Rd.Safe (bsPeekBits n) := by
  intro r hr
  obtain ⟨_, _, herr⟩ := bsReadBits_safe hn hn' r hr
  rw [bsPeekBits_eq]
  exact ⟨hr, rfl, herr⟩

theorem bsReadBit_safe : Rd.Safe bsReadBit := by
  intro r hr
  rw [bsReadBit_eq hr]
  exact bsReadBits_safe (by omega) (by omega) r hr

theorem bsReaderSeek_safe (pos : Nat) : Rd.Safe (bsReaderSeek pos) := by
  intro r hr
  unfold bsReaderSeek
  split_ifs with h
  · exact ⟨hr, rfl, by simp⟩
  · exact ⟨hr.move (by omega), rfl, by simp⟩

theorem bsReaderAdvance_safe (n : Nat) : Rd.Safe (bsReaderAdvance n) := by
  intro r hr
  unfold bsReaderAdvance
  split_ifs with h
  · exact ⟨hr, rfl, by simp⟩
  · exact ⟨hr.move (by omega), rfl, by simp⟩

theorem bsReaderAlignToByte_safe : Rd.Safe bsReaderAlignToByte := by
  intro r hr
  have := hr.bitLen_eq
  have := hr.pos_le
  rw [bsReaderAlignToByte_sound hr]
  exact ⟨hr.move (by omega), rfl, by simp⟩

theorem bsReaderDirectPtr_safe (n : Nat) : Rd.Safe (bsReaderDirectPtr n) := by
  intro r hr
  unfold bsReaderDirectPtr
  split_ifs with hal h
  · exact ⟨hr, rfl, by simp⟩
  · exact ⟨hr, rfl, by simp⟩
  · exact ⟨hr.move (by omega), rfl, by simp⟩

theorem bsReadU8_safe : Rd.Safe bsReadU8 :=
  (bsReadBits_safe (by omega) (by omega)).bind fun _ => .pure _

theorem bsReadU16_safe : Rd.Safe bsReadU16 :=
  (bsReadBits_safe (by omega) (by omega)).bind fun _ => .pure _

theorem bsReadU32_safe : Rd.Safe bsReadU32 :=
  (bsReadBits_safe (by omega) (by omega)).bind fun _ => .pure _

theorem bsReadU64_safe : Rd.Safe bsReadU64 :=
  (bsReadBits_safe (by omega) (by omega)).bind fun _ => .pure _

end Triepack
