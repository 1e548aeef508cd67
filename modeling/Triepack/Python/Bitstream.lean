import Triepack.Core.Header
import Triepack.Library.CallStack

/-!
# The bit writer of the Python module

Integers are unbounded and errors are exceptions. `BitWriter.mirror` is the writer of the C library
with the same buffer and cursor, so what the operations append is known from there.
-/

namespace Triepack.Python

open BitString CallStack

/-- An exception, or a loop that does not end within the bound that the model puts on it. -/
inductive Err where
  | valueError | indexError | recursionError | loop
  deriving DecidableEq, Repr

instance : Overflows Err := ⟨.recursionError⟩

/-- `BitWriter`. -/
structure BitWriter where
  buf : List UInt8
  pos : Nat
  deriving DecidableEq, Repr

/-- `BitWriter.__init__`. -/
def BitWriter.init (initialCap : Nat) : BitWriter where
  buf := List.replicate (if initialCap ≠ 0 then initialCap else 256) 0
  pos := 0

/-- A call that writes. -/
abbrev Write (α : Type) : Type := StateT BitWriter (Except Err) α

/-- `position`. -/
def position : Write Nat := fun w => .ok (w.pos, w)

/-- The loop of `_ensure`. -/
def capLoop (needed : Nat) : (fuel newCap : Nat) → Nat
  | 0, newCap => newCap
  | fuel + 1, newCap => if newCap < needed then capLoop needed fuel (newCap * 2) else newCap

/-- `_ensure`. -/
def BitWriter.ensure (w : BitWriter) (nBits : Nat) : BitWriter :=
  let needed := (w.pos + nBits + 7) >>> 3
  if needed ≤ w.buf.length then w
  else
    let newCap := capLoop needed needed (w.buf.length * 2)
    { w with buf := w.buf ++ List.replicate (newCap - w.buf.length) 0 }

/-- Set or clear the bit at the cursor and move on. -/
def BitWriter.putBit (w : BitWriter) (bit : Nat) : BitWriter :=
  let byteIdx := w.pos >>> 3
  let bitIdx := 7 - (w.pos &&& 7)
  { buf := w.buf.modify byteIdx fun byte =>
      if bit ≠ 0 then byte ||| ((1 : UInt8) <<< UInt8.ofNat bitIdx)
      else byte &&& ~~~((1 : UInt8) <<< UInt8.ofNat bitIdx)
    pos := w.pos + 1 }

/-- The loop of `write_bits` with the low `n` bits of the value left. -/
def writeBitsLoop (value : Nat) : (n : Nat) → BitWriter → BitWriter
  | 0, w => w
  | n + 1, w => writeBitsLoop value n (w.putBit ((value >>> n) &&& 1))

/-- `write_bits`. -/
def writeBits (value n : Nat) : Write Unit := fun w =>
  if n = 0 ∨ n > 64 then .error .valueError else .ok ((), writeBitsLoop value n (w.ensure n))

/-- `write_bit`. -/
def writeBit (val : Nat) : Write Unit := fun w => .ok ((), (w.ensure 1).putBit val)

/-- `write_u8`. -/
def writeU8 (val : Nat) : Write Unit := writeBits (val &&& 0xFF) 8

/-- `write_u16`. -/
def writeU16 (val : Nat) : Write Unit := writeBits (val &&& 0xFFFF) 16

/-- `write_u32`. -/
def writeU32 (val : Nat) : Write Unit := writeBits (val &&& 0xFFFFFFFF) 32

/-- `write_u64`. -/
def writeU64 (hi32 lo32 : Nat) : Write Unit := do
  writeBits ((hi32 >>> 0) &&& 0xFFFFFFFF) 32
  writeBits ((lo32 >>> 0) &&& 0xFFFFFFFF) 32

/-- `write_bytes`. -/
def writeBytes (data : List UInt8) : Write Unit := data.forM fun b => writeU8 b.toNat

/-- `align_to_byte`. -/
def alignToByte : Write Unit := fun w =>
  let rem := w.pos &&& 7
  if rem ≠ 0 then
    let pad := 8 - rem
    let w := w.ensure pad
    .ok ((), { w with pos := w.pos + pad })
  else .ok ((), w)

/-- `to_bytes`. -/
def BitWriter.toBytes (w : BitWriter) : List UInt8 := w.buf.take ((w.pos + 7) >>> 3)

/-! ## Variable-length numbers -/

/-- The loop of `write_var_uint`. -/
def writeVarUintLoop (value : Nat) : Write Unit := do
  let byte := value &&& 0x7F
  let rest := value >>> 7
  writeU8 (if rest > 0 then byte ||| 0x80 else byte)
  if _h : rest = 0 then pure () else writeVarUintLoop rest
termination_by value
decreasing_by
  simp only [rest, Nat.shiftRight_eq_div_pow] at _h ⊢
  omega

/-- `write_var_uint`. -/
def writeVarUint (value : Int) : Write Unit :=
  if value < 0 then throw .valueError else writeVarUintLoop value.toNat

/-- `write_var_int`. -/
def writeVarInt (value : Int) : Write Unit :=
  writeVarUint (if value ≥ 0 then value * 2 else -value * 2 - 1)

/-- `var_uint_bits`. -/
def varUintBits (val : Nat) : Nat :=
  if _h : val >>> 7 = 0 then 8 else 8 + varUintBits (val >>> 7)
termination_by val
decreasing_by
  simp only [Nat.shiftRight_eq_div_pow] at _h ⊢
  omega

/-! ## What a call appends -/

/-- The writer of the library with the same buffer and cursor. -/
def BitWriter.mirror (w : BitWriter) : Writer := ⟨w.buf, 0, w.pos⟩

/-- From a valid writer at bit `p` the call returns and appends `bs`. -/
def Appends {α : Type} (p : Nat) (m : Write α) (bs : List Bool) (a : α) : Prop :=
  ∀ w : BitWriter, w.mirror.Valid → w.pos = p →
    ∃ w', m w = .ok (a, w') ∧ w'.mirror.Valid ∧ w'.mirror.bits = w.mirror.bits ++ bs

section Appends

variable {α β : Type} {p : Nat} {bs cs : List Bool} {a : α} {b : β}

theorem Appends.pure (p : Nat) (a : α) : Appends p (pure a) [] a :=
  fun w hw _ => ⟨w, rfl, hw, by simp⟩

theorem bind_ok {m : Write α} {f : α → Write β} {w w' : BitWriter} (h : m w = .ok (a, w')) :
    (m >>= f) w = f a w' := by
  change (m w >>= fun r => f r.1 r.2) = _
  rw [h]
  rfl

/-- The cursor moves over what is appended. -/
theorem pos_of_bits {w u : BitWriter} (hw : w.mirror.Valid) (hp : w.pos = p) (hu : u.mirror.Valid)
    (hbits : u.mirror.bits = w.mirror.bits ++ bs) : u.pos = p + bs.length := by
  have hlen := hu.length_bits
  rw [hbits, List.length_append, hw.length_bits] at hlen
  rw [← hp]
  exact hlen.symm

theorem Appends.bind {m : Write α} {f : α → Write β} (hm : Appends p m bs a)
    (hf : Appends (p + bs.length) (f a) cs b) : Appends p (m >>= f) (bs ++ cs) b := by
  intro w hw hp
  obtain ⟨u, hu, huv, hub⟩ := hm w hw hp
  obtain ⟨t, ht, htv, htb⟩ := hf u huv (pos_of_bits hw hp huv hub)
  exact ⟨t, (bind_ok hu).trans ht, htv, by rw [htb, hub, List.append_assoc]⟩

/-- A call that does on the mirrored writer what a call of the library does. -/
theorem Appends.of_mirror {m : Write α} {n : Wr α} (h : Wr.Appends p n bs a)
    (hm : ∀ w w', n w.mirror = .ok (a, w') → ∃ u, m w = .ok (a, u) ∧ u.mirror = w') :
    Appends p m bs a := by
  intro w hw hp
  obtain ⟨w', hn, hv, hb⟩ := h w.mirror hw hp
  obtain ⟨u, hu, rfl⟩ := hm w w' hn
  exact ⟨u, hu, hv, hb⟩

/-- A computation that does not write. -/
theorem Appends.lift_ok {x : Except Err α} {f : α → Write β} (hx : x = .ok a)
    (hf : Appends p (f a) bs b) : Appends p (StateT.lift x >>= f) bs b := by
  subst hx
  exact hf

/-- A loop whose rounds do not depend on where they start. -/
theorem Appends.forM {f : α → Write PUnit} {g : α → List Bool} {as : List α}
    (h : ∀ q, ∀ a ∈ as, Appends q (f a) (g a) ⟨⟩) (p : Nat) :
    Appends p (as.forM f) (as.flatMap g) ⟨⟩ := by
  induction as generalizing p with
  | nil => exact .pure p _
  | cons a as ih =>
    rw [List.flatMap_cons]
    exact (h p a (by simp)).bind (ih (fun q b hb => h q b (by simp [hb])) _)

theorem Appends.position_bind {f : Nat → Write β} (hf : Appends p (f p) bs b) :
    Appends p (position >>= f) bs b := by
  intro w hw hp
  obtain ⟨w', hw', h⟩ := hf w hw hp
  exact ⟨w', by rw [← hw', ← hp]; rfl, h⟩

end Appends

/-! ## What a call appends on a bounded stack -/

/-- From a valid writer at bit `p` the stack has no room for the call. -/
def Overruns {α : Type} (p : Nat) (m : Write α) : Prop :=
  ∀ w : BitWriter, w.mirror.Valid → w.pos = p → m w = .error .recursionError

/-- The call needs `n` frames, and with room for them it appends `bs`. -/
structure AppendsIn {α : Type} (frames : Frames) (n p : Nat) (m : Write α) (bs : List Bool) (a : α) :
    Prop where
  appends : frames.Room n → Appends p m bs a
  overruns : ¬ frames.Room n → Overruns p m

section AppendsIn

variable {α β : Type} {frames : Frames} {n k p : Nat} {m : Write α} {bs cs : List Bool} {a : α} {b : β}

theorem bind_error {f : α → Write β} {w : BitWriter} {e : Err} (h : m w = .error e) :
    (m >>= f) w = .error e := by
  change (m w >>= fun r => f r.1 r.2) = _
  rw [h]
  rfl

theorem Overruns.bind {f : α → Write β} (h : Overruns p m) : Overruns p (m >>= f) :=
  fun w hw hp => bind_error (h w hw hp)

theorem Appends.bind_overruns {f : α → Write β} (hm : Appends p m bs a)
    (hf : Overruns (p + bs.length) (f a)) : Overruns p (m >>= f) := by
  intro w hw hp
  obtain ⟨u, hu, huv, hub⟩ := hm w hw hp
  exact (bind_ok hu).trans (hf u huv (pos_of_bits hw hp huv hub))

theorem overruns_call (hroom : ¬ frames.Room n) (p : Nat) (m : Write α) : Overruns p (frames.call n m) := by
  intro w _ _
  rw [Frames.call, if_neg hroom]
  rfl

/-- A call that opens no frames. -/
theorem Appends.needs (h : Appends p m bs a) : AppendsIn frames 0 p m bs a :=
  ⟨fun _ => h, fun hroom => absurd frames.room_zero hroom⟩

theorem Appends.call (h : Appends p m bs a) (n : Nat) : AppendsIn frames n p (frames.call n m) bs a :=
  ⟨fun hroom => by rwa [Frames.call_of_room hroom], fun hroom => overruns_call hroom p m⟩

namespace AppendsIn

theorem congr (h : AppendsIn frames n p m bs a) (hiff : frames.Room n ↔ frames.Room k) :
    AppendsIn frames k p m bs a :=
  ⟨fun hroom => h.appends (hiff.mpr hroom), fun hroom => h.overruns fun hn => hroom (hiff.mp hn)⟩

/-- The rest of a run matters only if the stack has room for its beginning. -/
theorem bind {f : α → Write β} (hm : AppendsIn frames n p m bs a)
    (hf : frames.Room n → AppendsIn frames k (p + bs.length) (f a) cs b) :
    AppendsIn frames (max n k) p (m >>= f) (bs ++ cs) b := by
  constructor
  · intro hroom
    obtain ⟨hn, hk⟩ := Frames.room_max.mp hroom
    exact (hm.appends hn).bind ((hf hn).appends hk)
  · intro hroom
    by_cases hn : frames.Room n
    · exact (hm.appends hn).bind_overruns
        ((hf hn).overruns fun hk => hroom (Frames.room_max.mpr ⟨hn, hk⟩))
    · exact (hm.overruns hn).bind

/-- A run inside `k` frames that a call opens. -/
theorem inside (h : AppendsIn (frames.inside k) n p m bs a) :
    AppendsIn frames (k + n) p (frames.call k m) bs a := by
  by_cases hk : frames.Room k
  · rw [Frames.call_of_room hk]
    exact ⟨fun hroom => h.appends ((Frames.room_inside hk).mpr hroom),
      fun hroom => h.overruns fun hn => hroom ((Frames.room_inside hk).mp hn)⟩
  · exact ⟨fun hroom => absurd (hroom.mono (Nat.le_add_right k n)) hk, fun _ => overruns_call hk p m⟩

theorem position_bind {f : Nat → Write β} (h : AppendsIn frames n p (f p) bs b) :
    AppendsIn frames n p (position >>= f) bs b := by
  refine ⟨fun hroom => (h.appends hroom).position_bind, fun hroom w hw hp => ?_⟩
  rw [← h.overruns hroom w hw hp, ← hp]
  rfl

/-- A computation that does not write. -/
theorem lift {x : Except Err α} {f : α → Write β} (hx : Needs frames n x (.ok a))
    (hf : frames.Room n → AppendsIn frames k p (f a) bs b) :
    AppendsIn frames (max n k) p (StateT.lift x >>= f) bs b := by
  constructor
  · intro hroom
    obtain ⟨hn, hk⟩ := Frames.room_max.mp hroom
    exact .lift_ok (hx.1 hn) ((hf hn).appends hk)
  · intro hroom
    by_cases hn : frames.Room n
    · rw [hx.1 hn]
      exact (hf hn).overruns fun hk => hroom (Frames.room_max.mpr ⟨hn, hk⟩)
    · intro w _ _
      rw [hx.2 hn]
      rfl

end AppendsIn

end AppendsIn

theorem capLoop_eq (needed fuel newCap : Nat) :
    capLoop needed fuel newCap = growLoop 0 needed fuel newCap := by
  induction fuel generalizing newCap with
  | zero => rfl
  | succ fuel ih => simp [capLoop, growLoop, ih]

theorem mirror_ensure (w : BitWriter) (nBits : Nat) :
    (w.ensure nBits).mirror = ensureCapacity w.mirror nBits := by
  simp only [BitWriter.ensure, ensureCapacity, grownCap, Nat.shiftRight_eq_div_pow, capLoop_eq,
    BitWriter.mirror, Writer.cap]
  split_ifs <;> simp_all

theorem mirror_putBit (w : BitWriter) (bit : Nat) :
    (w.putBit bit).mirror =
      { w.mirror with buf := writeBitMsb w.mirror.buf w.mirror.pos bit, pos := w.mirror.pos + 1 } := by
  simp only [BitWriter.putBit, BitWriter.mirror, writeBitMsb, setBit, Nat.shiftRight_eq_div_pow]
  rw [show w.pos &&& 7 = w.pos % 8 from Nat.and_two_pow_sub_one_eq_mod w.pos 3]

theorem mirror_writeBitsLoop (value n : Nat) (w : BitWriter) :
    (writeBitsLoop value n w).mirror = Triepack.writeBitsLoop value n w.mirror := by
  induction n generalizing w with
  | zero => rfl
  | succ n ih => rw [writeBitsLoop, ih, mirror_putBit, Triepack.writeBitsLoop]

theorem writeBits_appends (p : Nat) {v n : Nat} (hn : 0 < n) (hn' : n ≤ 64) :
    Appends p (writeBits v n) (natBits n v) () := by
  refine .of_mirror (bsWriteBits_appends p hn hn') fun w w' h => ?_
  rw [bsWriteBits, if_neg (by omega)] at h
  refine ⟨_, by rw [writeBits, if_neg (by omega)], ?_⟩
  rw [mirror_writeBitsLoop, mirror_ensure]
  simpa using h

theorem writeBit_appends (p : Nat) (b : Bool) :
    Appends p (writeBit (if b then 1 else 0)) (natBits 1 (if b then 1 else 0)) () := by
  refine .of_mirror (bsWriteBit_appends p _) fun w w' h => ⟨_, rfl, ?_⟩
  rw [mirror_putBit, mirror_ensure]
  cases b <;> simpa [bsWriteBit] using h

/-- The fields that mask their value first. -/
theorem writeMasked_appends (p v : Nat) {n : Nat} (hn : 0 < n) (hn' : n ≤ 64) :
    Appends p (writeBits (v &&& (2 ^ n - 1)) n) (natBits n v) () := by
  rw [Nat.and_two_pow_sub_one_eq_mod, ← natBits_mod n v]
  exact writeBits_appends p hn hn'

theorem writeU8_appends (p v : Nat) : Appends p (writeU8 v) (natBits 8 v) () :=
  writeMasked_appends p v (by omega) (by omega)

theorem writeU16_appends (p v : Nat) : Appends p (writeU16 v) (natBits 16 v) () :=
  writeMasked_appends p v (by omega) (by omega)

theorem writeU32_appends (p v : Nat) : Appends p (writeU32 v) (natBits 32 v) () :=
  writeMasked_appends p v (by omega) (by omega)

theorem writeU64_appends (p hi32 lo32 : Nat) :
    Appends p (writeU64 hi32 lo32) (natBits 32 hi32 ++ natBits 32 lo32) () :=
  (writeU32_appends p hi32).bind (writeU32_appends _ lo32)

theorem writeBytes_appends (p : Nat) (data : List UInt8) :
    Appends p (writeBytes data) (bytesBits data) () :=
  .forM (fun q b _ => writeU8_appends q b.toNat) p

theorem alignToByte_appends (p : Nat) : Appends p alignToByte (padBits p) () := by
  refine .of_mirror (bsWriterAlignToByte_appends p) fun w w' h => ?_
  have hrem : w.pos &&& 7 = w.pos % 8 := Nat.and_two_pow_sub_one_eq_mod w.pos 3
  rw [bsWriterAlignToByte, show w.mirror.pos = w.pos from rfl] at h
  simp only [alignToByte, hrem]
  by_cases haligned : w.pos % 8 = 0
  · simp only [haligned, ne_eq, not_true_eq_false, if_false, Except.ok.injEq, Prod.mk.injEq,
      true_and] at h ⊢
    exact ⟨w, rfl, h⟩
  · simp only [haligned, ne_eq, not_false_eq_true, if_true, ← mirror_ensure, Except.ok.injEq,
      Prod.mk.injEq, true_and] at h ⊢
    exact ⟨_, rfl, h⟩

theorem writeVarUintLoop_appends (p value : Nat) :
    Appends p (writeVarUintLoop value) (Leb128.bits value) () := by
  induction value using Nat.strongRecOn generalizing p with
  | ind value ih =>
    have hlow : value &&& 0x7F = value % 128 := Nat.and_two_pow_sub_one_eq_mod value 7
    have hrest : value >>> 7 = value / 128 := by rw [Nat.shiftRight_eq_div_pow]
    rw [writeVarUintLoop]
    simp only [hlow, hrest]
    by_cases hlast : value < 128
    · have hz : value / 128 = 0 := Nat.div_eq_of_lt hlast
      rw [Leb128.bits_of_lt hlast, ← List.append_nil (natBits 8 value)]
      simp only [hz, gt_iff_lt, lt_self_iff_false, if_false, dite_true, Nat.mod_eq_of_lt hlast]
      exact (writeU8_appends p _).bind (.pure _ ())
    · have hpos : 0 < value / 128 := by omega
      rw [Leb128.bits_of_le (by omega)]
      simp only [hpos, hpos.ne', if_true, dite_false,
        or_continuation (Nat.mod_lt value (by omega : 128 > 0))]
      exact (writeU8_appends p _).bind (ih _ (by omega) _)

theorem writeVarUint_appends (p value : Nat) :
    Appends p (writeVarUint value) (Leb128.bits value) () := by
  rw [writeVarUint, if_neg (by omega)]
  exact writeVarUintLoop_appends p value

theorem varUintBits_eq (val : Nat) : varUintBits val = (Leb128.bits val).length := by
  induction val using Nat.strongRecOn with
  | ind val ih =>
    rw [varUintBits]
    simp only [Nat.shiftRight_eq_div_pow]
    split_ifs with h
    · rw [Leb128.length_bits_of_lt (by omega)]
    · rw [ih _ (by omega), Leb128.length_bits_of_le (v := val) (by omega)]

end Triepack.Python
