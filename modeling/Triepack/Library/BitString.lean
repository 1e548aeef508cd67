import Mathlib.Data.List.Infix
import Mathlib.Data.Nat.Bitwise
import Mathlib.Tactic

/-!
# Bit strings, most significant bit first

Fixed-width fields as lists of bits and back, the bits of a list of bytes, and `At`: a chunk
of bits standing at a position of a longer string. A format is described by chunks put one
after another; `At.append` splits such a description at a position, and a reader's lemmas
need nothing else about the buffer.
-/

namespace BitString

/-- The low `n` bits of `v`. -/
def natBits : Nat → Nat → List Bool
  | 0, _ => []
  | n + 1, v => v.testBit n :: natBits n v

/-- The number a bit string spells, read on top of what was read before it. -/
def accBits (acc : Nat) : List Bool → Nat
  | [] => acc
  | b :: bs => accBits (2 * acc + b.toNat) bs

/-- The number a bit string spells. -/
def bitsNat (bs : List Bool) : Nat := accBits 0 bs

@[simp] theorem length_natBits (n v : Nat) : (natBits n v).length = n := by
  induction n with
  | zero => rfl
  | succ n ih => simp [natBits, ih]

theorem accBits_eq (acc : Nat) (bs : List Bool) :
    accBits acc bs = acc * 2 ^ bs.length + bitsNat bs := by
  induction bs generalizing acc with
  | nil => simp [accBits, bitsNat]
  | cons b bs ih =>
    rw [bitsNat, accBits, ih, accBits, ih (2 * 0 + b.toNat), List.length_cons, pow_succ]
    ring

theorem bitsNat_cons (b : Bool) (bs : List Bool) :
    bitsNat (b :: bs) = b.toNat * 2 ^ bs.length + bitsNat bs := by
  rw [bitsNat, accBits, accBits_eq]
  simp

theorem bitsNat_lt (bs : List Bool) : bitsNat bs < 2 ^ bs.length := by
  induction bs with
  | nil => simp [bitsNat, accBits]
  | cons b bs ih =>
    rw [bitsNat_cons, List.length_cons, pow_succ]
    have hb : b.toNat ≤ 1 := Bool.toNat_le b
    nlinarith [Nat.two_pow_pos bs.length]

theorem bitsNat_natBits (n v : Nat) : bitsNat (natBits n v) = v % 2 ^ n := by
  induction n with
  | zero => simp [natBits, bitsNat, accBits, Nat.mod_one]
  | succ n ih =>
    rw [natBits, bitsNat_cons, length_natBits, ih, Nat.mod_pow_succ, Nat.toNat_testBit]
    ring

theorem natBits_mod (n v : Nat) : natBits n (v % 2 ^ n) = natBits n v := by
  have hmod : ∀ m, m ≤ n → natBits m (v % 2 ^ n) = natBits m v := by
    intro m hm
    induction m with
    | zero => rfl
    | succ m ih =>
      rw [natBits, natBits, ih (by omega), Nat.testBit_mod_two_pow]
      simp [show m < n by omega]
  exact hmod n le_rfl

theorem natBits_bitsNat (bs : List Bool) : natBits bs.length (bitsNat bs) = bs := by
  induction bs with
  | nil => rfl
  | cons b bs ih =>
    have hlow : natBits bs.length (bitsNat (b :: bs)) = bs := by
      rw [← natBits_mod, bitsNat_cons, Nat.add_comm, Nat.add_mul_mod_self_right,
        Nat.mod_eq_of_lt (bitsNat_lt bs), ih]
    have hhigh : (bitsNat (b :: bs)).testBit bs.length = b := by
      rw [bitsNat_cons, Nat.mul_comm, Nat.testBit_two_pow_mul_add _ (bitsNat_lt bs)]
      cases b <;> simp
    rw [List.length_cons, natBits, hlow, hhigh]

theorem natBits_add (m n v : Nat) : natBits (m + n) v = natBits m (v / 2 ^ n) ++ natBits n v := by
  induction m with
  | zero => simp [natBits]
  | succ m ih =>
    rw [show m + 1 + n = m + n + 1 by omega, natBits, natBits, ih, Nat.testBit_div_two_pow,
      List.cons_append]

theorem natBits_zero (n : Nat) : natBits n 0 = List.replicate n false := by
  induction n with
  | zero => rfl
  | succ n ih => simp [natBits, ih, List.replicate_succ]

theorem getElem?_natBits (n v i : Nat) (h : i < n) :
    (natBits n v)[i]? = some (v.testBit (n - 1 - i)) := by
  induction n generalizing i with
  | zero => omega
  | succ n ih =>
    cases i with
    | zero => simp [natBits]
    | succ i =>
      rw [natBits, List.getElem?_cons_succ, ih i (by omega)]
      congr 2
      omega

/-! ## Bytes -/

/-- The bits of one byte. -/
def byteBits (b : UInt8) : List Bool := natBits 8 b.toNat

/-- The bits of a list of bytes. -/
def bytesBits (bs : List UInt8) : List Bool := bs.flatMap byteBits

@[simp] theorem length_byteBits (b : UInt8) : (byteBits b).length = 8 := by simp [byteBits]

@[simp] theorem bytesBits_nil : bytesBits [] = [] := rfl

theorem bytesBits_cons (b : UInt8) (bs : List UInt8) :
    bytesBits (b :: bs) = byteBits b ++ bytesBits bs := by simp [bytesBits]

theorem bytesBits_append (as bs : List UInt8) :
    bytesBits (as ++ bs) = bytesBits as ++ bytesBits bs := by simp [bytesBits]

@[simp] theorem length_bytesBits (bs : List UInt8) : (bytesBits bs).length = 8 * bs.length := by
  induction bs with
  | nil => rfl
  | cons b bs ih =>
    rw [bytesBits_cons, List.length_append, ih, length_byteBits, List.length_cons]
    omega

theorem bytesBits_replicate_zero (n : Nat) :
    bytesBits (List.replicate n 0) = List.replicate (8 * n) false := by
  induction n with
  | zero => rfl
  | succ n ih =>
    rw [List.replicate_succ, bytesBits_cons, ih, Nat.mul_succ, Nat.add_comm, List.replicate_add]
    rfl

theorem byteBits_injective {a b : UInt8} (h : byteBits a = byteBits b) : a = b := by
  have hnat := congrArg bitsNat h
  simp only [byteBits, bitsNat_natBits] at hnat
  have ha := a.toNat_lt
  have hb := b.toNat_lt
  exact UInt8.toNat_inj.mp (by omega)

theorem bytesBits_injective {as bs : List UInt8} (h : bytesBits as = bytesBits bs) : as = bs := by
  induction as generalizing bs with
  | nil =>
    have hlen := congrArg List.length h
    simp only [length_bytesBits, List.length_nil] at hlen
    exact (List.eq_nil_of_length_eq_zero (by omega)).symm
  | cons a as ih =>
    cases bs with
    | nil =>
      have hlen := congrArg List.length h
      simp only [length_bytesBits, List.length_nil, List.length_cons] at hlen
      omega
    | cons b bs =>
      rw [bytesBits_cons, bytesBits_cons] at h
      obtain ⟨hhead, htail⟩ := List.append_inj h (by simp)
      rw [byteBits_injective hhead, ih htail]

theorem getElem?_bytesBits (bs : List UInt8) (i : Nat) :
    (bytesBits bs)[i]? = bs[i / 8]?.map fun b => b.toNat.testBit (7 - i % 8) := by
  induction bs generalizing i with
  | nil => simp
  | cons b bs ih =>
    rw [bytesBits_cons]
    by_cases hi : i < 8
    · rw [List.getElem?_append_left (by simpa using hi), byteBits, getElem?_natBits _ _ _ hi]
      simp [Nat.div_eq_of_lt hi, Nat.mod_eq_of_lt hi]
    · rw [List.getElem?_append_right (by simpa using hi), length_byteBits, ih,
        show i / 8 = (i - 8) / 8 + 1 by omega, List.getElem?_cons_succ,
        show (i - 8) % 8 = i % 8 by omega]

/-- A bit taken out of its byte by a shift. -/
theorem getD_testBit {buf : List UInt8} {p : Nat} {b : Bool} (h : (bytesBits buf)[p]? = some b) :
    ((buf.getD (p >>> 3) 0).toNat >>> (7 - (p &&& 7))) &&& 1 = b.toNat := by
  have hmask : p &&& 7 = p % 8 := Nat.and_two_pow_sub_one_eq_mod p 3
  have hindex : p >>> 3 = p / 8 := Nat.shiftRight_eq_div_pow p 3
  rw [getElem?_bytesBits] at h
  rw [List.getD_eq_getElem?_getD, hindex, hmask]
  rcases hbyte : buf[p / 8]? with _ | byte
  · simp [hbyte] at h
  · obtain rfl : byte.toNat.testBit (7 - p % 8) = b := by simpa [hbyte] using h
    rw [Option.getD_some, Nat.toNat_testBit, Nat.shiftRight_eq_div_pow, Nat.and_one_is_mod]

theorem take_bytesBits (bs : List UInt8) (n : Nat) :
    (bytesBits bs).take (8 * n) = bytesBits (bs.take n) := by
  induction n generalizing bs with
  | zero => simp
  | succ n ih =>
    cases bs with
    | nil => simp
    | cons b bs =>
      rw [bytesBits_cons, List.take_succ_cons, bytesBits_cons, List.take_append,
        length_byteBits, show 8 * (n + 1) - 8 = 8 * n by omega, ih,
        List.take_of_length_le (by rw [length_byteBits]; omega)]

theorem drop_bytesBits (bs : List UInt8) (n : Nat) :
    (bytesBits bs).drop (8 * n) = bytesBits (bs.drop n) := by
  induction n generalizing bs with
  | zero => simp
  | succ n ih =>
    cases bs with
    | nil => simp
    | cons b bs =>
      rw [bytesBits_cons, List.drop_succ_cons, List.drop_append, length_byteBits,
        show 8 * (n + 1) - 8 = 8 * n by omega, ih,
        List.drop_of_length_le (by rw [length_byteBits]; omega),
        List.nil_append]

/-! ## Chunks at positions -/

/-- The chunk stands at bit `pos` of the string. -/
def At (bs : List Bool) (pos : Nat) (chunk : List Bool) : Prop := chunk <+: bs.drop pos

theorem At.nil (bs : List Bool) (pos : Nat) : At bs pos [] := List.nil_prefix

theorem At.append {bs as cs : List Bool} {pos : Nat} :
    At bs pos (as ++ cs) ↔ At bs pos as ∧ At bs (pos + as.length) cs := by
  constructor
  · rintro ⟨tl, h⟩
    refine ⟨⟨cs ++ tl, by rw [← h, List.append_assoc]⟩, ⟨tl, ?_⟩⟩
    rw [← List.drop_drop, ← h, List.append_assoc, List.drop_left]
  · rintro ⟨⟨tl, h⟩, ⟨tl', h'⟩⟩
    rw [← List.drop_drop, ← h, List.drop_left] at h'
    exact ⟨tl', by rw [← h, ← h', List.append_assoc]⟩

theorem At.left {bs as cs : List Bool} {pos : Nat} (h : At bs pos (as ++ cs)) : At bs pos as :=
  (At.append.mp h).1

theorem At.right {bs as cs : List Bool} {pos : Nat} (h : At bs pos (as ++ cs)) :
    At bs (pos + as.length) cs := (At.append.mp h).2

theorem At.le {bs chunk : List Bool} {pos : Nat} (h : At bs pos chunk) (hne : chunk ≠ []) :
    pos + chunk.length ≤ bs.length := by
  have hlen := h.length_le
  have hpos := List.length_pos_of_ne_nil hne
  rw [List.length_drop] at hlen
  omega

/-- What stands in the first bits of a string stands in the string. -/
theorem At.of_take {bs chunk : List Bool} {n pos : Nat} (h : At (bs.take n) pos chunk) :
    At bs pos chunk := by
  rw [At, List.drop_take] at h
  exact h.trans (List.take_prefix _ _)

/-- The chunk of a string between two positions stands at the first. -/
theorem at_take_drop (bs : List Bool) (pos n : Nat) : At bs pos ((bs.drop pos).take n) :=
  List.take_prefix _ _

theorem at_of_eq_append {bs pre chunk post : List Bool} (h : bs = pre ++ chunk ++ post) :
    At bs pre.length chunk := by
  refine ⟨post, ?_⟩
  rw [h, List.append_assoc, List.drop_left]

theorem At.getElem? {bs chunk : List Bool} {pos i : Nat} (h : At bs pos chunk)
    (hi : i < chunk.length) : bs[pos + i]? = chunk[i]? := by
  rw [← List.getElem?_drop]
  obtain ⟨tl, htl⟩ := h
  rw [← htl, List.getElem?_append_left hi]

end BitString
