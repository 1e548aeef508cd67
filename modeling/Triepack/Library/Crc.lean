import Mathlib.Logic.Function.Iterate
import Mathlib.Tactic.Common

/-!
# Table-driven reflected CRC registers

A register of `w` bits takes in a byte by leaving on the right and being xored with a table
entry. When the top bytes of the entries are all different, the entry that was used can be read
off the result. Running backwards like this shows that no input is lost: equal registers were
equal before equal input, and from one register no two inputs of at most `w` bits lead to one
register.

Without a table the register leaves bit by bit and takes in a polynomial for every one that
leaves. This is linear for xor, so eight bits of it are an entry for the low byte and a shift for
the rest: a table that holds what becomes of each byte computes the same.
-/

namespace Crc

variable {w : Nat}

/-- The number of the table entry for a byte. -/
def index (s : BitVec w) (b : BitVec 8) : BitVec 8 := s.setWidth 8 ^^^ b

/-- One byte of input. -/
def step (table : BitVec 8 → BitVec w) (s : BitVec w) (b : BitVec 8) : BitVec w :=
  table (index s b) ^^^ (s >>> 8)

/-- One bit leaves on the right; for a one the polynomial is taken in. -/
def shiftBit (poly s : BitVec w) : BitVec w :=
  if s.getLsbD 0 then (s >>> 1) ^^^ poly else s >>> 1

/-- One byte of input, bit by bit. -/
def bitStep (poly s : BitVec w) (b : BitVec 8) : BitVec w :=
  (shiftBit poly)^[8] (s ^^^ b.setWidth w)

/-- The checksum of a list of bytes, bit by bit. -/
def bitwise (poly initial final : BitVec w) (bytes : List (BitVec 8)) : BitVec w :=
  bytes.foldl (bitStep poly) initial ^^^ final

/-- An entry is known from its top byte. -/
def TopInjective (table : BitVec 8 → BitVec w) : Prop :=
  Function.Injective fun i => table i >>> (w - 8)

/-- Two runs over lists of bytes use the same entries at every step. -/
def SameEntries (table : BitVec 8 → BitVec w) :
    BitVec w → BitVec w → List (BitVec 8) → List (BitVec 8) → Prop
  | s, t, a :: as, b :: bs =>
    index s a = index t b ∧ SameEntries table (step table s a) (step table t b) as bs
  | _, _, [], [] => True
  | _, _, _, _ => False

section Backwards

variable {table : BitVec 8 → BitVec w} (htop : TopInjective table) {s t : BitVec w}

include htop

/-- Registers that agree above the lowest `n` bits came about with the same entry, and agreed
above the lowest `n + 8` bits. -/
theorem step_agree {a b : BitVec 8} {n : Nat} (hn : n + 8 ≤ w)
    (h : step table s a >>> n = step table t b >>> n) :
    index s a = index t b ∧ s >>> (n + 8) = t >>> (n + 8) := by
  have hindex : index s a = index t b := by
    have htops := congrArg (fun x : BitVec w => x >>> (w - 8 - n)) h
    simp only [← BitVec.shiftRight_add, show n + (w - 8 - n) = w - 8 by omega, step,
      BitVec.ushiftRight_xor_distrib] at htops
    have hzero : ∀ x : BitVec w, x >>> (8 + n + (w - 8 - n)) = 0#w := fun x =>
      BitVec.ushiftRight_eq_zero (by omega)
    rw [hzero, hzero, BitVec.xor_zero, BitVec.xor_zero] at htops
    exact htop htops
  refine ⟨hindex, ?_⟩
  rw [step, step, hindex, BitVec.ushiftRight_xor_distrib, BitVec.ushiftRight_xor_distrib,
    BitVec.xor_right_inj] at h
  rwa [Nat.add_comm, BitVec.shiftRight_add, BitVec.shiftRight_add]

/-- A byte takes different registers to different ones. -/
theorem step_injective (hw : 8 ≤ w) {b : BitVec 8} (h : step table s b = step table t b) : s = t := by
  have hagree : step table s b >>> 0 = step table t b >>> 0 := by rw [h]
  obtain ⟨hindex, hhigh⟩ := step_agree htop (by omega) hagree
  have hlow : s.setWidth 8 = t.setWidth 8 := (BitVec.xor_left_inj b).mp hindex
  refine BitVec.eq_of_toNat_eq ?_
  have hhigh' := congrArg BitVec.toNat hhigh
  have hlow' := congrArg BitVec.toNat hlow
  simp only [BitVec.toNat_ushiftRight, BitVec.toNat_setWidth, Nat.shiftRight_eq_div_pow] at hhigh' hlow'
  omega

theorem foldl_injective (hw : 8 ≤ w) {bs : List (BitVec 8)}
    (h : bs.foldl (step table) s = bs.foldl (step table) t) : s = t := by
  induction bs generalizing s t with
  | nil => exact h
  | cons b bs ih => exact step_injective htop hw (ih h)

/-- Registers that agree above so many bits came about with the same entries all the way. -/
theorem sameEntries_of_agree {as bs : List (BitVec 8)} (hlen : as.length = bs.length) {n : Nat}
    (hn : n + 8 * as.length ≤ w)
    (h : as.foldl (step table) s >>> n = bs.foldl (step table) t >>> n) :
    SameEntries table s t as bs ∧ s >>> (n + 8 * as.length) = t >>> (n + 8 * as.length) := by
  induction as generalizing s t bs with
  | nil =>
    obtain rfl : bs = [] := List.eq_nil_of_length_eq_zero hlen.symm
    exact ⟨trivial, h⟩
  | cons a as ih =>
    cases bs with
    | nil => simp at hlen
    | cons b bs =>
      simp only [List.length_cons, Nat.add_right_cancel_iff] at hlen hn ⊢
      obtain ⟨hrest, hagree⟩ := ih hlen (by omega) h
      obtain ⟨hindex, hhigh⟩ := step_agree htop (by omega) hagree
      exact ⟨⟨hindex, hrest⟩, hhigh⟩

omit htop in
/-- From one register the same entries mean the same bytes. -/
theorem SameEntries.eq {as bs : List (BitVec 8)} (h : SameEntries table s s as bs) : as = bs := by
  induction as generalizing s bs with
  | nil =>
    cases bs with
    | nil => rfl
    | cons b bs => exact h.elim
  | cons a as ih =>
    cases bs with
    | nil => exact h.elim
    | cons b bs =>
      obtain rfl : a = b := (BitVec.xor_right_inj _).mp h.1
      rw [ih h.2]

/-- A burst that is no longer than the register changes what it becomes, whatever follows. -/
theorem burst_detected (hw : 8 ≤ w) {pre as bs post : List (BitVec 8)}
    (hlen : as.length = bs.length) (hburst : 8 * as.length ≤ w)
    (h : (pre ++ as ++ post).foldl (step table) s = (pre ++ bs ++ post).foldl (step table) s) :
    as = bs := by
  simp only [List.foldl_append] at h
  have hsame := foldl_injective htop hw h
  exact (sameEntries_of_agree htop hlen (n := 0) (by omega) (by rw [hsame])).1.eq

end Backwards

section Bitwise

variable (poly : BitVec w) {s t : BitVec w}

theorem shiftBit_xor : shiftBit poly (s ^^^ t) = shiftBit poly s ^^^ shiftBit poly t := by
  unfold shiftBit
  rw [BitVec.getLsbD_xor, BitVec.ushiftRight_xor_distrib]
  cases s.getLsbD 0 <;> cases t.getLsbD 0
  · rfl
  · exact BitVec.xor_assoc _ _ _
  · show s >>> 1 ^^^ t >>> 1 ^^^ poly = s >>> 1 ^^^ poly ^^^ t >>> 1
    ac_rfl
  · -- both take the polynomial in, and it cancels
    have hcancel : s >>> 1 ^^^ poly ^^^ (t >>> 1 ^^^ poly) = s >>> 1 ^^^ t >>> 1 := by
      rw [BitVec.xor_comm (t >>> 1), BitVec.xor_assoc, ← BitVec.xor_assoc poly, BitVec.xor_self,
        BitVec.zero_xor]
    exact hcancel.symm

theorem shiftBit_iterate_xor (n : Nat) :
    (shiftBit poly)^[n] (s ^^^ t) = (shiftBit poly)^[n] s ^^^ (shiftBit poly)^[n] t := by
  induction n generalizing s t with
  | zero => rfl
  | succ n ih =>
    simp only [Function.iterate_succ_apply]
    rw [shiftBit_xor, ih]

/-- Zeros leave without a trace. -/
theorem shiftBit_iterate_of_clear {n : Nat} (h : ∀ i < n, s.getLsbD i = false) :
    (shiftBit poly)^[n] s = s >>> n := by
  induction n with
  | zero => rfl
  | succ n ih =>
    have hlow : (s >>> n).getLsbD 0 = false := by
      rw [BitVec.getLsbD_ushiftRight]
      exact h n (Nat.lt_succ_self n)
    have hrest : (shiftBit poly)^[n] s = s >>> n := ih fun i hi => h i (Nat.lt_succ_of_lt hi)
    rw [Function.iterate_succ_apply', hrest, shiftBit, hlow, if_neg Bool.false_ne_true,
      BitVec.shiftRight_add]

/-- A register is its low byte and the rest. -/
theorem xor_setWidth_eq (s : BitVec w) (b : BitVec 8) :
    s ^^^ b.setWidth w = (index s b).setWidth w ^^^ (s >>> 8 <<< 8) := by
  apply BitVec.eq_of_getLsbD_eq
  intro i hi
  simp only [index, BitVec.getLsbD_xor, BitVec.getLsbD_setWidth, BitVec.getLsbD_shiftLeft,
    BitVec.getLsbD_ushiftRight, hi, decide_true, Bool.true_and]
  by_cases h : i < 8
  · simp [h]
  · rw [BitVec.getLsbD_of_ge b i (by omega), Nat.add_sub_of_le (by omega : 8 ≤ i)]
    simp [h]

/-- A table that holds what becomes of each byte does eight bits in one step. -/
theorem step_eq_bitStep {table : BitVec 8 → BitVec w}
    (htable : ∀ i, table i = (shiftBit poly)^[8] (i.setWidth w)) (s : BitVec w) (b : BitVec 8) :
    step table s b = bitStep poly s b := by
  have hclear : ∀ i < 8, (s >>> 8 <<< 8).getLsbD i = false := by
    intro i hi
    simp [hi]
  have hhigh : s >>> 8 <<< 8 >>> 8 = s >>> 8 := by
    apply BitVec.eq_of_getLsbD_eq
    intro i hi
    by_cases h : 8 + i < w
    · simp [h]
    · simp [BitVec.getLsbD_of_ge s (8 + i) (by omega)]
  rw [bitStep, xor_setWidth_eq, shiftBit_iterate_xor, shiftBit_iterate_of_clear poly hclear, hhigh,
    ← htable, step]

theorem foldl_step_eq_bitwise {table : BitVec 8 → BitVec w}
    (htable : ∀ i, table i = (shiftBit poly)^[8] (i.setWidth w)) (initial final : BitVec w)
    (bytes : List (BitVec 8)) :
    bytes.foldl (step table) initial ^^^ final = bitwise poly initial final bytes := by
  have hstep : step table = bitStep poly := funext₂ (step_eq_bitStep poly htable)
  rw [hstep, bitwise]

end Bitwise

end Crc
