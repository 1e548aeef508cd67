import Mathlib.Algebra.Order.Field.Power
import Mathlib.Data.Rat.Cast.Order
import Mathlib.Tactic.FieldSimp
import Mathlib.Tactic.Ring

/-!
# What a floating-point bit pattern denotes

The interchange formats with a sign, a biased exponent and a fraction. A pattern is given by its three
fields, and what it denotes is computed from them.
-/

/-- The widths of the fields of a binary interchange format. -/
structure FloatFormat where
  expBits : Nat
  fracBits : Nat

/-- What a bit pattern denotes; the payload of a NaN is left out. -/
inductive FloatDatum where
  | finite (negative : Bool) (magnitude : ℚ)
  | infinite (negative : Bool)
  | nan
  deriving DecidableEq

namespace FloatFormat

def binary32 : FloatFormat := ⟨8, 23⟩

def binary64 : FloatFormat := ⟨11, 52⟩

section Fields

variable (F : FloatFormat) (bits : Nat)

def frac : Nat := bits % 2 ^ F.fracBits

def exp : Nat := bits / 2 ^ F.fracBits % 2 ^ F.expBits

def negative : Bool := decide (bits / 2 ^ F.fracBits / 2 ^ F.expBits % 2 = 1)

/-- The power of two that the last place of a subnormal number stands for. -/
def minPlace : ℤ := 2 - 2 ^ (F.expBits - 1) - F.fracBits

/-- What the three fields denote. -/
def denote (negative : Bool) (exp frac : Nat) : FloatDatum :=
  if exp = 2 ^ F.expBits - 1 then if frac = 0 then .infinite negative else .nan
  else if exp = 0 then .finite negative (frac * 2 ^ F.minPlace)
  else .finite negative ((2 ^ F.fracBits + frac) * 2 ^ (F.minPlace + exp - 1))

def datum : FloatDatum := F.denote (F.negative bits) (F.exp bits) (F.frac bits)

/-- The pattern that has these fields. -/
def pack (negative : Bool) (exp frac : Nat) : Nat :=
  (negative.toNat * 2 ^ F.expBits + exp) * 2 ^ F.fracBits + frac

end Fields

section Pack

variable {F : FloatFormat} {bits exp frac : Nat} {s : Bool}

theorem frac_lt (F : FloatFormat) (bits : Nat) : F.frac bits < 2 ^ F.fracBits :=
  Nat.mod_lt _ (Nat.two_pow_pos _)

theorem exp_lt (F : FloatFormat) (bits : Nat) : F.exp bits < 2 ^ F.expBits :=
  Nat.mod_lt _ (Nat.two_pow_pos _)

theorem datum_pack (hexp : exp < 2 ^ F.expBits) (hfrac : frac < 2 ^ F.fracBits) :
    F.datum (F.pack s exp frac) = F.denote s exp frac := by
  have hdiv : F.pack s exp frac / 2 ^ F.fracBits = s.toNat * 2 ^ F.expBits + exp := by
    rw [pack, Nat.add_comm, Nat.add_mul_div_right _ _ (Nat.two_pow_pos _), Nat.div_eq_of_lt hfrac, Nat.zero_add]
  have hf : F.frac (F.pack s exp frac) = frac := by
    rw [FloatFormat.frac, pack, Nat.add_comm, Nat.add_mul_mod_self_right, Nat.mod_eq_of_lt hfrac]
  have he : F.exp (F.pack s exp frac) = exp := by
    rw [FloatFormat.exp, hdiv, Nat.add_comm, Nat.add_mul_mod_self_right, Nat.mod_eq_of_lt hexp]
  have hs : F.negative (F.pack s exp frac) = s := by
    rw [negative, hdiv, Nat.add_comm, Nat.add_mul_div_right _ _ (Nat.two_pow_pos _), Nat.div_eq_of_lt hexp,
      Nat.zero_add]
    cases s <;> rfl
  rw [datum, hf, he, hs]

/-- A pattern of the width of the format is that of its fields. -/
theorem pack_fields (h : bits < 2 ^ (F.expBits + F.fracBits + 1)) :
    F.pack (F.negative bits) (F.exp bits) (F.frac bits) = bits := by
  have hsign : (F.negative bits).toNat = bits / 2 ^ F.fracBits / 2 ^ F.expBits := by
    have hlt : bits / 2 ^ F.fracBits / 2 ^ F.expBits < 2 := by
      rw [Nat.div_div_eq_div_mul, ← pow_add]
      refine Nat.div_lt_of_lt_mul ?_
      rwa [← pow_succ, Nat.add_comm F.fracBits]
    rw [negative]
    generalize bits / 2 ^ F.fracBits / 2 ^ F.expBits = b at hlt
    obtain rfl | rfl : b = 0 ∨ b = 1 := by omega
    · rfl
    · rfl
  rw [pack, hsign, FloatFormat.exp, FloatFormat.frac, Nat.div_add_mod', Nat.div_add_mod']

end Pack

/-! ## Moving between formats -/

theorem minPlace_binary32 : binary32.minPlace = -149 := rfl

theorem minPlace_binary64 : binary64.minPlace = -1074 := rfl

/-- A factor that moves into the exponent. -/
theorem mul_pow_mul_zpow (a : ℚ) (k : Nat) (n : ℤ) : a * 2 ^ k * 2 ^ n = a * 2 ^ (n + k) := by
  rw [zpow_add₀ (by norm_num), zpow_natCast]
  ring

section Widen

variable {exp frac : Nat} (s : Bool)

/-- A normal single gets the larger bias and more places. -/
theorem denote_normal (hzero : exp ≠ 0) (hspecial : exp < 255) :
    binary64.denote s (exp + 896) (frac * 2 ^ 29) = binary32.denote s exp frac := by
  rw [denote, denote, if_neg (by simp only [binary64]; omega), if_neg (by omega),
    if_neg (by simp only [binary32]; omega), if_neg hzero, minPlace_binary32, minPlace_binary64]
  have hscale : (2 ^ binary64.fracBits + (frac * 2 ^ 29 : Nat) : ℚ) =
      (2 ^ binary32.fracBits + frac) * 2 ^ 29 := by
    simp only [binary64, binary32]
    push_cast
    ring
  have hplace : -1074 + ((exp + 896 : Nat) : ℤ) - 1 + (29 : Nat) = -149 + (exp : ℤ) - 1 := by omega
  rw [hscale, mul_pow_mul_zpow, hplace]

/-- A subnormal single moved up until its first one stands in front of the fraction. -/
theorem shifted_bounds (hzero : frac ≠ 0) (hfrac : frac < 2 ^ 23) :
    2 ^ 52 ≤ frac * 2 ^ (52 - frac.log2) ∧ frac * 2 ^ (52 - frac.log2) < 2 ^ 53 := by
  have hlog : frac.log2 < 23 := (Nat.log2_lt hzero).mpr hfrac
  have hpow : 2 ^ frac.log2 * 2 ^ (52 - frac.log2) = 2 ^ 52 := by
    rw [← pow_add, Nat.add_sub_cancel' (by omega)]
  constructor
  · rw [← hpow]
    exact Nat.mul_le_mul_right _ (Nat.log2_self_le hzero)
  · have hmul := Nat.mul_lt_mul_of_pos_right (@Nat.lt_log2_self frac) (Nat.two_pow_pos (52 - frac.log2))
    rwa [pow_succ, Nat.mul_right_comm, hpow] at hmul

/-- So it is a normal double. -/
theorem denote_subnormal (hzero : frac ≠ 0) (hfrac : frac < 2 ^ 23) :
    binary64.denote s (frac.log2 + 874) (frac * 2 ^ (52 - frac.log2) - 2 ^ 52) =
      binary32.denote s 0 frac := by
  have hlog : frac.log2 < 23 := (Nat.log2_lt hzero).mpr hfrac
  obtain ⟨hlow, _⟩ := shifted_bounds hzero hfrac
  rw [denote, denote, if_neg (by simp only [binary64]; omega), if_neg (by omega),
    if_neg (by simp only [binary32]; omega), if_pos rfl, minPlace_binary32, minPlace_binary64]
  have hfull : (2 ^ binary64.fracBits + (frac * 2 ^ (52 - frac.log2) - 2 ^ 52 : Nat) : ℚ) =
      frac * 2 ^ (52 - frac.log2) := by
    have hcast : ((2 ^ 52 + (frac * 2 ^ (52 - frac.log2) - 2 ^ 52) : Nat) : ℚ) =
        frac * 2 ^ (52 - frac.log2) := by
      rw [Nat.add_sub_cancel' hlow]
      push_cast
      rfl
    rw [← hcast, Nat.cast_add, Nat.cast_pow]
    rfl
  have hplace : -1074 + ((frac.log2 + 874 : Nat) : ℤ) - 1 + ((52 - frac.log2 : Nat) : ℤ) = -149 := by omega
  rw [hfull, mul_pow_mul_zpow, hplace]

end Widen

end FloatFormat
