import Triepack.Library.BitString

/-!
# LEB128 numbers

A number in groups of seven bits, the lowest group first; every group but the last carries
the continuation bit. `bits` is the code as a bit string.
-/

namespace Leb128

open BitString

/-- The groups of `v`, each with its continuation bit. -/
def groups (v : Nat) : List Nat :=
  if v < 128 then [v] else (v % 128 + 128) :: groups (v / 128)
termination_by v
decreasing_by omega

/-- The number that a list of groups denotes. -/
def value : List Nat → Nat
  | [] => 0
  | g :: gs => g % 128 + 128 * value gs

/-- The code of `v`. -/
def bits (v : Nat) : List Bool := (groups v).flatMap (natBits 8)

theorem groups_of_lt {v : Nat} (h : v < 128) : groups v = [v] := by rw [groups, if_pos h]

theorem groups_of_le {v : Nat} (h : 128 ≤ v) :
    groups v = (v % 128 + 128) :: groups (v / 128) := by rw [groups, if_neg (by omega)]

theorem length_groups_pos (v : Nat) : 0 < (groups v).length := by
  rw [groups]
  split <;> simp

theorem bits_of_lt {v : Nat} (h : v < 128) : bits v = natBits 8 v := by
  simp [bits, groups_of_lt h]

theorem bits_of_le {v : Nat} (h : 128 ≤ v) :
    bits v = natBits 8 (v % 128 + 128) ++ bits (v / 128) := by
  simp [bits, groups_of_le h]

theorem length_bits (v : Nat) : (bits v).length = 8 * (groups v).length := by
  rw [bits, List.length_flatMap]
  simp [Nat.mul_comm]

theorem length_bits_of_lt {v : Nat} (h : v < 128) : (bits v).length = 8 := by
  rw [bits_of_lt h, length_natBits]

theorem length_bits_of_le {v : Nat} (h : 128 ≤ v) :
    (bits v).length = 8 + (bits (v / 128)).length := by
  rw [bits_of_le h, List.length_append, length_natBits]

theorem length_bits_pos (v : Nat) : 8 ≤ (bits v).length := by
  rw [length_bits]
  have := length_groups_pos v
  omega

/-! ## Codes as bytes -/

/-- The bytes of a number at the front of a row: all but the last carry the continuation bit. -/
inductive IsCode : List UInt8 → Prop
  | last {b : UInt8} (h : b < 128) : IsCode [b]
  | more {b : UInt8} {bs : List UInt8} (h : ¬ b < 128) (hbs : IsCode bs) : IsCode (b :: bs)

/-- The number that bytes denote. -/
def byteValue (bs : List UInt8) : Nat := value (bs.map UInt8.toNat)

theorem byteValue_cons (b : UInt8) (bs : List UInt8) :
    byteValue (b :: bs) = b.toNat % 128 + 128 * byteValue bs := rfl

/-- The number at the front of a row, and what is behind it. -/
def takeCode : List UInt8 → Option (List UInt8 × List UInt8)
  | [] => none
  | b :: rest => if b < 128 then some ([b], rest) else (takeCode rest).map fun t => (b :: t.1, t.2)

theorem takeCode_append {bs : List UInt8} (h : IsCode bs) (rest : List UInt8) :
    takeCode (bs ++ rest) = some (bs, rest) := by
  induction h with
  | last h => simp [takeCode, h]
  | more h _ ih => simp [takeCode, h, ih]

theorem isCode_of_takeCode {row bs rest : List UInt8} (h : takeCode row = some (bs, rest)) :
    IsCode bs ∧ row = bs ++ rest := by
  induction row generalizing bs with
  | nil => simp [takeCode] at h
  | cons b row ih =>
    rw [takeCode] at h
    split_ifs at h with hlast
    · obtain ⟨rfl, rfl⟩ : [b] = bs ∧ row = rest := by simpa using h
      exact ⟨.last hlast, rfl⟩
    · obtain ⟨⟨bs', rest'⟩, htake, heq⟩ := Option.map_eq_some_iff.mp h
      obtain ⟨rfl, rfl⟩ : b :: bs' = bs ∧ rest' = rest := by simpa using heq
      obtain ⟨hcode, rfl⟩ := ih htake
      exact ⟨.more hlast hcode, rfl⟩

theorem IsCode.length_pos {bs : List UInt8} (h : IsCode bs) : 0 < bs.length := by
  cases h <;> simp

/-- The bytes of `v`. -/
def code (v : Nat) : List UInt8 := (groups v).map UInt8.ofNat

theorem code_of_lt {v : Nat} (h : v < 128) : code v = [UInt8.ofNat v] := by rw [code, groups_of_lt h]; rfl

theorem code_of_le {v : Nat} (h : 128 ≤ v) :
    code v = UInt8.ofNat (v % 128 + 128) :: code (v / 128) := by rw [code, groups_of_le h]; rfl

theorem toNat_ofNat_of_lt {n : Nat} (h : n < 256) : (UInt8.ofNat n).toNat = n := by
  simpa using Nat.mod_eq_of_lt h

theorem isCode_code (v : Nat) : IsCode (code v) := by
  induction v using Nat.strongRecOn with
  | ind v ih =>
    by_cases hv : v < 128
    · rw [code_of_lt hv]
      exact .last (UInt8.lt_iff_toNat_lt.mpr (by rw [toNat_ofNat_of_lt (by omega)]; exact hv))
    · rw [code_of_le (by omega)]
      refine .more (fun h => ?_) (ih _ (by omega))
      have hlt := UInt8.lt_iff_toNat_lt.mp h
      rw [toNat_ofNat_of_lt (by omega)] at hlt
      have h128 : (128 : UInt8).toNat = 128 := rfl
      omega

theorem byteValue_code (v : Nat) : byteValue (code v) = v := by
  induction v using Nat.strongRecOn with
  | ind v ih =>
    by_cases hv : v < 128
    · rw [code_of_lt hv, byteValue_cons, toNat_ofNat_of_lt (by omega), Nat.mod_eq_of_lt hv]
      rfl
    · rw [code_of_le (by omega), byteValue_cons, toNat_ofNat_of_lt (by omega), ih _ (by omega)]
      omega

/-- A number below `128 ^ k` has at most `k` bytes. -/
theorem length_code_le {k v : Nat} (hk : 0 < k) (h : v < 128 ^ k) : (code v).length ≤ k := by
  induction k generalizing v with
  | zero => omega
  | succ k ih =>
    by_cases hv : v < 128
    · rw [code_of_lt hv, List.length_singleton]
      omega
    · have hk' : 0 < k := by
        rcases Nat.eq_zero_or_pos k with rfl | hpos
        · omega
        · exact hpos
      have hdiv : v / 128 < 128 ^ k := Nat.div_lt_of_lt_mul (by rwa [pow_succ, Nat.mul_comm] at h)
      rw [code_of_le (by omega), List.length_cons]
      exact Nat.succ_le_succ (ih hk' hdiv)

theorem length_bits_le {k v : Nat} (hk : 0 < k) (h : v < 128 ^ k) : (bits v).length ≤ 8 * k := by
  have hcode := length_code_le hk h
  rw [code, List.length_map] at hcode
  rw [length_bits]
  omega

/-! ## The last byte -/

theorem value_lt (gs : List Nat) : value gs < 128 ^ gs.length := by
  induction gs with
  | nil => decide
  | cons g gs ih =>
    rw [value, List.length_cons, pow_succ]
    omega

theorem value_append_singleton (gs : List Nat) (g : Nat) :
    value (gs ++ [g]) = value gs + 128 ^ gs.length * (g % 128) := by
  induction gs with
  | nil => simp [value]
  | cons h gs ih =>
    rw [List.cons_append, value, ih, value, List.length_cons, pow_succ]
    ring

/-- All bytes but the last carry the continuation bit. -/
theorem IsCode.exists_last {bs : List UInt8} (h : IsCode bs) :
    ∃ q b, bs = q ++ [b] ∧ b < 128 ∧ ∀ c ∈ q, ¬ c < 128 := by
  induction h with
  | @last b h => exact ⟨[], b, rfl, h, by simp⟩
  | @more b bs h _ ih =>
    obtain ⟨q, c, rfl, hc, hq⟩ := ih
    exact ⟨b :: q, c, rfl, hc, List.forall_mem_cons.mpr ⟨h, hq⟩⟩

/-- No code of a number is shorter than its own. -/
theorem length_code_le_of_le {bs : List UInt8} (h : IsCode bs) {v : Nat} (hv : v ≤ byteValue bs) :
    (code v).length ≤ bs.length := by
  have hlt := value_lt (bs.map UInt8.toNat)
  rw [List.length_map] at hlt
  exact length_code_le h.length_pos (Nat.lt_of_le_of_lt hv hlt)

end Leb128
