import Mathlib.Algebra.Order.Ring.Nat
import Mathlib.Tactic.Common

/-!
# Whole numbers as doubles

Arithmetic on whole numbers that are kept as doubles: the exact result is rounded to 53
significant bits. Below 2^53 nothing is lost, and what is not below stays so.
-/

namespace Binary64

/-- The number of 53 significant bits nearest to `n`, the one with the even significand of two. -/
def round (n : Nat) : Nat :=
  let e := n.log2 - 52
  let half := 2 ^ e / 2
  let q := n / 2 ^ e
  let r := n % 2 ^ e
  if e = 0 then n else (if half < r ∨ half = r ∧ q % 2 = 1 then q + 1 else q) * 2 ^ e

def add (a b : Nat) : Nat := round (a + b)

def mul (a b : Nat) : Nat := round (a * b)

theorem round_of_lt {n : Nat} (h : n < 2 ^ 53) : round n = n := by
  have hlog : n.log2 - 52 = 0 := by
    rcases Nat.eq_zero_or_pos n with rfl | hpos
    · simp
    · have := (Nat.log2_lt hpos.ne').mpr h
      omega
  simp [round, hlog]

/-- A number of 53 significant bits is itself. -/
theorem round_mul_pow {a : Nat} (h : a < 2 ^ 53) (k : Nat) : round (a * 2 ^ k) = a * 2 ^ k := by
  rcases Nat.eq_zero_or_pos a with rfl | hpos
  · simp [round]
  have hlt : (a * 2 ^ k).log2 < k + 53 := by
    rw [Nat.log2_lt (Nat.mul_pos hpos (Nat.two_pow_pos k)).ne', Nat.add_comm, pow_add]
    exact Nat.mul_lt_mul_of_pos_right h (Nat.two_pow_pos k)
  obtain ⟨e, he⟩ : ∃ e, e = (a * 2 ^ k).log2 - 52 := ⟨_, rfl⟩
  have hdvd : 2 ^ e ∣ a * 2 ^ k := (Nat.pow_dvd_pow 2 (show e ≤ k by omega)).mul_left a
  have hrest : a * 2 ^ k % 2 ^ e = 0 := Nat.mod_eq_zero_of_dvd hdvd
  simp only [round, ← he, hrest]
  split_ifs with hzero hup
  · rfl
  · -- half of a power above one is not zero
    exfalso
    have hhalf : 2 ^ e / 2 ≠ 0 := by
      obtain ⟨e', rfl⟩ : ∃ e', e = e' + 1 := ⟨e - 1, by omega⟩
      have := Nat.two_pow_pos e'
      rw [pow_succ]
      omega
    omega
  · exact Nat.div_mul_cancel hdvd

theorem le_round {n : Nat} (h : 2 ^ 53 ≤ n) : 2 ^ 53 ≤ round n := by
  have hne : n ≠ 0 := by omega
  have hlog : 53 ≤ n.log2 := (Nat.le_log2 hne).mpr h
  obtain ⟨e, he⟩ : ∃ e, n.log2 = e + 53 := ⟨n.log2 - 53, by omega⟩
  have hlow := Nat.log2_self_le hne
  have hexp : n.log2 - 52 = e + 1 := by omega
  have hq : 2 ^ 52 ≤ n / 2 ^ (e + 1) := by
    rw [Nat.le_div_iff_mul_le (Nat.two_pow_pos _), ← pow_add, show 52 + (e + 1) = n.log2 by omega]
    exact hlow
  have hpow : 2 ≤ 2 ^ (e + 1) := by
    have := Nat.two_pow_pos e
    rw [pow_succ]
    omega
  simp only [round, hexp, Nat.add_one_ne_zero, if_false]
  calc 2 ^ 53 = 2 ^ 52 * 2 := pow_succ 2 52
    _ ≤ n / 2 ^ (e + 1) * 2 ^ (e + 1) := Nat.mul_le_mul hq hpow
    _ ≤ _ := Nat.mul_le_mul_right _ (by split_ifs <;> omega)

/-- A sum is exact or at least 2^53, and so is what it rounds. -/
theorem add_of_lt {a b : Nat} (h : a + b < 2 ^ 53) : add a b = a + b := round_of_lt h

theorem le_add {a b : Nat} (h : 2 ^ 53 ≤ a + b) : 2 ^ 53 ≤ add a b := le_round h

example : round (2 ^ 53 + 1) = 2 ^ 53 ∧ round (2 ^ 53 + 3) = 2 ^ 53 + 4 := by decide +kernel

end Binary64
