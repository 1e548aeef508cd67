import Triepack.Json.Encode

/-!
# Decimal numbers

What `%u` prints are digits, and they stand for the number.
-/

namespace Triepack

open JsonText

theorem isDigit_of_isDigit {c : Char} (h : c.isDigit = true) :
    isDigit (UInt8.ofNat c.toNat) = true ∧ (UInt8.ofNat c.toNat).toNat = c.toNat := by
  have hrange : 48 ≤ c.toNat ∧ c.toNat ≤ 57 := by
    simpa [Char.isDigit, UInt32.le_iff_toNat_le] using h
  have htoNat : (UInt8.ofNat c.toNat).toNat = c.toNat := by
    rw [UInt8.toNat_ofNat']
    omega
  refine ⟨?_, htoNat⟩
  simp only [isDigit, Bool.and_eq_true, decide_eq_true_eq, UInt8.le_iff_toNat_le, htoNat]
  exact hrange

theorem natOf_lt {ds : List UInt8} (h : ∀ d ∈ ds, isDigit d = true) : NumLit.natOf ds < 10 ^ ds.length := by
  have hdigit : ∀ d : UInt8, isDigit d = true → d.toNat - 0x30 ≤ 9 := forall_byte (by decide +kernel)
  have hfold : ∀ (ds : List UInt8) (init : Nat), (∀ d ∈ ds, isDigit d = true) →
      ds.foldl (fun n d => 10 * n + (d.toNat - 0x30)) init + 1 ≤ 10 ^ ds.length * (init + 1) := by
    intro ds
    induction ds with
    | nil => simp
    | cons d ds ih =>
      intro init hds
      have hd := hdigit d (hds d (by simp))
      have hnext : 10 * init + (d.toNat - 0x30) + 1 ≤ 10 * (init + 1) := by omega
      rw [List.foldl_cons, List.length_cons, Nat.pow_succ, Nat.mul_assoc]
      exact (ih _ fun d hd => hds d (by simp [hd])).trans (Nat.mul_le_mul_left _ hnext)
  exact (hfold ds 0 h).trans_eq (by simp)

theorem isDigits_decimal (n : Nat) : IsDigits (decimal n) := by
  refine ⟨by simp [decimal], fun d hd => ?_⟩
  obtain ⟨c, hc, rfl⟩ := List.mem_map.mp hd
  exact (isDigit_of_isDigit (Nat.isDigit_of_mem_toDigits (by decide) (by decide) hc)).1

theorem natOf_decimal (n : Nat) : NumLit.natOf (decimal n) = n := by
  have hfold : ∀ (cs : List Char) (init : Nat), (∀ c ∈ cs, c.isDigit = true) →
      (cs.map fun c => UInt8.ofNat c.toNat).foldl (fun n d => 10 * n + (d.toNat - 0x30)) init =
        Nat.ofDigitChars 10 cs init := by
    intro cs
    induction cs with
    | nil => exact fun _ _ => rfl
    | cons c cs ih =>
      intro init hcs
      rw [List.map_cons, List.foldl_cons, Nat.ofDigitChars_cons,
        (isDigit_of_isDigit (hcs c (by simp))).2]
      exact ih _ fun d hd => hcs d (by simp [hd])
  rw [NumLit.natOf, decimal,
    hfold _ _ fun c hc => Nat.isDigit_of_mem_toDigits (by decide) (by decide) hc,
    Nat.ofDigitChars_ten_toDigits]

/-- No zero stands in front of other digits. -/
theorem head_decimal {n : Nat} (h : 1 < (decimal n).length) : (decimal n).head? ≠ some 0x30 := by
  intro hzero
  obtain ⟨ds, hds⟩ := List.head?_eq_some_iff.mp hzero
  rw [hds, List.length_cons] at h
  -- the number is that of the digits behind the zero, which are fewer than it has
  have hvalue : NumLit.natOf ds = n := by
    rw [← natOf_decimal n, hds]
    rfl
  have hlt : n < 10 ^ ds.length := by
    rw [← hvalue]
    exact natOf_lt fun d hd => (isDigits_decimal n).2 d (by simp [hds, hd])
  have hle := (Nat.length_toDigits_le_iff (by decide) (by omega)).mpr hlt
  have hlen := congrArg List.length hds
  rw [decimal, List.length_map, List.length_cons] at hlen
  omega

theorem decimal_injective : Function.Injective decimal := fun m n h => by
  rw [← natOf_decimal m, h, natOf_decimal]

end Triepack
