import Mathlib.Tactic.Common

/-!
# Binary search

The first index of an interval at which a test fails, where the test holds on a front part of the
interval.
-/

namespace BinarySearch

/-- The loop of a search for the first index that is not before the place looked for. -/
def lowerBoundLoop (before : Nat → Bool) : (fuel lo hi : Nat) → Nat
  | 0, lo, _ => lo
  | fuel + 1, lo, hi =>
    if lo < hi then
      if before ((lo + hi) / 2) then lowerBoundLoop before fuel ((lo + hi) / 2 + 1) hi
      else lowerBoundLoop before fuel lo ((lo + hi) / 2)
    else lo

def lowerBound (before : Nat → Bool) (lo hi : Nat) : Nat := lowerBoundLoop before (hi - lo) lo hi

/-- What holds at an index holds in front of it. -/
def Downward (before : Nat → Bool) (lo hi : Nat) : Prop :=
  ∀ i j, lo ≤ i → i ≤ j → j < hi → before j = true → before i = true

variable {before : Nat → Bool} {lo hi : Nat}

theorem lowerBoundLoop_spec {fuel : Nat} (hfuel : hi ≤ lo + fuel) (hle : lo ≤ hi)
    (h : Downward before lo hi) :
    lo ≤ lowerBoundLoop before fuel lo hi ∧ lowerBoundLoop before fuel lo hi ≤ hi ∧
      (∀ i, lo ≤ i → i < lowerBoundLoop before fuel lo hi → before i = true) ∧
      ∀ i, lowerBoundLoop before fuel lo hi ≤ i → i < hi → before i = false := by
  induction fuel generalizing lo hi with
  | zero => exact ⟨(Nat.le_refl _), hle, fun i _ _ => by simp only [lowerBoundLoop] at *; omega, fun i _ _ => by
      simp only [lowerBoundLoop] at *; omega⟩
  | succ fuel ih =>
    rw [lowerBoundLoop]
    by_cases hlt : lo < hi
    · rw [if_pos hlt]
      by_cases hmid : before ((lo + hi) / 2) = true
      · rw [if_pos hmid]
        obtain ⟨hlow, hhigh, hfront, hback⟩ := @ih ((lo + hi) / 2 + 1) hi (by omega) (by omega)
          fun i j hi' hij hj hb => h i j (by omega) hij hj hb
        refine ⟨by omega, hhigh, fun i hi' hlt' => ?_, hback⟩
        by_cases hle' : i ≤ (lo + hi) / 2
        · exact h i _ hi' hle' (by omega) hmid
        · exact hfront i (by omega) hlt'
      · rw [if_neg hmid]
        obtain ⟨hlow, hhigh, hfront, hback⟩ := @ih lo ((lo + hi) / 2) (by omega) (by omega)
          fun i j hi' hij hj hb => h i j hi' hij (by omega) hb
        refine ⟨hlow, by omega, hfront, fun i hi' hlt' => ?_⟩
        by_cases hle' : i < (lo + hi) / 2
        · exact hback i hi' hle'
        · by_contra hb
          exact hmid (h _ i (by omega) (by omega) hlt' (by simpa using hb))
    · rw [if_neg hlt]
      exact ⟨(Nat.le_refl _), hle, fun i _ _ => by omega, fun i _ _ => by omega⟩

/-- The search finds the first index at which the test fails. -/
theorem lowerBound_spec (hle : lo ≤ hi) (h : Downward before lo hi) :
    lo ≤ lowerBound before lo hi ∧ lowerBound before lo hi ≤ hi ∧
      (∀ i, lo ≤ i → i < lowerBound before lo hi → before i = true) ∧
      ∀ i, lowerBound before lo hi ≤ i → i < hi → before i = false :=
  lowerBoundLoop_spec (by omega) hle h

/-- An index that splits the interval so is the one that is found. -/
theorem lowerBound_eq {m : Nat} (hlow : lo ≤ m) (hhigh : m ≤ hi)
    (hfront : ∀ i, lo ≤ i → i < m → before i = true) (hback : ∀ i, m ≤ i → i < hi → before i = false) :
    lowerBound before lo hi = m := by
  have hdown : Downward before lo hi := by
    intro i j hi' hij hj hb
    by_cases him : i < m
    · exact hfront i hi' him
    · rw [hback j (by omega) hj] at hb
      simp at hb
  obtain ⟨_, hle, hf, hb⟩ := lowerBound_spec (by omega) hdown
  rcases Nat.lt_trichotomy (lowerBound before lo hi) m with hlt | heq | hgt
  · have htrue := hfront _ (by omega) hlt
    rw [hb _ (Nat.le_refl _) (by omega)] at htrue
    simp at htrue
  · exact heq
  · have hfalse := hback m (Nat.le_refl _) (by omega)
    rw [hf m hlow hgt] at hfalse
    simp at hfalse

end BinarySearch
