import Mathlib.Data.List.Count
import Triepack.Library.BinarySearch

/-!
# Rank and select

The rank of a place counts an element in front of it. Ranks grow with the place by at most one, so a
binary search over them finds every occurrence by its number.
-/

namespace RankSelect

variable {α : Type*} [DecidableEq α] {a : α} {xs : List α} {i j k p : Nat}

/-- The number of occurrences of `a` in front of place `i`. -/
def rank (a : α) (xs : List α) (i : Nat) : Nat := (xs.take i).count a

/-- Place `p` holds occurrence `k` of `a`, from 0 on. -/
def Selects (a : α) (xs : List α) (k p : Nat) : Prop := xs[p]? = some a ∧ rank a xs p = k

theorem rank_zero : rank a xs 0 = 0 := by
  rw [rank, List.take_zero, List.count_nil]

theorem rank_of_length_le (h : xs.length ≤ i) : rank a xs i = xs.count a := by
  rw [rank, List.take_of_length_le h]

theorem rank_add (i n : Nat) : rank a xs (i + n) = rank a xs i + ((xs.drop i).take n).count a := by
  rw [rank, List.take_add, List.count_append, rank]

theorem rank_mono (h : i ≤ j) : rank a xs i ≤ rank a xs j := by
  obtain ⟨n, rfl⟩ := Nat.exists_eq_add_of_le h
  rw [rank_add]
  exact Nat.le_add_right _ _

/-- An occurrence adds one to the rank. -/
theorem rank_succ (h : xs[p]? = some a) : rank a xs (p + 1) = rank a xs p + 1 := by
  rw [rank, rank, List.take_add_one, h, Option.toList_some, List.count_append, List.count_singleton_self]

theorem rank_le_count (i : Nat) : rank a xs i ≤ xs.count a := List.Sublist.count_le a (List.take_sublist i xs)

/-- Behind place `p` come the later occurrences. -/
theorem Selects.rank_le_iff (h : Selects a xs k p) : rank a xs (i + 1) ≤ k ↔ i < p := by
  obtain ⟨hget, hrank⟩ := h
  constructor
  · intro hle
    by_contra hge
    have hmono : rank a xs (p + 1) ≤ rank a xs (i + 1) := rank_mono (by omega)
    rw [rank_succ hget] at hmono
    omega
  · intro hlt
    rw [← hrank]
    exact rank_mono hlt

theorem Selects.unique {q : Nat} (hp : Selects a xs k p) (hq : Selects a xs k q) : p = q := by
  have hpq := hp.rank_le_iff (i := q)
  have hqp := hq.rank_le_iff (i := p)
  have hqq := hq.rank_le_iff (i := q)
  have hpp := hp.rank_le_iff (i := p)
  omega

theorem Selects.lt_length (h : Selects a xs k p) : p < xs.length :=
  (List.getElem?_eq_some_iff.mp h.1).1

theorem Selects.lt_count (h : Selects a xs k p) : k < xs.count a := by
  have hnext := rank_succ h.1
  have hle : rank a xs (p + 1) ≤ xs.count a := rank_le_count _
  have hk := h.2
  omega

/-- Every occurrence has a place. -/
theorem exists_selects (h : k < xs.count a) : ∃ p, Selects a xs k p := by
  induction xs generalizing k with
  | nil => simp at h
  | cons x xs ih =>
    by_cases hx : x = a
    · subst hx
      cases k with
      | zero => exact ⟨0, rfl, rank_zero⟩
      | succ k =>
        rw [List.count_cons_self] at h
        obtain ⟨p, hget, hrank⟩ := ih (show k < xs.count x by omega)
        refine ⟨p + 1, hget, ?_⟩
        rw [rank, List.take_succ_cons, List.count_cons_self, ← rank, hrank]
    · rw [List.count_cons_of_ne hx] at h
      obtain ⟨p, hget, hrank⟩ := ih h
      refine ⟨p + 1, hget, ?_⟩
      rw [rank, List.take_succ_cons, List.count_cons_of_ne hx, ← rank, hrank]

/-- The search over ranks finds the occurrence. -/
theorem lowerBound_rank (h : Selects a xs k p) {seen : Nat → Nat}
    (hseen : ∀ i ≤ xs.length, seen i = rank a xs i) :
    BinarySearch.lowerBound (fun mid => decide (seen (mid + 1) ≤ k)) 0 xs.length = p := by
  have hlt := h.lt_length
  apply BinarySearch.lowerBound_eq (Nat.zero_le p) (Nat.le_of_lt hlt)
  · intro i _ hi
    rw [hseen (i + 1) (by omega), decide_eq_true_eq]
    exact h.rank_le_iff.mpr hi
  · intro i hi hi'
    rw [hseen (i + 1) (by omega), decide_eq_false_iff_not, h.rank_le_iff]
    omega

end RankSelect
