import Mathlib.Algebra.BigOperators.Ring.List
import Mathlib.Algebra.Order.Ring.Nat
import Mathlib.Data.List.Perm.Basic
import Mathlib.InformationTheory.Coding.KraftMcMillan
import Mathlib.Tactic.Linarith
import Mathlib.Tactic.Ring

/-!
# Optimal codes by merging

The two lightest of the weights are merged until one is left. What the merged weights add up to is the
size of a prefix code for the weights, and lengths that obey Kraft's inequality cost no less. The lower
bound exchanges lengths: the lightest weight may have the longest word, the second lightest the longest
of the rest, and then the two words may be as long as each other.
-/

namespace Huffman

/-! ## Lengths -/

/-- What weights cost when each has a word of its length. -/
def cost (p : List (ℕ × ℕ)) : ℕ := (p.map fun x => x.1 * x.2).sum

/-- Kraft's inequality, multiplied by a power of two. -/
def Fits (ls : List ℕ) : Prop := ∃ m, (∀ l ∈ ls, l ≤ m) ∧ (ls.map fun l => 2 ^ (m - l)).sum ≤ 2 ^ m

theorem cost_perm {p q : List (ℕ × ℕ)} (h : p.Perm q) : cost p = cost q := (h.map _).sum_eq

theorem cost_cons (w l : ℕ) (p : List (ℕ × ℕ)) : cost ((w, l) :: p) = w * l + cost p := rfl

theorem fits_perm {ls ls' : List ℕ} (h : ls.Perm ls') : Fits ls ↔ Fits ls' := by
  simp only [Fits, h.mem_iff, (h.map _).sum_eq]

/-- The bound may be larger than the lengths. -/
theorem sum_pow_sub {ls : List ℕ} {m : ℕ} (h : ∀ l ∈ ls, l ≤ m) (d : ℕ) :
    (ls.map fun l => 2 ^ (m + d - l)).sum = (ls.map fun l => 2 ^ (m - l)).sum * 2 ^ d := by
  rw [← List.sum_map_mul_right]
  refine congrArg List.sum (List.map_congr_left fun l hl => ?_)
  rw [← pow_add, Nat.sub_add_comm (h l hl)]

theorem fits_iff_of_le {ls : List ℕ} {m : ℕ} (h : ∀ l ∈ ls, l ≤ m) :
    Fits ls ↔ (ls.map fun l => 2 ^ (m - l)).sum ≤ 2 ^ m := by
  refine ⟨fun ⟨m', hm', hsum⟩ => ?_, fun hsum => ⟨m, h, hsum⟩⟩
  -- both bounds are compared above the two of them
  have hboth : (ls.map fun l => 2 ^ (m + m' - l)).sum ≤ 2 ^ (m + m') := by
    rw [Nat.add_comm m m', sum_pow_sub hm', pow_add]
    exact Nat.mul_le_mul_right _ hsum
  rw [sum_pow_sub h, pow_add] at hboth
  exact Nat.le_of_mul_le_mul_right hboth (Nat.two_pow_pos m')

/-- The words of a code that can be decoded have lengths that fit. -/
theorem fits_of_uniquelyDecodable {words : List (List Bool)} (hnodup : words.Nodup)
    (h : InformationTheory.UniquelyDecodable {w | w ∈ words}) : Fits (words.map List.length) := by
  obtain ⟨m, hm⟩ : ∃ m, m = (words.map List.length).sum := ⟨_, rfl⟩
  have hlen : ∀ l ∈ words.map List.length, l ≤ m := fun l hl => hm ▸ List.le_sum_of_mem hl
  have hset : ((words.toFinset : Finset (List Bool)) : Set (List Bool)) = {w | w ∈ words} := by
    ext w
    simp
  rw [← hset] at h
  have hkraft := InformationTheory.kraft_mcmillan_inequality h
  rw [List.sum_toFinset _ hnodup] at hkraft
  have hscaled : (((words.map List.length).map fun l => 2 ^ (m - l)).sum : ℕ) =
      (words.map fun w => (1 / (Fintype.card Bool : ℝ)) ^ w.length).sum * 2 ^ m := by
    rw [← List.sum_map_mul_right, List.map_map, Nat.cast_list_sum, List.map_map]
    refine congrArg List.sum (List.map_congr_left fun w hw => ?_)
    have hle := hlen w.length (List.mem_map_of_mem hw)
    rw [Function.comp_apply, Function.comp_apply, Fintype.card_bool, Nat.cast_pow, Nat.cast_ofNat, one_div, inv_pow,
      pow_sub₀ _ two_ne_zero hle, mul_comm]
  refine ⟨m, hlen, ?_⟩
  rw [← @Nat.cast_le ℝ, hscaled, Nat.cast_pow, Nat.cast_ofNat]
  exact mul_le_of_le_one_left (by positivity) hkraft

/-! ## Exchanging lengths -/

theorem exists_longest {p : List (ℕ × ℕ)} (hne : p ≠ []) : ∃ x ∈ p, ∀ y ∈ p, y.2 ≤ x.2 := by
  induction p with
  | nil => exact absurd rfl hne
  | cons x p ih =>
    by_cases hp : p = []
    · subst hp
      exact ⟨x, by simp, by simp⟩
    · obtain ⟨y, hy, hmax⟩ := ih hp
      rcases Nat.le_total x.2 y.2 with hle | hle
      · exact ⟨y, List.mem_cons_of_mem x hy, List.forall_mem_cons.mpr ⟨hle, hmax⟩⟩
      · exact ⟨x, by simp, List.forall_mem_cons.mpr ⟨le_refl _, fun z hz => (hmax z hz).trans hle⟩⟩

/-- The lightest weight may have the longest word. -/
theorem exists_longest_first {p : List (ℕ × ℕ)} {a : ℕ} {r : List ℕ} (hp : (p.map Prod.fst).Perm (a :: r))
    (ha : ∀ w ∈ r, a ≤ w) : ∃ l q, (q.map Prod.fst).Perm r ∧ (∀ x ∈ q, x.2 ≤ l) ∧
      (l :: q.map Prod.snd).Perm (p.map Prod.snd) ∧ cost ((a, l) :: q) ≤ cost p := by
  obtain ⟨x, hx, rfl⟩ : ∃ x ∈ p, x.1 = a := List.mem_map.mp (hp.mem_iff.mpr (by simp))
  obtain ⟨q, hq⟩ : ∃ q, p.Perm (x :: q) := ⟨_, List.perm_cons_erase hx⟩
  have hqr : (q.map Prod.fst).Perm r := by
    have := (hq.map Prod.fst).symm.trans hp
    rwa [List.map_cons, List.perm_cons] at this
  obtain ⟨y, hy, hmax⟩ := exists_longest (List.ne_nil_of_mem hx)
  rcases List.mem_cons.mp (hq.mem_iff.mp hy) with rfl | hyq
  · refine ⟨y.2, q, hqr, fun z hz => hmax z (hq.mem_iff.mpr (List.mem_cons_of_mem y hz)), ?_, (cost_perm hq).ge⟩
    exact (hq.map Prod.snd).symm
  · obtain ⟨q', hq'⟩ : ∃ q', q.Perm (y :: q') := ⟨_, List.perm_cons_erase hyq⟩
    have hxy : x.1 ≤ y.1 := ha y.1 (hqr.mem_iff.mp (List.mem_map_of_mem hyq))
    refine ⟨y.2, (y.1, x.2) :: q', (hq'.map Prod.fst).symm.trans hqr, ?_, ?_, ?_⟩
    · refine List.forall_mem_cons.mpr ⟨hmax x hx, fun z hz => hmax z (hq.mem_iff.mpr ?_)⟩
      exact List.mem_cons_of_mem x (hq'.mem_iff.mpr (List.mem_cons_of_mem y hz))
    · have := ((hq.trans (hq'.cons x)).map Prod.snd).symm
      exact (List.Perm.swap _ _ _).trans this
    · have hcost : cost p = x.1 * x.2 + (y.1 * y.2 + cost q') := by
        rw [cost_perm (hq.trans (hq'.cons x))]
        rfl
      have hlen := hmax x hx
      rw [hcost, cost_cons, cost_cons]
      obtain ⟨d, hd⟩ := Nat.exists_eq_add_of_le hxy
      obtain ⟨e, he⟩ := Nat.exists_eq_add_of_le hlen
      rw [hd, he]
      nlinarith [Nat.zero_le (d * e)]

/-- Lengths of which one is longer than the others leave room to shorten it to the next. -/
theorem sum_lt_of_fits {ls : List ℕ} {l m : ℕ} (hls : ∀ x ∈ ls, x ≤ m) (hml : m ≤ l) (h : Fits (l :: ls)) :
    (ls.map fun x => 2 ^ (m - x)).sum + 1 ≤ 2 ^ m := by
  have hall : ∀ x ∈ l :: ls, x ≤ l := List.forall_mem_cons.mpr ⟨le_refl l, fun x hx => (hls x hx).trans hml⟩
  rw [fits_iff_of_le hall, List.map_cons, List.sum_cons, Nat.sub_self, pow_zero] at h
  obtain ⟨d, rfl⟩ := Nat.exists_eq_add_of_le hml
  rw [sum_pow_sub hls, pow_add] at h
  have hpos := Nat.two_pow_pos d
  by_contra hlarge
  have hle : 2 ^ m ≤ (ls.map fun x => 2 ^ (m - x)).sum := by omega
  have := Nat.mul_le_mul_right (2 ^ d) hle
  omega

/-- The two lightest weights may be merged into one whose word is one bit shorter. -/
theorem exists_merged {p : List (ℕ × ℕ)} {a b : ℕ} {r : List ℕ} (hp : (p.map Prod.fst).Perm (a :: b :: r))
    (hab : a ≤ b) (hr : ∀ w ∈ r, b ≤ w) (hfits : Fits (p.map Prod.snd)) :
    ∃ q, (q.map Prod.fst).Perm ((a + b) :: r) ∧ Fits (q.map Prod.snd) ∧ a + b + cost q ≤ cost p := by
  obtain ⟨l, p₁, hp₁, hle₁, hlens₁, hcost₁⟩ := exists_longest_first hp
    (List.forall_mem_cons.mpr ⟨hab, fun w hw => hab.trans (hr w hw)⟩)
  obtain ⟨m, p₂, hp₂, hle₂, hlens₂, hcost₂⟩ := exists_longest_first hp₁ hr
  have hml : m ≤ l := by
    obtain ⟨x, hx, hxm⟩ := List.mem_map.mp (hlens₂.mem_iff.mp (List.mem_cons_self (a := m)))
    exact hxm ▸ hle₁ x hx
  have hlens : ∀ x ∈ m :: p₂.map Prod.snd, x ≤ m :=
    List.forall_mem_cons.mpr ⟨le_refl m, List.forall_mem_map.mpr hle₂⟩
  have hroom := sum_lt_of_fits hlens hml ((fits_perm ((hlens₂.cons l).trans hlens₁)).mpr hfits)
  rw [List.map_cons, List.sum_cons, Nat.sub_self, pow_zero] at hroom
  obtain ⟨k, rfl⟩ : ∃ k, m = k + 1 := ⟨m - 1, by
    rcases m with _ | m
    · rw [pow_zero] at hroom
      omega
    · rfl⟩
  refine ⟨(a + b, k) :: p₂, hp₂.cons _, ?_, ?_⟩
  · have hall : ∀ x ∈ k :: p₂.map Prod.snd, x ≤ k + 1 :=
      List.forall_mem_cons.mpr ⟨Nat.le_succ k, List.forall_mem_map.mpr hle₂⟩
    rw [List.map_cons, fits_iff_of_le hall, List.map_cons, List.sum_cons, Nat.add_sub_cancel_left, pow_one]
    omega
  · rw [cost_cons] at hcost₁ hcost₂ ⊢
    have hshort : a * (k + 1) ≤ a * l := Nat.mul_le_mul_left a hml
    nlinarith

/-! ## The greedy merge -/

/-- The weights are merged, the two lightest first, and the merged weights add up to `c`. -/
inductive Greedy : List ℕ → (c : ℕ) → Prop where
  | single (w : ℕ) : Greedy [w] 0
  | merge {ws r : List ℕ} {a b c : ℕ} (hperm : ws.Perm (a :: b :: r)) (hab : a ≤ b) (hr : ∀ w ∈ r, b ≤ w)
      (h : Greedy ((a + b) :: r) c) : Greedy ws (a + b + c)

theorem Greedy.perm {ws ws' : List ℕ} {c : ℕ} (h : Greedy ws c) (hperm : ws'.Perm ws) : Greedy ws' c := by
  cases h with
  | single w =>
    obtain rfl := List.perm_singleton.mp hperm
    exact .single w
  | merge hws hab hr h => exact .merge (hperm.trans hws) hab hr h

/-- No lengths that obey Kraft's inequality cost less. -/
theorem Greedy.le_cost {ws : List ℕ} {c : ℕ} (h : Greedy ws c) {p : List (ℕ × ℕ)}
    (hp : (p.map Prod.fst).Perm ws) (hfits : Fits (p.map Prod.snd)) : c ≤ cost p := by
  induction h generalizing p with
  | single w => exact Nat.zero_le _
  | merge hperm hab hr _ ih =>
    obtain ⟨q, hq, hqfits, hcost⟩ := exists_merged (hp.trans hperm) hab hr hfits
    exact (Nat.add_le_add_left (ih hq hqfits) _).trans hcost

/-- Neither word begins with the other. -/
def Apart {β : Type*} (u v : List β) : Prop := ¬ u <+: v ∧ ¬ v <+: u

theorem Apart.symm {β : Type*} {u v : List β} (h : Apart u v) : Apart v u := And.symm h

theorem Apart.append {β : Type*} {u v : List β} (h : Apart u v) (s : List β) : Apart (u ++ s) v := by
  refine ⟨fun hpre => h.1 ((List.prefix_append u s).trans hpre), fun hpre => ?_⟩
  rcases List.prefix_or_prefix_of_prefix hpre (List.prefix_append u s) with hvu | huv
  · exact h.2 hvu
  · exact h.1 huv

/-- Words for the weights, none of which begins with another, that cost what is merged. -/
theorem Greedy.exists_code {ws : List ℕ} {c : ℕ} (h : Greedy ws c) :
    ∃ p : List (ℕ × List Bool), (p.map Prod.fst).Perm ws ∧ (p.map Prod.snd).Pairwise Apart ∧
      cost (p.map fun x => (x.1, x.2.length)) = c := by
  induction h with
  | single w => exact ⟨[(w, [])], .refl _, List.pairwise_singleton _ _, by simp [cost]⟩
  | @merge ws r a b c hperm _ _ _ ih =>
    obtain ⟨p, hp, hapart, hcost⟩ := ih
    obtain ⟨⟨_, u⟩, hx, rfl⟩ : ∃ x ∈ p, x.1 = a + b := List.mem_map.mp (hp.mem_iff.mpr (by simp))
    obtain ⟨q, hq⟩ : ∃ q, p.Perm ((a + b, u) :: q) := ⟨_, List.perm_cons_erase hx⟩
    have hqr : (q.map Prod.fst).Perm r := by
      have := (hq.map Prod.fst).symm.trans hp
      rwa [List.map_cons, List.perm_cons] at this
    have hapart' := ((hq.map Prod.snd).pairwise_iff Apart.symm).mp hapart
    rw [List.map_cons, List.pairwise_cons] at hapart'
    obtain ⟨hu, hqapart⟩ := hapart'
    refine ⟨(a, u ++ [false]) :: (b, u ++ [true]) :: q, ?_, ?_, ?_⟩
    · exact ((hqr.cons b).cons a).trans hperm.symm
    · -- the word that was split is apart from the others, and its two parts from each other
      refine List.pairwise_cons.mpr ⟨List.forall_mem_cons.mpr ⟨?_, fun v hv => ?_⟩,
        List.pairwise_cons.mpr ⟨fun v hv => (hu v hv).append _, hqapart⟩⟩
      · simp [Apart]
      · exact (hu v hv).append _
    · rw [cost_perm (hq.map _), List.map_cons, cost_cons] at hcost
      rw [List.map_cons, List.map_cons, cost_cons, cost_cons, List.length_append, List.length_append,
        List.length_singleton, List.length_singleton, ← hcost]
      ring

end Huffman
