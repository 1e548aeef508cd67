import Mathlib.Algebra.Order.BigOperators.Group.List
import Mathlib.Algebra.GroupWithZero.Nat
import Mathlib.Algebra.Order.Group.Nat
import Mathlib.Data.List.Infix
import Mathlib.Tactic.Common

/-!
# Pools of strings with shared suffixes

Strings are placed one after the other, and one that ends the string appended last is placed inside it.
When they come in descending order of their reversals, nothing is appended that could have been shared.
-/

namespace SuffixPool

variable {α : Type*}

/-- The string ends a longer one. -/
def ProperSuffix (t u : List α) : Prop := t.length < u.length ∧ t <:+ u

instance [DecidableEq α] (t u : List α) : Decidable (ProperSuffix t u) := inferInstanceAs (Decidable (_ ∧ _))

/-- The pool, the string appended last, and all strings placed so far, with their offsets. -/
structure Placement (α : Type*) where
  pool : List α
  last : Option (List α × Nat)
  placed : List (List α × Nat)

section Place

variable [DecidableEq α]

/-- A string is placed inside the last one, or it is appended. -/
def place (t : List α) (s : Placement α) : Placement α :=
  match s.last.filter fun u => decide (ProperSuffix t u.1) with
  | some u => { s with placed := (t, u.2 + u.1.length - t.length) :: s.placed }
  | none => ⟨s.pool ++ t, some (t, s.pool.length), (t, s.pool.length) :: s.placed⟩

/-- The strings are placed from the last one down. -/
def build (ts : List (List α)) : Placement α := ts.foldr place ⟨[], none, []⟩

theorem place_inside {t : List α} {s : Placement α} {u : List α × Nat} (hu : s.last = some u)
    (ht : ProperSuffix t u.1) :
    place t s = { s with placed := (t, u.2 + u.1.length - t.length) :: s.placed } := by
  rw [place, hu, Option.filter_some, decide_eq_true ht]
  rfl

theorem place_append {t : List α} {s : Placement α} (h : ∀ u, s.last = some u → ¬ ProperSuffix t u.1) :
    place t s = ⟨s.pool ++ t, some (t, s.pool.length), (t, s.pool.length) :: s.placed⟩ := by
  rw [place]
  rcases hlast : s.last with _ | u
  · rfl
  · rw [Option.filter_some, decide_eq_false (h u hlast)]
    rfl

theorem place_cases (t : List α) (s : Placement α) :
    (∃ u, s.last = some u ∧ ProperSuffix t u.1) ∨ ∀ u, s.last = some u → ¬ ProperSuffix t u.1 := by
  by_cases h : ∃ u, s.last = some u ∧ ProperSuffix t u.1
  · exact .inl h
  · exact .inr fun u hu ht => h ⟨u, hu, ht⟩

end Place

/-! ## Nothing is lost -/

/-- The string can be read off the pool at the offset. -/
def Spelled (pool : List α) (x : List α × Nat) : Prop :=
  x.2 + x.1.length ≤ pool.length ∧ (pool.drop x.2).take x.1.length = x.1

theorem Spelled.append {pool : List α} {x : List α × Nat} (h : Spelled pool x) (t : List α) :
    Spelled (pool ++ t) x := by
  obtain ⟨hle, hread⟩ := h
  constructor
  · rw [List.length_append]
    omega
  · rw [List.drop_append_of_le_length (by omega),
      List.take_append_of_le_length (by rw [List.length_drop]; omega)]
    exact hread

theorem Spelled.suffix {pool : List α} {x : List α × Nat} (h : Spelled pool x) {t : List α}
    (ht : ProperSuffix t x.1) : Spelled pool (t, x.2 + x.1.length - t.length) := by
  obtain ⟨hle, hread⟩ := h
  obtain ⟨hlt, hsuffix⟩ := ht
  constructor
  · show x.2 + x.1.length - t.length + t.length ≤ pool.length
    omega
  · show (pool.drop (x.2 + x.1.length - t.length)).take t.length = t
    have hinside : (pool.drop (x.2 + x.1.length - t.length)).take t.length =
        ((pool.drop x.2).take x.1.length).drop (x.1.length - t.length) := by
      rw [List.drop_take, List.drop_drop]
      congr 1
      · omega
      · congr 1
        omega
    rw [hinside, hread]
    exact (List.suffix_iff_eq_drop.mp hsuffix).symm

/-- All strings are placed and can be read off the pool, the last one among them. -/
structure Placement.Valid (s : Placement α) (ts : List (List α)) : Prop where
  placed : s.placed.map Prod.fst = ts
  spelled : ∀ x ∈ s.placed, Spelled s.pool x
  last : ∀ x, s.last = some x → x ∈ s.placed

section Valid

variable [DecidableEq α]

theorem place_valid {s : Placement α} {ts : List (List α)} (h : s.Valid ts) (t : List α) :
    (place t s).Valid (t :: ts) := by
  rcases place_cases t s with ⟨u, hu, ht⟩ | hnone
  · rw [place_inside hu ht]
    refine ⟨by rw [List.map_cons, h.placed], fun x hx => ?_, fun x hx => List.mem_cons_of_mem _ (h.last x hx)⟩
    rcases List.mem_cons.mp hx with rfl | hx
    · exact (h.spelled u (h.last u hu)).suffix ht
    · exact h.spelled x hx
  · rw [place_append hnone]
    have hnew : Spelled (s.pool ++ t) (t, s.pool.length) := by
      constructor
      · rw [List.length_append]
      · rw [List.drop_left, List.take_length]
    refine ⟨by rw [List.map_cons, h.placed], fun x hx => ?_, fun x hx => ?_⟩
    · rcases List.mem_cons.mp hx with rfl | hx
      · exact hnew
      · exact (h.spelled x hx).append t
    · obtain rfl := Option.some.inj hx
      exact List.mem_cons_self

theorem build_valid (ts : List (List α)) : (build ts).Valid ts := by
  induction ts with
  | nil => exact ⟨rfl, by simp [build], by simp [build]⟩
  | cons t ts ih => exact place_valid ih t

end Valid

/-! ## Nothing is stored twice -/

section Order

variable [LT α]

theorem lt_of_properSuffix {t u : List α} (h : ProperSuffix t u) : t.reverse < u.reverse := by
  obtain ⟨hlen, front, rfl⟩ := h
  rw [List.length_append] at hlen
  rw [List.reverse_append]
  have hfront : front.reverse ≠ [] := by
    rw [Ne, List.reverse_eq_nil_iff, ← List.length_eq_zero_iff]
    omega
  generalize t.reverse = p
  generalize front.reverse = rest at hfront
  induction p with
  | nil =>
    obtain ⟨a, rest, rfl⟩ := List.exists_cons_of_ne_nil hfront
    exact List.nil_lt_cons a rest
  | cons a p ih => exact List.cons_lt_cons_iff.mpr (.inr ⟨rfl, ih⟩)

variable [Std.Asymm (fun a b : α => a < b)]

/-- The reversals ascend. -/
def Ascending (ts : List (List α)) : Prop := ts.Pairwise fun t u => t.reverse < u.reverse

/-- Between a string and one that it begins stand only strings that it begins. -/
theorem prefix_of_between {p s u : List α} (hpu : p <+: u) (hps : p < s) (hsu : s < u) : p <+: s := by
  induction p generalizing s u with
  | nil => exact List.nil_prefix
  | cons a p ih =>
    obtain ⟨rest, rfl⟩ := hpu
    cases s with
    | nil => simp at hps
    | cons b s =>
      rw [List.cons_append] at hsu
      rw [List.cons_lt_cons_iff] at hps hsu
      rcases hps with hab | ⟨rfl, hps⟩
      · rcases hsu with hba | ⟨rfl, _⟩
        · exact absurd hba (Std.Asymm.asymm _ _ hab)
        · exact absurd hab (Std.Asymm.asymm _ _ hab)
      · rcases hsu with haa | ⟨_, hsu⟩
        · exact absurd haa (Std.Asymm.asymm _ _ haa)
        · exact List.cons_prefix_cons.mpr ⟨rfl, ih (List.prefix_append p rest) hps hsu⟩

theorem Ascending.nodup {ts : List (List α)} (h : Ascending ts) : ts.Nodup := by
  refine List.Pairwise.imp ?_ h
  rintro t u htu rfl
  exact List.lt_asymm htu htu

/-- Strings in order are known by which they are. -/
theorem Ascending.eq_of_mem_iff {ts us : List (List α)} (h : Ascending ts) (h' : Ascending us)
    (hmem : ∀ t, t ∈ ts ↔ t ∈ us) : ts = us := by
  have hperm : ts.Perm us := (List.perm_ext_iff_of_nodup h.nodup h'.nodup).mpr hmem
  refine List.Perm.eq_of_pairwise (fun a b _ _ hab hba => ?_) h h' hperm
  exact absurd hba (List.lt_asymm hab)

/-- A string that ends none of the others, which has to be stored itself. -/
def Owns (ts : List (List α)) (t : List α) : Prop := ∀ u ∈ ts, ¬ ProperSuffix t u

/-- In front of ascending strings, what ends one of them ends the next one. -/
theorem ends_next {t s : List α} {ts : List (List α)} (h : Ascending (t :: s :: ts)) {u : List α}
    (hu : u ∈ s :: ts) (ht : ProperSuffix t u) : t <:+ s := by
  obtain ⟨hfront, hrest⟩ := List.pairwise_cons.mp h
  rcases List.mem_cons.mp hu with rfl | hu
  · exact ht.2
  · obtain ⟨hs, _⟩ := List.pairwise_cons.mp hrest
    rw [← List.reverse_prefix]
    exact prefix_of_between (List.reverse_prefix.mpr ht.2) (hfront s (by simp)) (hs u hu)

variable [DecidableEq α]

instance (ts : List (List α)) : DecidablePred (Owns ts) := fun t =>
  inferInstanceAs (Decidable (∀ u ∈ ts, ¬ ProperSuffix t u))

omit [LT α] [Std.Asymm (fun a b : α => a < b)] in
/-- The string appended last is one of the strings, and the next string ends it. -/
theorem last_build (s : List α) (ts : List (List α)) :
    ∃ u, (build (s :: ts)).last = some u ∧ u.1 ∈ s :: ts ∧ s <:+ u.1 := by
  induction ts generalizing s with
  | nil => exact ⟨(s, 0), by rw [build, List.foldr_cons, place_append (by simp)]; rfl, by simp, List.suffix_rfl⟩
  | cons r ts ih =>
    obtain ⟨u, hu, hmem, _⟩ := ih r
    have hbuild : build (s :: r :: ts) = place s (build (r :: ts)) := rfl
    rw [hbuild]
    rcases place_cases s (build (r :: ts)) with ⟨u', hu', ht⟩ | hnone
    · obtain rfl := Option.some.inj (hu.symm.trans hu')
      rw [place_inside hu' ht]
      exact ⟨u, hu, List.mem_cons_of_mem s hmem, ht.2⟩
    · rw [place_append hnone]
      exact ⟨_, rfl, List.mem_cons_self, List.suffix_rfl⟩

/-- The string appended last decides whether a string is shared. -/
theorem ends_last_iff {t : List α} {ts : List (List α)} (h : Ascending (t :: ts)) :
    (∃ u, (build ts).last = some u ∧ ProperSuffix t u.1) ↔ ∃ u ∈ ts, ProperSuffix t u := by
  cases ts with
  | nil => simp [build]
  | cons s ts =>
    obtain ⟨u, hu, hmem, hs⟩ := last_build s ts
    constructor
    · rintro ⟨u', hu', ht⟩
      obtain rfl := Option.some.inj (hu.symm.trans hu')
      exact ⟨u.1, hmem, ht⟩
    · rintro ⟨r, hr, ht⟩
      refine ⟨u, hu, ?_, (ends_next h hr ht).trans hs⟩
      have hle := ((ends_next h hr ht).trans hs).length_le
      refine Nat.lt_of_le_of_ne hle fun heq => ?_
      have hlt := (List.pairwise_cons.mp h).1 u.1 hmem
      rw [((ends_next h hr ht).trans hs).eq_of_length heq] at hlt
      exact List.lt_asymm hlt hlt

/-- The pool is as long as the strings that end none of the others. -/
theorem length_pool {ts : List (List α)} (h : Ascending ts) :
    (build ts).pool.length = ((ts.filter fun t => decide (Owns ts t)).map List.length).sum := by
  induction ts with
  | nil => rfl
  | cons t ts ih =>
    obtain ⟨hfront, hrest⟩ := List.pairwise_cons.mp h
    have hself : ¬ ProperSuffix t t := fun ht => Nat.lt_irrefl _ ht.1
    have hhead : Owns (t :: ts) t ↔ ¬ ∃ u ∈ ts, ProperSuffix t u := by
      simp only [Owns, List.forall_mem_cons, hself, not_false_eq_true, true_and, not_exists, not_and]
    have htail : ts.filter (fun x => decide (Owns (t :: ts) x)) = ts.filter fun x => decide (Owns ts x) := by
      refine List.filter_congr fun x hx => ?_
      have hnot : ¬ ProperSuffix x t := fun hxt => List.lt_asymm (hfront x hx) (lt_of_properSuffix hxt)
      have howns : Owns (t :: ts) x ↔ Owns ts x := by
        simp only [Owns, List.forall_mem_cons, hnot, not_false_eq_true, true_and]
      exact decide_eq_decide.mpr howns
    have hbuild : build (t :: ts) = place t (build ts) := rfl
    rw [hbuild]
    by_cases hshared : ∃ u ∈ ts, ProperSuffix t u
    · obtain ⟨u, hu, ht⟩ := (ends_last_iff h).mpr hshared
      rw [place_inside hu ht, List.filter_cons_of_neg (by simpa [hhead] using hshared), htail]
      exact ih hrest
    · have hnone : ∀ u, (build ts).last = some u → ¬ ProperSuffix t u.1 := fun u hu ht =>
        hshared ((ends_last_iff h).mp ⟨u, hu, ht⟩)
      rw [place_append hnone, List.filter_cons_of_pos (by simpa [hhead] using hshared), htail, List.map_cons,
        List.sum_cons, ← ih hrest, List.length_append, Nat.add_comm]

end Order

end SuffixPool
