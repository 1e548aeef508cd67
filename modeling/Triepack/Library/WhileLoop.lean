import Mathlib.Tactic.Common

/-!
# Loops that may not end

A `while` loop is its step function: one iteration either hands over the state the next
iteration starts from or returns. `run` executes it under a bound, so that it can be
evaluated; `Returns` and `Halts` say what it does without one. The rules below are the
loop's induction principles: an invariant, a measure, and a set of states it never leaves.
-/

namespace WhileLoop

variable {σ ρ : Type*} {step : σ → σ ⊕ ρ}

/-- At most `fuel` iterations from `s`; `none` when none of them returned. -/
def run (step : σ → σ ⊕ ρ) : Nat → σ → Option ρ
  | 0, _ => none
  | fuel + 1, s =>
    match step s with
    | .inl t => run step fuel t
    | .inr r => some r

/-- The loop entered at `s` returns `r`. -/
def Returns (step : σ → σ ⊕ ρ) (s : σ) (r : ρ) : Prop := ∃ fuel, run step fuel s = some r

/-- The loop entered at `s` reaches a return after finitely many iterations. -/
def Halts (step : σ → σ ⊕ ρ) (s : σ) : Prop := ∃ r, Returns step s r

/-- Finitely many iterations lead from the first state to the second. -/
inductive Reaches (step : σ → σ ⊕ ρ) : σ → σ → Prop where
  | refl (s : σ) : Reaches step s s
  | head {s t u : σ} : step s = .inl t → Reaches step t u → Reaches step s u

theorem run_succ_inl {s t : σ} (h : step s = .inl t) (fuel : Nat) :
    run step (fuel + 1) s = run step fuel t := by simp [run, h]

theorem run_succ_inr {s : σ} {r : ρ} (h : step s = .inr r) (fuel : Nat) :
    run step (fuel + 1) s = some r := by simp [run, h]

theorem run_mono {s : σ} {r : ρ} {fuel more : Nat} (h : run step fuel s = some r)
    (hle : fuel ≤ more) : run step more s = some r := by
  induction fuel generalizing s more with
  | zero => simp [run] at h
  | succ fuel ih =>
    obtain ⟨more, rfl⟩ : ∃ m, more = m + 1 := ⟨more - 1, by omega⟩
    cases hs : step s with
    | inl t =>
      rw [run_succ_inl hs] at h ⊢
      exact ih h (by omega)
    | inr r' =>
      rw [run_succ_inr hs] at h ⊢
      exact h

theorem Returns.unique {s : σ} {r r' : ρ} (h : Returns step s r) (h' : Returns step s r') :
    r = r' := by
  obtain ⟨n, hn⟩ := h
  obtain ⟨m, hm⟩ := h'
  have hn' := run_mono hn (Nat.le_max_left n m)
  have hm' := run_mono hm (Nat.le_max_right n m)
  exact Option.some.inj (hn'.symm.trans hm')

theorem Returns.of_inr {s : σ} {r : ρ} (h : step s = .inr r) : Returns step s r :=
  ⟨1, run_succ_inr h 0⟩

theorem Returns.of_inl {s t : σ} {r : ρ} (h : step s = .inl t) (ht : Returns step t r) :
    Returns step s r := by
  obtain ⟨fuel, hf⟩ := ht
  exact ⟨fuel + 1, (run_succ_inl h fuel).trans hf⟩

/-- A loop goes on from two states alike when its next iteration does. -/
theorem Returns.congr {s t : σ} {r : ρ} (h : step s = step t) (ht : Returns step t r) :
    Returns step s r := by
  obtain ⟨fuel, hf⟩ := ht
  cases fuel with
  | zero => simp [run] at hf
  | succ fuel => exact ⟨fuel + 1, by rw [run, h, ← run, hf]⟩

/-- Whatever fuel was enough to return at all gives the loop's one result. -/
theorem run_eq_some_of_returns {s : σ} {r : ρ} {fuel : Nat} (h : Returns step s r)
    (hf : (run step fuel s).isSome) : run step fuel s = some r := by
  obtain ⟨r', hr'⟩ := Option.isSome_iff_exists.mp hf
  rw [hr', Returns.unique ⟨fuel, hr'⟩ h]

theorem Reaches.single {s t : σ} (h : step s = .inl t) : Reaches step s t := .head h (.refl t)

theorem Reaches.trans {s t u : σ} (h : Reaches step s t) (h' : Reaches step t u) :
    Reaches step s u := by
  induction h with
  | refl => exact h'
  | head hs _ ih => exact .head hs (ih h')

theorem Reaches.returns {s t : σ} {r : ρ} (h : Reaches step s t) (ht : Returns step t r) :
    Returns step s r := by
  induction h with
  | refl => exact ht
  | head hs _ ih => exact .of_inl hs (ih ht)

/-- A loop returns from the last state it reaches. -/
theorem Returns.exists_exit {s : σ} {r : ρ} (h : Returns step s r) :
    ∃ t, Reaches step s t ∧ step t = .inr r := by
  obtain ⟨fuel, hf⟩ := h
  induction fuel generalizing s with
  | zero => simp [run] at hf
  | succ fuel ih =>
    cases hst : step s with
    | inl t =>
      obtain ⟨u, hu, hexit⟩ := ih ((run_succ_inl hst fuel).symm.trans hf)
      exact ⟨u, .head hst hu, hexit⟩
    | inr r' =>
      obtain rfl : r' = r := Option.some.inj ((run_succ_inr hst fuel).symm.trans hf)
      exact ⟨s, .refl s, hst⟩

/-! ## Rules -/

/-- What every iteration preserves holds in every state reached. -/
theorem Reaches.invariant {I : σ → Prop} (hstep : ∀ s t, I s → step s = .inl t → I t)
    {s t : σ} (h : Reaches step s t) (hs : I s) : I t := by
  induction h with
  | refl => exact hs
  | head hst _ ih => exact ih (hstep _ _ hs hst)

/-- Partial correctness: an invariant that gives the postcondition at every exit. -/
theorem Returns.invariant {I : σ → Prop} {Q : ρ → Prop}
    (hstep : ∀ s t, I s → step s = .inl t → I t) (hexit : ∀ s r, I s → step s = .inr r → Q r)
    {s : σ} {r : ρ} (h : Returns step s r) (hs : I s) : Q r := by
  obtain ⟨fuel, hf⟩ := h
  induction fuel generalizing s with
  | zero => simp [run] at hf
  | succ fuel ih =>
    cases hst : step s with
    | inl t => exact ih (hstep s t hs hst) ((run_succ_inl hst fuel).symm.trans hf)
    | inr r' =>
      obtain rfl : r' = r := Option.some.inj ((run_succ_inr hst fuel).symm.trans hf)
      exact hexit s r' hs hst

/-- A measure that every iteration lowers bounds the iterations. -/
theorem run_isSome_of_measure {I : σ → Prop} {μ : σ → Nat}
    (hstep : ∀ s t, I s → step s = .inl t → I t ∧ μ t < μ s) {fuel : Nat} {s : σ} (hs : I s)
    (hf : μ s < fuel) : (run step fuel s).isSome := by
  induction fuel generalizing s with
  | zero => omega
  | succ fuel ih =>
    cases hst : step s with
    | inl t =>
      obtain ⟨ht, hlt⟩ := hstep s t hs hst
      rw [run_succ_inl hst]
      exact ih ht (by omega)
    | inr r => simp [run_succ_inr hst]

theorem halts_of_measure {I : σ → Prop} {μ : σ → Nat}
    (hstep : ∀ s t, I s → step s = .inl t → I t ∧ μ t < μ s) {s : σ} (hs : I s) :
    Halts step s := by
  have hsome := run_isSome_of_measure hstep hs (Nat.lt_succ_self (μ s))
  obtain ⟨r, hr⟩ := Option.isSome_iff_exists.mp hsome
  exact ⟨r, μ s + 1, hr⟩

/-- A loop that can always go on inside a set of states never returns from it. -/
theorem not_halts_of_closed {I : σ → Prop} (hstep : ∀ s, I s → ∃ t, step s = .inl t ∧ I t)
    {s : σ} (hs : I s) : ¬ Halts step s := by
  rintro ⟨r, fuel, hf⟩
  induction fuel generalizing s with
  | zero => simp [run] at hf
  | succ fuel ih =>
    obtain ⟨t, hst, ht⟩ := hstep s hs
    exact ih ht ((run_succ_inl hst fuel).symm.trans hf)

/-- A loop that stops where a guard is not met returns what the loop without it does, as long as
the guard is met in every state. -/
theorem run_guarded_iff {guarded : σ → σ ⊕ ρ} {G : σ → Prop} {Q : ρ → Prop}
    (hG : ∀ s, G s → guarded s = step s) (hnot : ∀ s, ¬ G s → ∃ r, guarded s = .inr r ∧ ¬ Q r)
    {fuel : Nat} {s : σ} {r : ρ} (hr : Q r) :
    run guarded fuel s = some r ↔ run step fuel s = some r ∧ ∀ t, Reaches step s t → G t := by
  induction fuel generalizing s with
  | zero => simp [run]
  | succ fuel ih =>
    by_cases hs : G s
    · cases hst : step s with
      | inl t =>
        rw [run_succ_inl hst, run_succ_inl ((hG s hs).trans hst), ih]
        refine and_congr_right fun _ => ⟨fun h u hu => ?_, fun h u hu => h u (.head hst hu)⟩
        cases hu with
        | refl => exact hs
        | head hst' hu =>
          obtain rfl := Sum.inl.inj (hst.symm.trans hst')
          exact h u hu
      | inr r' =>
        rw [run_succ_inr hst, run_succ_inr ((hG s hs).trans hst)]
        refine (and_iff_left fun u hu => ?_).symm
        cases hu with
        | refl => exact hs
        | head hst' _ => simp [hst] at hst'
    · obtain ⟨r', hr', hbad⟩ := hnot s hs
      rw [run_succ_inr hr']
      constructor
      · intro h
        obtain rfl := Option.some.inj h
        exact absurd hr hbad
      · exact fun h => absurd (h.2 s (.refl s)) hs

/-! ## Cycles -/

/-- One iteration or more lead from the state back to it. -/
def Recurs (step : σ → σ ⊕ ρ) (s : σ) : Prop := ∃ t, step s = .inl t ∧ Reaches step t s

theorem Reaches.snoc {s t u : σ} (h : Reaches step s t) (hstep : step t = .inl u) :
    Reaches step s u := h.trans (.single hstep)

/-- The next state of a cycle lies on it. -/
theorem Recurs.next {s t : σ} (h : Recurs step s) (hstep : step s = .inl t) : Recurs step t := by
  obtain ⟨t', hstep', hback⟩ := h
  obtain rfl : t = t' := Sum.inl.inj (hstep.symm.trans hstep')
  cases hback with
  | refl => exact ⟨_, hstep, .refl _⟩
  | head hst htail => exact ⟨_, hst, htail.snoc hstep⟩

theorem Recurs.not_halts {s : σ} (h : Recurs step s) : ¬ Halts step s := by
  refine not_halts_of_closed (I := Recurs step) ?_ h
  intro s hs
  obtain ⟨t, hstep, _⟩ := id hs
  exact ⟨t, hstep, hs.next hstep⟩

theorem Reaches.not_halts {s t : σ} (h : Reaches step s t) (ht : ¬ Halts step t) :
    ¬ Halts step s := by
  rintro ⟨r, hr⟩
  induction h with
  | refl => exact ht ⟨r, hr⟩
  | head hst _ ih =>
    obtain ⟨fuel, hf⟩ := hr
    cases fuel with
    | zero => simp [run] at hf
    | succ fuel => exact ih ht ⟨fuel, (run_succ_inl hst fuel).symm.trans hf⟩

end WhileLoop
