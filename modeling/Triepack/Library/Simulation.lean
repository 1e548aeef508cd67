import Mathlib.Data.List.Basic

/-!
# Programs that simulate each other

Two programs over different states and with different errors: along a map of the states they stop together,
or they return the same and go on with states that the map relates.
-/

/-- Both computations return the same, or both fail. -/
def SameResult {ε δ α : Type} (x : Except ε α) (y : Except δ α) : Prop := x.toOption = y.toOption

/-- Along `f` the programs return the same, or both fail. -/
def Simulates {σ τ ε δ α : Type} (f : σ → τ) (m : StateT σ (Except ε) α) (n : StateT τ (Except δ) α) : Prop :=
  ∀ s, SameResult ((m s).map fun r => (r.1, f r.2)) (n (f s))

namespace SameResult

variable {ε δ α β : Type} {x : Except ε α} {y : Except δ α}

/-- The two cases. -/
theorem cases (h : SameResult x y) :
    (∃ a, x = .ok a ∧ y = .ok a) ∨ ∃ e d, x = .error e ∧ y = .error d := by
  rcases x with e | a
  · rcases y with d | b
    · exact .inr ⟨e, d, rfl, rfl⟩
    · simp [SameResult, Except.toOption] at h
  · rcases y with d | b
    · simp [SameResult, Except.toOption] at h
    · obtain rfl : a = b := by simpa [SameResult, Except.toOption] using h
      exact .inl ⟨a, rfl, rfl⟩

theorem bind {k : α → Except ε β} {l : α → Except δ β} (h : SameResult x y)
    (hk : ∀ a, SameResult (k a) (l a)) : SameResult (x >>= k) (y >>= l) := by
  obtain ⟨a, rfl, rfl⟩ | ⟨e, d, rfl, rfl⟩ := h.cases
  · exact hk a
  · rfl

/-- The one computation returns the image of what the other one returns. -/
theorem cases_map {γ : Type} {g : α → γ} {z : Except δ γ} (h : SameResult (x.map g) z) :
    (∃ a, x = .ok a ∧ z = .ok (g a)) ∨ ∃ e d, x = .error e ∧ z = .error d := by
  rcases x with e | a
  · obtain ⟨_, hbad, _⟩ | ⟨_, d, _, rfl⟩ := h.cases
    · simp [Except.map] at hbad
    · exact .inr ⟨e, d, rfl, rfl⟩
  · obtain ⟨_, hb, rfl⟩ | ⟨_, _, hbad, _⟩ := h.cases
    · obtain rfl := Except.ok.inj hb
      exact .inl ⟨a, rfl, rfl⟩
    · simp [Except.map] at hbad

theorem bind_map {γ : Type} {g : α → γ} {z : Except δ γ} {k : α → Except ε β} {l : γ → Except δ β}
    (h : SameResult (x.map g) z) (hk : ∀ a, SameResult (k a) (l (g a))) : SameResult (x >>= k) (z >>= l) := by
  obtain ⟨a, rfl, rfl⟩ | ⟨e, d, rfl, rfl⟩ := h.cases_map
  · exact hk a
  · rfl

end SameResult

namespace Simulates

variable {σ τ ε δ α β : Type} {f : σ → τ} {m : StateT σ (Except ε) α} {n : StateT τ (Except δ) α}

/-- The two cases of a run. -/
theorem cases (h : Simulates f m n) (s : σ) :
    (∃ a s', m s = .ok (a, s') ∧ n (f s) = .ok (a, f s')) ∨ ∃ e d, m s = .error e ∧ n (f s) = .error d := by
  have hs := (h s).cases
  rcases hm : m s with e | ⟨a, s'⟩
  · rw [hm] at hs
    obtain ⟨_, hbad, _⟩ | ⟨_, d, _, hd⟩ := hs
    · simp [Except.map] at hbad
    · exact .inr ⟨e, d, rfl, hd⟩
  · rw [hm] at hs
    obtain ⟨b, hb, hn⟩ | ⟨_, _, hbad, _⟩ := hs
    · obtain rfl := Except.ok.inj hb
      exact .inl ⟨a, s', rfl, hn⟩
    · simp [Except.map] at hbad

theorem of_ok (h : Simulates f m n) {s : σ} {t : τ} {a : α} (hn : n (f s) = .ok (a, t)) :
    ∃ s', f s' = t ∧ m s = .ok (a, s') := by
  obtain ⟨b, s', hm, hn'⟩ | ⟨_, _, _, hn'⟩ := h.cases s
  · obtain ⟨rfl, rfl⟩ : b = a ∧ f s' = t := by simpa [hn'] using hn
    exact ⟨s', rfl, hm⟩
  · simp [hn'] at hn

theorem pure (a : α) :
    Simulates f (Pure.pure a : StateT σ (Except ε) α) (Pure.pure a : StateT τ (Except δ) α) := fun _ => rfl

theorem throw (e : ε) (d : δ) :
    Simulates f (MonadExcept.throw e : StateT σ (Except ε) α) (MonadExcept.throw d : StateT τ (Except δ) α) :=
  fun _ => rfl

/-- Computations that leave the state alone. -/
theorem lift {x : Except ε α} {y : Except δ α} (h : SameResult x y) :
    Simulates f (StateT.lift x) (StateT.lift y) := by
  intro s
  obtain ⟨a, rfl, rfl⟩ | ⟨e, d, rfl, rfl⟩ := h.cases
  · rfl
  · rfl

theorem bind {k : α → StateT σ (Except ε) β} {l : α → StateT τ (Except δ) β} (h : Simulates f m n)
    (hk : ∀ a, Simulates f (k a) (l a)) : Simulates f (m >>= k) (n >>= l) := by
  intro s
  change SameResult ((m s >>= fun r => k r.1 r.2).map _) (n (f s) >>= fun r => l r.1 r.2)
  obtain ⟨a, s', hm, hn⟩ | ⟨e, d, hm, hn⟩ := h.cases s
  · rw [hm, hn]
    exact hk a s'
  · rw [hm, hn]
    rfl

/-- The one program goes on with what it computed, the other one with its image. -/
theorem lift_map {γ : Type} {x : Except ε α} {z : Except δ γ} {g : α → γ} {k : α → StateT σ (Except ε) β}
    {l : γ → StateT τ (Except δ) β} (h : SameResult (x.map g) z) (hk : ∀ a, Simulates f (k a) (l (g a))) :
    Simulates f (StateT.lift x >>= k) (StateT.lift z >>= l) := by
  intro s
  obtain ⟨a, rfl, rfl⟩ | ⟨e, d, rfl, rfl⟩ := h.cases_map
  · exact hk a s
  · rfl

theorem ite {c : Prop} [Decidable c] {m' : StateT σ (Except ε) α} {n' : StateT τ (Except δ) α}
    (h : Simulates f m n) (h' : Simulates f m' n') :
    Simulates f (if c then m else m') (if c then n else n') := by
  split_ifs
  · exact h
  · exact h'

/-- A loop over the same list. -/
theorem forM {k : α → StateT σ (Except ε) PUnit} {l : α → StateT τ (Except δ) PUnit} (as : List α)
    (h : ∀ a ∈ as, Simulates f (k a) (l a)) : Simulates f (as.forM k) (as.forM l) := by
  induction as with
  | nil => exact .pure _
  | cons a as ih => exact (h a (by simp)).bind fun _ => ih fun b hb => h b (by simp [hb])

end Simulates
