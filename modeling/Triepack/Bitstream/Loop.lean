import Triepack.Bitstream.Read
import Triepack.Library.WhileLoop

/-!
# Loops around a reader

A loop whose body is an operation on a reader: the body goes on with a new state or returns.
-/

namespace Triepack

open BitString

section Loop

variable {S σ ρ : Type}

/-- One iteration of a loop with the given body. -/
def Op.loopStep (body : σ → Op S (σ ⊕ ρ)) : σ × S → (σ × S) ⊕ (Except Stop ρ × S)
  | (s, r) =>
    match body s r with
    | (.ok (.inl t), r') => .inl (t, r')
    | (.ok (.inr a), r') => .inr (.ok a, r')
    | (.error e, r') => .inr (.error e, r')

/-- The loop entered at `s`, for at most `fuel` iterations. -/
def Op.loop (body : σ → Op S (σ ⊕ ρ)) (fuel : Nat) (s : σ) : Op S ρ := fun r =>
  match WhileLoop.run (Op.loopStep body) fuel (s, r) with
  | some out => out
  | none => (.error .fuel, r)

section Step

variable {body : σ → Op S (σ ⊕ ρ)} {s t : σ} {r r' : S}

theorem Op.loopStep_next (h : body s r = (.ok (.inl t), r')) :
    Op.loopStep body (s, r) = .inl (t, r') := by simp only [Op.loopStep, h]

theorem Op.loopStep_done {a : ρ} (h : body s r = (.ok (.inr a), r')) :
    Op.loopStep body (s, r) = .inr (.ok a, r') := by simp only [Op.loopStep, h]

theorem Op.loopStep_error {e : Stop} (h : body s r = (.error e, r')) :
    Op.loopStep body (s, r) = .inr (.error e, r') := by simp only [Op.loopStep, h]

/-- What a step that goes on has done. -/
theorem Op.loopStep_eq_inl (h : Op.loopStep body (s, r) = .inl (t, r')) :
    body s r = (.ok (.inl t), r') := by
  simp only [Op.loopStep] at h
  split at h <;> simp_all

/-- What a step that returns a result has done. -/
theorem Op.loopStep_eq_inr_ok {a : ρ} (h : Op.loopStep body (s, r) = .inr (.ok a, r')) :
    body s r = (.ok (.inr a), r') := by
  simp only [Op.loopStep] at h
  split at h <;> simp_all

/-- A loop that returns within its fuel gives what it returns. -/
theorem Op.loop_of_returns {fuel : Nat} {out : Except Stop ρ × S}
    (h : WhileLoop.Returns (Op.loopStep body) (s, r) out)
    (hf : (WhileLoop.run (Op.loopStep body) fuel (s, r)).isSome) :
    Op.loop body fuel s r = out := by
  rw [Op.loop, WhileLoop.run_eq_some_of_returns h hf]

/-- With enough fuel a loop gives what it returns. -/
theorem Op.exists_loop_eq {out : Except Stop ρ × S}
    (h : WhileLoop.Returns (Op.loopStep body) (s, r) out) :
    ∃ bound, ∀ fuel ≥ bound, Op.loop body fuel s r = out := by
  obtain ⟨bound, hrun⟩ := h
  exact ⟨bound, fun fuel hle => by rw [Op.loop, WhileLoop.run_mono hrun hle]⟩

/-- With fuel above a measure that every iteration lowers the loop comes to an end. -/
theorem Op.run_isSome_of_measure {I : S → Prop} {μ : σ × S → Nat}
    (h : ∀ s t r r', I r → body s r = (.ok (.inl t), r') → I r' ∧ μ (t, r') < μ (s, r))
    {fuel : Nat} (hr : I r) (hf : μ (s, r) < fuel) :
    (WhileLoop.run (Op.loopStep body) fuel (s, r)).isSome := by
  refine WhileLoop.run_isSome_of_measure (I := fun x => I x.2) (μ := μ) ?_ hr hf
  rintro ⟨s, r₁⟩ ⟨t, r₂⟩ hs hstep
  exact h s t r₁ r₂ hs (Op.loopStep_eq_inl hstep)

end Step

variable {body : σ → Rd (σ ⊕ ρ)} {r : Reader}

/-- A loop with a safe body stays inside the buffer however far it is followed. -/
theorem Rd.loop_safe (h : ∀ s, Rd.Safe (body s)) (fuel : Nat) (s : σ) (hr : r.Sound) :
    (Op.loop body fuel s r).2.Sound ∧ (Op.loop body fuel s r).2.buf = r.buf ∧
      ∀ e, (Op.loop body fuel s r).1 = .error e → e = .fuel ∨ ∃ code, e = .rc code := by
  unfold Op.loop
  split
  · rename_i out hrun
    refine WhileLoop.Returns.invariant (I := fun x => x.2.Sound ∧ x.2.buf = r.buf)
      (Q := fun out => out.2.Sound ∧ out.2.buf = r.buf ∧
        ∀ e, out.1 = .error e → e = .fuel ∨ ∃ code, e = .rc code) ?_ ?_ ⟨fuel, hrun⟩ ⟨hr, rfl⟩
    · rintro ⟨s, r₁⟩ ⟨t, r₂⟩ ⟨hs, hbuf⟩ hstep
      have hbody := Op.loopStep_eq_inl hstep
      obtain ⟨hs', hbuf', _⟩ := h s r₁ hs
      rw [hbody] at hs' hbuf'
      exact ⟨hs', hbuf'.trans hbuf⟩
    · rintro ⟨s, r₁⟩ out ⟨hs, hbuf⟩ hstep
      obtain ⟨r₂, hs', hbuf', ⟨code, hcase⟩ | ⟨a, hcase⟩⟩ := (h s).cases hs
      · rw [Op.loopStep_error hcase] at hstep
        obtain rfl := Sum.inr.inj hstep
        exact ⟨hs', hbuf'.trans hbuf, by simp⟩
      · cases a with
        | inl t => simp [Op.loopStep_next hcase] at hstep
        | inr a =>
          rw [Op.loopStep_done hcase] at hstep
          obtain rfl := Sum.inr.inj hstep
          exact ⟨hs', hbuf'.trans hbuf, by simp⟩
  · exact ⟨hr, rfl, fun e he => .inl (by simpa using he.symm)⟩

end Loop

end Triepack
