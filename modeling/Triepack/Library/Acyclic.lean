import Mathlib.Data.Fintype.Card
import Mathlib.Data.Set.Finite.Basic
import Mathlib.Logic.Relation
import Mathlib.Tactic.Common

/-!
# Descents that end

From a point that reaches finitely many others every descent ends exactly where no cycle is reached.
-/

namespace Acyclic

open Relation

variable {α : Type*} {r : α → α → Prop} {a : α}

/-- No point that is reached from `a` leads back to itself. -/
def Below (r : α → α → Prop) (a : α) : Prop := ∀ b, ReflTransGen r a b → ¬ TransGen r b b

theorem Below.of_reaches {b : α} (h : Below r a) (hab : ReflTransGen r a b) : Below r b :=
  fun c hbc => h c (hab.trans hbc)

theorem below_of_acc (h : Acc (flip r) a) : Below r a := by
  induction h with
  | intro a _ ih =>
    have hstep : ∀ b, r a b → Below r b := fun b hab => ih b hab
    intro b hab hcycle
    rcases hab.cases_head with rfl | ⟨c, hac, hcb⟩
    · -- a cycle at the point itself is a cycle at its first step
      obtain ⟨c, hac, hca⟩ := TransGen.head'_iff.mp hcycle
      exact hstep c hac c .refl ((TransGen.single hac).trans_right hca)
    · exact hstep c hac b hcb hcycle

/-- What is reached from `a`, ordered by being reached, is finite and without cycles. -/
theorem acc_of_below (hfinite : {b | ReflTransGen r a b}.Finite) (h : Below r a) : Acc (flip r) a := by
  let reached := {b // ReflTransGen r a b}
  have : Finite reached := hfinite
  let above : reached → reached → Prop := fun b c => TransGen r c.1 b.1
  have : IsTrans reached above := ⟨fun _ _ _ hbc hcd => hcd.trans hbc⟩
  have : Std.Irrefl above := ⟨fun b => h b.1 b.2⟩
  have hwf : WellFounded above := Finite.wellFounded_of_trans_of_irrefl above
  have hacc : ∀ b : reached, Acc (flip r) b.1 := fun b => by
    induction b using hwf.induction with
    | h b ih => exact ⟨_, fun c hbc => ih ⟨c, b.2.tail hbc⟩ (.single hbc)⟩
  exact hacc ⟨a, .refl⟩

theorem acc_iff_below (hfinite : {b | ReflTransGen r a b}.Finite) : Acc (flip r) a ↔ Below r a :=
  ⟨below_of_acc, acc_of_below hfinite⟩

end Acyclic
