import Triepack.Library.Json

/-!
# UTF-8

Thirteen of the byte values do not occur in UTF-8.
-/

namespace JsonText

def IsUtf8 (bs : List UInt8) : Prop := ∃ cs : List Char, bs = cs.flatMap String.utf8EncodeChar

/-- A byte that UTF-8 has a use for. -/
def InUtf8 (b : UInt8) : Prop := b ≠ 0xC0 ∧ b ≠ 0xC1 ∧ b < 0xF5

instance : DecidablePred InUtf8 := fun _ => inferInstanceAs (Decidable (_ ∧ _))

theorem inUtf8_ascii : ∀ m < 0x80, InUtf8 (.ofNat m) := by decide

theorem inUtf8_tail : ∀ m < 0x40, InUtf8 (.ofNat (m + 0x80)) := by decide

theorem inUtf8_lead2 : ∀ m < 0x20, 2 ≤ m → InUtf8 (.ofNat (m + 0xC0)) := by decide

theorem inUtf8_lead3 : ∀ m < 0x10, InUtf8 (.ofNat (m + 0xE0)) := by decide

theorem inUtf8_lead4 : ∀ m < 5, InUtf8 (.ofNat (m + 0xF0)) := by decide

theorem inUtf8_encodeChar (c : Char) : ∀ b ∈ String.utf8EncodeChar c, InUtf8 b := by
  have hlt : c.val.toNat < 0x110000 := by
    have hvalid := c.valid
    simp only [UInt32.isValidChar, Nat.isValidChar] at hvalid
    omega
  have htail : ∀ n, InUtf8 (.ofNat (n % 0x40 + 0x80)) := fun n => inUtf8_tail _ (Nat.mod_lt _ (by omega))
  rw [String.utf8EncodeChar]
  split_ifs with h₁ h₂ h₃
  all_goals simp only [List.mem_cons, List.not_mem_nil, or_false, forall_eq_or_imp, forall_eq]
  · exact inUtf8_ascii _ (by omega)
  · exact ⟨inUtf8_lead2 _ (by omega) (by omega), htail _⟩
  · exact ⟨inUtf8_lead3 _ (by omega), htail _, htail _⟩
  · exact ⟨inUtf8_lead4 _ (by omega), htail _, htail _, htail _⟩

theorem IsUtf8.inUtf8 {bs : List UInt8} (h : IsUtf8 bs) : ∀ b ∈ bs, InUtf8 b := by
  obtain ⟨cs, rfl⟩ := h
  intro b hb
  obtain ⟨c, -, hb⟩ := List.mem_flatMap.mp hb
  exact inUtf8_encodeChar c b hb

theorem inUtf8_utf8 (cp : Nat) : ∀ b ∈ utf8 cp, InUtf8 b := by
  have hor : ∀ {m : Nat}, m < 0x40 → 0x80 ||| m = m + 0x80 := by decide
  have hor2 : ∀ {m : Nat}, m < 0x20 → 0xC0 ||| m = m + 0xC0 := by decide
  have hor3 : ∀ {m : Nat}, m < 0x10 → 0xE0 ||| m = m + 0xE0 := by decide
  have hor4 : ∀ {m : Nat}, m < 5 → 0xF0 ||| m = m + 0xF0 := by decide
  have hand : ∀ n : Nat, n &&& 0x3F < 0x40 := fun n => Nat.and_lt_two_pow n (n := 6) (by decide)
  have htail : ∀ n : Nat, InUtf8 (.ofNat (0x80 ||| n &&& 0x3F)) := fun n => by
    rw [hor (hand n)]
    exact inUtf8_tail _ (hand n)
  have h₆ : cp >>> 6 = cp / 64 := Nat.shiftRight_eq_div_pow ..
  have h₁₂ : cp >>> 12 = cp / 4096 := Nat.shiftRight_eq_div_pow ..
  have h₁₈ : cp >>> 18 = cp / 262144 := Nat.shiftRight_eq_div_pow ..
  rw [utf8]
  split_ifs with h₁ h₂ h₃ h₄
  all_goals simp only [List.mem_cons, List.not_mem_nil, or_false, forall_eq_or_imp, forall_eq]
  · exact inUtf8_ascii cp h₁
  · refine ⟨?_, htail cp⟩
    rw [hor2 (by omega)]
    exact inUtf8_lead2 _ (by omega) (by omega)
  · refine ⟨?_, htail (cp >>> 6), htail cp⟩
    rw [hor3 (by omega)]
    exact inUtf8_lead3 _ (by omega)
  · refine ⟨?_, htail (cp >>> 12), htail (cp >>> 6), htail cp⟩
    rw [hor4 (by omega)]
    exact inUtf8_lead4 _ (by omega)
  · simp

end JsonText
