import Triepack.Terseml.RoundTrip

/-!
# The form of a text

The encoder computes how long each form of a text would be, and writes the shortest. The forms are
exactly as long as it computes.
-/

namespace Terseml

open Escape Triepack

/-- A text as it is written in a form. -/
def writeForm (s : List UInt8) (atStart : Bool) : BinForm → List UInt8
  | .inline => writeEscaped .text s atStart
  | .terminated => writeBinary s .terminated
  | .counted => writeBinary s .counted

/-- Ties are broken in favour of the form that is easiest to skip. -/
def BinForm.rank : BinForm → Nat
  | .counted => 0
  | .terminated => 1
  | .inline => 2

section Forms

variable {s : List UInt8} {atStart : Bool}

theorem writeText_eq_writeForm (s : List UInt8) (atStart : Bool) :
    writeText s atStart = writeForm s atStart (chooseForm s atStart) := by
  rw [writeText]
  cases chooseForm s atStart <;> rfl

/-! ## Lengths -/

theorem length_writeEscaped_false (s : List UInt8) : (writeEscaped .text s false).length =
    s.length + s.countP fun c => c == lbr || c == rbr || c == bs := by
  induction s with
  | nil => rfl
  | cons c s ih =>
    have hreserved : isReserved .text c = (c == lbr || c == rbr || c == bs) := by
      by_cases hbs : c = bs <;> simp [isReserved, hbs]
    rw [writeEscaped, List.length_append, ih, Bool.false_and, Bool.or_false, hreserved,
      List.countP_cons, List.length_cons]
    split_ifs <;> simp only [List.length_cons, List.length_nil] <;> omega

theorem length_writeEscaped (s : List UInt8) (atStart : Bool) :
    (writeEscaped .text s atStart).length = s.length + (s.countP fun c => c == lbr || c == rbr || c == bs) +
      if atStart && s.head? == some lsq then 1 else 0 := by
  cases s with
  | nil => cases atStart <;> rfl
  | cons c s =>
    have hrest := length_writeEscaped_false (c :: s)
    rw [writeEscaped, List.length_append] at hrest ⊢
    by_cases hc : c = lsq
    · subst hc
      have hreserved : isReserved .text lsq = false := by decide
      cases atStart
      · simpa using hrest
      · simp only [hreserved, Bool.false_or, Bool.false_and, Bool.false_eq_true, if_false,
          Bool.true_and, List.head?_cons, beq_self_eq_true, if_true,
          List.length_cons, List.length_nil] at hrest ⊢
        omega
    · have hne : (c == lsq) = false := by simpa using hc
      simpa [hc, hne] using hrest

theorem length_escapeBinary (s : List UInt8) :
    (escapeBinary s).length = s.length + s.countP fun c => c == 0 || c == bs := by
  induction s with
  | nil => rfl
  | cons c s ih =>
    rw [escapeBinary, List.flatMap_cons, List.length_append, ← escapeBinary, ih, List.countP_cons,
      List.length_cons]
    by_cases hzero : c = 0
    · simp [hzero]
      omega
    · by_cases hbs : c = bs
      · simp [hbs, show bs ≠ 0 by decide]
        omega
      · simp [hzero, hbs]
        omega

/-- The length of each form is the size that the encoder computes for it. -/
theorem length_writeForm (s : List UInt8) (atStart : Bool) (f : BinForm) :
    (writeForm s atStart f).length =
      match f with
      | .inline => s.length + (s.countP fun c => c == lbr || c == rbr || c == bs) +
          if atStart && s.head? == some lsq then 1 else 0
      | .terminated => s.length + 3 + s.countP fun c => c == 0 || c == bs
      | .counted => 2 + varintLen s.length + s.length := by
  cases f with
  | inline => exact length_writeEscaped s atStart
  | terminated =>
    simp only [writeForm, writeBinary, if_neg (show BinForm.terminated ≠ .counted by decide),
      List.length_cons, List.length_append, length_escapeBinary, List.length_nil]
    omega
  | counted =>
    simp only [writeForm, writeBinary, if_true, List.length_cons, List.length_append, varintPut_eq,
      varintLen_eq]
    omega

theorem varintLen_le (hlen : s.length < textMax) : varintLen s.length ≤ 10 := by
  rw [varintLen_eq]
  exact Leb128.length_code_le (by decide) (by simp only [textMax] at hlen; omega)

/-- The sizes of a text in memory do not wrap around. -/
theorem chooseForm_eq (hlen : s.length < textMax) (atStart : Bool) :
    chooseForm s atStart =
      if (writeForm s atStart .counted).length ≤ (writeForm s atStart .terminated).length ∧
          (writeForm s atStart .counted).length ≤ (writeForm s atStart .inline).length then .counted
      else if (writeForm s atStart .terminated).length ≤ (writeForm s atStart .inline).length then
        .terminated
      else .inline := by
  have hvarint := varintLen_le hlen
  have hinl := List.countP_le_length (p := fun c => c == lbr || c == rbr || c == bs) (l := s)
  have hterm := List.countP_le_length (p := fun c => c == 0 || c == bs) (l := s)
  have hlead : (if (atStart && s.head? == some lsq) = true then 1 else 0) ≤ 1 := by
    split_ifs <;> omega
  simp only [textMax] at hlen
  simp only [chooseForm, length_writeForm]
  rw [u64_of_lt (by omega), u64_of_lt (by omega), u64_of_lt (by omega)]

/-- The form that is chosen is the shortest, and the first of the shortest. -/
theorem chooseForm_minimal (hlen : s.length < textMax) (atStart : Bool) (f : BinForm) :
    (writeText s atStart).length ≤ (writeForm s atStart f).length ∧
      ((writeText s atStart).length = (writeForm s atStart f).length →
        (chooseForm s atStart).rank ≤ f.rank) := by
  rw [writeText_eq_writeForm, chooseForm_eq hlen]
  split_ifs with hcounted hterminated
  · cases f <;> simp only [BinForm.rank] <;> omega
  · cases f <;> simp only [BinForm.rank] <;> omega
  · cases f <;> simp only [BinForm.rank] <;> omega

/-- An inline text has no more escapes than the header of a counted run has bytes. -/
theorem countP_lt_of_inline (hlen : s.length < textMax) (h : chooseForm s atStart = .inline) :
    (s.countP fun c => c == lbr || c == rbr || c == bs) < 12 := by
  have hvarint := varintLen_le hlen
  obtain ⟨hle, htie⟩ := chooseForm_minimal hlen atStart .counted
  rw [h] at htie
  rw [writeText_eq_writeForm, h, length_writeForm, length_writeForm] at hle htie
  simp only [BinForm.rank] at hle htie
  omega

end Forms

end Terseml
