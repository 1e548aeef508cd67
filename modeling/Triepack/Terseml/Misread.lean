import Triepack.Terseml.Shortest

/-!
# Reading what is out of step

Where one backslash is missing, what is read as the text takes in the brace behind it. There is a brace
too many then, and only the number of a `\B` run can hold it. Such a number is too great.
-/

namespace Terseml

open Escape Triepack

section Misread

variable {is e : List Item} {t a b q rest row : List UInt8} {c x : UInt8} {atStart : Bool}

theorem isReserved_of_not_lt (h : ¬ c < 128) : isReserved .text c = false := by
  rw [Bool.eq_false_iff, Ne, isReserved_text]
  rintro (rfl | rfl | rfl) <;> exact h (by decide)

/-- Empty runs and the header of a `\B` run begin with a backslash and a letter. -/
theorem exists_letter (he : ∀ i ∈ e, i.Ok .c ∧ i.IsEmptyRun) (row : List UInt8) :
    ∃ l z, contentBytes e ++ bs :: letterB :: row = bs :: l :: z ∧ isReserved .text l = false ∧ l ≠ lsq := by
  cases e with
  | nil => exact ⟨letterB, row, by rw [contentBytes]; rfl, by decide, by decide⟩
  | cons i e =>
    obtain ⟨hok, hempty⟩ := he i (by simp)
    rw [contentBytes_cons]
    obtain hbytes | ⟨varint, -, -, hbytes⟩ := bytes_of_isEmptyRun hok hempty
    · exact ⟨letterb, _, by rw [hbytes]; rfl, by decide, by decide⟩
    · exact ⟨letterB, _, by rw [hbytes]; rfl, by decide, by decide⟩

/-- Of an empty run only the last byte of its number can be a backslash, so a text that is read as
empty runs and a header has a backslash in every twelve bytes. -/
theorem length_le_of_misread (he : ∀ i ∈ e, i.Ok .c ∧ i.IsEmptyRun) (hrest : Braced rest)
    (hq : ∀ c ∈ q, ¬ c < 128) (hqlen : q.length ≤ 9) (hx : x = lbr ∨ x = rbr)
    (h : bs :: (writeEscaped .text b false ++ rest) = contentBytes e ++ bs :: letterB :: (q ++ x :: row)) :
    b.length ≤ 11 * b.count bs + 10 := by
  have hplain : ∀ {q : List UInt8}, (∀ c ∈ q, ¬ c < 128) → ∀ c ∈ q, isReserved .text c = false :=
    fun hq c hc => isReserved_of_not_lt (hq c hc)
  induction e generalizing b with
  | nil =>
    rw [contentBytes, List.nil_append] at h
    obtain ⟨b', rfl, h'⟩ := writeEscaped_front_plain hrest (by decide) (List.cons.inj h).2
    obtain ⟨b'', rfl, hbrace⟩ := writeEscaped_front_run hrest (hplain hq) h'
    cases b'' with
    | nil =>
      simp only [List.append_nil, List.length_cons]
      omega
    | cons d b =>
      -- A brace stands behind a backslash in the text.
      cases hd : isReserved .text d with
      | false =>
        rw [writeEscaped_cons_plain hd] at hbrace
        obtain rfl : d = x := (List.cons.inj hbrace).1
        rw [isReserved_text.mpr (by tauto)] at hd
        cases hd
      | true =>
        rw [writeEscaped_cons_reserved hd] at hbrace
        obtain rfl : bs = x := (List.cons.inj hbrace).1
        exact absurd hx (by decide)
  | cons i e ih =>
    obtain ⟨⟨hok, hempty⟩, he⟩ := List.forall_mem_cons.mp he
    obtain ⟨l, z, hl, hletter, -⟩ := exists_letter he (q ++ x :: row)
    have hstuck : ∀ {b : List UInt8}, writeEscaped .text b false ++ rest ≠
        contentBytes e ++ bs :: letterB :: (q ++ x :: row) := by
      intro b hb
      rw [hl] at hb
      have hreserved := (writeEscaped_front_escaped hrest hb).1
      rw [hletter] at hreserved
      cases hreserved
    rw [contentBytes_cons, List.append_assoc] at h
    obtain hbytes | ⟨varint, hvarint, hbraces, hbytes⟩ := bytes_of_isEmptyRun hok hempty
    · rw [hbytes] at h
      obtain ⟨b', rfl, h'⟩ := writeEscaped_front_plain hrest (by decide) (List.cons.inj h).2
      obtain ⟨b'', rfl, h''⟩ := writeEscaped_front_plain hrest (by decide) h'
      exact absurd h'' hstuck
    · obtain ⟨q₀, y, rfl, -, hq₀⟩ := hvarint.1.exists_last
      rw [hbytes, List.cons_append, List.cons_append, List.append_assoc] at h
      obtain ⟨b', rfl, h'⟩ := writeEscaped_front_plain hrest (by decide) (List.cons.inj h).2
      obtain ⟨b'', rfl, h''⟩ := writeEscaped_front_run hrest (hplain hq₀) h'
      cases hy : isReserved .text y with
      | false =>
        obtain ⟨b₃, rfl, h₃⟩ := writeEscaped_front_plain hrest hy h''
        exact absurd h₃ hstuck
      | true =>
        have hbrace : ¬ (y = lbr ∨ y = rbr) := by
          intro hy
          rw [braces_append, braces_cons, if_pos hy] at hbraces
          omega
        obtain rfl : y = bs := by
          have hcases := isReserved_text.mp hy
          tauto
        -- The backslash of the next run is read behind this one, and the text goes on.
        rw [List.singleton_append, hl] at h''
        obtain ⟨-, b₃, rfl, h₃⟩ := writeEscaped_front_escaped hrest h''
        have hlen := ih he (by rw [h₃, hl])
        have hlen₀ := hvarint.2
        simp only [List.length_append, List.length_cons, List.length_nil, List.count_append, List.count_cons,
          beq_self_eq_true, if_true] at hlen hlen₀ ⊢
        omega

/-- What is left out makes the inline form one byte shorter. -/
theorem length_less (hc : isReserved .text c = true) (a b : List UInt8) (atStart : Bool) :
    (writeEscaped .text (a ++ c :: b) atStart).length =
      (writeEscaped .text a atStart ++ c :: writeEscaped .text b false).length + 1 := by
  induction a generalizing atStart with
  | nil =>
    rw [List.nil_append, writeEscaped_cons_reserved hc]
    rfl
  | cons d a ih =>
    rw [List.cons_append, writeEscaped, writeEscaped, List.length_append, ih, List.append_assoc]
    simp only [List.length_append]
    omega

/-- The bracket at the start of a content keeps its backslash. -/
theorem head?_less (hc : isReserved .text c = true) (a z : List UInt8) :
    (writeEscaped .text a true ++ c :: z).head? ≠ some lsq := by
  cases a with
  | nil =>
    rintro ⟨⟩
    exact absurd hc (by decide)
  | cons d a =>
    rw [writeEscaped]
    split_ifs with hd
    · simpa using (by decide : bs ≠ lsq)
    · simp only [Bool.true_and, Bool.or_eq_true, beq_iff_eq, not_or] at hd
      simpa using hd.2

theorem length_writeText_start_le (hlen : t.length < textMax) (atStart : Bool) :
    (writeText t atStart).length ≤ (writeText t false).length + 1 := by
  refine (chooseForm_minimal hlen atStart (chooseForm t false)).1.trans ?_
  rw [writeText_eq_writeForm t false, length_writeForm, length_writeForm]
  cases chooseForm t false with
  | inline =>
    have hlead : (if (atStart && t.head? == some lsq) = true then 1 else 0) ≤ 1 := by
      split_ifs <;> omega
    simp only [Bool.false_and, Bool.false_eq_true, if_false]
    omega
  | terminated | counted => exact Nat.le_succ _

/-- A run of the text, with the empty runs before it, is longer than what is left of the inline form. -/
theorem length_less_lt {r : Item} (he : ∀ i ∈ e, i.Ok .c) (hok : r.Ok .c)
    (hr : r.nodes = [.text (a ++ c :: b)]) (hlen : (a ++ c :: b).length < textMax)
    (hform : chooseForm (a ++ c :: b) atStart = .inline) (hc : isReserved .text c = true)
    (hbytes : contentBytes e ++ r.bytes ++ row =
      writeEscaped .text a atStart ++ c :: writeEscaped .text b false ++ rest) :
    (writeEscaped .text a atStart ++ c :: writeEscaped .text b false).length <
      (contentBytes e ++ r.bytes).length := by
  have hwritten := length_less hc a b atStart
  have htext : writeText (a ++ c :: b) atStart = writeEscaped .text (a ++ c :: b) atStart := by
    rw [writeText_eq_writeForm, hform, writeForm]
  rw [← htext] at hwritten
  cases e with
  | nil =>
    have hstart : atStart = true → r.bytes.head? ≠ some lsq := by
      rintro rfl hhead
      obtain ⟨z, hz⟩ := List.head?_eq_some_iff.mp hhead
      refine head?_less hc a (writeEscaped .text b false ++ rest) ?_
      rw [contentBytes, List.nil_append, hz, List.append_assoc] at hbytes
      rw [← List.cons_append, ← hbytes]
      rfl
    have hle := length_writeText_le hok hr hlen hstart
    rw [contentBytes, List.nil_append]
    omega
  | cons i e =>
    have hle := @length_writeText_le r (a ++ c :: b) false hok hr hlen (by simp)
    have hstart := length_writeText_start_le hlen atStart
    have hpos := List.length_pos_iff.mpr (Item.bytes_ne_nil (he i (by simp)))
    rw [contentBytes_cons]
    simp only [List.length_append] at hwritten ⊢
    omega

/-- What is longer takes in a brace more. -/
theorem braces_lt {s less z : List UInt8} (hrest : Braced rest) (h : s ++ z = less ++ rest)
    (hlt : less.length < s.length) : braces less < braces s := by
  obtain ⟨x, z', hx, rfl⟩ := hrest
  obtain ⟨w, rfl, -⟩ | ⟨w, rfl, hw⟩ := List.append_eq_append_iff.mp h
  · rw [List.length_append] at hlt
    omega
  · cases w with
    | nil => simp at hlt
    | cons y w =>
      obtain rfl : x = y := (List.cons.inj hw).1
      rw [braces_append, braces_cons, if_pos hx]
      omega

theorem braces_emptyRuns (he : ∀ i ∈ e, i.Ok .c ∧ i.IsEmptyRun) : braces (contentBytes e) = 0 := by
  induction e with
  | nil => rw [contentBytes]; rfl
  | cons i e ih =>
    obtain ⟨⟨hok, hempty⟩, he⟩ := List.forall_mem_cons.mp he
    rw [contentBytes_cons, braces_append, ih he]
    obtain hbytes | ⟨varint, -, hvarint, hbytes⟩ := bytes_of_isEmptyRun hok hempty
    · rw [hbytes]
      decide
    · have hheader : ¬ (bs = lbr ∨ bs = rbr) ∧ ¬ (letterB = lbr ∨ letterB = rbr) := by decide
      rw [hbytes, braces_cons, braces_cons, if_neg hheader.1, if_neg hheader.2, hvarint]

/-- Where a backslash is missing, the content does not begin with the text. -/
theorem head?_contentNodes_ne (hok : contentOk .c is) (hrest : Braced rest)
    (hlen : (a ++ c :: b).length < textMax) (hform : chooseForm (a ++ c :: b) atStart = .inline)
    (hc : isReserved .text c = true)
    (hbytes : contentBytes is ++ row = writeEscaped .text a atStart ++ c :: writeEscaped .text b false ++ rest) :
    (contentNodes is).head? ≠ some (.text (a ++ c :: b)) := by
  intro hhead
  obtain ⟨hisok, -⟩ := contentOk_iff.mp hok
  obtain ⟨e, r, js, rfl, he, hr⟩ := exists_first hisok hhead
  have heok : ∀ i ∈ e, i.Ok .c ∧ i.IsEmptyRun := fun i hi => ⟨hisok i (by simp [hi]), he i hi⟩
  rw [contentBytes_append, contentBytes_cons, ← List.append_assoc, List.append_assoc] at hbytes
  have hlong := length_less_lt (fun i hi => (heok i hi).1) (hisok r (by simp)) hr hlen hform hc hbytes
  have hlt := braces_lt hrest hbytes hlong
  have hless : braces (writeEscaped .text a atStart ++ c :: writeEscaped .text b false) = braces (a ++ c :: b) := by
    simp only [braces_append, braces_cons, braces_writeEscaped]
  rw [hless, braces_append (contentBytes e), braces_emptyRuns heok, Nat.zero_add] at hlt
  obtain hsame | ⟨q, x, rfl, hx, hqlen, hq, hlarge⟩ := braces_bytes (hisok r (by simp)) hr
  · omega
  -- What is read as the text is a `\B` run, so the backslash is missing before the first byte.
  have hrow : contentBytes e ++ bs :: letterB :: (q ++ x :: (a ++ c :: b ++ (contentBytes js ++ row))) =
      writeEscaped .text a atStart ++ c :: writeEscaped .text b false ++ rest := by
    rw [← hbytes, Item.bytes]
    simp
  obtain ⟨l, z, hl, hletter, hbracket⟩ :=
    exists_letter heok (q ++ x :: (a ++ c :: b ++ (contentBytes js ++ row)))
  rw [hl] at hrow
  have hfirst : a = [] ∧ c = bs := by
    cases a with
    | nil => exact ⟨rfl, (List.cons.inj hrow).1.symm⟩
    | cons d a =>
      rw [writeEscaped] at hrow
      split_ifs at hrow with hd
      · obtain rfl : l = d := (List.cons.inj (List.cons.inj hrow).2).1
        simp [hletter, hbracket] at hd
      · obtain rfl : bs = d := (List.cons.inj hrow).1
        simp [isReserved] at hd
  obtain ⟨rfl, rfl⟩ := hfirst
  have hmisread := length_le_of_misread heok hrest hq hqlen hx (hrow.symm.trans hl.symm)
  have hcount := countP_lt_of_inline hlen hform
  have hbs : b.count bs ≤ b.countP fun c => c == lbr || c == rbr || c == bs := by
    rw [List.count]
    exact List.countP_mono_left fun d _ hd => by simpa using Or.inr (by simpa using hd)
  rw [List.nil_append, List.countP_cons] at hcount
  simp only [List.nil_append, List.length_cons, beq_self_eq_true, Bool.or_true, if_true] at hlarge hcount
  omega

end Misread

end Terseml
