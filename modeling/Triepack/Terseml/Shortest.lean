import Triepack.Terseml.Forms
import Triepack.Terseml.Grammar

/-!
# No run is shorter

No run that stands for a text is shorter than what the encoder writes for it. The braces in a run are
those of its text, but for one in the number of a `\B` run.
-/

namespace Terseml

open Escape Triepack

/-! ## Inline texts at the front of a row -/

/-- What is written behind a text: the brace that closes its element, or opens a sibling. -/
def Braced (rest : List UInt8) : Prop := ∃ x t, (x = lbr ∨ x = rbr) ∧ rest = x :: t

section Runs

variable {b rest row : List UInt8} {c : UInt8}

theorem Braced.blocked (h : Braced rest) : Scheme.Blocked EscCtx.text.scheme rest := by
  obtain ⟨x, t, rfl | rfl, rfl⟩ := h
  · exact blocked_of_reserved (by decide) (by decide)
  · exact blocked_of_reserved (by decide) (by decide)

theorem isReserved_text : isReserved .text c = true ↔ c = lbr ∨ c = rbr ∨ c = bs := by
  by_cases hbs : c = bs
  · simp [isReserved, hbs]
  · simp [isReserved, hbs]

theorem writeEscaped_cons_plain (h : isReserved .text c = false) (b : List UInt8) :
    writeEscaped .text (c :: b) false = c :: writeEscaped .text b false := by
  rw [writeEscaped, h]
  rfl

theorem writeEscaped_cons_reserved (h : isReserved .text c = true) (b : List UInt8) (lead : Bool) :
    writeEscaped .text (c :: b) lead = bs :: c :: writeEscaped .text b false := by
  rw [writeEscaped, h]
  rfl

/-- A byte that stands for itself is the first byte of the text. -/
theorem writeEscaped_front_plain (hrest : Braced rest) (hc : isReserved .text c = false)
    (h : writeEscaped .text b false ++ rest = c :: row) :
    ∃ b', b = c :: b' ∧ writeEscaped .text b' false ++ rest = row := by
  have hne : c ≠ bs := by
    rintro rfl
    simp [isReserved] at hc
  cases b with
  | nil =>
    obtain ⟨x, z, hx, rfl⟩ := hrest
    obtain rfl : x = c := (List.cons.inj h).1
    rw [isReserved_text.mpr (by tauto)] at hc
    cases hc
  | cons d b =>
    cases hd : isReserved .text d with
    | false =>
      rw [writeEscaped_cons_plain hd, List.cons_append] at h
      obtain ⟨rfl, hrow⟩ := List.cons.inj h
      exact ⟨b, rfl, hrow⟩
    | true =>
      rw [writeEscaped_cons_reserved hd] at h
      exact absurd (List.cons.inj h).1.symm hne

/-- A backslash stands before the first byte of the text. -/
theorem writeEscaped_front_escaped (hrest : Braced rest)
    (h : writeEscaped .text b false ++ rest = bs :: c :: row) :
    isReserved .text c = true ∧ ∃ b', b = c :: b' ∧ writeEscaped .text b' false ++ rest = row := by
  cases b with
  | nil =>
    obtain ⟨x, z, hx, rfl⟩ := hrest
    obtain rfl : x = bs := (List.cons.inj h).1
    exact absurd hx (by decide)
  | cons d b =>
    cases hd : isReserved .text d with
    | false =>
      rw [writeEscaped_cons_plain hd] at h
      obtain rfl : d = bs := (List.cons.inj h).1
      simp [isReserved] at hd
    | true =>
      rw [writeEscaped_cons_reserved hd, List.cons_append, List.cons_append] at h
      obtain ⟨-, htail⟩ := List.cons.inj h
      obtain ⟨rfl, hrow⟩ := List.cons.inj htail
      exact ⟨hd, b, rfl, hrow⟩

theorem writeEscaped_front_run {q : List UInt8} (hrest : Braced rest)
    (hq : ∀ c ∈ q, isReserved .text c = false) (h : writeEscaped .text b false ++ rest = q ++ row) :
    ∃ b', b = q ++ b' ∧ writeEscaped .text b' false ++ rest = row := by
  induction q generalizing b with
  | nil => exact ⟨b, rfl, h⟩
  | cons c q ih =>
    obtain ⟨hc, hq⟩ := List.forall_mem_cons.mp hq
    obtain ⟨b', rfl, htail⟩ := writeEscaped_front_plain hrest hc h
    obtain ⟨b'', rfl, hrow⟩ := ih hq htail
    exact ⟨b'', rfl, hrow⟩

end Runs

/-! ## Braces -/

/-- How many braces there are. -/
def braces (s : List UInt8) : Nat := s.countP fun c => c == lbr || c == rbr

section Braces

variable {s t raw varint : List UInt8}

@[simp] theorem braces_append (s t : List UInt8) : braces (s ++ t) = braces s + braces t :=
  List.countP_append

theorem braces_cons (c : UInt8) (s : List UInt8) :
    braces (c :: s) = braces s + if c = lbr ∨ c = rbr then 1 else 0 := by
  simp [braces, List.countP_cons]

theorem braces_writeEscaped (ctx : EscCtx) (s : List UInt8) (lead : Bool) :
    braces (writeEscaped ctx s lead) = braces s := by
  have hbs : braces [bs] = 0 := by decide
  induction s generalizing lead with
  | nil => rfl
  | cons c s ih =>
    have hc : braces (c :: s) = braces [c] + braces s := braces_append [c] s
    have hescaped : braces [bs, c] = braces [bs] + braces [c] := braces_append [bs] [c]
    rw [writeEscaped, braces_append, ih, hc]
    split_ifs <;> omega

theorem braces_run (h : Scheme.Run EscCtx.text.scheme raw s) : braces raw = braces s := by
  induction h with
  | nil => rfl
  | plain _ _ _ ih => rw [braces_cons, ih, braces_cons]
  | @escaped e c raw s hmeaning _ ih =>
    obtain ⟨-, rfl⟩ : validEscape e = true ∧ e = c := by simpa [EscCtx.scheme] using hmeaning
    have hbs : ¬ (EscCtx.text.scheme.esc = lbr ∨ EscCtx.text.scheme.esc = rbr) := by decide
    rw [braces_cons, if_neg hbs, Nat.add_zero, braces_cons, ih, braces_cons]

theorem braces_binary (h : Scheme.Run binScheme raw s) : braces raw = braces s := by
  induction h with
  | nil => rfl
  | plain _ _ _ ih => rw [braces_cons, ih, braces_cons]
  | @escaped e c raw s hmeaning _ ih =>
    have hec : braces [bs, e] = braces [c] := by
      simp only [binScheme, binescape] at hmeaning
      split_ifs at hmeaning with hzero hbs
      · rw [← Option.some.inj hmeaning, hzero]
        decide
      · rw [← Option.some.inj hmeaning, hbs]
        decide
    have hraw : braces (bs :: e :: raw) = braces [bs, e] + braces raw := braces_append [bs, e] raw
    have hs : braces (c :: s) = braces [c] + braces s := braces_append [c] s
    rw [show binScheme.esc = bs from rfl, hraw, hs, ih, hec]

/-- A number whose code holds a brace is greater than any text that the brace could close. -/
theorem le_of_brace (hvarint : IsVarint varint) (hbrace : braces varint ≠ 0) :
    123 ≤ u64 (Leb128.byteValue varint) ∧ braces varint = 1 ∧
      ∃ q x, varint = q ++ [x] ∧ (x = lbr ∨ x = rbr) ∧ q.length ≤ 9 ∧ ∀ c ∈ q, ¬ c < 128 := by
  obtain ⟨hcode, hlen⟩ := hvarint
  obtain ⟨q, x, rfl, hx, hq⟩ := hcode.exists_last
  have hqbraces : braces q = 0 := by
    refine List.countP_eq_zero.mpr fun c hc hbrace => hq c hc ?_
    obtain rfl | rfl : c = lbr ∨ c = rbr := by simpa using hbrace
    · decide
    · decide
  rw [braces_append, hqbraces, Nat.zero_add] at hbrace ⊢
  have hbrace' : x = lbr ∨ x = rbr := by
    by_contra hne
    exact hbrace (by rw [braces_cons, if_neg hne]; rfl)
  have hlen' : q.length ≤ 9 := by
    rw [List.length_append, List.length_singleton] at hlen
    omega
  refine ⟨?_, by rw [braces_cons, if_pos hbrace']; rfl, q, x, rfl, hbrace', hlen', hq⟩
  have hlow := Leb128.value_lt (q.map UInt8.toNat)
  rw [Leb128.byteValue, List.map_append, List.map_singleton, Leb128.value_append_singleton]
  rw [List.length_map] at hlow ⊢
  generalize Leb128.value (q.map UInt8.toNat) = low at hlow
  rw [u64]
  interval_cases q.length <;> obtain rfl | rfl := hbrace' <;>
    simp only [show lbr.toNat = 123 from rfl, show rbr.toNat = 125 from rfl] <;> norm_num at hlow ⊢ <;> omega

end Braces

/-! ## No run is shorter -/

section Shortest

variable {i : Item} {t raw : List UInt8} {atStart : Bool}

theorem length_writeEscaped_cons_le (c : UInt8) (s : List UInt8) (lead : Bool) :
    (writeEscaped .text (c :: s) lead).length ≤ 2 + (writeEscaped .text s false).length := by
  rw [writeEscaped, List.length_append]
  split_ifs <;> simp

/-- Text is not shorter in any run than in the one that is written. -/
theorem length_writeEscaped_le (h : Scheme.Run EscCtx.text.scheme raw t)
    (hstart : atStart = true → raw.head? ≠ some lsq) : (writeEscaped .text t atStart).length ≤ raw.length := by
  have hfalse : ∀ {raw t : List UInt8}, Scheme.Run EscCtx.text.scheme raw t →
      (writeEscaped .text t false).length ≤ raw.length := by
    intro raw t h
    induction h with
    | nil => exact Nat.le_refl _
    | plain _ hstop _ ih =>
      rw [writeEscaped_cons_plain hstop]
      exact Nat.succ_le_succ ih
    | @escaped e c raw t _ _ ih =>
      have hcons := length_writeEscaped_cons_le c t false
      simp only [List.length_cons]
      omega
  cases h with
  | nil => exact Nat.zero_le _
  | @plain c raw t _ hstop htail =>
    have hle := hfalse htail
    have hlead : (atStart && c == lsq) = false := by
      cases atStart with
      | false => rfl
      | true => simpa using hstart rfl
    rw [writeEscaped, hlead, show isReserved .text c = false from hstop, List.length_append]
    simp only [Bool.or_self, Bool.false_eq_true, if_false, List.length_cons, List.length_nil]
    omega
  | @escaped e c raw t _ htail =>
    have hle := hfalse htail
    have hcons := length_writeEscaped_cons_le c t atStart
    simp only [List.length_cons]
    omega

theorem length_escapeBinary_le (h : Scheme.Run binScheme raw t) : (escapeBinary t).length ≤ raw.length := by
  induction h with
  | nil => exact Nat.le_refl _
  | @plain c raw t hesc hstop _ ih =>
    have hc : c ≠ 0 ∧ c ≠ bs := ⟨by simpa [binScheme] using hstop, hesc⟩
    rw [escapeBinary, List.flatMap_cons, if_neg hc.1, if_neg hc.2]
    exact Nat.succ_le_succ ih
  | @escaped e c raw t _ _ ih =>
    have hcons : (escapeBinary (c :: t)).length ≤ 2 + (escapeBinary t).length := by
      rw [escapeBinary, List.flatMap_cons, List.length_append, ← escapeBinary]
      split_ifs <;> simp
    simp only [List.length_cons]
    omega

theorem textNode_eq_singleton {s : List UInt8} (h : textNode s = [.text t]) : s = t := by
  rw [textNode] at h
  split_ifs at h
  exact Node.text.inj (List.singleton_inj.mp h)

/-- No run that stands for a text is shorter than what the encoder writes for it. -/
theorem length_writeText_le (hok : i.Ok .c) (hnodes : i.nodes = [.text t]) (hlen : t.length < textMax)
    (hstart : atStart = true → i.bytes.head? ≠ some lsq) : (writeText t atStart).length ≤ i.bytes.length := by
  have hle := fun f => (chooseForm_minimal hlen atStart f).1
  cases i with
  | text raw =>
    rw [Item.Ok] at hok
    rw [Item.bytes] at hstart ⊢
    obtain ⟨-, s, hs⟩ := hok
    rw [Item.nodes, copyRun_of_run hs] at hnodes
    obtain rfl := textNode_eq_singleton hnodes
    exact (hle .inline).trans (length_writeEscaped_le hs hstart)
  | terminated raw =>
    rw [Item.Ok] at hok
    obtain ⟨s, hs⟩ := hok
    rw [Item.nodes, copyBinary_of_run hs] at hnodes
    obtain rfl := textNode_eq_singleton hnodes
    have hraw := length_escapeBinary_le hs
    refine (hle .terminated).trans ?_
    rw [writeForm, writeBinary, if_neg (by decide), Item.bytes]
    simp only [List.length_cons, List.length_append]
    omega
  | counted varint payload =>
    rw [Item.Ok] at hok
    obtain ⟨⟨hcode, -⟩, hvalue⟩ := hok
    rw [Item.nodes] at hnodes
    obtain rfl := textNode_eq_singleton hnodes
    have hvarint : (Leb128.code payload.length).length ≤ varint.length := by
      refine Leb128.length_code_le_of_le hcode ?_
      rw [← hvalue]
      exact Nat.mod_le _ _
    refine (hle .counted).trans ?_
    rw [writeForm, writeBinary, if_pos rfl, Item.bytes, varintPut_eq]
    simp only [List.length_cons, List.length_append]
    omega
  | singleton | plain | attributed => simp [Item.nodes] at hnodes

/-- The braces of a run are those of its text, but for one that may end the number of a `\B` run. -/
theorem braces_bytes (hok : i.Ok .c) (hnodes : i.nodes = [.text t]) : braces i.bytes = braces t ∨
    ∃ q x, i = .counted (q ++ [x]) t ∧ (x = lbr ∨ x = rbr) ∧ q.length ≤ 9 ∧ (∀ c ∈ q, ¬ c < 128) ∧
      123 ≤ t.length := by
  cases i with
  | text raw =>
    rw [Item.Ok] at hok
    obtain ⟨-, s, hs⟩ := hok
    rw [Item.nodes, copyRun_of_run hs] at hnodes
    obtain rfl := textNode_eq_singleton hnodes
    exact .inl (by rw [Item.bytes, braces_run hs])
  | terminated raw =>
    rw [Item.Ok] at hok
    obtain ⟨s, hs⟩ := hok
    rw [Item.nodes, copyBinary_of_run hs] at hnodes
    obtain rfl := textNode_eq_singleton hnodes
    have hends : braces [0] = 0 ∧ braces [bs, letterb] = 0 := by decide
    rw [Item.bytes, show bs :: letterb :: (raw ++ [0]) = [bs, letterb] ++ (raw ++ [0]) from rfl,
      braces_append, braces_append, hends.1, hends.2, braces_binary hs]
    exact .inl (by omega)
  | counted varint payload =>
    rw [Item.Ok] at hok
    obtain ⟨hvarint, hvalue⟩ := hok
    rw [Item.nodes] at hnodes
    obtain rfl := textNode_eq_singleton hnodes
    by_cases hbrace : braces varint = 0
    · have hheader : braces [bs, letterB] = 0 := by decide
      rw [Item.bytes, show bs :: letterB :: (varint ++ payload) = [bs, letterB] ++ (varint ++ payload) from rfl,
        braces_append, braces_append, hheader, hbrace]
      exact .inl (by omega)
    · obtain ⟨hle, -, q, x, rfl, hx, hq, hbytes⟩ := le_of_brace hvarint hbrace
      exact .inr ⟨q, x, rfl, hx, hq, hbytes, hle.trans_eq hvalue⟩
  | singleton | plain | attributed => simp [Item.nodes] at hnodes

theorem bytes_of_isEmptyRun (hok : i.Ok .c) (h : i.IsEmptyRun) : i.bytes = [bs, letterb, 0] ∨
    ∃ varint, IsVarint varint ∧ braces varint = 0 ∧ i.bytes = bs :: letterB :: varint := by
  cases i with
  | terminated raw =>
    obtain rfl : raw = [] := h
    exact .inl (by rw [Item.bytes]; rfl)
  | counted varint payload =>
    obtain rfl : payload = [] := h
    rw [Item.Ok] at hok
    obtain ⟨hvarint, hvalue⟩ := hok
    refine .inr ⟨varint, hvarint, ?_, by rw [Item.bytes, List.append_nil]⟩
    by_contra hbrace
    have hle := (le_of_brace hvarint hbrace).1
    rw [show u64 (Leb128.byteValue varint) = 0 from hvalue] at hle
    omega
  | text | singleton | plain | attributed => exact h.elim

/-- The first node of a content stands behind empty runs only. -/
theorem exists_first {is : List Item} {n : Node} (hok : ∀ i ∈ is, i.Ok .c) (h : (contentNodes is).head? = some n) :
    ∃ e r js, is = e ++ r :: js ∧ (∀ i ∈ e, i.IsEmptyRun) ∧ r.nodes = [n] := by
  induction is with
  | nil => simp [contentNodes] at h
  | cons i is ih =>
    obtain ⟨hi, his⟩ := List.forall_mem_cons.mp hok
    by_cases hempty : i.IsEmptyRun
    · rw [contentNodes, nodes_eq hi, if_pos hempty] at h
      obtain ⟨e, r, js, rfl, he, hr⟩ := ih his h
      exact ⟨i :: e, r, js, rfl, List.forall_mem_cons.mpr ⟨hempty, he⟩, hr⟩
    · rw [contentNodes, nodes_eq hi, if_neg hempty] at h
      obtain rfl : i.node = n := Option.some.inj h
      exact ⟨[], i, is, rfl, by simp, by rw [nodes_eq hi, if_neg hempty]⟩

theorem contentBytes_append (is js : List Item) : contentBytes (is ++ js) = contentBytes is ++ contentBytes js := by
  rw [contentBytes_eq_flatMap, contentBytes_eq_flatMap, contentBytes_eq_flatMap, List.flatMap_append]

end Shortest

end Terseml
