import Triepack.Terseml.PythonDecode

/-!
# Where the two decoders agree

They read the same items. They differ on what an empty run stands for, on numbers that do not fit in 64
bits and on the document without elements.
-/

namespace Terseml

open Python Triepack

/-- Both calls fail, or both return the same. -/
def Agree {ε ε' α : Type} (x : Except ε α) (y : Except ε' α) : Prop := ∀ a, x = .ok a ↔ y = .ok a

/-- The decoders agree on the bytes, as an element and as a document. -/
structure DecodersAgree (s : List UInt8) : Prop where
  element : Agree (tsmlDecode s) (decode s)
  document : Agree (tsmlDecodeDocument s) (decodeDocument s)

mutual

/-- No `\b` or `\B` run is empty, and the numbers of `\B` runs fit in 64 bits. -/
def Item.Common : Item → Prop
  | .text _ => True
  | .terminated raw => raw ≠ []
  | .counted varint payload => payload ≠ [] ∧ Leb128.byteValue varint < 2 ^ 64
  | .singleton _ content => contentCommon content
  | .plain _ content => contentCommon content
  | .attributed _ _ _ _ content => contentCommon content

def contentCommon : List Item → Prop
  | [] => True
  | i :: is => i.Common ∧ contentCommon is

end

theorem contentCommon_iff {is : List Item} : contentCommon is ↔ ∀ i ∈ is, i.Common := by
  induction is with
  | nil => simp [contentCommon]
  | cons i is ih => simp [contentCommon, ih]

theorem python_le_c : Dialect.Le .python .c (2 ^ 64) where
  richSingleton := id
  bareContent := id
  runAfterText := id
  length {v m} h hm := by
    obtain rfl : v = m := h
    exact u64_of_lt hm

section Items

variable {D : Dialect} {i : Item} {s : List UInt8}

/-- Where the numbers fit, the Python decoder reads what the C decoder reads. -/
theorem ok_python_of_common (h : i.Ok .c) (hcommon : i.Common) : i.Ok .python := by
  have hcontent : ∀ is : List Item, (∀ j ∈ is, j.Ok .c → j.Common → j.Ok .python) →
      contentOk .c is → contentCommon is → contentOk .python is := by
    intro is ih hok hcommon
    rw [contentOk_iff] at hok ⊢
    exact ⟨fun j hj => ih j hj (hok.1 j hj) (contentCommon_iff.mp hcommon j hj), hok.2⟩
  induction i using Item.induction_on with
  | text | terminated => simpa only [Item.Ok] using h
  | counted varint payload =>
    rw [Item.Common] at hcommon
    rw [Item.Ok] at h ⊢
    exact ⟨h.1, by rw [← h.2]; exact (u64_of_lt hcommon.2).symm⟩
  | singleton head content ih =>
    rw [Item.Common] at hcommon
    rw [Item.Ok] at h ⊢
    exact ⟨h.1, hcontent _ ih h.2.1 hcommon, h.2.2⟩
  | plain tag content ih =>
    rw [Item.Common] at hcommon
    rw [Item.Ok] at h ⊢
    exact ⟨h.1, hcontent _ ih h.2.1 hcommon, h.2.2⟩
  | attributed tag pairs trailing comma content ih =>
    rw [Item.Common] at hcommon
    rw [Item.Ok] at h ⊢
    exact ⟨h.1, h.2.1, h.2.2.1, hcontent _ ih h.2.2.2.1 hcommon, h.2.2.2.2⟩

theorem keptContent_eq_flatMap (is : List Item) : keptContent is = is.flatMap keptNodes := by
  induction is with
  | nil => rw [keptContent]; rfl
  | cons i is ih => rw [keptContent, ih, List.flatMap_cons]

/-- Where no run is empty, both decoders build the same nodes. -/
theorem kept_eq_nodes (h : i.Ok D) (hcommon : i.Common) : keptNodes i = i.nodes := by
  have hcontent : ∀ is : List Item, (∀ j ∈ is, j.Ok D → j.Common → keptNodes j = j.nodes) →
      (∀ j ∈ is, j.Ok D) → contentCommon is → keptContent is = contentNodes is := by
    intro is ih hok hcommon
    rw [keptContent_eq_flatMap, contentNodes_eq_flatMap]
    exact List.flatMap_congr fun j hj => ih j hj (hok j hj) (contentCommon_iff.mp hcommon j hj)
  induction i using Item.induction_on with
  | text raw => rw [keptNodes, Item.nodes]
  | terminated raw =>
    rw [Item.Ok] at h
    obtain ⟨t, ht⟩ := h
    rw [Item.Common] at hcommon
    have hcopy : copyBinary raw ≠ [] := by
      rw [copyBinary_of_run ht]
      exact fun h => hcommon (ht.eq_nil_iff.mpr h)
    rw [keptNodes, Item.nodes, textNode, if_neg hcopy]
  | counted varint payload =>
    rw [Item.Common] at hcommon
    rw [keptNodes, Item.nodes, textNode, if_neg hcommon.1]
  | singleton head content ih =>
    rw [Item.Common] at hcommon
    rw [keptNodes, Item.nodes, hcontent content ih (ok_content h) hcommon]
  | plain tag content ih =>
    rw [Item.Common] at hcommon
    rw [keptNodes, Item.nodes, hcontent content ih (ok_content h) hcommon]
  | attributed tag pairs trailing comma content ih =>
    rw [Item.Common] at hcommon
    rw [keptNodes, Item.nodes, hcontent content ih (ok_content h) hcommon]
    rfl

theorem length_nodes_le (h : i.Ok D) : i.nodes.length ≤ 1 := by
  rw [nodes_eq h]
  split_ifs <;> simp

theorem length_keptNodes (h : i.Ok D) : (keptNodes i).length = 1 := by
  cases i with
  | text raw =>
    rw [Item.Ok] at h
    obtain ⟨hne, t, ht⟩ := h
    have hcopy : copyRun raw ≠ [] := by
      rw [copyRun_of_run ht]
      exact fun h => hne (ht.eq_nil_iff.mpr h)
    simp [keptNodes, textNode, hcopy]
  | _ => simp [keptNodes]

/-- Contents that both decoders build alike have items that they build alike. -/
theorem kept_eq_of_content {is : List Item} (h : ∀ i ∈ is, i.Ok D) (heq : keptContent is = contentNodes is) :
    ∀ i ∈ is, keptNodes i = i.nodes := by
  have hle : ∀ js : List Item, (∀ j ∈ js, j.Ok D) → (contentNodes js).length ≤ (keptContent js).length := by
    intro js hjs
    rw [keptContent_eq_flatMap, contentNodes_eq_flatMap, List.length_flatMap, List.length_flatMap]
    exact List.sum_le_sum fun j hj => by
      rw [length_keptNodes (hjs j hj)]
      exact length_nodes_le (hjs j hj)
  induction is with
  | nil => simp
  | cons i is ih =>
    obtain ⟨hi, his⟩ := List.forall_mem_cons.mp h
    rw [keptContent, contentNodes] at heq
    have hlen := congrArg List.length heq
    have hkept := length_keptNodes hi
    have hnodes := length_nodes_le hi
    have hrest := hle is his
    rw [List.length_append, List.length_append] at hlen
    obtain ⟨hhead, htail⟩ := List.append_inj heq (by omega)
    exact List.forall_mem_cons.mpr ⟨hhead, ih his htail⟩

/-- What the Python decoder reads and builds as the C decoder does has no empty run and no number that
does not fit. -/
theorem common_of_kept_eq (h : i.Ok .python) (hlen : i.bytes.length < 2 ^ 64) (heq : keptNodes i = i.nodes) :
    i.Common := by
  have hcontent : ∀ is : List Item,
      (∀ j ∈ is, j.Ok .python → j.bytes.length < 2 ^ 64 → keptNodes j = j.nodes → j.Common) →
      (∀ j ∈ is, j.Ok .python) → (contentBytes is).length < 2 ^ 64 → keptContent is = contentNodes is →
      contentCommon is := by
    intro is ih hok hlen heq
    exact contentCommon_iff.mpr fun j hj =>
      ih j hj (hok j hj) ((length_bytes_le hj).trans_lt hlen) (kept_eq_of_content hok heq j hj)
  induction i using Item.induction_on with
  | text => rw [Item.Common]; trivial
  | terminated raw =>
    rw [Item.Common]
    rintro rfl
    simp [keptNodes, Item.nodes, textNode, copyBinary] at heq
  | counted varint payload =>
    rw [Item.Ok] at h
    rw [Item.Common, show Leb128.byteValue varint = payload.length from h.2]
    constructor
    · rintro rfl
      simp [keptNodes, Item.nodes, textNode] at heq
    · simp only [Item.bytes, List.length_cons, List.length_append] at hlen
      omega
  | singleton head content ih =>
    have hle := content_bytes_length (i := .singleton head content) trivial
    have hok := ok_content h
    rw [Item.content] at hle hok
    rw [keptNodes, Item.nodes] at heq
    rw [Item.Common]
    exact hcontent content ih hok (by omega) (by simpa using heq)
  | plain tag content ih =>
    have hle := content_bytes_length (i := .plain tag content) trivial
    have hok := ok_content h
    rw [Item.content] at hle hok
    rw [keptNodes, Item.nodes] at heq
    rw [Item.Common]
    exact hcontent content ih hok (by omega) (by simpa using heq)
  | attributed tag pairs trailing comma content ih =>
    have hle := content_bytes_length (i := .attributed tag pairs trailing comma content) trivial
    have hok := ok_content h
    rw [Item.content] at hle hok
    rw [keptNodes, Item.nodes] at heq
    rw [Item.Common]
    exact hcontent content ih hok (by omega) (by simpa [attrsOf] using heq)

theorem isRoot_python (h : i.IsRoot .c maxDepth) (hcommon : i.Common) : i.IsRoot .python maxDepth :=
  ⟨h.isElement, ok_python_of_common h.ok hcommon, h.within⟩

theorem isRoot_c (h : i.IsRoot .python maxDepth) (hlen : i.bytes.length < 2 ^ 64) : i.IsRoot .c maxDepth :=
  ⟨h.isElement, h.ok.mono python_le_c hlen, h.within⟩

end Items

/-- The decoders agree on all bytes but those without an element, and those that, read as a document,
have an empty run or a number that does not fit in 64 bits. -/
theorem decodersAgree_iff_common {s : List UInt8} (hlen : s.length < 2 ^ 64) : DecodersAgree s ↔
    s ≠ [] ∧ ∀ is : List Item, (∀ i ∈ is, i.IsRoot .c maxDepth) → s = contentBytes is → ∀ i ∈ is, i.Common := by
  constructor
  · rintro ⟨-, h⟩
    have hne : s ≠ [] := by
      rintro rfl
      have hok := (h []).mpr (decodeDocument_eq_ok.mpr ⟨[], by simp, by rw [contentBytes], by rw [keptContent]⟩)
      exact (tsmlDecodeDocument_eq_ok.mp hok).1 rfl
    refine ⟨hne, fun is his hs => ?_⟩
    obtain ⟨js, hjs, hs', hnodes⟩ := decodeDocument_eq_ok.mp
      ((h _).mp (tsmlDecodeDocument_eq_ok.mpr ⟨hne, is, his, hs, rfl⟩))
    have hlen' : ∀ {ks : List Item}, s = contentBytes ks → ∀ k ∈ ks, k.bytes.length < 2 ^ 64 :=
      fun hks k hk => (length_bytes_le hk).trans_lt (hks ▸ hlen)
    have hjs' : ∀ j ∈ js, j.IsRoot .c maxDepth := fun j hj => isRoot_c (hjs j hj) (hlen' hs' j hj)
    obtain rfl := roots_unique hjs' his (hs'.symm.trans hs)
    exact fun j hj => common_of_kept_eq (hjs j hj).ok (hlen' hs j hj)
      (kept_eq_of_content (fun k hk => (hjs k hk).ok) hnodes j hj)
  · rintro ⟨hne, h⟩
    have hroot : ∀ {i : Item}, i.IsRoot .c maxDepth → s = i.bytes → i.Common := fun {i} hi hs =>
      h [i] (by simpa using hi) (by rw [contentBytes, contentBytes, hs, List.append_nil]) i (by simp)
    refine ⟨fun n => ⟨fun hn => ?_, fun hn => ?_⟩, fun ns => ⟨fun hns => ?_, fun hns => ?_⟩⟩
    · obtain ⟨i, hi, hs, hnodes⟩ := tsmlDecode_eq_ok.mp hn
      have hcommon := hroot hi hs
      exact decode_eq_ok.mpr ⟨i, isRoot_python hi hcommon, hs, (kept_eq_nodes hi.ok hcommon).trans hnodes⟩
    · obtain ⟨i, hi, hs, hnodes⟩ := decode_eq_ok.mp hn
      have hi' := isRoot_c hi (hs ▸ hlen)
      exact tsmlDecode_eq_ok.mpr ⟨i, hi', hs, (kept_eq_nodes hi.ok (hroot hi' hs)).symm.trans hnodes⟩
    · obtain ⟨-, is, his, hs, hnodes⟩ := tsmlDecodeDocument_eq_ok.mp hns
      have hcommon := h is his hs
      refine decodeDocument_eq_ok.mpr ⟨is, fun i hi => isRoot_python (his i hi) (hcommon i hi), hs, ?_⟩
      rw [← hnodes, keptContent_eq_flatMap, contentNodes_eq_flatMap]
      exact List.flatMap_congr fun i hi => kept_eq_nodes (his i hi).ok (hcommon i hi)
    · obtain ⟨is, his, hs, hnodes⟩ := decodeDocument_eq_ok.mp hns
      have his' : ∀ i ∈ is, i.IsRoot .c maxDepth := fun i hi =>
        isRoot_c (his i hi) ((length_bytes_le hi).trans_lt (hs ▸ hlen))
      have hcommon := h is his' hs
      refine tsmlDecodeDocument_eq_ok.mpr ⟨hne, is, his', hs, ?_⟩
      rw [← hnodes, keptContent_eq_flatMap, contentNodes_eq_flatMap]
      exact (List.flatMap_congr fun i hi => kept_eq_nodes (his i hi).ok (hcommon i hi)).symm

theorem decodersAgree_terminatedText : DecodersAgree terminatedText := by
  refine (decodersAgree_iff_common (by decide)).mpr ⟨by decide, fun is his hs => ?_⟩
  obtain rfl : [terminatedItem] = is :=
    roots_unique (fun i hi => (List.mem_singleton.mp hi) ▸ terminatedItem_isRoot) his hs
  simp [terminatedItem, Item.Common, contentCommon]

/-- `{a,\b<NUL>}`. -/
def emptyRunText : List UInt8 := [0x7B, 0x61, 0x2C, 0x5C, 0x62, 0x00, 0x7D]

/-- An empty run is a text for one decoder and nothing for the other. -/
theorem not_decodersAgree_emptyRunText : tsmlDecode emptyRunText = .ok (.element [0x61] [] []) ∧
    decode emptyRunText = .ok (.element [0x61] [] [.text []]) ∧ ¬ DecodersAgree emptyRunText := by
  have hc : tsmlDecode emptyRunText = .ok (.element [0x61] [] []) := by rfl
  have hpython : decode emptyRunText = .ok (.element [0x61] [] [.text []]) := by rfl
  refine ⟨hc, hpython, fun h => ?_⟩
  have heq := (h.element _).mp hc
  simp [hpython] at heq

end Terseml
