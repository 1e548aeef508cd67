import Triepack.Terseml.Agreement
import Triepack.Terseml.PythonEncode

/-!
# The Python decoder undoes the Python encoder

The encoder merges the texts of every element on the way out, so that it writes every tree as the
item of its canonical form. No run in this item is empty, and so the decoder, which keeps empty
runs, builds the canonical form from it.
-/

namespace Terseml.Python

open Triepack

section Items

variable {n : Node} {cs : List Node} {t : List UInt8}

theorem counts_python : Dialect.python.Counts := fun _ _ => rfl

theorem textItem_common (ht : t ≠ []) (hlen : t.length < textMax) (atStart : Bool) :
    (textItem t atStart).Common := by
  rw [textItem]
  cases Terseml.chooseForm t atStart with
  | inline =>
    rw [Item.Common]
    trivial
  | terminated =>
    rw [Item.Common]
    intro hraw
    exact ht ((escapeBinary_run t).eq_nil_iff.mp hraw)
  | counted =>
    rw [Item.Common, varintPut_eq, Leb128.byteValue_code]
    simp only [textMax] at hlen
    exact ⟨ht, by omega⟩

theorem childItems_common (ih : ∀ c ∈ cs, c.Canonical → c.InMemory → c.IsElement → c.item.Common)
    (hcanonical : childrenCanonical cs) (hmem : ∀ t ∈ childTexts cs, t.length < textMax) (atStart : Bool) :
    contentCommon (childItems cs atStart) := by
  induction cs generalizing atStart with
  | nil => rw [childItems, contentCommon]; trivial
  | cons c cs ihcs =>
    rw [childrenCanonical] at hcanonical
    obtain ⟨hne, -, hc, hcs⟩ := hcanonical
    rw [childTexts] at hmem
    rw [childItems, contentCommon]
    refine ⟨?_, ihcs (fun d hd => ih d (List.mem_cons_of_mem c hd)) hcs
      (fun t ht => hmem t (List.mem_append_right _ ht)) false⟩
    cases htext : c.text? with
    | some t =>
      obtain rfl := text?_eq_some htext
      exact textItem_common (fun h => hne (by rw [htext, h])) (hmem t (by simp [Node.texts])) atStart
    | none => exact ih c List.mem_cons_self hc (fun t ht => hmem t (List.mem_append_left _ ht)) htext

/-- The item of a canonical element has neither an empty run nor a number that does not fit. -/
theorem item_common (hcanonical : n.Canonical) (hmem : n.InMemory) (helement : n.IsElement) :
    n.item.Common := by
  induction n using Node.induction_on with
  | text t => simp [Node.IsElement, Node.text?] at helement
  | element tag attrs children ih =>
    rw [Node.Canonical] at hcanonical
    have hchildren := childItems_common ih hcanonical hmem
    rw [Node.item]
    split_ifs
    · rw [Item.Common]
      exact hchildren true
    · rw [Item.Common]
      exact hchildren false

/-- The item of a canonical element is decoded as the element. -/
theorem decode_item (hcanonical : n.Canonical) (hwithin : n.Within 0) (hmem : n.InMemory)
    (helement : n.IsElement) : decode n.item.bytes = .ok n := by
  have hok : n.item.Ok .python := item_ok counts_python hcanonical hmem
  have hroot : n.item.IsRoot .python maxDepth :=
    ⟨item_isElement n, hok, item_within hwithin (Nat.zero_le _)⟩
  have hkept : keptNodes n.item = [n] := by
    rw [kept_eq_nodes hok (item_common hcanonical hmem helement), item_nodes hcanonical helement]
  exact decode_eq_ok.mpr ⟨n.item, hroot, rfl, hkept⟩

end Items

/-- What is decoded of an encoded tree is the tree with adjacent texts concatenated and empty ones
dropped, and it is encoded alike. -/
theorem decode_encodeRoot (n : Node) (helement : n.IsElement) (hwithin : n.Within 0)
    (hmem : n.normalise.InMemory) :
    ∃ out, encodeRoot n = .ok out ∧ decode out = .ok n.normalise ∧ encodeRoot n.normalise = .ok out := by
  have helement' := normalise_isElement helement
  have hwithin' := normalise_within hwithin
  have hself := normalise_eq_self (normalise_canonical n)
  have hmem' : n.normalise.normalise.InMemory := by rwa [hself]
  have hencode : encodeRoot n = .ok n.normalise.item.bytes :=
    encode_eq hmem helement (Nat.zero_add _) hwithin
  have hagain : encodeRoot n.normalise = .ok n.normalise.normalise.item.bytes :=
    encode_eq hmem' helement' (Nat.zero_add _) hwithin'
  rw [hself] at hagain
  exact ⟨_, hencode, decode_item (normalise_canonical n) hwithin' hmem helement', hagain⟩

/-- Texts around empty ones, of which the first is at the start of the content and looks like an attribute
list when they are concatenated. -/
def listTree : Node :=
  .element [0x2C] [] [.text [], .text [0x5B, 0x6B], .text [0x3A, 0x5D], .element [] [⟨[], [0x5D]⟩] [.text []],
    .text []]

theorem decode_encodeRoot_listTree : ∃ out, encodeRoot listTree = .ok out ∧
    decode out = .ok (.element [0x2C] [] [.text [0x5B, 0x6B, 0x3A, 0x5D], .element [] [⟨[], [0x5D]⟩] []]) ∧
    encodeRoot (.element [0x2C] [] [.text [0x5B, 0x6B, 0x3A, 0x5D], .element [] [⟨[], [0x5D]⟩] []]) = .ok out := by
  refine decode_encodeRoot listTree rfl ?_ ?_
  · simp [listTree, Node.Within, childrenWithin, maxDepth]
  · simp [listTree, Node.InMemory, Node.normalise, normaliseChildren, Node.text?, Node.texts, childTexts,
      textNode, textMax]

end Terseml.Python
