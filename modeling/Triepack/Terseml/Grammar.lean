import Triepack.Terseml.RoundTrip

/-!
# What the decoder accepts

The published grammar wants a comma before the content of an element with attributes, and takes the
number of a `\B` run for what it is. The decoder asks for neither.
-/

namespace Terseml

open Escape Triepack

/-- A node is what an element of the published grammar stands for. -/
def Derives (s : List UInt8) (n : Node) : Prop :=
  ∃ i : Item, i.IsElement ∧ i.Ok .grammar ∧ s = i.bytes ∧ i.nodes = [n]

mutual

/-- Content behind attributes has its comma, and the numbers of `\B` runs fit in 64 bits. -/
def Item.Exact : Item → Prop
  | .text _ => True
  | .terminated _ => True
  | .counted varint _ => Leb128.byteValue varint < 2 ^ 64
  | .singleton _ content => contentExact content
  | .plain _ content => contentExact content
  | .attributed _ _ _ comma content => (comma ∨ content = []) ∧ contentExact content

def contentExact : List Item → Prop
  | [] => True
  | i :: is => i.Exact ∧ contentExact is

end

theorem contentExact_iff {is : List Item} : contentExact is ↔ ∀ i ∈ is, i.Exact := by
  induction is with
  | nil => simp [contentExact]
  | cons i is ih => simp [contentExact, ih]

theorem c_le_tolerant : Dialect.Le .c .tolerant (2 ^ 64) where
  richSingleton := by decide
  bareContent := by decide
  runAfterText := by decide
  length h _ := h

theorem grammar_le_tolerant : Dialect.Le .grammar .tolerant (2 ^ 64) where
  richSingleton := by decide
  bareContent := by decide
  runAfterText := by decide
  length {v m} h hm := by
    obtain rfl : v = m := h
    exact u64_of_lt hm

section Exact

variable {i j : Item} {s : List UInt8}

/-- What the decoder and the grammar read in one row of bytes is the same element. -/
theorem reading_unique {D D' : Dialect} (hD : Dialect.Le D .tolerant (2 ^ 64))
    (hD' : Dialect.Le D' .tolerant (2 ^ 64)) (hi : i.Ok D) (hj : j.Ok D') (hi' : i.IsElement)
    (hj' : j.IsElement) (hlen : i.bytes.length < 2 ^ 64) (heq : i.bytes = j.bytes) : i = j :=
  (Item.bytes_unique (hi.mono hD hlen) (hj.mono hD' (heq ▸ hlen)) hi' hj'
    (show i.bytes ++ [] = j.bytes ++ [] by rw [heq])).1

theorem exact_of_ok (h : i.Ok .grammar) (hlen : i.bytes.length < 2 ^ 64) : i.Exact := by
  have hcontent : ∀ is : List Item, (∀ j ∈ is, j.Ok .grammar → j.bytes.length < 2 ^ 64 → j.Exact) →
      contentOk .grammar is → (contentBytes is).length < 2 ^ 64 → contentExact is := by
    intro is ih hok hlen
    exact contentExact_iff.mpr fun j hj =>
      ih j hj ((contentOk_iff.mp hok).1 j hj) ((length_bytes_le hj).trans_lt hlen)
  induction i using Item.induction_on with
  | text | terminated => rw [Item.Exact]; trivial
  | counted varint payload =>
    rw [Item.Ok] at h
    rw [Item.Exact, show Leb128.byteValue varint = payload.length from h.2]
    simp only [Item.bytes, List.length_cons, List.length_append] at hlen
    omega
  | singleton head content ih =>
    have hle := content_bytes_length (i := .singleton head content) trivial
    rw [Item.Ok] at h
    rw [Item.Exact]
    exact hcontent _ ih h.2.1 (by rw [Item.content] at hle; omega)
  | plain tag content ih =>
    have hle := content_bytes_length (i := .plain tag content) trivial
    rw [Item.Ok] at h
    rw [Item.Exact]
    exact hcontent _ ih h.2.1 (by rw [Item.content] at hle; omega)
  | attributed tag pairs trailing comma content ih =>
    have hle := content_bytes_length (i := .attributed tag pairs trailing comma content) trivial
    rw [Item.Ok] at h
    rw [Item.Exact]
    refine ⟨?_, hcontent _ ih h.2.2.2.1 (by rw [Item.content] at hle; omega)⟩
    cases comma with
    | true => exact .inl rfl
    | false => exact .inr ((h.2.2.2.2 rfl).2.resolve_right (by decide))

theorem ok_of_exact (h : i.Ok .c) (hexact : i.Exact) : i.Ok .grammar := by
  have hcontent : ∀ is : List Item, (∀ j ∈ is, j.Ok .c → j.Exact → j.Ok .grammar) →
      contentOk .c is → contentExact is → contentOk .grammar is := by
    intro is ih hok hexact
    rw [contentOk_iff] at hok ⊢
    refine ⟨fun j hj => ih j hj (hok.1 j hj) (contentExact_iff.mp hexact j hj), hok.2.imp ?_⟩
    intro i j hij htext k hk
    exact ⟨(hij htext k hk).1, .inl rfl⟩
  induction i using Item.induction_on with
  | text | terminated => simpa only [Item.Ok] using h
  | counted varint payload =>
    rw [Item.Exact] at hexact
    rw [Item.Ok] at h ⊢
    exact ⟨h.1, by rw [← h.2]; exact (u64_of_lt hexact).symm⟩
  | singleton head content ih =>
    rw [Item.Exact] at hexact
    rw [Item.Ok] at h ⊢
    exact ⟨h.1, hcontent _ ih h.2.1 hexact, h.2.2.1, .inr rfl⟩
  | plain tag content ih =>
    rw [Item.Exact] at hexact
    rw [Item.Ok] at h ⊢
    exact ⟨h.1, hcontent _ ih h.2.1 hexact, h.2.2⟩
  | attributed tag pairs trailing comma content ih =>
    rw [Item.Exact] at hexact
    rw [Item.Ok] at h ⊢
    refine ⟨h.1, h.2.1, h.2.2.1, hcontent _ ih h.2.2.2.1 hexact.2, fun hcomma => ?_⟩
    exact ⟨(h.2.2.2.2 hcomma).1, .inl (hexact.1.resolve_left (by simp [hcomma]))⟩

/-- The grammar is unambiguous. -/
theorem Derives.unique {n m : Node} (h : Derives s n) (h' : Derives s m) (hlen : s.length < 2 ^ 64) : n = m := by
  obtain ⟨i, hi, hok, rfl, hn⟩ := h
  obtain ⟨j, hj, hok', heq, hm⟩ := h'
  obtain rfl := reading_unique grammar_le_tolerant grammar_le_tolerant hok hok' hi hj hlen heq
  rw [hn, List.singleton_inj] at hm
  exact hm

/-- What `tsml_decode` accepts is in the grammar just where the bytes, read as an element, have no
content without a comma behind attributes, and no number that does not fit in 64 bits. -/
theorem derives_iff_exact (hlen : s.length < 2 ^ 64) :
    (∀ n, tsmlDecode s = .ok n → Derives s n) ↔
      ∀ i : Item, i.IsRoot .c maxDepth → s = i.bytes → i.Exact := by
  constructor
  · rintro h i hi rfl
    obtain ⟨tag, attrs, children, hn⟩ := Item.nodes_of_isElement hi.isElement
    obtain ⟨j, hj, hok, heq, -⟩ := h _ (tsmlDecode_eq_ok.mpr ⟨i, hi, rfl, hn⟩)
    obtain rfl := reading_unique c_le_tolerant grammar_le_tolerant hi.ok hok hi.isElement hj hlen heq
    exact exact_of_ok hok hlen
  · intro h n hdecode
    obtain ⟨i, hi, rfl, hn⟩ := tsmlDecode_eq_ok.mp hdecode
    exact ⟨i, hi.isElement, ok_of_exact hi.ok (h i hi rfl), rfl, hn⟩

end Exact

theorem isRun_single {ctx : EscCtx} {c : UInt8} (h : c ≠ bs ∧ isReserved ctx c = false) : IsRun ctx [c] :=
  ⟨[c], .plain h.1 h.2 .nil⟩

/-- `{a,[k:v]x}`, with or without a comma before the text. -/
def attributedItem (comma : Bool) : Item :=
  .attributed [0x61] [([0x6B], [0x76])] false comma [.text [0x78]]

theorem attributedItem_isRoot (comma : Bool) : (attributedItem comma).IsRoot .c maxDepth := by
  refine ⟨trivial, ?_, by simp [attributedItem, Item.Within, contentWithin]⟩
  have htext : contentOk .c [.text [0x78]] := by
    rw [contentOk, contentOk, Item.Ok]
    exact ⟨⟨by simp, isRun_single (by decide)⟩, trivial, by simp [Follows]⟩
  rw [attributedItem, Item.Ok]
  refine ⟨isRun_single (by decide), ?_, by simp, htext, fun _ => ⟨?_, .inr rfl⟩⟩
  · simpa using ⟨isRun_single (by decide), isRun_single (by decide)⟩
  · simpa [contentBytes, Item.bytes] using (by decide : (0x78 : UInt8) ≠ com)

/-- What both stand for. -/
def attributedNode : Node := .element [0x61] [⟨[0x6B], [0x76]⟩] [.text [0x78]]

/-- `{a,[k:v],x}`. -/
def commaText : List UInt8 := [0x7B, 0x61, 0x2C, 0x5B, 0x6B, 0x3A, 0x76, 0x5D, 0x2C, 0x78, 0x7D]

/-- `{a,[k:v]x}`. -/
def bareText : List UInt8 := [0x7B, 0x61, 0x2C, 0x5B, 0x6B, 0x3A, 0x76, 0x5D, 0x78, 0x7D]

theorem derives_commaText : Derives commaText attributedNode := by
  have hroot := attributedItem_isRoot true
  have hexact : ∀ i : Item, i.IsRoot .c maxDepth → commaText = i.bytes → i.Exact := by
    intro i hi heq
    obtain rfl := reading_unique c_le_tolerant c_le_tolerant hroot.ok hi.ok hroot.isElement hi.isElement
      (by decide) heq
    simp [attributedItem, Item.Exact, contentExact]
  exact (derives_iff_exact (by decide)).mpr hexact attributedNode (tsmlDecode_eq_ok.mpr ⟨_, hroot, rfl, rfl⟩)

/-- The decoder takes content behind attributes without a comma, which is not in the grammar. -/
theorem not_derives_bareText : tsmlDecode bareText = .ok attributedNode ∧ ¬ Derives bareText attributedNode := by
  have hroot := attributedItem_isRoot false
  refine ⟨tsmlDecode_eq_ok.mpr ⟨_, hroot, rfl, rfl⟩, fun ⟨j, hj, hok, heq, _⟩ => ?_⟩
  obtain rfl := reading_unique c_le_tolerant grammar_le_tolerant hroot.ok hok hroot.isElement hj (by decide) heq
  have hexact := exact_of_ok hok (by decide)
  simp [attributedItem, Item.Exact] at hexact

/-! ## What the decoder returns -/

def Item.IsEmptyRun : Item → Prop
  | .terminated raw => raw = []
  | .counted _ payload => payload = []
  | _ => False

instance (i : Item) : Decidable i.IsEmptyRun := by
  cases i <;> unfold Item.IsEmptyRun <;> infer_instance

/-- The node of an item that is no empty run. -/
def Item.node (i : Item) : Node := i.nodes.headD (.text [])

/-- The items of a content that stand for nodes. -/
def fullItems (content : List Item) : List Item := content.filter fun i => ¬ i.IsEmptyRun

/-- Runs with text have elements between them. -/
def Separated (content : List Item) : Prop :=
  (fullItems content).IsChain fun i j => i.IsElement ∨ j.IsElement

mutual

/-- In every content in the item, runs with text have elements between them. -/
def Item.Apart : Item → Prop
  | .text _ => True
  | .terminated _ => True
  | .counted _ _ => True
  | .singleton _ content => Separated content ∧ contentApart content
  | .plain _ content => Separated content ∧ contentApart content
  | .attributed _ _ _ _ content => Separated content ∧ contentApart content

def contentApart : List Item → Prop
  | [] => True
  | i :: is => i.Apart ∧ contentApart is

end

theorem contentApart_iff {is : List Item} : contentApart is ↔ ∀ i ∈ is, i.Apart := by
  induction is with
  | nil => simp [contentApart]
  | cons i is ih => simp [contentApart, ih]

section Returned

variable {D : Dialect} {i : Item} {s : List UInt8}

theorem nodes_eq (h : i.Ok D) : i.nodes = if i.IsEmptyRun then [] else [i.node] := by
  cases i with
  | text raw =>
    rw [Item.Ok] at h
    obtain ⟨hne, t, ht⟩ := h
    have hcopy : copyRun raw ≠ [] := by
      rw [copyRun_of_run ht]
      exact fun h => hne (ht.eq_nil_iff.mpr h)
    simp [Item.IsEmptyRun, Item.node, Item.nodes, textNode, hcopy]
  | terminated raw =>
    rw [Item.Ok] at h
    obtain ⟨t, ht⟩ := h
    have hcopy : copyBinary raw = [] ↔ raw = [] := by rw [copyBinary_of_run ht, ht.eq_nil_iff]
    by_cases hraw : raw = []
    · rw [Item.nodes, textNode, if_pos (hcopy.mpr hraw), if_pos (show (Item.terminated raw).IsEmptyRun from hraw)]
    · simp [Item.IsEmptyRun, Item.node, Item.nodes, textNode, hcopy, hraw]
  | counted varint payload =>
    by_cases hpayload : payload = []
    · simp [Item.IsEmptyRun, Item.nodes, textNode, hpayload]
    · simp [Item.IsEmptyRun, Item.node, Item.nodes, textNode, hpayload]
  | singleton | plain | attributed => simp [Item.IsEmptyRun, Item.node, Item.nodes]

theorem contentNodes_eq_map {is : List Item} (h : ∀ i ∈ is, i.Ok D) :
    contentNodes is = (fullItems is).map Item.node := by
  induction is with
  | nil => rw [contentNodes]; rfl
  | cons i is ih =>
    obtain ⟨hi, his⟩ := List.forall_mem_cons.mp h
    rw [contentNodes, ih his, nodes_eq hi, fullItems, fullItems, List.filter_cons]
    by_cases hempty : i.IsEmptyRun <;> simp [hempty]

/-- A node that an item stands for is an element if the item is one, and a text that is not empty
otherwise. -/
theorem node_spec (h : i.Ok D) (hfull : ¬ i.IsEmptyRun) :
    (i.node.IsElement ↔ i.IsElement) ∧ i.node.text? ≠ some [] := by
  have hnodes := nodes_eq h
  rw [if_neg hfull] at hnodes
  have htext : ∀ t : List UInt8, i.nodes = textNode t → ¬ i.IsElement →
      (i.node.IsElement ↔ i.IsElement) ∧ i.node.text? ≠ some [] := by
    intro t ht helement
    rw [hnodes, textNode] at ht
    split_ifs at ht with hempty
    rw [List.singleton_inj.mp ht]
    exact ⟨by simp [Node.IsElement, Node.text?, helement], by simpa [Node.text?] using hempty⟩
  cases i with
  | text raw => exact htext (copyRun raw) (by rw [Item.nodes]) (by simp [Item.IsElement])
  | terminated raw => exact htext (copyBinary raw) (by rw [Item.nodes]) (by simp [Item.IsElement])
  | counted varint payload => exact htext payload (by rw [Item.nodes]) (by simp [Item.IsElement])
  | singleton | plain | attributed =>
    simp [Item.node, Item.nodes, Node.IsElement, Node.text?, Item.IsElement]

theorem ok_content (h : i.Ok D) : ∀ j ∈ i.content, j.Ok D := (contentOk_iff.mp (contentOk_content h)).1

/-- The children of a node are canonical where runs with text have elements between them. -/
theorem childrenCanonical_contentNodes {is : List Item} (h : ∀ i ∈ is, i.Ok D)
    (ih : ∀ i ∈ is, i.node.Canonical ↔ i.Apart) :
    childrenCanonical (contentNodes is) ↔ Separated is ∧ contentApart is := by
  have hfull : ∀ i ∈ fullItems is, i ∈ is ∧ ¬ i.IsEmptyRun := by simp [fullItems]
  have hempty : ∀ i : Item, i.IsEmptyRun → i.Apart := by
    intro i hi
    cases i <;> first | exact hi.elim | simp [Item.Apart]
  have hapart : (∀ i ∈ fullItems is, i.Apart) ↔ ∀ i ∈ is, i.Apart := by
    refine ⟨fun hall i hi => ?_, fun hall i hi => hall i (hfull i hi).1⟩
    by_cases hrun : i.IsEmptyRun
    · exact hempty i hrun
    · exact hall i (by simp [fullItems, hi, hrun])
  rw [contentNodes_eq_map h, childrenCanonical_iff, List.isChain_map, List.forall_mem_map, contentApart_iff,
    ← hapart, Separated]
  refine and_comm.trans (and_congr ?_ ?_)
  · refine List.IsChain.iff_of_mem_imp fun i j hi hj => ?_
    rw [(node_spec (h i (hfull i hi).1) (hfull i hi).2).1, (node_spec (h j (hfull j hj).1) (hfull j hj).2).1]
  · refine forall₂_congr fun i hi => ?_
    have hspec := (node_spec (h i (hfull i hi).1) (hfull i hi).2).2
    rw [ih i (hfull i hi).1]
    exact and_iff_right hspec

theorem node_canonical_iff (hD : D.richSingleton = false) (h : i.Ok D) : i.node.Canonical ↔ i.Apart := by
  induction i using Item.induction_on with
  | text | terminated | counted =>
    rw [Item.Apart, Item.node, Item.nodes, textNode]
    split_ifs <;> simp [Node.Canonical]
  | singleton head content ih =>
    rw [Item.Ok, hD] at h
    obtain rfl : content = [] := by simpa using h.2.2.2
    rw [Item.Apart, Item.node, Item.nodes, contentNodes, textNode]
    split_ifs with hempty
    · simp [Node.Canonical, childrenCanonical, Separated, fullItems, contentApart]
    · simp [Node.Canonical, childrenCanonical, Separated, fullItems, contentApart, hempty, Node.text?]
  | plain tag content ih =>
    have hcontent := ok_content h
    rw [Item.content] at hcontent
    simp only [Item.Apart, Item.node, Item.nodes, List.headD_cons, Node.Canonical]
    exact childrenCanonical_contentNodes hcontent fun j hj => ih j hj (hcontent j hj)
  | attributed tag pairs trailing comma content ih =>
    have hcontent := ok_content h
    rw [Item.content] at hcontent
    simp only [Item.Apart, Item.node, Item.nodes, List.headD_cons, Node.Canonical]
    exact childrenCanonical_contentNodes hcontent fun j hj => ih j hj (hcontent j hj)

theorem mem_contentNodes {n : Node} {is : List Item} : n ∈ contentNodes is ↔ ∃ i ∈ is, n ∈ i.nodes := by
  rw [contentNodes_eq_flatMap, List.mem_flatMap]

theorem length_of_mem_textNode {t s : List UInt8} {n : Node} (hn : n ∈ textNode s) (ht : t ∈ n.texts) :
    t.length ≤ s.length := by
  rw [textNode] at hn
  split_ifs at hn with hempty
  · simp at hn
  · rw [List.mem_singleton] at hn
    subst hn
    rw [Node.texts, List.mem_singleton] at ht
    rw [ht]

/-- A text is no longer than what it has been read from. -/
theorem texts_le_bytes (h : i.Ok D) : ∀ n ∈ i.nodes, ∀ t ∈ n.texts, t.length ≤ i.bytes.length := by
  have hcontent : ∀ is : List Item, (∀ j ∈ is, j.Ok D) →
      (∀ j ∈ is, j.Ok D → ∀ n ∈ j.nodes, ∀ t ∈ n.texts, t.length ≤ j.bytes.length) →
      ∀ t ∈ childTexts (contentNodes is), t.length ≤ (contentBytes is).length := by
    intro is hok ih t ht
    obtain ⟨n, hn, ht⟩ := mem_childTexts.mp ht
    obtain ⟨j, hj, hn⟩ := mem_contentNodes.mp hn
    exact (ih j hj (hok j hj) n hn t ht).trans (length_bytes_le hj)
  induction i using Item.induction_on with
  | text raw =>
    intro n hn t ht
    rw [Item.Ok] at h
    obtain ⟨-, s, hs⟩ := h
    rw [Item.nodes, copyRun_of_run hs] at hn
    rw [Item.bytes]
    exact (length_of_mem_textNode hn ht).trans hs.length_le
  | terminated raw =>
    intro n hn t ht
    rw [Item.Ok] at h
    obtain ⟨s, hs⟩ := h
    rw [Item.nodes, copyBinary_of_run hs] at hn
    have hle := (length_of_mem_textNode hn ht).trans hs.length_le
    simp only [Item.bytes, List.length_cons, List.length_append]
    omega
  | counted varint payload =>
    intro n hn t ht
    rw [Item.nodes] at hn
    have hle := length_of_mem_textNode hn ht
    simp only [Item.bytes, List.length_cons, List.length_append]
    omega
  | singleton head content ih =>
    have hle := content_bytes_length (i := .singleton head content) trivial
    have hcontent := hcontent content (ok_content h) ih
    rw [Item.Ok] at h
    obtain ⟨⟨s, hs⟩, -⟩ := h
    simp only [Item.nodes, List.mem_singleton, forall_eq, Node.texts, copyRun_of_run hs]
    intro t ht
    obtain ⟨n, hn, ht⟩ := mem_childTexts.mp ht
    obtain hn | hn := List.mem_append.mp hn
    · have hle := (length_of_mem_textNode hn ht).trans hs.length_le
      simp only [Item.bytes, List.length_cons, List.length_append]
      omega
    · exact (hcontent t (mem_childTexts.mpr ⟨n, hn, ht⟩)).trans (by rw [Item.content] at hle; omega)
  | plain tag content ih =>
    have hle := content_bytes_length (i := .plain tag content) trivial
    have hcontent := hcontent content (ok_content h) ih
    simp only [Item.nodes, List.mem_singleton, forall_eq, Node.texts]
    exact fun t ht => (hcontent t ht).trans (by rw [Item.content] at hle; omega)
  | attributed tag pairs trailing comma content ih =>
    have hle := content_bytes_length (i := .attributed tag pairs trailing comma content) trivial
    have hcontent := hcontent content (ok_content h) ih
    simp only [Item.nodes, List.mem_singleton, forall_eq, Node.texts]
    exact fun t ht => (hcontent t ht).trans (by rw [Item.content] at hle; omega)

theorem textNode_within {s : List UInt8} {n : Node} (hn : n ∈ textNode s) (depth : Nat) : n.Within depth := by
  rw [textNode] at hn
  split_ifs at hn
  · simp at hn
  · rw [List.mem_singleton] at hn
    rw [hn, Node.Within]
    trivial

theorem nodes_within {depth : Nat} (hwithin : i.Within maxDepth depth) : ∀ n ∈ i.nodes, n.Within depth := by
  have hcontent : ∀ (is : List Item) (depth : Nat), contentWithin maxDepth is depth →
      (∀ j ∈ is, ∀ {depth}, j.Within maxDepth depth → ∀ n ∈ j.nodes, n.Within depth) →
      ∀ n ∈ contentNodes is, n.Within depth := by
    intro is depth hwithin ih n hn
    obtain ⟨j, hj, hn⟩ := mem_contentNodes.mp hn
    exact ih j hj (contentWithin_iff.mp hwithin j hj) n hn
  induction i using Item.induction_on generalizing depth with
  | text | terminated | counted =>
    rw [Item.nodes]
    exact fun n hn => textNode_within hn depth
  | singleton head content ih =>
    rw [Item.Within] at hwithin
    simp only [Item.nodes, List.mem_singleton, forall_eq, Node.Within]
    refine ⟨hwithin.1, childrenWithin_iff.mpr fun n hn => ?_⟩
    obtain hn | hn := List.mem_append.mp hn
    · exact textNode_within hn (depth + 1)
    · exact hcontent content (depth + 1) hwithin.2 ih n hn
  | plain tag content ih =>
    rw [Item.Within] at hwithin
    simp only [Item.nodes, List.mem_singleton, forall_eq, Node.Within]
    exact ⟨hwithin.1, childrenWithin_iff.mpr (hcontent content (depth + 1) hwithin.2 ih)⟩
  | attributed tag pairs trailing comma content ih =>
    rw [Item.Within] at hwithin
    simp only [Item.nodes, List.mem_singleton, forall_eq, Node.Within]
    exact ⟨hwithin.1, childrenWithin_iff.mpr (hcontent content (depth + 1) hwithin.2 ih)⟩

/-- The node that is returned is canonical, and the encoder and the decoder bring it back. -/
def ReturnsCanonical (s : List UInt8) : Prop :=
  (∀ n, tsmlDecode s = .ok n → n.Canonical ∧ Reencodes n) ∧
    ∀ ns, tsmlDecodeDocument s = .ok ns → ∀ n ∈ ns, n.Canonical ∧ Reencodes n

theorem node_of_isRoot (h : i.IsRoot .c maxDepth) : i.nodes = [i.node] ∧ i.node.IsElement := by
  have hfull : ¬ i.IsEmptyRun := by
    have helement := h.isElement
    cases i <;> first | exact helement.elim | exact id
  refine ⟨?_, (node_spec h.ok hfull).1.mpr h.isElement⟩
  have hnodes := nodes_eq h.ok
  rwa [if_neg hfull] at hnodes

/-- What the decoder returns is canonical just where the bytes, read as a document, have an element
between any two runs with text in one content. -/
theorem returnsCanonical_iff_apart (hlen : s.length < textMax) : ReturnsCanonical s ↔
    ∀ is : List Item, (∀ i ∈ is, i.IsRoot .c maxDepth) → s = contentBytes is → ∀ i ∈ is, i.Apart := by
  constructor
  · rintro ⟨-, h⟩ is his rfl i hi
    have hne : contentBytes is ≠ [] := fun hnil => by
      have hle := length_bytes_le hi
      rw [hnil] at hle
      exact Item.bytes_ne_nil (his i hi).ok (List.eq_nil_of_length_eq_zero (by simpa using hle))
    have hn : i.node ∈ contentNodes is :=
      mem_contentNodes.mpr ⟨i, hi, by rw [(node_of_isRoot (his i hi)).1]; exact List.mem_singleton_self _⟩
    have hcanonical := (h _ (tsmlDecodeDocument_eq_ok.mpr ⟨hne, is, his, rfl, rfl⟩) _ hn).1
    exact (node_canonical_iff rfl (his i hi).ok).mp hcanonical
  · intro h
    have hnode : ∀ is : List Item, (∀ i ∈ is, i.IsRoot .c maxDepth) → s = contentBytes is → ∀ i ∈ is,
        i.node.Canonical ∧ Reencodes i.node := by
      rintro is his rfl i hi
      obtain ⟨hnodes, helement⟩ := node_of_isRoot (his i hi)
      have hmem : i.node ∈ i.nodes := by rw [hnodes]; exact List.mem_singleton_self _
      have hcanonical := (node_canonical_iff rfl (his i hi).ok).mpr (h is his rfl i hi)
      refine ⟨hcanonical, Node.Encodable.reencodes ⟨hcanonical, nodes_within (his i hi).within _ hmem, ?_⟩ helement⟩
      intro t ht
      have hle := texts_le_bytes (his i hi).ok _ hmem t ht
      have hle' := length_bytes_le hi
      omega
    constructor
    · intro n hdecode
      obtain ⟨i, hi, rfl, hn⟩ := tsmlDecode_eq_ok.mp hdecode
      rw [(node_of_isRoot hi).1, List.singleton_inj] at hn
      rw [← hn]
      exact hnode [i] (by simpa using hi) (by simp [contentBytes]) i (by simp)
    · intro ns hdecode n hn
      obtain ⟨-, is, his, hs, rfl⟩ := tsmlDecodeDocument_eq_ok.mp hdecode
      obtain ⟨i, hi, hn⟩ := mem_contentNodes.mp hn
      rw [(node_of_isRoot (his i hi)).1, List.mem_singleton] at hn
      rw [hn]
      exact hnode is his hs i hi

end Returned

/-- `{a,{b,}\bfoo<NUL>bar{c,}}`. -/
def adjacentText : List UInt8 := [0x7B, 0x61, 0x2C, 0x7B, 0x62, 0x2C, 0x7D, 0x5C, 0x62, 0x66, 0x6F, 0x6F, 0x00,
  0x62, 0x61, 0x72, 0x7B, 0x63, 0x2C, 0x7D, 0x7D]

/-- `{a,\bfoo<NUL>}`. -/
def terminatedText : List UInt8 := [0x7B, 0x61, 0x2C, 0x5C, 0x62, 0x66, 0x6F, 0x6F, 0x00, 0x7D]

def terminatedItem : Item := .plain [0x61] [.terminated [0x66, 0x6F, 0x6F]]

theorem terminatedItem_isRoot : terminatedItem.IsRoot .c maxDepth := by
  refine ⟨trivial, ?_, by simp [terminatedItem, Item.Within, contentWithin]⟩
  rw [terminatedItem, Item.Ok, contentOk, contentOk, Item.Ok]
  refine ⟨isRun_single (by decide),
    ⟨⟨[0x66, 0x6F, 0x6F], .of_plain (by decide +kernel)⟩, trivial, by simp [Follows]⟩, ?_⟩
  simpa [contentBytes, Item.bytes] using (by decide : bs ≠ lsq)

theorem returnsCanonical_terminatedText : ReturnsCanonical terminatedText := by
  refine (returnsCanonical_iff_apart (by decide)).mpr fun is his hs => ?_
  obtain rfl : [terminatedItem] = is :=
    roots_unique (fun i hi => (List.mem_singleton.mp hi) ▸ terminatedItem_isRoot) his hs
  simp [terminatedItem, Item.Apart, Separated, fullItems, Item.IsEmptyRun, contentApart]

/-- A run and the text behind it are returned as two texts. -/
theorem not_returnsCanonical_adjacentText : ¬ ReturnsCanonical adjacentText := by
  rintro ⟨h, -⟩
  have hdecode : tsmlDecode adjacentText = .ok (.element [0x61] [] [.element [0x62] [] [],
    .text [0x66, 0x6F, 0x6F], .text [0x62, 0x61, 0x72], .element [0x63] [] []]) := by rfl
  have hcanonical := (h _ hdecode).1
  simp [Node.Canonical, childrenCanonical, Node.text?, Node.IsElement] at hcanonical

end Terseml
