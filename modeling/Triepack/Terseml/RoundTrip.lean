import Triepack.Terseml.Decode
import Triepack.Terseml.Encode

/-!
# The decoder undoes the encoder

The encoder writes every tree as an item. The items of canonical trees are well formed and stand for
the trees they have been made of.
-/

namespace Terseml

open Escape Triepack

/-! ## Trees -/

/-- `PTRDIFF_MAX`: a text is an array in memory, with its node beside it. -/
def textMax : Nat := 2 ^ 63 - 1

def Node.IsElement (n : Node) : Prop := n.text? = none

mutual

/-- The texts in a tree. -/
def Node.texts : Node → List (List UInt8)
  | .text t => [t]
  | .element _ _ children => childTexts children

def childTexts : List Node → List (List UInt8)
  | [] => []
  | c :: cs => c.texts ++ childTexts cs

end

/-- Every text of the tree is one that memory can hold. -/
def Node.InMemory (n : Node) : Prop := ∀ t ∈ n.texts, t.length < textMax

mutual

/-- No element is nested too deeply, if the node is at a depth. -/
def Node.Within : Node → (depth : Nat) → Prop
  | .text _, _ => True
  | .element _ _ children, depth => depth ≤ maxDepth ∧ childrenWithin children (depth + 1)

def childrenWithin : List Node → (depth : Nat) → Prop
  | [], _ => True
  | c :: cs, depth => c.Within depth ∧ childrenWithin cs depth

end

mutual

/-- No child is an empty text, and no two texts are next to each other. -/
def Node.Canonical : Node → Prop
  | .text _ => True
  | .element _ _ children => childrenCanonical children

def childrenCanonical : List Node → Prop
  | [] => True
  | c :: cs => c.text? ≠ some [] ∧ (c.text?.isSome → ∀ d ∈ cs.head?, d.IsElement) ∧ c.Canonical ∧
    childrenCanonical cs

end

theorem childrenCanonical_iff {cs : List Node} : childrenCanonical cs ↔
    (∀ c ∈ cs, c.text? ≠ some [] ∧ c.Canonical) ∧ cs.IsChain fun c d => c.IsElement ∨ d.IsElement := by
  induction cs with
  | nil => simp [childrenCanonical]
  | cons c cs ih =>
    rw [childrenCanonical, ih, List.forall_mem_cons]
    have hchain : (c.text?.isSome → ∀ d ∈ cs.head?, d.IsElement) ↔
        ∀ d ∈ cs.head?, c.IsElement ∨ d.IsElement := by
      cases htext : c.text? <;> simp [Node.IsElement, htext]
    rw [hchain, List.isChain_cons]
    tauto

theorem mem_childTexts {t : List UInt8} {cs : List Node} : t ∈ childTexts cs ↔ ∃ c ∈ cs, t ∈ c.texts := by
  induction cs with
  | nil => simp [childTexts]
  | cons c cs ih => simp [childTexts, ih]

theorem childrenWithin_iff {cs : List Node} {depth : Nat} :
    childrenWithin cs depth ↔ ∀ c ∈ cs, c.Within depth := by
  induction cs with
  | nil => simp [childrenWithin]
  | cons c cs ih => simp [childrenWithin, ih]

/-- A tree in canonical form that the encoder can write. -/
structure Node.Encodable (n : Node) : Prop where
  canonical : n.Canonical
  within : n.Within 0
  inMemory : n.InMemory

/-! ## Trees as items -/

/-- The run that a text is written as. -/
def textItem (t : List UInt8) (atStart : Bool) : Item :=
  match chooseForm t atStart with
  | .inline => .text (writeEscaped .text t atStart)
  | .terminated => .terminated (escapeBinary t)
  | .counted => .counted (varintPut t.length) t

mutual

/-- The element that a node is written as. -/
def Node.item : Node → Item
  | .text t => .plain tagText (if t = [] then [] else [textItem t true])
  | .element tag attrs children =>
    if attrs = [] then .plain (writeEscaped .tag tag false) (childItems children true)
    else .attributed (writeEscaped .tag tag false)
      (attrs.map fun a => (writeEscaped .key a.key false, writeEscaped .val a.val false)) false true
      (childItems children false)

def childItems : List Node → (atStart : Bool) → List Item
  | [], _ => []
  | c :: cs, atStart =>
    (match c.text? with
      | some t => textItem t atStart
      | none => c.item) :: childItems cs false

end

section Texts

variable {D : Dialect} {t : List UInt8} {atStart : Bool}

theorem textItem_bytes (t : List UInt8) (atStart : Bool) : (textItem t atStart).bytes = writeText t atStart := by
  rw [textItem, writeText]
  cases chooseForm t atStart <;> simp [Item.bytes, writeBinary]

theorem textItem_nodes (t : List UInt8) (atStart : Bool) : (textItem t atStart).nodes = textNode t := by
  rw [textItem]
  cases chooseForm t atStart with
  | inline => rw [Item.nodes, copyRun_of_run (writeEscaped_run t atStart)]
  | terminated => rw [Item.nodes, copyBinary_of_run (escapeBinary_run t)]
  | counted => rw [Item.nodes]

theorem not_isElement_textItem (t : List UInt8) (atStart : Bool) : ¬ (textItem t atStart).IsElement := by
  rw [textItem]
  cases chooseForm t atStart <;> simp [Item.IsElement]

theorem textItem_within {limit depth : Nat} (t : List UInt8) (atStart : Bool) :
    (textItem t atStart).Within limit depth := by
  rw [textItem]
  cases chooseForm t atStart <;> simp [Item.Within]

theorem isVarint_varintPut {n : Nat} (h : n < 2 ^ 64) : IsVarint (varintPut n) := by
  rw [varintPut_eq]
  have hpow : 2 ^ 64 ≤ 128 ^ 10 := by norm_num
  exact ⟨Leb128.isCode_code n, Leb128.length_code_le (by decide) (h.trans_le hpow)⟩

/-- A run is well formed where there is text. -/
theorem textItem_ok (hne : t ≠ []) (hlen : t.length < 2 ^ 64) (hD : D.length t.length = t.length) :
    (textItem t atStart).Ok D := by
  rw [textItem]
  cases chooseForm t atStart with
  | inline =>
    have hrun : Scheme.Run EscCtx.text.scheme (writeEscaped .text t atStart) t := writeEscaped_run t atStart
    rw [Item.Ok]
    exact ⟨fun h => hne (hrun.eq_nil_iff.mp h), t, hrun⟩
  | terminated =>
    rw [Item.Ok]
    exact ⟨t, escapeBinary_run t⟩
  | counted =>
    rw [Item.Ok, varintPut_eq, Leb128.byteValue_code]
    exact ⟨varintPut_eq t.length ▸ isVarint_varintPut hlen, hD⟩

/-- A run at the start of a content does not begin like an attribute list. -/
theorem head?_textItem (t : List UInt8) : (textItem t true).bytes.head? ≠ some lsq := by
  have hbs : bs ≠ lsq := by decide
  rw [textItem]
  cases chooseForm t true with
  | inline =>
    rw [Item.bytes]
    cases t with
    | nil => simp [writeEscaped]
    | cons c t =>
      rw [writeEscaped]
      split_ifs with hesc
      · simpa using hbs
      · simp only [Bool.true_and, Bool.or_eq_true, beq_iff_eq, not_or] at hesc
        simpa using hesc.2
  | terminated | counted => simpa [Item.bytes] using hbs

end Texts

/-! ## The encoder writes items -/

section Writes

variable {n : Node} {cs : List Node} {depth : Nat}

theorem text?_eq_some {t : List UInt8} (h : n.text? = some t) : n = .text t := by
  cases n with
  | text => exact congrArg Node.text (Option.some.inj h)
  | element => simp [Node.text?] at h

theorem item_of_isElement (h : n.IsElement) : n.item.IsElement := by
  cases n with
  | text => simp [Node.IsElement, Node.text?] at h
  | element tag attrs children =>
    rw [Node.item]
    split_ifs <;> trivial

theorem encodeAttrs_cons (attrs : List Attr) (h : attrs ≠ []) : encodeAttrs attrs =
    com :: lsq :: (pairsText (attrs.map fun a => (writeEscaped .key a.key false, writeEscaped .val a.val false)) ++
      [rsq]) := by
  rw [encodeAttrs, if_neg h, pairsText, List.map_map]
  rfl

/-- The encoder writes an element as its item. -/
def WritesItem (n : Node) : Prop :=
  n.IsElement → ∀ depth, n.Within depth → encodeNode n depth = some n.item.bytes

theorem encodeChildren_eq (ih : ∀ c ∈ cs, WritesItem c) (atStart : Bool)
    (hwithin : childrenWithin cs (depth + 1)) :
    encodeChildren cs atStart depth = some (contentBytes (childItems cs atStart)) := by
  induction cs generalizing atStart with
  | nil => rw [encodeChildren, childItems, contentBytes]
  | cons c cs ihcs =>
    rw [childrenWithin] at hwithin
    rw [encodeChildren, childItems, contentBytes_cons,
      ihcs (fun d hd => ih d (List.mem_cons_of_mem c hd)) false hwithin.2]
    cases htext : c.text? with
    | some t => simp [textItem_bytes]
    | none => simp [ih c List.mem_cons_self htext (depth + 1) hwithin.1]

theorem encodeNode_eq (n : Node) : WritesItem n := by
  induction n using Node.induction_on with
  | text t => exact fun h => by simp [Node.IsElement, Node.text?] at h
  | element tag attrs children ih =>
    intro _ depth hwithin
    rw [Node.Within] at hwithin
    rw [encodeNode, if_neg (by omega), encodeChildren_eq ih _ hwithin.2, Node.item]
    by_cases hattrs : attrs = []
    · simp [hattrs, encodeAttrs, Item.bytes]
    · simp [hattrs, encodeAttrs_cons attrs hattrs, Item.bytes]

/-- The encoder refuses an element that is nested too deeply. -/
theorem within_of_encodeNode {out : List UInt8} (h : encodeNode n depth = some out) : n.Within depth := by
  induction n using Node.induction_on generalizing depth out with
  | text t => rw [Node.Within]; trivial
  | element tag attrs children ih =>
    rw [encodeNode] at h
    split_ifs at h with hdepth
    rw [Node.Within]
    refine ⟨by omega, ?_⟩
    obtain ⟨content, hcontent, -⟩ := Option.bind_eq_some_iff.mp h
    clear h
    generalize decide (attrs = []) = atStart at hcontent
    induction children generalizing atStart content with
    | nil => rw [childrenWithin]; trivial
    | cons c cs ihcs =>
      rw [encodeChildren] at hcontent
      rw [childrenWithin]
      cases htext : c.text? with
      | some t =>
        rw [htext] at hcontent
        obtain ⟨_, _, hrest⟩ := Option.bind_eq_some_iff.mp hcontent
        obtain ⟨rest, hrest, -⟩ := Option.bind_eq_some_iff.mp hrest
        obtain rfl := text?_eq_some htext
        rw [Node.Within]
        exact ⟨trivial, ihcs (fun d hd => ih d (List.mem_cons_of_mem _ hd)) rest false hrest⟩
      | none =>
        rw [htext] at hcontent
        obtain ⟨child, hchild, hrest⟩ := Option.bind_eq_some_iff.mp hcontent
        obtain ⟨rest, hrest, -⟩ := Option.bind_eq_some_iff.mp hrest
        exact ⟨ih c List.mem_cons_self hchild, ihcs (fun d hd => ih d (List.mem_cons_of_mem c hd)) rest false hrest⟩

theorem within_of_tsmlEncode {out : List UInt8} (h : tsmlEncode n = .ok out) : n.Within 0 := by
  rw [tsmlEncode] at h
  cases hencode : encodeNode n 0 with
  | none => simp [hencode] at h
  | some out => exact within_of_encodeNode hencode

/-- `tsml_encode` writes a tree as its item. -/
theorem tsmlEncode_eq (hwithin : n.Within 0) : tsmlEncode n = .ok n.item.bytes := by
  cases n with
  | text t =>
    have hempty : writeText [] true = [] := by decide
    rw [tsmlEncode, encodeNode, if_neg (by decide), Node.item]
    by_cases ht : t = []
    · simp [ht, hempty, Item.bytes, contentBytes]
    · simp [ht, Item.bytes, contentBytes, textItem_bytes]
  | element tag attrs children => rw [tsmlEncode, encodeNode_eq (.element tag attrs children) rfl 0 hwithin]

end Writes

/-! ## The items of canonical trees -/

section Canonical

variable {D : Dialect} {n : Node} {cs : List Node} {depth : Nat}

/-- A dialect in which a text is as long as its number says. -/
def Dialect.Counts (D : Dialect) : Prop := ∀ v < textMax, D.length v = v

theorem counts_c : Dialect.c.Counts := fun v hv => u64_of_lt (by simp only [textMax] at hv; omega)

theorem childItems_ok (hD : D.Counts) (ih : ∀ c ∈ cs, c.Canonical → c.InMemory → c.IsElement → c.item.Ok D)
    (hcanonical : childrenCanonical cs) (hmem : ∀ t ∈ childTexts cs, t.length < textMax) (atStart : Bool) :
    contentOk D (childItems cs atStart) := by
  induction cs generalizing atStart with
  | nil => rw [childItems, contentOk]; trivial
  | cons c cs ihcs =>
    rw [childrenCanonical] at hcanonical
    obtain ⟨hne, hnext, hc, hcs⟩ := hcanonical
    rw [childTexts] at hmem
    have hrest := ihcs (fun d hd => ih d (List.mem_cons_of_mem c hd)) hcs
      (fun t ht => hmem t (List.mem_append_right _ ht)) false
    rw [childItems, contentOk]
    cases htext : c.text? with
    | some t =>
      obtain rfl := text?_eq_some htext
      have ht : t ≠ [] := fun h => hne (by rw [htext, h])
      have hlen : t.length < textMax := hmem t (by simp [Node.texts])
      refine ⟨textItem_ok ht (by simp only [textMax] at hlen; omega) (hD _ hlen), hrest, ?_⟩
      -- Behind a text there is an element, or nothing.
      intro _ j hj
      cases cs with
      | nil => simp [childItems] at hj
      | cons d ds =>
        have hd := hnext (by rw [htext]; rfl) d rfl
        have hj' : d.item = j := by
          rw [childItems, show d.text? = none from hd] at hj
          exact Option.some.inj hj
        have helement := item_of_isElement hd
        rw [hj'] at helement
        refine ⟨fun htext => ?_, .inr helement⟩
        cases j <;> first | exact helement.elim | exact htext.elim
    | none =>
      refine ⟨ih c List.mem_cons_self hc (fun t ht => hmem t (List.mem_append_left _ ht)) htext, hrest, ?_⟩
      have helement := item_of_isElement htext
      intro htext'
      cases hitem : c.item <;> simp_all [Item.IsElement, Item.IsText]

theorem head?_childItems (hcanonical : childrenCanonical cs) (hD : D.Counts)
    (hmem : ∀ t ∈ childTexts cs, t.length < textMax) :
    (contentBytes (childItems cs true)).head? ≠ some lsq := by
  cases cs with
  | nil => simp [childItems, contentBytes]
  | cons c cs =>
    rw [childrenCanonical] at hcanonical
    rw [childItems, contentBytes_cons]
    cases htext : c.text? with
    | some t =>
      obtain rfl := text?_eq_some htext
      have ht : t ≠ [] := fun h => hcanonical.1 (by rw [htext, h])
      have hlen : t.length < textMax := hmem t (by simp [childTexts, Node.texts])
      have hok : (textItem t true).Ok D := textItem_ok ht (by simp only [textMax] at hlen; omega) (hD _ hlen)
      have hhead := head?_textItem t
      obtain ⟨a, u, hbytes⟩ := List.exists_cons_of_ne_nil (Item.bytes_ne_nil hok)
      rw [hbytes] at hhead
      simpa [hbytes] using hhead
    | none =>
      obtain ⟨u, hbytes⟩ := Item.head?_bytes_of_isElement (item_of_isElement htext)
      simpa [hbytes] using (by decide : lbr ≠ lsq)

theorem isRun_writeEscaped (ctx : EscCtx) (s : List UInt8) (leadBracket : Bool) :
    IsRun ctx (writeEscaped ctx s leadBracket) := ⟨s, writeEscaped_run s leadBracket⟩

theorem isRun_tagText : IsRun .tag tagText := isRun_writeEscaped .tag tagText false

theorem item_ok (hD : D.Counts) (hcanonical : n.Canonical) (hmem : n.InMemory) : n.item.Ok D := by
  induction n using Node.induction_on with
  | text t =>
    rw [Node.item, Item.Ok]
    refine ⟨isRun_tagText, ?_, ?_⟩
    · split_ifs with ht
      · rw [contentOk]
        trivial
      · have hlen : t.length < textMax := hmem t (by simp [Node.texts])
        rw [contentOk, contentOk]
        exact ⟨textItem_ok ht (by simp only [textMax] at hlen; omega) (hD _ hlen), trivial, by simp [Follows]⟩
    · split_ifs
      · simp [contentBytes]
      · simpa [contentBytes] using head?_textItem t
  | element tag attrs children ih =>
    rw [Node.Canonical] at hcanonical
    have hok := childItems_ok hD (fun c hc h h' _ => ih c hc h h') hcanonical hmem
    rw [Node.item]
    split_ifs
    · rw [Item.Ok]
      exact ⟨isRun_writeEscaped .tag tag false, hok true, head?_childItems hcanonical hD hmem⟩
    · rw [Item.Ok]
      refine ⟨isRun_writeEscaped .tag tag false, ?_, by simp, hok false, by simp⟩
      intro p hp
      obtain ⟨a, -, rfl⟩ := List.mem_map.mp hp
      exact ⟨isRun_writeEscaped .key a.key false, isRun_writeEscaped .val a.val false⟩

theorem childItems_nodes (ih : ∀ c ∈ cs, c.Canonical → c.IsElement → c.item.nodes = [c])
    (hcanonical : childrenCanonical cs) (atStart : Bool) : contentNodes (childItems cs atStart) = cs := by
  induction cs generalizing atStart with
  | nil => rw [childItems, contentNodes]
  | cons c cs ihcs =>
    rw [childrenCanonical] at hcanonical
    obtain ⟨hne, -, hc, hcs⟩ := hcanonical
    rw [childItems, contentNodes, ihcs (fun d hd => ih d (List.mem_cons_of_mem c hd)) hcs false]
    cases htext : c.text? with
    | some t =>
      obtain rfl := text?_eq_some htext
      have ht : t ≠ [] := fun h => hne (by rw [htext, h])
      simp [textItem_nodes, textNode, ht]
    | none => simp [ih c List.mem_cons_self hc htext]

/-- The item of a canonical element stands for it. -/
theorem item_nodes (hcanonical : n.Canonical) (helement : n.IsElement) : n.item.nodes = [n] := by
  induction n using Node.induction_on with
  | text t => simp [Node.IsElement, Node.text?] at helement
  | element tag attrs children ih =>
    rw [Node.Canonical] at hcanonical
    have hnodes := childItems_nodes (fun c hc => ih c hc) hcanonical
    have htag : copyRun (writeEscaped .tag tag false) = tag := copyRun_of_run (writeEscaped_run tag false)
    rw [Node.item]
    by_cases hattrs : attrs = []
    · simp [hattrs, Item.nodes, htag, hnodes]
    · have hcopy : ∀ a : Attr,
          (⟨copyRun (writeEscaped .key a.key false), copyRun (writeEscaped .val a.val false)⟩ : Attr) = a :=
        fun a => by
          rw [copyRun_of_run (writeEscaped_run a.key false), copyRun_of_run (writeEscaped_run a.val false)]
      simp [hattrs, Item.nodes, htag, hnodes, Function.comp_def, hcopy]

theorem childItems_within (ih : ∀ c ∈ cs, c.IsElement → c.Within depth → c.item.Within maxDepth depth)
    (hwithin : childrenWithin cs depth) (atStart : Bool) :
    contentWithin maxDepth (childItems cs atStart) depth := by
  induction cs generalizing atStart with
  | nil => rw [childItems, contentWithin]; trivial
  | cons c cs ihcs =>
    rw [childrenWithin] at hwithin
    rw [childItems, contentWithin]
    refine ⟨?_, ihcs (fun d hd => ih d (List.mem_cons_of_mem c hd)) hwithin.2 false⟩
    cases htext : c.text? with
    | some t => exact textItem_within t atStart
    | none => exact ih c List.mem_cons_self htext hwithin.1

theorem item_within (hwithin : n.Within depth) (hdepth : depth ≤ maxDepth) :
    n.item.Within maxDepth depth := by
  induction n using Node.induction_on generalizing depth with
  | text t =>
    rw [Node.item, Item.Within]
    refine ⟨hdepth, ?_⟩
    split_ifs
    · rw [contentWithin]
      trivial
    · rw [contentWithin, contentWithin]
      exact ⟨textItem_within t true, trivial⟩
  | element tag attrs children ih =>
    rw [Node.Within] at hwithin
    have hchildren := childItems_within
      (fun c hc helement h => ih c hc h (by cases c <;> simp_all [Node.IsElement, Node.text?, Node.Within])) hwithin.2
    rw [Node.item]
    split_ifs <;> rw [Item.Within] <;> exact ⟨hdepth, hchildren _⟩

theorem item_isElement (n : Node) : n.item.IsElement := by
  cases n with
  | text => rw [Node.item]; trivial
  | element => exact item_of_isElement rfl

/-- What the encoder writes for a canonical tree can stand at the root of a document. -/
theorem Node.Encodable.isRoot (h : n.Encodable) : n.item.IsRoot .c maxDepth :=
  ⟨item_isElement n, item_ok counts_c h.canonical h.inMemory, item_within h.within (Nat.zero_le _)⟩

end Canonical

/-! ## Round trips -/

/-- What the encoder writes for a tree is decoded as the tree. -/
def Reencodes (n : Node) : Prop := ∃ out, tsmlEncode n = .ok out ∧ tsmlDecode out = .ok n

theorem Node.Encodable.reencodes {n : Node} (h : n.Encodable) (helement : n.IsElement) : Reencodes n :=
  ⟨_, tsmlEncode_eq h.within, tsmlDecode_eq_ok.mpr ⟨_, h.isRoot, rfl, item_nodes h.canonical helement⟩⟩

/-- `tsml_decode` brings back what `tsml_encode` has been given, so no two trees are written alike. -/
theorem decode_encode :
    (∀ n : Node, n.IsElement → n.Encodable → ∃ out, tsmlEncode n = .ok out ∧ tsmlDecode out = .ok n) ∧
      ∀ n m : Node, n.IsElement → n.Encodable → m.IsElement → m.Encodable →
        tsmlEncode n = tsmlEncode m → n = m := by
  refine ⟨fun n helement h => h.reencodes helement, fun n m hn hn' hm hm' heq => ?_⟩
  obtain ⟨out, hencode, hdecode⟩ := hn'.reencodes hn
  obtain ⟨out', hencode', hdecode'⟩ := hm'.reencodes hm
  rw [hencode, hencode', Except.ok.injEq] at heq
  rw [heq, hdecode'] at hdecode
  exact (Except.ok.inj hdecode).symm

/-- An element with an attribute, a text and a child. -/
def noteTree : Node := .element [0x70] [⟨[0x6B], [0x2C]⟩] [.text [0x5B, 0x7B], .element [] [] []]

/-- `{p,[k:\,],[\{{,}}`. -/
def noteText : List UInt8 :=
  [0x7B, 0x70, 0x2C, 0x5B, 0x6B, 0x3A, 0x5C, 0x2C, 0x5D, 0x2C, 0x5B, 0x5C, 0x7B, 0x7B, 0x2C, 0x7D, 0x7D]

theorem noteTree_encodable : noteTree.Encodable where
  canonical := by simp [noteTree, Node.Canonical, childrenCanonical, Node.text?, Node.IsElement]
  within := by simp [noteTree, Node.Within, childrenWithin, maxDepth]
  inMemory := by simp [noteTree, Node.InMemory, Node.texts, childTexts, textMax]

theorem decode_encode_noteTree : Reencodes noteTree := decode_encode.1 noteTree rfl noteTree_encodable

/-- No prefix of what the encoder writes is a document, and what it writes for several trees is the
document of these trees. -/
theorem encode_selfDelimiting :
    (∀ (n : Node) (out : List UInt8), n.Canonical → n.InMemory → tsmlEncode n = .ok out →
      ∀ p, p <+: out → p ≠ out → ∀ m, tsmlDecode p ≠ .ok m) ∧
    ∀ (ns : List Node) (outs : List (List UInt8)), ns ≠ [] →
      (∀ n ∈ ns, n.IsElement ∧ n.Canonical ∧ n.InMemory) → ns.map tsmlEncode = outs.map .ok →
      tsmlDecodeDocument outs.flatten = .ok ns := by
  constructor
  · intro n out hcanonical hmem hout p hp hne m hdecode
    have h : n.Encodable := ⟨hcanonical, within_of_tsmlEncode hout, hmem⟩
    rw [tsmlEncode_eq h.within, Except.ok.injEq] at hout
    obtain ⟨i, hi, rfl, -⟩ := tsmlDecode_eq_ok.mp hdecode
    obtain ⟨q, hq⟩ := hp
    have heq : i.bytes ++ q = n.item.bytes ++ [] := by rw [hq, ← hout, List.append_nil]
    obtain ⟨-, rfl⟩ := Item.bytes_unique hi.ok h.isRoot.ok hi.isElement h.isRoot.isElement heq
    exact hne (by rw [← hq, List.append_nil])
  · intro ns outs hne hns houts
    have hroots : ∀ n ∈ ns, n.Encodable := by
      intro n hn
      obtain ⟨-, hcanonical, hmem⟩ := hns n hn
      have hmem' : tsmlEncode n ∈ outs.map Except.ok := houts ▸ List.mem_map_of_mem hn
      obtain ⟨out, -, hout⟩ := List.mem_map.mp hmem'
      exact ⟨hcanonical, within_of_tsmlEncode hout.symm, hmem⟩
    have houts' : outs.flatten = contentBytes (ns.map Node.item) := by
      have hmap : outs.map (Except.ok (ε := TsmlErr)) = (ns.map fun n => n.item.bytes).map Except.ok := by
        rw [← houts, List.map_map]
        exact List.map_congr_left fun n hn => tsmlEncode_eq (hroots n hn).within
      rw [List.map_injective_iff.mpr (fun _ _ => Except.ok.inj) hmap, contentBytes_eq_flatMap, List.flatMap_map]
      rfl
    have hnodes : contentNodes (ns.map Node.item) = ns := by
      rw [contentNodes_eq_flatMap, List.flatMap_map,
        List.flatMap_congr fun n hn => item_nodes (hroots n hn).canonical (hns n hn).1, List.flatMap_singleton']
    refine tsmlDecodeDocument_eq_ok.mpr ⟨?_, ns.map Node.item, ?_, houts', hnodes⟩
    · obtain ⟨n, ns, rfl⟩ := List.exists_cons_of_ne_nil hne
      rw [houts', List.map_cons, contentBytes_cons]
      exact fun h => Item.bytes_ne_nil (hroots n (by simp)).isRoot.ok (List.append_eq_nil_iff.mp h).1
    · intro i hi
      obtain ⟨n, hn, rfl⟩ := List.mem_map.mp hi
      exact (hroots n hn).isRoot

theorem encode_selfDelimiting_noteTree : (∀ m, tsmlDecode noteText.dropLast ≠ .ok m) ∧
    tsmlDecodeDocument (noteText ++ noteText) = .ok [noteTree, noteTree] := by
  have h := noteTree_encodable
  refine ⟨encode_selfDelimiting.1 noteTree noteText h.canonical h.inMemory rfl _ (List.dropLast_prefix noteText)
    (by decide), ?_⟩
  exact encode_selfDelimiting.2 [noteTree, noteTree] [noteText, noteText] (by simp)
    (by simpa using ⟨rfl, h.canonical, h.inMemory⟩) rfl

end Terseml
