import Triepack.Terseml.Misread

/-!
# No escape too many

If the backslash of one escape of an inline text is left out, the decoder reads another tree, or
none.
-/

namespace Terseml

open Escape Triepack

/-! ## Leaving out a backslash -/

/-- The inline form of a text with the backslash of one escape left out, for each of its escapes. -/
def leaveOneOut : List UInt8 → (leadBracket : Bool) → List (List UInt8)
  | [], _ => []
  | c :: s, leadBracket =>
    if isReserved .text c || (leadBracket && c == lsq) then
      (c :: writeEscaped .text s false) :: (leaveOneOut s false).map ([bs, c] ++ ·)
    else (leaveOneOut s false).map (c :: ·)

/-- What is written for a text with the backslash of one escape left out, if it is written inline. -/
def writeTextLess (s : List UInt8) (atStart : Bool) : List (List UInt8) :=
  if chooseForm s atStart = .inline then leaveOneOut s atStart else []

mutual

/-- What `encode_node` writes, with the backslash of one escape of one inline text left out. -/
def encodeNodeLess : Node → (depth : Nat) → List (List UInt8)
  | .text t, depth =>
    if depth > maxDepth then []
    else (writeTextLess t true).map fun less => lbr :: (tagText ++ com :: (less ++ [rbr]))
  | .element tag attrs children, depth =>
    if depth > maxDepth then []
    else (encodeChildrenLess children (attrs = []) depth).map fun content =>
      lbr :: (writeEscaped .tag tag false ++ (encodeAttrs attrs ++ com :: (content ++ [rbr])))

/-- The loop over the children: the backslash is left out in one child, and the others are written
as they are. -/
def encodeChildrenLess : List Node → (atStart : Bool) → (depth : Nat) → List (List UInt8)
  | [], _, _ => []
  | c :: children, atStart, depth =>
    let child :=
      match c.text? with
      | some t => some (writeText t atStart)
      | none => encodeNode c (depth + 1)
    let less :=
      match c.text? with
      | some t => writeTextLess t atStart
      | none => encodeNodeLess c (depth + 1)
    ((encodeChildren children false depth).toList.flatMap fun rest => less.map (· ++ rest)) ++
      child.toList.flatMap fun child => (encodeChildrenLess children false depth).map (child ++ ·)

end

/-- The backslash is missing before a bracket at the start of the content, or before a byte that is
reserved in a text. -/
theorem mem_leaveOneOut {t less : List UInt8} {atStart : Bool} (h : less ∈ leaveOneOut t atStart) :
    (atStart = true ∧ ∃ b, t = lsq :: b ∧ less = lsq :: writeEscaped .text b false) ∨
      ∃ a c b, t = a ++ c :: b ∧ isReserved .text c = true ∧
        less = writeEscaped .text a atStart ++ c :: writeEscaped .text b false := by
  induction t generalizing atStart less with
  | nil => simp [leaveOneOut] at h
  | cons d t ih =>
    have hbehind : ∀ {less : List UInt8}, less ∈ leaveOneOut t false →
        ∃ a c b, t = a ++ c :: b ∧ isReserved .text c = true ∧
          less = writeEscaped .text a false ++ c :: writeEscaped .text b false := by
      intro less hless
      exact (ih hless).resolve_left fun hlead => by simp at hlead
    rw [leaveOneOut] at h
    split_ifs at h with hesc
    · obtain rfl | h := List.mem_cons.mp h
      · simp only [Bool.or_eq_true, Bool.and_eq_true, beq_iff_eq] at hesc
        obtain hd | ⟨hlead, rfl⟩ := hesc
        · exact .inr ⟨[], d, t, rfl, hd, rfl⟩
        · exact .inl ⟨hlead, t, rfl, rfl⟩
      · obtain ⟨less, hless, rfl⟩ := List.mem_map.mp h
        obtain ⟨a, c, b, rfl, hc, rfl⟩ := hbehind hless
        exact .inr ⟨d :: a, c, b, rfl, hc, by rw [writeEscaped, if_pos hesc]; simp⟩
    · obtain ⟨less, hless, rfl⟩ := List.mem_map.mp h
      obtain ⟨a, c, b, rfl, hc, rfl⟩ := hbehind hless
      exact .inr ⟨d :: a, c, b, rfl, hc, by rw [writeEscaped, if_neg hesc]; simp⟩

/-! ## In step -/

section Aligned

variable {is : List Item} {t b rest row : List UInt8} {lead : Bool} {cs : List Node} {depth : Nat}

theorem Braced.any (h : Braced rest) : rest.head?.any (· != bs) := by
  obtain ⟨x, z, rfl | rfl, rfl⟩ := h
  · simpa using (by decide : lbr ≠ bs)
  · simpa using (by decide : rbr ≠ bs)

/-- A content begins with what is read from its front. -/
theorem content_cases (hok : contentOk .c is) (row : List UInt8) : is = [] ∨ ∃ i js, is = i :: js ∧
    contentOk .c js ∧ i.Ok .c ∧ (i.IsElement ∨
      readRun .c (contentBytes is ++ rbr :: row) = .ok (i, contentBytes js ++ rbr :: row)) := by
  cases is with
  | nil => exact .inl rfl
  | cons i js =>
    rw [contentOk] at hok
    obtain ⟨hi, hjs, hfollows⟩ := hok
    refine .inr ⟨i, js, rfl, hjs, hi, ?_⟩
    by_cases helement : i.IsElement
    · exact .inl helement
    · rw [contentBytes_cons, List.append_assoc]
      exact .inr (readRun_bytes hi helement fun htext => blocked_behind_text htext hfollows hjs row)

theorem readRun_writeText (ht : t ≠ []) (hlen : t.length < textMax)
    (hrest : chooseForm t lead = .inline → Braced rest) :
    readRun .c (writeText t lead ++ rest) = .ok (textItem t lead, rest) := by
  have hok : (textItem t lead).Ok .c := textItem_ok ht (by simp only [textMax] at hlen; omega) (counts_c _ hlen)
  rw [← textItem_bytes]
  refine readRun_bytes hok (not_isElement_textItem t lead) fun htext => ?_
  have hbraced : Braced rest := by
    apply hrest
    rw [textItem] at htext
    cases hform : chooseForm t lead with
    | inline => rfl
    | terminated | counted => simp [hform, Item.IsText] at htext
  exact ⟨hbraced.blocked, .inr hbraced.any⟩

theorem head?_contentNodes_of_isElement {i : Item} (h : i.IsElement) (is : List Item) (t : List UInt8) :
    (contentNodes (i :: is)).head? ≠ some (.text t) := by
  obtain ⟨tag, attrs, children, hn⟩ := Item.nodes_of_isElement h
  rw [contentNodes, hn]
  simp

/-- In step, the text that is read is the one that is written. -/
theorem head?_contentNodes_aligned (hok : contentOk .c is) (hrest : Braced rest)
    (hbytes : contentBytes is ++ rbr :: row = writeEscaped .text b false ++ rest) {w : List UInt8} (hw : w ≠ []) :
    (contentNodes is).head? ≠ some (.text (w ++ b)) := by
  obtain rfl | ⟨i, js, rfl, -, -, helement | hread⟩ := content_cases hok row
  · simp [contentNodes]
  · exact head?_contentNodes_of_isElement helement js _
  rw [hbytes] at hread
  by_cases hb : b = []
  · -- No run begins with a brace.
    obtain ⟨x, z, hx, rfl⟩ := hrest
    have hne : x ≠ bs := by
      rintro rfl
      exact absurd hx (by decide)
    have hsplit := Scheme.split_of_blocked (Braced.blocked ⟨x, z, hx, rfl⟩)
    simp [hb, writeEscaped, readRun, hne, readText, hsplit] at hread
  · have hrun : Scheme.Run EscCtx.text.scheme (writeEscaped .text b false) b := writeEscaped_run b false
    have htext : (Item.text (writeEscaped .text b false)).Ok .c := by
      rw [Item.Ok]
      exact ⟨fun h => hb (hrun.eq_nil_iff.mp h), b, hrun⟩
    have hread' := readRun_bytes htext (by simp [Item.IsElement]) fun _ => ⟨hrest.blocked, .inr hrest.any⟩
    rw [Item.bytes, hread, Except.ok.injEq, Prod.mk.injEq] at hread'
    rw [contentNodes, hread'.1, Item.nodes, copyRun_of_run hrun, textNode, if_neg hb]
    simpa using hw

/-- Behind a text of a canonical tree there is a brace. -/
theorem braced_childItems (h : ∀ d ∈ cs.head?, d.IsElement) (row : List UInt8) :
    Braced (contentBytes (childItems cs false) ++ rbr :: row) := by
  cases cs with
  | nil => exact ⟨rbr, row, .inr rfl, by rw [childItems, contentBytes]; rfl⟩
  | cons d ds =>
    have hd := h d rfl
    obtain ⟨z, hz⟩ := Item.head?_bytes_of_isElement (item_of_isElement hd)
    refine ⟨lbr, z ++ (contentBytes (childItems ds false) ++ rbr :: row), .inl rfl, ?_⟩
    rw [childItems, show d.text? = none from hd, contentBytes_cons, hz]
    simp

theorem mem_less_text (hwithin : childrenWithin cs (depth + 1)) {content : List UInt8} :
    content ∈ encodeChildrenLess (.text t :: cs) lead depth ↔
      (∃ less ∈ writeTextLess t lead, content = less ++ contentBytes (childItems cs false)) ∨
        ∃ more ∈ encodeChildrenLess cs false depth, content = writeText t lead ++ more := by
  rw [encodeChildrenLess, encodeChildren_eq (fun c _ => encodeNode_eq c) false hwithin]
  simp [Node.text?, eq_comm]

theorem mem_less_element {n : Node} (hn : n.IsElement) (hnwithin : n.Within (depth + 1))
    (hwithin : childrenWithin cs (depth + 1)) {content : List UInt8} :
    content ∈ encodeChildrenLess (n :: cs) lead depth ↔
      (∃ less ∈ encodeNodeLess n (depth + 1), content = less ++ contentBytes (childItems cs false)) ∨
        ∃ more ∈ encodeChildrenLess cs false depth, content = n.item.bytes ++ more := by
  rw [encodeChildrenLess, encodeChildren_eq (fun c _ => encodeNode_eq c) false hwithin,
    show n.text? = none from hn, encodeNode_eq n hn (depth + 1) hnwithin]
  simp [eq_comm]

theorem head?_encodeNodeLess {n : Node} {out : List UInt8} (h : out ∈ encodeNodeLess n depth) :
    ∃ z, out = lbr :: z := by
  cases n with
  | text t =>
    rw [encodeNodeLess] at h
    split_ifs at h
    · simp at h
    · obtain ⟨less, -, rfl⟩ := List.mem_map.mp h
      exact ⟨_, rfl⟩
  | element tag attrs children =>
    rw [encodeNodeLess] at h
    split_ifs at h
    · simp at h
    · obtain ⟨content, -, rfl⟩ := List.mem_map.mp h
      exact ⟨_, rfl⟩

/-- A content that begins with an element begins with a brace. -/
theorem head?_encodeChildrenLess {n : Node} (hn : n.IsElement) (hwithin : childrenWithin (n :: cs) (depth + 1))
    {content : List UInt8} (h : content ∈ encodeChildrenLess (n :: cs) lead depth) : ∃ z, content = lbr :: z := by
  rw [childrenWithin] at hwithin
  obtain ⟨less, hless, rfl⟩ | ⟨more, -, rfl⟩ := (mem_less_element hn hwithin.1 hwithin.2).mp h
  · obtain ⟨z, rfl⟩ := head?_encodeNodeLess hless
    exact ⟨_, rfl⟩
  · obtain ⟨z, hz⟩ := Item.head?_bytes_of_isElement (item_of_isElement hn)
    exact ⟨_, by rw [hz]; rfl⟩

end Aligned

/-! ## Whole trees -/

section Trees

variable {is : List Item} {rest rest' content : List UInt8} {atStart : Bool} {cs : List Node} {depth : Nat}

theorem mem_writeTextLess {t less : List UInt8} (h : less ∈ writeTextLess t atStart) :
    chooseForm t atStart = .inline ∧ less ∈ leaveOneOut t atStart := by
  rw [writeTextLess] at h
  split_ifs at h with hform
  · exact ⟨hform, h⟩
  · simp at h

/-- A content begins with a bracket only where the first byte of a text has lost its backslash. -/
theorem exists_bracket (hcanonical : childrenCanonical cs) (hmem : ∀ t ∈ childTexts cs, t.length < textMax)
    (hwithin : childrenWithin cs (depth + 1)) (h : content ∈ encodeChildrenLess cs true depth)
    (hhead : content.head? = some lsq) :
    ∃ b ds, cs = .text (lsq :: b) :: ds ∧ (∀ d ∈ ds.head?, d.IsElement) ∧
      content = lsq :: writeEscaped .text b false ++ contentBytes (childItems ds false) := by
  cases cs with
  | nil => simp [encodeChildrenLess] at h
  | cons c ds =>
    rw [childrenCanonical] at hcanonical
    obtain ⟨hne, hnext, -, -⟩ := hcanonical
    cases htext : c.text? with
    | none =>
      obtain ⟨z, rfl⟩ := head?_encodeChildrenLess htext hwithin h
      exact absurd (Option.some.inj hhead) (by decide)
    | some t =>
      obtain rfl := text?_eq_some htext
      have hds : ∀ d ∈ ds.head?, d.IsElement := hnext (by rw [htext]; rfl)
      obtain ⟨less, hless, rfl⟩ | ⟨more, -, rfl⟩ := (mem_less_text hwithin.2).mp h
      · obtain ⟨-, b, rfl, rfl⟩ | ⟨a, c, b, -, hc, rfl⟩ := mem_leaveOneOut (mem_writeTextLess hless).2
        · exact ⟨b, ds, rfl, hds, rfl⟩
        · rw [List.append_assoc] at hhead
          exact absurd hhead (head?_less hc a _)
      · have ht : t ≠ [] := fun ht => hne (by rw [htext, ht])
        have hlen : t.length < textMax := hmem t (by simp [childTexts, Node.texts])
        have hok : (textItem t true).Ok .c :=
          textItem_ok ht (by simp only [textMax] at hlen; omega) (counts_c _ hlen)
        obtain ⟨x, z, hbytes⟩ := List.exists_cons_of_ne_nil (Item.bytes_ne_nil hok)
        have hbracket := head?_textItem t
        rw [hbytes] at hbracket
        rw [← textItem_bytes, hbytes] at hhead
        exact absurd hhead hbracket

/-- The decoder does not read an element where a backslash is missing in it. -/
def Misreads (n : Node) : Prop :=
  n.IsElement → n.Canonical → n.InMemory → ∀ {depth : Nat} {out : List UInt8}, n.Within depth →
    out ∈ encodeNodeLess n depth → ∀ {j : Item} {rest rest' : List UInt8}, j.Ok .c → j.IsElement →
      j.bytes ++ rest = out ++ rest' → j.nodes ≠ [n]

/-- Before the text with the missing backslash the children are read as they are written. -/
theorem contentNodes_ne (ih : ∀ c ∈ cs, Misreads c) (hcanonical : childrenCanonical cs)
    (hmem : ∀ t ∈ childTexts cs, t.length < textMax) (hwithin : childrenWithin cs (depth + 1))
    (h : content ∈ encodeChildrenLess cs atStart depth) (hhead : atStart = true → content.head? ≠ some lsq)
    (hok : contentOk .c is) (hbytes : contentBytes is ++ rbr :: rest = content ++ rbr :: rest') :
    contentNodes is ≠ cs := by
  intro hnodes
  induction cs generalizing is content atStart with
  | nil => simp [encodeChildrenLess] at h
  | cons c cs ihcs =>
    rw [childrenCanonical] at hcanonical
    obtain ⟨hne, hnext, hc, hcs⟩ := hcanonical
    rw [childrenWithin] at hwithin
    have hmem' : ∀ t ∈ childTexts cs, t.length < textMax := fun t ht => hmem t (by simp [childTexts, ht])
    have ihcs' := fun {js : List Item} {more : List UInt8} (hmore : more ∈ encodeChildrenLess cs false depth) =>
      @ihcs js more false (fun d hd => ih d (by simp [hd])) hcs hmem' hwithin.2 hmore (by simp)
    cases htext : c.text? with
    | some t =>
      obtain rfl := text?_eq_some htext
      have ht : t ≠ [] := fun ht => hne (by rw [htext, ht])
      have hlen : t.length < textMax := hmem t (by simp [childTexts, Node.texts])
      have hds : ∀ d ∈ cs.head?, d.IsElement := hnext (by rw [htext]; rfl)
      obtain ⟨less, hless, rfl⟩ | ⟨more, hmore, rfl⟩ := (mem_less_text hwithin.2).mp h
      · obtain ⟨hform, hless⟩ := mem_writeTextLess hless
        have hbraced := braced_childItems hds rest'
        rw [List.append_assoc] at hbytes
        obtain ⟨hstart, b, rfl, rfl⟩ | ⟨a, c, b, rfl, hc, rfl⟩ := mem_leaveOneOut hless
        · exact hhead hstart rfl
        · exact head?_contentNodes_ne hok hbraced hlen hform hc hbytes (by rw [hnodes]; rfl)
      · -- The text is read, and the backslash is missing behind it.
        have hbraced : Braced (more ++ rbr :: rest') := by
          cases cs with
          | nil => simp [encodeChildrenLess] at hmore
          | cons d ds =>
            obtain ⟨z, rfl⟩ := head?_encodeChildrenLess (hds d rfl) hwithin.2 hmore
            exact ⟨lbr, z ++ rbr :: rest', .inl rfl, rfl⟩
        have hwritten : readRun .c (writeText t atStart ++ (more ++ rbr :: rest')) =
            .ok (textItem t atStart, more ++ rbr :: rest') := readRun_writeText ht hlen fun _ => hbraced
        rw [List.append_assoc] at hbytes
        obtain rfl | ⟨i, js, rfl, hjs, -, helement | hread⟩ := content_cases hok rest
        · simp [contentNodes] at hnodes
        · exact head?_contentNodes_of_isElement helement js t (by rw [hnodes]; rfl)
        · rw [hbytes, hwritten, Except.ok.injEq, Prod.mk.injEq] at hread
          rw [contentNodes, ← hread.1, textItem_nodes, textNode, if_neg ht] at hnodes
          exact ihcs' hmore hjs hread.2.symm (List.cons.inj hnodes).2
    | none =>
      obtain ⟨z, hz⟩ := head?_encodeChildrenLess htext ⟨hwithin.1, hwithin.2⟩ h
      -- The content begins with an element, so it is the element.
      obtain rfl | ⟨i, js, rfl, hjs, hi, hcase⟩ := content_cases hok rest
      · simp [contentNodes] at hnodes
      have helement : i.IsElement := by
        refine hcase.resolve_right fun hread => ?_
        rw [hbytes, hz] at hread
        have hsplit : EscCtx.text.scheme.split (lbr :: (z ++ rbr :: rest')) = ([], [], lbr :: (z ++ rbr :: rest')) :=
          Scheme.split_of_blocked (blocked_of_reserved (by decide) (by decide))
        have hne : lbr ≠ bs := by decide
        simp [readRun, hne, readText, hsplit] at hread
      obtain ⟨tag, attrs, children, hi'⟩ := Item.nodes_of_isElement helement
      rw [contentNodes, hi', List.singleton_append] at hnodes
      obtain ⟨hnode, hnodes⟩ := List.cons.inj hnodes
      rw [hnode] at hi'
      rw [contentBytes_cons, List.append_assoc] at hbytes
      have hmemc : c.InMemory := fun t ht => hmem t (by simp [childTexts, ht])
      obtain ⟨less, hless, rfl⟩ | ⟨more, hmore, rfl⟩ := (mem_less_element htext hwithin.1 hwithin.2).mp h
      · rw [List.append_assoc] at hbytes
        exact ih c (by simp) htext hc hmemc hwithin.1 hless hi helement hbytes hi'
      · rw [List.append_assoc] at hbytes
        obtain ⟨-, hrest⟩ := Item.bytes_unique hi (item_ok counts_c hc hmemc) helement (item_of_isElement htext) hbytes
        exact ihcs' hmore hjs hrest hnodes

theorem textNode_ne_element (s tag : List UInt8) (attrs : List Attr) (children : List Node) :
    textNode s ≠ [.element tag attrs children] := by
  rw [textNode]
  split_ifs <;> simp

/-- A bracket at the start of the content opens an attribute list. -/
theorem bytes_of_bracket {j : Item} {tag z rest : List UInt8} {children : List Node} (hok : j.Ok .c)
    (hnodes : j.nodes = [.element (copyRun tag) [] children]) (htag : IsRun .tag tag)
    (h : j.bytes ++ rest = lbr :: (tag ++ com :: lsq :: z)) : ∃ is, contentOk .c is ∧ contentNodes is = children ∧
      (z = rsq :: (contentBytes is ++ rbr :: rest) ∨ z = rsq :: com :: (contentBytes is ++ rbr :: rest)) := by
  obtain ⟨s, hs⟩ := htag
  have hblocked : ∀ {x : UInt8} {y : List UInt8}, x = com ∨ x = rbr → Scheme.Blocked EscCtx.tag.scheme (x :: y) := by
    rintro x y (rfl | rfl)
    · exact blocked_of_reserved (by decide) (by decide)
    · exact blocked_of_reserved (by decide) (by decide)
  cases j with
  | text | terminated | counted =>
    rw [Item.nodes] at hnodes
    exact absurd hnodes (textNode_ne_element _ _ _ _)
  | singleton head content =>
    rw [Item.Ok] at hok
    obtain ⟨⟨s', hs'⟩, -, -, hempty⟩ := hok
    obtain rfl : content = [] := by simpa [Dialect.c] using hempty
    rw [Item.bytes, contentBytes] at h
    have hrow : head ++ rbr :: rest = tag ++ com :: lsq :: z := by simpa using h
    have hrest := (hs'.unique hs (hblocked (.inr rfl)) (hblocked (.inl rfl)) hrow).2.2
    exact absurd (List.cons.inj hrest).1 (by decide)
  | plain tag' content =>
    rw [Item.Ok] at hok
    obtain ⟨⟨s', hs'⟩, hcontent, hhead⟩ := hok
    rw [Item.bytes] at h
    have hrow : tag' ++ com :: (contentBytes content ++ rbr :: rest) = tag ++ com :: lsq :: z := by simpa using h
    have hrest := (hs'.unique hs (hblocked (.inl rfl)) (hblocked (.inl rfl)) hrow).2.2
    have hbracket := (List.cons.inj hrest).2
    cases hbytes : contentBytes content with
    | nil =>
      rw [hbytes] at hbracket
      exact absurd (List.cons.inj hbracket).1 (by decide)
    | cons x y =>
      rw [hbytes] at hbracket hhead
      exact absurd (congrArg some (List.cons.inj hbracket).1) hhead
  | attributed tag' pairs trailing comma content =>
    rw [Item.Ok] at hok
    obtain ⟨⟨s', hs'⟩, -, htrailing, hcontent, -⟩ := hok
    rw [Item.nodes, List.singleton_inj] at hnodes
    injection hnodes with _ hpairs hchildren
    obtain rfl := List.map_eq_nil_iff.mp hpairs
    obtain rfl : trailing = false := by simpa using htrailing
    rw [Item.bytes] at h
    have hrow : tag' ++ com :: lsq :: rsq :: ((if comma then [com] else []) ++ (contentBytes content ++ rbr :: rest)) =
        tag ++ com :: lsq :: z := by simpa [pairsText] using h
    have hrest := (hs'.unique hs (hblocked (.inl rfl)) (hblocked (.inl rfl)) hrow).2.2
    obtain rfl := (List.cons.inj (List.cons.inj hrest).2).2
    refine ⟨content, hcontent, hchildren, ?_⟩
    cases comma with
    | false => exact .inl rfl
    | true => exact .inr rfl

theorem misreads (n : Node) : Misreads n := by
  induction n using Node.induction_on with
  | text t => exact fun h => by simp [Node.IsElement, Node.text?] at h
  | element tag attrs children ih =>
    intro _ hcanonical hmem depth out hwithin hout j rest rest' hok helement hbytes hnodes
    rw [Node.Canonical] at hcanonical
    rw [Node.Within] at hwithin
    rw [encodeNodeLess, if_neg (by omega)] at hout
    obtain ⟨content, hcontent, rfl⟩ := List.mem_map.mp hout
    have htag : IsRun .tag (writeEscaped .tag tag false) := isRun_writeEscaped .tag tag false
    have hopen := readOpening_bytes hok helement rest
    by_cases hattrs : attrs = []
    · subst hattrs
      have hrow : j.bytes ++ rest = lbr :: (writeEscaped .tag tag false ++ com :: (content ++ rbr :: rest')) := by
        rw [hbytes]
        simp [encodeAttrs]
      by_cases hhead : content.head? = some lsq
      · -- What is left of the text opens an attribute list.
        obtain ⟨b, ds, rfl, hds, rfl⟩ := exists_bracket hcanonical hmem hwithin.2 hcontent hhead
        have hbraced := braced_childItems hds rest'
        have hcopy : copyRun (writeEscaped .tag tag false) = tag := copyRun_of_run (writeEscaped_run tag false)
        rw [List.cons_append, List.cons_append, List.append_assoc] at hrow
        rw [← hcopy] at hnodes
        obtain ⟨is, his, hchildren, hz⟩ := bytes_of_bracket hok hnodes htag hrow
        have hfirst : (contentNodes is).head? = some (.text (lsq :: b)) := by rw [hchildren]; rfl
        obtain hz | hz := hz
        · obtain ⟨b', rfl, hrest⟩ := writeEscaped_front_plain hbraced (by decide) hz
          exact head?_contentNodes_aligned his hbraced hrest.symm (w := [lsq, rsq]) (by simp) hfirst
        · obtain ⟨b', rfl, hbehind⟩ := writeEscaped_front_plain hbraced (by decide) hz
          obtain ⟨b'', rfl, hrest⟩ := writeEscaped_front_plain hbraced (by decide) hbehind
          exact head?_contentNodes_aligned his hbraced hrest.symm (w := [lsq, rsq, com]) (by simp) hfirst
      · have hhead' : (content ++ rbr :: rest').head? ≠ some lsq := by
          cases content with
          | nil => simpa using (by decide : rbr ≠ lsq)
          | cons x y => simpa using hhead
        rw [hrow, readOpening_plain htag hhead'] at hopen
        obtain hopen | hopen := hopen
        · simp at hopen
        · simp only [Except.ok.injEq, Prod.mk.injEq, and_true] at hopen
          obtain ⟨hfill, hcontents⟩ := hopen
          have hj := Item.fill_content j
          rw [← hfill] at hj
          rw [← hj, Item.fill, Item.nodes, List.singleton_inj] at hnodes
          injection hnodes with _ _ hchildren
          exact contentNodes_ne ih hcanonical hmem hwithin.2 hcontent (fun _ => hhead) (contentOk_content hok)
            hcontents.symm hchildren
    · have hrow : j.bytes ++ rest = lbr :: (writeEscaped .tag tag false ++ com :: lsq ::
          (pairsText (attrs.map fun a => (writeEscaped .key a.key false, writeEscaped .val a.val false)) ++
            ((if false then [com] else []) ++ rsq :: com :: (content ++ rbr :: rest')))) := by
        rw [hbytes, encodeAttrs_cons attrs hattrs]
        simp
      rw [hrow, readOpening_attributed htag ?_ (by simp)] at hopen
      · obtain hopen | hopen := hopen
        · simp at hopen
        · simp only [Except.ok.injEq, Prod.mk.injEq, and_true] at hopen
          obtain ⟨hfill, hcontents⟩ := hopen
          have hj := Item.fill_content j
          rw [← hfill] at hj
          rw [← hj, Item.fill, Item.nodes, List.singleton_inj] at hnodes
          injection hnodes with _ _ hchildren
          exact contentNodes_ne ih hcanonical hmem hwithin.2 hcontent (by simp [hattrs]) (contentOk_content hok)
            hcontents.symm hchildren
      · intro p hp
        obtain ⟨a, -, rfl⟩ := List.mem_map.mp hp
        exact ⟨isRun_writeEscaped .key a.key false, isRun_writeEscaped .val a.val false⟩

/-- A text at the root is written as the only child of its element. -/
theorem exists_element {n : Node} (h : n.Encodable) {less : List UInt8} (hless : less ∈ encodeNodeLess n 0) :
    ∃ e : Node, e.IsElement ∧ e.Encodable ∧ tsmlEncode e = tsmlEncode n ∧ less ∈ encodeNodeLess e 0 := by
  cases n with
  | element tag attrs children => exact ⟨.element tag attrs children, rfl, h, rfl, hless⟩
  | text t =>
    have htag : writeEscaped .tag tagText false = tagText := by decide
    have hless' : less ∈ encodeNodeLess (.element tagText [] [.text t]) 0 := by
      simpa [encodeNodeLess, encodeChildrenLess, encodeChildren, Node.text?, encodeAttrs, htag] using hless
    have ht : t ≠ [] := by
      rintro rfl
      simp [encodeNodeLess, writeTextLess, leaveOneOut] at hless
    have helement : (Node.element tagText [] [.text t]).Encodable := by
      refine ⟨?_, ?_, ?_⟩
      · simp [Node.Canonical, childrenCanonical, Node.text?, ht]
      · simp [Node.Within, childrenWithin]
      · intro u hu
        exact h.inMemory u (by simpa [Node.texts, childTexts] using hu)
    refine ⟨.element tagText [] [.text t], rfl, helement, ?_, hless'⟩
    rw [tsmlEncode_eq helement.within, tsmlEncode_eq h.within]
    simp [Node.item, childItems, Node.text?, htag, ht]

end Trees

/-- A text is written in its shortest form, and no escape of it can be left out. -/
theorem writeText_minimal :
    (∀ (t : List UInt8) (atStart : Bool), t.length < textMax →
      writeText t atStart = writeForm t atStart (chooseForm t atStart) ∧
      ∀ f, (writeText t atStart).length ≤ (writeForm t atStart f).length ∧
        ((writeText t atStart).length = (writeForm t atStart f).length →
          (chooseForm t atStart).rank ≤ f.rank)) ∧
    ∀ (n m : Node) (out less : List UInt8), n.Canonical → n.InMemory → tsmlEncode n = .ok out →
      less ∈ encodeNodeLess n 0 → tsmlDecode out = .ok m → tsmlDecode less ≠ .ok m := by
  refine ⟨fun t atStart hlen => ⟨writeText_eq_writeForm t atStart, chooseForm_minimal hlen atStart⟩, ?_⟩
  intro n m out less hcanonical hmem hout hless hm hdecode
  have hn : n.Encodable := ⟨hcanonical, within_of_tsmlEncode hout, hmem⟩
  obtain ⟨e, helement, he, heout, hless⟩ := exists_element hn hless
  obtain ⟨out', hout', hread⟩ := he.reencodes helement
  rw [heout, hout, Except.ok.injEq] at hout'
  rw [← hout', hm, Except.ok.injEq] at hread
  obtain ⟨j, hj, rfl, hnodes⟩ := tsmlDecode_eq_ok.mp hdecode
  rw [hread] at hnodes
  have hbytes : j.bytes ++ [] = j.bytes ++ [] := rfl
  exact misreads e helement he.canonical he.inMemory he.within hless hj.ok hj.isElement hbytes hnodes

/-- `{p,[k:\,],[{{,}}`. -/
def noteLess : List UInt8 :=
  [0x7B, 0x70, 0x2C, 0x5B, 0x6B, 0x3A, 0x5C, 0x2C, 0x5D, 0x2C, 0x5B, 0x7B, 0x7B, 0x2C, 0x7D, 0x7D]

theorem writeText_minimal_noteTree :
    ((writeText [0x5B, 0x7B] false).length ≤ (writeForm [0x5B, 0x7B] false .counted).length) ∧
      tsmlDecode noteLess ≠ .ok noteTree := by
  have h := noteTree_encodable
  refine ⟨((writeText_minimal.1 [0x5B, 0x7B] false (by decide)).2 .counted).1, ?_⟩
  have hless : encodeNodeLess noteTree 0 = [noteLess] := rfl
  exact writeText_minimal.2 noteTree noteTree noteText noteLess h.canonical h.inMemory rfl (by simp [hless]) rfl

end Terseml
