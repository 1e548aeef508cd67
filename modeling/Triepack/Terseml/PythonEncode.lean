import Triepack.Terseml.Merge

/-!
# The encoder of the Python module

It writes strings by replacing bytes, and measures the forms of a run. Integers are unbounded.
-/

namespace Terseml.Python

open Escape Triepack

/-! ## Strings -/

/-- `bytes.replace` for a single byte. -/
def replace (raw : List UInt8) (needle : UInt8) (repl : List UInt8) : List UInt8 :=
  raw.flatMap fun c => if c = needle then repl else [c]

/-- `_ESC_CHAINS`; a context stands for the bytes reserved in it. -/
def escChains : EscCtx → List (UInt8 × List UInt8)
  | .tag => [(bs, [bs, bs]), (com, [bs, com]), (lbr, [bs, lbr]), (rbr, [bs, rbr])]
  | .key => [(bs, [bs, bs]), (col, [bs, col]), (com, [bs, com]), (rsq, [bs, rsq])]
  | .val => [(bs, [bs, bs]), (com, [bs, com]), (rsq, [bs, rsq])]
  | .text => [(bs, [bs, bs]), (lbr, [bs, lbr]), (rbr, [bs, rbr])]

/-- `_escape`. -/
def escape (raw : List UInt8) (reserved : EscCtx) (escapeLeading : List UInt8) : List UInt8 :=
  let raw := (escChains reserved).foldl
    (fun raw p => if p.1 ∈ raw then replace raw p.1 p.2 else raw) raw
  if escapeLeading ≠ [] ∧ raw.take 1 = escapeLeading then bs :: raw else raw

/-- The loop of `_varint`. -/
def varintLoop : (fuel n : Nat) → List UInt8
  | 0, n => [UInt8.ofNat (n &&& 0x7F)]
  | fuel + 1, n =>
    UInt8.ofNat ((n &&& 0x7F) ||| if n >>> 7 ≠ 0 then 0x80 else 0) ::
      if n >>> 7 = 0 then [] else varintLoop fuel (n >>> 7)

/-- `_varint`. -/
def varint (n : Nat) : List UInt8 := varintLoop n n

/-- `_size_inline`. -/
def sizeInline (b : List UInt8) : Nat := b.length + b.countP fun x => x == lbr || x == rbr || x == bs

/-- `_size_nulterm`. -/
def sizeNulterm (b : List UInt8) : Nat := 2 + b.length + (b.countP fun x => x == 0 || x == bs) + 1

/-- `_size_counted`. -/
def sizeCounted (b : List UInt8) : Nat := 2 + (varint b.length).length + b.length

/-- `choose_form`. -/
def chooseForm (payload : List UInt8) (leadingBracket : Bool) : BinForm :=
  let c := sizeCounted payload
  let t := sizeNulterm payload
  let i := sizeInline payload + if leadingBracket && payload.take 1 == [lsq] then 1 else 0
  let best := min c (min t i)
  if c = best then .counted
  else if t = best then .terminated
  else .inline

/-- `_encode_binary`. -/
def encodeBinary (payload : List UInt8) (form : BinForm) : List UInt8 :=
  if form = .counted then bs :: letterB :: (varint payload.length ++ payload)
  else bs :: letterb :: (replace (replace payload bs [bs, bs]) 0 [bs, digit0] ++ [0])

/-! ## Elements -/

/-- The loop of `_merge_text`. -/
def mergeStep (out : List Node) (c : Node) : List Node :=
  match c.text?, out.getLast?.bind Node.text? with
  | some t, some last => out.dropLast ++ [.text (last ++ t)]
  | _, _ => out ++ [c]

/-- `_merge_text`. -/
def mergeText (children : List Node) : List Node :=
  (children.foldl mergeStep []).filter fun c => c.text? ≠ some []

/-- `TersemlError` of the encoder. -/
inductive EncodeError where
  | nesting
  deriving DecidableEq, Repr

/-- The loop of `encode` over the children that have been merged. -/
def encodeChildren (encode : Node → Except EncodeError (List UInt8)) :
    List Node → (atStart : Bool) → Except EncodeError (List UInt8)
  | [], _ => .ok []
  | child :: children, atStart =>
    (match child.text? with
      | some payload =>
        let form := chooseForm payload atStart
        .ok (if form = .inline then escape payload .text (if atStart then [lsq] else [])
          else encodeBinary payload form)
      | none => encode child) >>= fun out => do
        let rest ← encodeChildren encode children false
        .ok (out ++ rest)

/-- The rest of `encode`, for an element. -/
def encodeElement (encode : Node → Except EncodeError (List UInt8)) (tag : List UInt8) (attrs : List Attr)
    (children : List Node) : Except EncodeError (List UInt8) := do
  let pairs := attrs.map fun a => escape a.key .key [] ++ col :: escape a.val .val []
  let slot := if attrs = [] then [] else com :: lsq :: ([com].intercalate pairs ++ [rsq])
  let content ← encodeChildren encode (mergeText children) (attrs = [])
  .ok (lbr :: (escape tag .tag [] ++ (slot ++ com :: (content ++ [rbr]))))

/-- `encode`, with the number of levels that are left: none are where `depth` is over `MAX_DEPTH`. -/
def encode : (levels : Nat) → Node → Except EncodeError (List UInt8)
  | 0, _ => .error .nesting
  | levels + 1, .text t => encodeElement (encode levels) tagText [] [.text t]
  | levels + 1, .element tag attrs children => encodeElement (encode levels) tag attrs children

/-- `encode` at the root. -/
def encodeRoot (node : Node) : Except EncodeError (List UInt8) := encode (maxDepth + 1) node

/-! ## The same bytes as in C -/

section Strings

variable {ctx : EscCtx}

theorem replace_of_not_mem {raw : List UInt8} {needle : UInt8} (h : needle ∉ raw) (repl : List UInt8) :
    replace raw needle repl = raw := by
  induction raw with
  | nil => rfl
  | cons c raw ih =>
    simp only [List.mem_cons, not_or] at h
    rw [replace, List.flatMap_cons, if_neg (Ne.symm h.1)]
    exact congrArg (c :: ·) (ih h.2)

theorem replace_if_mem (raw : List UInt8) (needle : UInt8) (repl : List UInt8) :
    (if needle ∈ raw then replace raw needle repl else raw) = replace raw needle repl := by
  split_ifs with h
  · rfl
  · exact (replace_of_not_mem h repl).symm

theorem replace_append (a b : List UInt8) (needle : UInt8) (repl : List UInt8) :
    replace (a ++ b) needle repl = replace a needle repl ++ replace b needle repl := by
  simp [replace]

theorem foldl_replace_append (chain : List (UInt8 × List UInt8)) (a b : List UInt8) :
    chain.foldl (fun raw p => replace raw p.1 p.2) (a ++ b) =
      chain.foldl (fun raw p => replace raw p.1 p.2) a ++ chain.foldl (fun raw p => replace raw p.1 p.2) b := by
  induction chain generalizing a b with
  | nil => rfl
  | cons p chain ih => rw [List.foldl_cons, replace_append, ih, ← List.foldl_cons, ← List.foldl_cons]

/-- The backslash goes first, so that the chain leaves the escapes alone that it has added. -/
theorem foldl_replace_single (ctx : EscCtx) (c : UInt8) :
    (escChains ctx).foldl (fun raw p => replace raw p.1 p.2) [c] =
      if isReserved ctx c then [bs, c] else [c] := by
  have hreserved : ∀ d ∈ [bs, com, col, lbr, rbr, rsq],
      (escChains ctx).foldl (fun raw p => replace raw p.1 p.2) [d] = if isReserved ctx d then [bs, d] else [d] := by
    cases ctx <;> decide +kernel
  by_cases hc : c ∈ [bs, com, col, lbr, rbr, rsq]
  · exact hreserved c hc
  · simp only [List.mem_cons, List.not_mem_nil, or_false, not_or] at hc
    obtain ⟨hbs, hcom, hcol, hlbr, hrbr, hrsq⟩ := hc
    cases ctx <;> simp [escChains, replace, isReserved, hbs, hcom, hcol, hlbr, hrbr, hrsq]

/-- The replacements escape each reserved byte once. -/
theorem foldl_replace (ctx : EscCtx) (raw : List UInt8) :
    (escChains ctx).foldl (fun raw p => if p.1 ∈ raw then replace raw p.1 p.2 else raw) raw =
      writeEscaped ctx raw false := by
  simp only [replace_if_mem]
  induction raw with
  | nil => cases ctx <;> rfl
  | cons c raw ih =>
    rw [← List.singleton_append, foldl_replace_append, foldl_replace_single, ih, List.singleton_append,
      writeEscaped]
    simp

theorem escape_eq (raw : List UInt8) (ctx : EscCtx) (lead : Bool) (hctx : lead → ctx = .text) :
    escape raw ctx (if lead then [lsq] else []) = writeEscaped ctx raw lead := by
  rw [escape, foldl_replace]
  cases lead with
  | false => simp
  | true =>
    obtain rfl := hctx rfl
    cases raw with
    | nil => simp [writeEscaped]
    | cons c raw =>
      have hne : (bs : UInt8) ≠ lsq := by decide
      have hlsq : isReserved .text lsq = false := by decide
      rw [writeEscaped, writeEscaped]
      by_cases hc : c = lsq
      · simp [hc, hlsq]
      · by_cases hres : isReserved .text c = true
        · simp [hres, hne]
        · simp [hc, hres]

theorem varintLoop_eq {fuel n : Nat} (hfuel : n ≤ fuel) : varintLoop fuel n = Leb128.code n := by
  have hlow : n &&& 0x7F = n % 128 := Nat.and_two_pow_sub_one_eq_mod n 7
  induction fuel generalizing n with
  | zero =>
    obtain rfl : n = 0 := by omega
    rw [Leb128.code_of_lt (by decide)]
    rfl
  | succ fuel ih =>
    rw [varintLoop, shift_seven, hlow]
    by_cases hn : n < 128
    · have hz : n / 128 = 0 := Nat.div_eq_of_lt hn
      simp [hz, Leb128.code_of_lt hn, Nat.mod_eq_of_lt hn]
    · have hnz : n / 128 ≠ 0 := by omega
      rw [if_pos hnz, if_neg hnz, Leb128.code_of_le (by omega),
        ih (by omega) (Nat.and_two_pow_sub_one_eq_mod _ 7), or_continuation (Nat.mod_lt _ (by decide))]

theorem varint_eq (n : Nat) : varint n = Leb128.code n := varintLoop_eq (Nat.le_refl n)

/-- No size wraps around for a text in memory, so the forms are chosen alike. -/
theorem chooseForm_eq {t : List UInt8} (h : t.length < textMax) (lead : Bool) :
    chooseForm t lead = Terseml.chooseForm t lead := by
  have hlen : (Leb128.code t.length).length ≤ 10 :=
    Leb128.length_code_le (by decide) (by simp only [textMax] at h; omega)
  have hinl := List.countP_le_length (p := fun x => x == lbr || x == rbr || x == bs) (l := t)
  have hterm := List.countP_le_length (p := fun x => x == 0 || x == bs) (l := t)
  have hhead : (t.take 1 == [lsq]) = (t.head? == some lsq) := by
    cases t <;> simp
  simp only [textMax] at h
  simp only [chooseForm, Terseml.chooseForm, sizeCounted, sizeNulterm, sizeInline, varint_eq, varintLen_eq, hhead]
  generalize hk : (if (lead && t.head? == some lsq) = true then 1 else 0) = k
  have hk1 : k ≤ 1 := by rw [← hk]; split_ifs <;> omega
  rw [u64_of_lt (by omega), u64_of_lt (by omega), u64_of_lt (by omega)]
  split_ifs <;> first | rfl | omega

theorem encodeBinary_eq (t : List UInt8) (form : BinForm) : encodeBinary t form = writeBinary t form := by
  have hbody : replace (replace t bs [bs, bs]) 0 [bs, digit0] = escapeBinary t := by
    rw [replace, replace, escapeBinary, List.flatMap_assoc]
    refine List.flatMap_congr fun c _ => ?_
    have hbs : bs ≠ 0 := by decide
    by_cases hzero : c = 0
    · simp [hzero, hbs.symm]
    · by_cases hc : c = bs <;> simp [hzero, hc, hbs]
  rw [encodeBinary, writeBinary, hbody, varint_eq, varintPut_eq]

end Strings

section Elements

variable {n : Node} {cs : List Node}

theorem mergeStep_append {front out : List Node} (h : out ≠ [] ∨ ∀ l ∈ front.getLast?, l.IsElement)
    (c : Node) : mergeStep (front ++ out) c = front ++ mergeStep out c := by
  by_cases hout : out = []
  · subst hout
    have hfront : front.getLast?.bind Node.text? = none := by
      cases hlast : front.getLast? with
      | none => rfl
      | some l => exact h.resolve_left (fun h => h rfl) l hlast
    rw [List.append_nil, mergeStep, mergeStep, hfront]
    cases c.text? <;> rfl
  · have hlast : (front ++ out).getLast? = out.getLast? := by
      rw [List.getLast?_append_of_ne_nil front hout]
    rw [mergeStep, mergeStep, hlast, List.dropLast_append_of_ne_nil hout]
    cases c.text? <;> cases out.getLast?.bind Node.text? <;> simp

theorem mergeStep_ne_nil (out : List Node) (c : Node) : mergeStep out c ≠ [] := by
  rw [mergeStep]
  split <;> simp

/-- What stands before the last node that has been put out stays as it is, and an element does too. -/
theorem foldl_mergeStep_append {front out : List Node}
    (h : out ≠ [] ∨ ∀ l ∈ front.getLast?, l.IsElement) (cs : List Node) :
    cs.foldl mergeStep (front ++ out) = front ++ cs.foldl mergeStep out := by
  induction cs generalizing out with
  | nil => rfl
  | cons c cs ih =>
    rw [List.foldl_cons, List.foldl_cons, mergeStep_append h]
    exact ih (.inl (mergeStep_ne_nil out c))

/-- What is left of the nodes that the loop has put out. -/
def kept (out : List Node) : List Node := (out.filter fun c => c.text? ≠ some []).map Node.normalise

theorem kept_append (out out' : List Node) : kept (out ++ out') = kept out ++ kept out' := by
  rw [kept, List.filter_append, List.map_append, kept, kept]

theorem kept_text (t : List UInt8) : kept [.text t] = textNode t := by
  by_cases ht : t = []
  · simp [kept, textNode, ht, Node.text?]
  · simp [kept, textNode, ht, Node.text?, Node.normalise]

theorem kept_element {c : Node} (h : c.IsElement) : kept [c] = [c.normalise] := by
  have hc : c.text? = none := h
  simp [kept, hc]

/-- An element is put out, and the loop begins anew behind it. -/
theorem kept_foldl_element {c : Node} (h : c.IsElement) (cs : List Node) :
    kept (cs.foldl mergeStep [c]) = c.normalise :: kept (cs.foldl mergeStep []) := by
  have hlast : ∀ l ∈ [c].getLast?, l.IsElement := by
    intro l hl
    rwa [← Option.some.inj hl]
  have hfront : cs.foldl mergeStep ([c] ++ []) = [c] ++ cs.foldl mergeStep [] :=
    foldl_mergeStep_append (.inr hlast) cs
  rw [List.append_nil] at hfront
  rw [hfront, kept_append, kept_element h]
  rfl

/-- The loop, from its start and from a text that may still grow. -/
theorem kept_foldl_mergeStep (cs : List Node) :
    kept (cs.foldl mergeStep []) = normaliseChildren [] cs ∧
      ∀ t, kept (cs.foldl mergeStep [.text t]) = normaliseChildren [t] cs := by
  induction cs with
  | nil =>
    refine ⟨rfl, fun t => ?_⟩
    rw [List.foldl_nil, kept_text, normaliseChildren, List.flatten_singleton]
  | cons c cs ih =>
    obtain ⟨hstart, hgrow⟩ := ih
    cases htext : c.text? with
    | some t =>
      obtain rfl := text?_eq_some htext
      refine ⟨hgrow t, fun s => ?_⟩
      have hstep : mergeStep [.text s] (.text t) = [.text (s ++ t)] := rfl
      rw [List.foldl_cons, hstep, hgrow, normaliseChildren, htext]
      exact normaliseChildren_congr (by simp) cs
    | none =>
      have helement := kept_foldl_element htext cs
      refine ⟨?_, fun s => ?_⟩
      · have hstep : mergeStep [] c = [c] := by rw [mergeStep, htext]; rfl
        rw [List.foldl_cons, hstep, helement, hstart, normaliseChildren, htext]
        rfl
      · have hstep : mergeStep [.text s] c = [.text s] ++ [c] := by rw [mergeStep, htext]
        rw [List.foldl_cons, hstep, foldl_mergeStep_append (.inl (by simp)), kept_append, kept_text, helement,
          hstart, normaliseChildren, htext, List.flatten_singleton]

/-- `_merge_text` brings the children into their canonical form, but for what is inside of them. -/
theorem mergeText_map_normalise (cs : List Node) :
    (mergeText cs).map Node.normalise = normaliseChildren [] cs := (kept_foldl_mergeStep cs).1

theorem mem_of_mem_mergeText {c : Node} (hc : c ∈ mergeText cs) (helement : c.IsElement) : c ∈ cs := by
  have hfold : ∀ (cs out : List Node), c ∈ cs.foldl mergeStep out → c ∈ out ∨ c ∈ cs := by
    intro cs
    induction cs with
    | nil => exact fun out h => .inl h
    | cons d cs ih =>
      intro out h
      obtain h | h := ih _ h
      · rw [mergeStep] at h
        split at h
        · obtain h | h := List.mem_append.mp h
          · exact .inl (List.mem_of_mem_dropLast h)
          · -- a merged text is no element
            obtain rfl := List.mem_singleton.mp h
            simp [Node.IsElement, Node.text?] at helement
        · obtain h | h := List.mem_append.mp h
          · exact .inl h
          · exact .inr (List.mem_cons.mpr (.inl (List.mem_singleton.mp h)))
      · exact .inr (List.mem_cons_of_mem d h)
  obtain h | h := hfold cs [] (List.mem_of_mem_filter hc)
  · simp at h
  · exact h

/-- Children that have been merged are written as their canonical forms. -/
theorem encodeChildren_eq {encode : Node → Except EncodeError (List UInt8)}
    (hencode : ∀ c ∈ cs, c.IsElement → encode c = .ok c.normalise.item.bytes)
    (hmem : ∀ t ∈ childTexts (cs.map Node.normalise), t.length < textMax) (atStart : Bool) :
    encodeChildren encode cs atStart = .ok (contentBytes (childItems (cs.map Node.normalise) atStart)) := by
  induction cs generalizing atStart with
  | nil => rw [encodeChildren, List.map_nil, childItems, contentBytes]
  | cons c cs ih =>
    rw [List.map_cons, childTexts] at hmem
    have hrest := ih (fun d hd => hencode d (List.mem_cons_of_mem c hd))
      (fun t ht => hmem t (List.mem_append_right _ ht)) false
    rw [encodeChildren, hrest, List.map_cons, childItems, contentBytes_cons]
    cases htext : c.text? with
    | some t =>
      obtain rfl := text?_eq_some htext
      rw [Node.normalise] at hmem ⊢
      have hlen : t.length < textMax := hmem t (by simp [Node.texts])
      have hescape := escape_eq t .text atStart fun _ => rfl
      simp only [htext, chooseForm_eq hlen, hescape, encodeBinary_eq, ok_bind, textItem_bytes, writeText]
    | none =>
      have helement : c.normalise.text? = none := normalise_isElement htext
      simp [helement, hencode c List.mem_cons_self htext]

/-- The slot of the attributes is written as in C. -/
theorem slot_eq (attrs : List Attr) :
    (if attrs = [] then [] else com :: lsq :: ([com].intercalate
      (attrs.map fun a => escape a.key .key [] ++ col :: escape a.val .val []) ++ [rsq])) = encodeAttrs attrs := by
  have hpair : ∀ a : Attr, escape a.key .key [] ++ col :: escape a.val .val [] =
      writeEscaped .key a.key false ++ col :: writeEscaped .val a.val false := fun a => by
    have hkey := escape_eq a.key .key false (by simp)
    have hval := escape_eq a.val .val false (by simp)
    simp only [Bool.false_eq_true, if_false] at hkey hval
    rw [hkey, hval]
  rw [encodeAttrs, List.map_congr_left fun a _ => hpair a]

theorem encodeElement_eq {encode : Node → Except EncodeError (List UInt8)} {tag : List UInt8}
    {attrs : List Attr} (hencode : ∀ c ∈ cs, c.IsElement → encode c = .ok c.normalise.item.bytes)
    (hmem : ∀ t ∈ childTexts (normaliseChildren [] cs), t.length < textMax) :
    encodeElement encode tag attrs cs = .ok (Node.element tag attrs cs).normalise.item.bytes := by
  have htag := escape_eq tag .tag false (by simp)
  simp only [Bool.false_eq_true, if_false] at htag
  rw [← mergeText_map_normalise] at hmem
  have hchildren := encodeChildren_eq
    (fun c hc helement => hencode c (mem_of_mem_mergeText hc helement) helement) hmem (attrs = [])
  rw [encodeElement, hchildren, mergeText_map_normalise, slot_eq, htag, ok_bind, Node.normalise, Node.item]
  by_cases hattrs : attrs = []
  · simp [hattrs, encodeAttrs, Item.bytes]
  · simp [hattrs, encodeAttrs_cons attrs hattrs, Item.bytes]

theorem mem_normaliseChildren {c : Node} (hc : c ∈ cs) (helement : c.IsElement) :
    c.normalise ∈ normaliseChildren [] cs := by
  have hall : ∀ texts, c.normalise ∈ normaliseChildren texts cs := by
    induction cs with
    | nil => simp at hc
    | cons d cs ih =>
      intro texts
      rw [normaliseChildren]
      obtain rfl | hc := List.mem_cons.mp hc
      · have htext : c.text? = none := helement
        rw [htext]
        simp
      · have hrest := ih hc
        cases d.text? with
        | some t => exact hrest _
        | none => simp [hrest]
  exact hall []

/-- `encode` writes the canonical form of an element. -/
theorem encode_eq (hmem : n.normalise.InMemory) (helement : n.IsElement) {depth levels : Nat}
    (hlevels : depth + levels = maxDepth + 1) (hwithin : n.Within depth) :
    encode levels n = .ok n.normalise.item.bytes := by
  induction n using Node.induction_on generalizing depth levels with
  | text t => simp [Node.IsElement, Node.text?] at helement
  | element tag attrs children ih =>
    rw [Node.Within] at hwithin
    rw [Node.normalise] at hmem
    obtain ⟨levels, rfl⟩ : ∃ l, levels = l + 1 := ⟨levels - 1, by omega⟩
    rw [encode]
    refine encodeElement_eq (fun c hc hc' => ?_) hmem
    have hchild : c.normalise.InMemory := fun t ht =>
      hmem t (mem_childTexts.mpr ⟨c.normalise, mem_normaliseChildren hc hc', ht⟩)
    exact ih c hc hchild hc' (by omega) (childrenWithin_iff.mp hwithin.2 c hc)

end Elements

/-- The two encoders write the same bytes for a canonical tree. -/
theorem encodeRoot_eq_tsmlEncode (n : Node) (h : n.Encodable) :
    ∃ out, tsmlEncode n = .ok out ∧ encodeRoot n = .ok out := by
  refine ⟨_, tsmlEncode_eq h.within, ?_⟩
  cases n with
  | element tag attrs children =>
    have hself := normalise_eq_self h.canonical
    have hmem : (Node.element tag attrs children).normalise.InMemory := hself.symm ▸ h.inMemory
    have hencode := encode_eq hmem rfl (Nat.zero_add _) h.within
    rwa [hself] at hencode
  | text t =>
    -- A text is written as an element with the implicit tag.
    have htag : writeEscaped .tag tagText false = tagText := by decide
    have hchildren : normaliseChildren [] [.text t] = textNode t := by
      simp [normaliseChildren, Node.text?]
    have hmem : ∀ s ∈ childTexts (normaliseChildren [] [.text t]), s.length < textMax := by
      rw [hchildren, textNode]
      intro s hs
      split_ifs at hs
      · simp [childTexts] at hs
      · exact h.inMemory s (by simpa [childTexts, Node.texts] using hs)
    have hencode : encodeElement (encode maxDepth) tagText [] [.text t] =
        .ok (Node.element tagText [] [.text t]).normalise.item.bytes :=
      encodeElement_eq (by simp [Node.IsElement, Node.text?]) hmem
    rw [encodeRoot, encode, hencode, Node.normalise, hchildren, Node.item, Node.item, if_pos rfl, htag, textNode]
    split_ifs <;> simp [childItems, Node.text?]

theorem encodeRoot_noteTree : ∃ out, tsmlEncode noteTree = .ok out ∧ encodeRoot noteTree = .ok out :=
  encodeRoot_eq_tsmlEncode noteTree noteTree_encodable

end Terseml.Python
