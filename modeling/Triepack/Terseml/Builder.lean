import Triepack.Library.Acyclic
import Triepack.Terseml.RoundTrip

/-!
# Building documents

The nodes of a document point to each other: a node can be the child of several elements, or of itself,
and it changes under the elements that have it already. Memory is never refused. `Stands` says which
tree an encoder that follows the pointers sees at a node.
-/

namespace Terseml.Builder

open Relation Triepack

/-! ## The calls -/

/-- `tsml_node`; a child is the place of its node in the document. -/
inductive Cell where
  | text (text : List UInt8)
  | element (tag : List UInt8) (attrs : List Attr) (children : List Nat)
  deriving DecidableEq, Repr

def Cell.children : Cell → List Nat
  | .text _ => []
  | .element _ _ children => children

/-- The nodes of a document in the order in which they were made. -/
structure Doc where
  cells : List Cell
  inside : ∀ cell ∈ cells, ∀ c ∈ cell.children, c < cells.length

/-- A node without children at the end. -/
def Doc.append (a : Doc) (cell : Cell) (h : cell.children = []) : Doc where
  cells := a.cells ++ [cell]
  inside := by
    intro x hx c hc
    rw [List.length_append]
    rcases List.mem_append.mp hx with hx | hx
    · exact Nat.lt_add_right _ (a.inside x hx c hc)
    · rw [List.mem_singleton.mp hx, h] at hc
      exact absurd hc (by simp)

/-- Another node at the place. -/
def Doc.put (a : Doc) (i : Nat) (cell : Cell) (h : ∀ c ∈ cell.children, c < a.cells.length) : Doc where
  cells := a.cells.set i cell
  inside := by
    intro x hx c hc
    rw [List.length_set]
    rcases List.mem_or_eq_of_mem_set hx with hx | rfl
    · exact a.inside x hx c hc
    · exact h c hc

/-- `tsml_builder_create`. -/
def tsmlBuilderCreate : Doc := ⟨[], by simp⟩

/-- `tsml_text`. -/
def tsmlText (a : Doc) (text : List UInt8) : Doc × Nat := (a.append (.text text) rfl, a.cells.length)

/-- `tsml_element`. -/
def tsmlElement (a : Doc) (tag : List UInt8) : Doc × Nat := (a.append (.element tag [] []) rfl, a.cells.length)

/-- `tsml_add_attr`. -/
def tsmlAddAttr (a : Doc) (el : Nat) (key val : List UInt8) : Except TsmlErr Doc :=
  match h : a.cells[el]? with
  | some (.element tag attrs children) =>
    .ok (a.put el (.element tag (attrs ++ [⟨key, val⟩]) children)
      (a.inside (.element tag attrs children) (List.mem_of_getElem? h)))
  | _ => .error .param

/-- `tsml_add_child`. -/
def tsmlAddChild (a : Doc) (el child : Nat) : Except TsmlErr Doc :=
  match h : a.cells[el]? with
  | some (.element tag attrs children) =>
    if hc : child < a.cells.length then
      .ok (a.put el (.element tag attrs (children ++ [child])) (by
        intro c hmem
        rcases List.mem_append.mp hmem with hmem | hmem
        · exact a.inside (.element tag attrs children) (List.mem_of_getElem? h) c hmem
        · rwa [List.mem_singleton.mp hmem]))
    else .error .param
  | _ => .error .param

/-- The text of a text node. -/
def Doc.text? (a : Doc) (n : Nat) : Option (List UInt8) :=
  match a.cells[n]? with
  | some (.text t) => some t
  | _ => none

/-- The loop of `encode_node` over the children. -/
def encodeChildren (a : Doc) (child : Nat → Option (List UInt8)) :
    List Nat → (atStart : Bool) → Option (List UInt8)
  | [], _ => some []
  | c :: children, atStart => do
    let out ←
      match a.text? c with
      | some t => some (writeText t atStart)
      | none => child c
    let rest ← encodeChildren a child children false
    some (out ++ rest)

/-- `encode_node`, with the levels that are left below `TSML_MAX_DEPTH`. -/
def encodeNode (a : Doc) : (left : Nat) → (n : Nat) → Option (List UInt8)
  | 0, _ => none
  | left + 1, n =>
    match a.cells[n]? with
    | none => none
    | some (.text t) => some (lbr :: (tagText ++ com :: (writeText t true ++ [rbr])))
    | some (.element tag attrs children) => do
      let content ← encodeChildren a (encodeNode a left) children (attrs = [])
      some (lbr :: (writeEscaped .tag tag false ++ (encodeAttrs attrs ++ com :: (content ++ [rbr]))))

/-- `tsml_encode`. -/
def tsmlEncode (a : Doc) (n : Nat) : Except TsmlErr (List UInt8) :=
  if n < a.cells.length then
    match encodeNode a (maxDepth + 1) n with
    | none => .error .alloc
    | some out => .ok out
  else .error .param

/-- A call of a client. -/
inductive Call where
  | text (text : List UInt8)
  | element (tag : List UInt8)
  | addAttr (el : Nat) (key val : List UInt8)
  | addChild (el child : Nat)

/-- A call that is refused changes nothing. -/
def Call.run (a : Doc) : Call → Doc
  | .text t => (tsmlText a t).1
  | .element tag => (tsmlElement a tag).1
  | .addAttr el key val => (tsmlAddAttr a el key val).toOption.getD a
  | .addChild el child => (tsmlAddChild a el child).toOption.getD a

def runCalls (a : Doc) (calls : List Call) : Doc := calls.foldl Call.run a

/-! ## The tree at a node -/

section Stands

variable (cells : List Cell)

mutual

/-- The pointers from the place lead through this tree. -/
def Stands : Node → (n : Nat) → Prop
  | .text t, n => cells[n]? = some (.text t)
  | .element tag attrs ts, n => ∃ children, cells[n]? = some (.element tag attrs children) ∧ KidsStand ts children

def KidsStand : List Node → (children : List Nat) → Prop
  | [], children => children = []
  | t :: ts, children => ∃ c cs, children = c :: cs ∧ Stands t c ∧ KidsStand ts cs

end

/-- The second node is a child of the first. -/
def Child (n c : Nat) : Prop := ∃ cell, cells[n]? = some cell ∧ c ∈ cell.children

end Stands

variable {a : Doc} {cells : List Cell} {n : Nat} {t : Node} {ts : List Node} {children : List Nat}

theorem kidsStand_iff : KidsStand cells ts children ↔ List.Forall₂ (Stands cells) ts children := by
  induction ts generalizing children with
  | nil => rw [KidsStand, List.forall₂_nil_left_iff]
  | cons t ts ih =>
    rw [KidsStand, List.forall₂_cons_left_iff]
    simp only [ih]
    grind

/-! ## What is encoded -/

theorem text?_eq_some {s : List UInt8} : a.text? n = some s ↔ a.cells[n]? = some (.text s) := by
  rw [Doc.text?]
  split <;> simp_all

/-- At the text of a child both encoders stop alike. -/
theorem text?_eq (h : Stands cells t n) (ha : a.cells = cells) : a.text? n = t.text? := by
  cases t with
  | text t => rw [Doc.text?, ha, show cells[n]? = _ from h, Node.text?]
  | element tag attrs ts =>
    obtain ⟨children, hn, -⟩ := h
    rw [Doc.text?, ha, hn, Node.text?]

theorem encodeChildren_eq {child : Nat → Option (List UInt8)} {depth : Nat}
    (hkids : KidsStand a.cells ts children)
    (hchild : ∀ t ∈ ts, ∀ c, Stands a.cells t c → child c = Terseml.encodeNode t (depth + 1)) (atStart : Bool) :
    encodeChildren a child children atStart = Terseml.encodeChildren ts atStart depth := by
  induction ts generalizing children atStart with
  | nil =>
    obtain rfl := hkids
    rfl
  | cons t ts ih =>
    obtain ⟨c, cs, rfl, hc, hcs⟩ := hkids
    rw [encodeChildren, Terseml.encodeChildren, text?_eq hc rfl, hchild t (by simp) c hc]
    cases t.text? <;> simp only [ih hcs fun u hu => hchild u (by simp [hu])]

/-- What is encoded is the tree that stands at the node. -/
theorem encodeNode_eq {left : Nat} (hleft : left ≤ maxDepth + 1) (h : Stands a.cells t n) :
    encodeNode a left n = Terseml.encodeNode t (maxDepth + 1 - left) := by
  induction left generalizing t n with
  | zero =>
    cases t <;> rw [encodeNode, Terseml.encodeNode, if_pos (by omega)]
  | succ left ih =>
    cases t with
    | text t => rw [encodeNode, Terseml.encodeNode, if_neg (by omega), show a.cells[n]? = _ from h]
    | element tag attrs ts =>
      obtain ⟨children, hn, hkids⟩ := h
      rw [encodeNode, Terseml.encodeNode, if_neg (by omega), hn]
      have hchild : ∀ t ∈ ts, ∀ c, Stands a.cells t c →
          encodeNode a left c = Terseml.encodeNode t (maxDepth + 1 - (left + 1) + 1) := by
        intro t _ c hc
        rw [ih (by omega) hc]
        congr 1
        omega
      simp only [encodeChildren_eq hkids hchild]

theorem exists_kidsStand {child : Nat → Option (List UInt8)}
    (hchild : ∀ c out, child c = some out → ∃ t, Stands a.cells t c) {atStart : Bool} {out : List UInt8}
    (h : encodeChildren a child children atStart = some out) : ∃ ts, KidsStand a.cells ts children := by
  induction children generalizing atStart out with
  | nil => exact ⟨[], rfl⟩
  | cons c cs ih =>
    rw [encodeChildren] at h
    cases htext : a.text? c with
    | none =>
      rw [htext] at h
      obtain ⟨head, hhead, h⟩ := Option.bind_eq_some_iff.mp h
      obtain ⟨rest, hrest, -⟩ := Option.bind_eq_some_iff.mp h
      obtain ⟨t, ht⟩ := hchild c head hhead
      obtain ⟨ts, hts⟩ := ih hrest
      exact ⟨t :: ts, c, cs, rfl, ht, hts⟩
    | some t =>
      rw [htext] at h
      obtain ⟨head, -, h⟩ := Option.bind_eq_some_iff.mp h
      obtain ⟨rest, hrest, -⟩ := Option.bind_eq_some_iff.mp h
      obtain ⟨ts, hts⟩ := ih hrest
      exact ⟨.text t :: ts, c, cs, rfl, text?_eq_some.mp htext, hts⟩

/-- Where something is encoded a tree stands. -/
theorem exists_stands {left : Nat} {out : List UInt8} (h : encodeNode a left n = some out) :
    ∃ t, Stands a.cells t n := by
  induction left generalizing n out with
  | zero => cases h
  | succ left ih =>
    rw [encodeNode] at h
    split at h
    next => cases h
    next t hn => exact ⟨.text t, hn⟩
    next tag attrs children hn =>
      obtain ⟨content, hcontent, -⟩ := Option.bind_eq_some_iff.mp h
      obtain ⟨ts, hts⟩ := exists_kidsStand (fun c out hc => ih hc) hcontent
      exact ⟨.element tag attrs ts, children, hn, hts⟩

/-! ## Cycles -/

theorem lt_of_child {c : Nat} (h : Child a.cells n c) : c < a.cells.length := by
  obtain ⟨cell, hn, hc⟩ := h
  exact a.inside cell (List.mem_of_getElem? hn) c hc

theorem finite_reaches (a : Doc) (n : Nat) : {c | ReflTransGen (Child a.cells) n c}.Finite := by
  refine (Set.finite_Iio (max (n + 1) a.cells.length)).subset fun c hc => Set.mem_Iio.mpr ?_
  rcases ReflTransGen.cases_tail hc with rfl | ⟨b, -, hbc⟩
  · exact lt_max_of_lt_left (Nat.lt_succ_self _)
  · exact lt_max_of_lt_right (lt_of_child hbc)

theorem exists_stands_of_acc (h : Acc (flip (Child a.cells)) n) (hn : n < a.cells.length) :
    ∃ t, Stands a.cells t n := by
  induction h with
  | intro n _ ih =>
    cases hcell : a.cells[n] with
    | text t => exact ⟨.text t, by rw [Stands, List.getElem?_eq_getElem hn, hcell]⟩
    | element tag attrs children =>
      have hget : a.cells[n]? = some (.element tag attrs children) := by rw [List.getElem?_eq_getElem hn, hcell]
      have hkids : ∀ c ∈ children, ∃ t, Stands a.cells t c := fun c hc =>
        ih c ⟨_, hget, hc⟩ (lt_of_child ⟨_, hget, hc⟩)
      have hall : ∃ ts, KidsStand a.cells ts children := by
        clear hget hcell
        induction children with
        | nil => exact ⟨[], rfl⟩
        | cons c cs ihcs =>
          obtain ⟨t, ht⟩ := hkids c (by simp)
          obtain ⟨ts, hts⟩ := ihcs fun d hd => hkids d (by simp [hd])
          exact ⟨t :: ts, c, cs, rfl, ht, hts⟩
      obtain ⟨ts, hts⟩ := hall
      exact ⟨.element tag attrs ts, children, hget, hts⟩

theorem acc_of_stands (h : Stands cells t n) : Acc (flip (Child cells)) n := by
  induction t using Node.induction_on generalizing n with
  | text t =>
    refine ⟨_, fun c hc => ?_⟩
    obtain ⟨cell, hn, hmem⟩ := hc
    rw [show cells[n]? = _ from h, Option.some_inj] at hn
    subst hn
    cases hmem
  | element tag attrs ts ih =>
    obtain ⟨children, hget, hkids⟩ := h
    refine ⟨_, fun c hc => ?_⟩
    obtain ⟨cell, hn, hmem⟩ := hc
    rw [hget, Option.some_inj] at hn
    subst hn
    obtain ⟨i, hi, rfl⟩ := List.mem_iff_getElem.mp hmem
    have hforall := kidsStand_iff.mp hkids
    have hi' : i < ts.length := by rw [hforall.length_eq]; exact hi
    exact ih ts[i] (List.getElem_mem hi') (hforall.get hi' hi)

/-- A tree stands at every node that reaches no cycle, and at no other. -/
theorem exists_stands_iff (hn : n < a.cells.length) :
    (∃ t, Stands a.cells t n) ↔ Acyclic.Below (Child a.cells) n := by
  rw [← Acyclic.acc_iff_below (finite_reaches a n)]
  exact ⟨fun ⟨_, h⟩ => acc_of_stands h, fun h => exists_stands_of_acc h hn⟩

theorem tsmlEncode_eq (hn : n < a.cells.length) (h : Stands a.cells t n) :
    tsmlEncode a n = Terseml.tsmlEncode t := by
  rw [tsmlEncode, if_pos hn, encodeNode_eq (le_refl _) h, Nat.sub_self]
  cases hencode : Terseml.encodeNode t 0 <;> rw [Terseml.tsmlEncode, hencode]

/-- Whatever calls were made, and however the nodes are shared: a tree stands at every node that reaches
no cycle, and what is encoded there is what is encoded of that tree; at the other nodes nothing is. -/
theorem tsmlEncode_afterCalls (calls : List Call) {n : Nat}
    (hn : n < (runCalls tsmlBuilderCreate calls).cells.length) :
    (∀ t, Stands (runCalls tsmlBuilderCreate calls).cells t n →
        tsmlEncode (runCalls tsmlBuilderCreate calls) n = Terseml.tsmlEncode t) ∧
      ((∃ t, Stands (runCalls tsmlBuilderCreate calls).cells t n) ↔
        Acyclic.Below (Child (runCalls tsmlBuilderCreate calls).cells) n) ∧
      (¬ Acyclic.Below (Child (runCalls tsmlBuilderCreate calls).cells) n →
        tsmlEncode (runCalls tsmlBuilderCreate calls) n = .error .alloc) := by
  generalize runCalls tsmlBuilderCreate calls = a at hn ⊢
  refine ⟨fun t => tsmlEncode_eq hn, exists_stands_iff hn, fun hcycle => ?_⟩
  rw [tsmlEncode, if_pos hn]
  cases hencode : encodeNode a (maxDepth + 1) n with
  | none => rfl
  | some out => exact absurd ((exists_stands_iff hn).mp (exists_stands hencode)) hcycle

/-- Two children that are one and the same text. -/
def sharedCalls : List Call := [.element [0x61], .text [0x78], .addChild 0 1, .addChild 0 1]

theorem tsmlEncode_afterCalls_shared :
    (∀ t, Stands (runCalls tsmlBuilderCreate sharedCalls).cells t 0 →
        tsmlEncode (runCalls tsmlBuilderCreate sharedCalls) 0 = Terseml.tsmlEncode t) ∧
      ((∃ t, Stands (runCalls tsmlBuilderCreate sharedCalls).cells t 0) ↔
        Acyclic.Below (Child (runCalls tsmlBuilderCreate sharedCalls).cells) 0) ∧
      (¬ Acyclic.Below (Child (runCalls tsmlBuilderCreate sharedCalls).cells) 0 →
        tsmlEncode (runCalls tsmlBuilderCreate sharedCalls) 0 = .error .alloc) :=
  tsmlEncode_afterCalls sharedCalls (by decide)

/-! ## Building a tree -/

mutual

/-- The nodes of a tree that is built from the next node on. -/
def cellsOf : Node → (next : Nat) → List Cell
  | .text t, _ => [.text t]
  | .element tag attrs ts, next => .element tag attrs (places ts (next + 1)) :: kidsCells ts (next + 1)

def kidsCells : List Node → (next : Nat) → List Cell
  | [], _ => []
  | t :: ts, next => cellsOf t next ++ kidsCells ts (next + (cellsOf t next).length)

/-- Where the children come to stand. -/
def places : List Node → (next : Nat) → List Nat
  | [], _ => []
  | t :: ts, next => next :: places ts (next + (cellsOf t next).length)

end

mutual

/-- The calls of a client that builds a tree from the next node on. -/
def treeCalls : Node → (next : Nat) → List Call
  | .text t, _ => [.text t]
  | .element tag attrs ts, next =>
    .element tag :: (attrs.map fun attr => .addAttr next attr.key attr.val) ++ kidsCalls next ts (next + 1)

/-- Every child is built and then added. -/
def kidsCalls (el : Nat) : List Node → (next : Nat) → List Call
  | [], _ => []
  | t :: ts, next => treeCalls t next ++ .addChild el next :: kidsCalls el ts (next + (cellsOf t next).length)

end

section Runs

variable {tag : List UInt8} {attrs : List Attr} {el : Nat}

theorem runCalls_append (a : Doc) (calls calls' : List Call) :
    runCalls a (calls ++ calls') = runCalls (runCalls a calls) calls' := List.foldl_append

theorem runCalls_cons (a : Doc) (call : Call) (calls : List Call) :
    runCalls a (call :: calls) = runCalls (call.run a) calls := rfl

theorem cells_addAttr {key val : List UInt8} (h : a.cells[el]? = some (.element tag attrs children)) :
    (Call.run a (.addAttr el key val)).cells = a.cells.set el (.element tag (attrs ++ [⟨key, val⟩]) children) := by
  rw [Call.run, tsmlAddAttr]
  split
  next hel =>
    rw [h, Option.some_inj, Cell.element.injEq] at hel
    obtain ⟨rfl, rfl, rfl⟩ := hel
    rfl
  next hel => exact absurd h (hel _ _ _)

theorem cells_addChild {child : Nat} (h : a.cells[el]? = some (.element tag attrs children))
    (hc : child < a.cells.length) :
    (Call.run a (.addChild el child)).cells = a.cells.set el (.element tag attrs (children ++ [child])) := by
  rw [Call.run, tsmlAddChild]
  split
  next hel =>
    rw [h, Option.some_inj, Cell.element.injEq] at hel
    obtain ⟨rfl, rfl, rfl⟩ := hel
    rw [dif_pos hc]
    rfl
  next hel => exact absurd h (hel _ _ _)

theorem cells_addAttrs {new : List Attr} (h : a.cells[el]? = some (.element tag attrs children)) :
    (runCalls a (new.map fun attr => .addAttr el attr.key attr.val)).cells =
      a.cells.set el (.element tag (attrs ++ new) children) := by
  induction new generalizing a attrs with
  | nil =>
    obtain ⟨hlt, hget⟩ := List.getElem?_eq_some_iff.mp h
    rw [List.append_nil, ← hget, List.set_getElem_self]
    rfl
  | cons attr new ih =>
    have hcells := @cells_addAttr a children tag attrs el attr.key attr.val h
    have hel : (Call.run a (.addAttr el attr.key attr.val)).cells[el]? =
        some (.element tag (attrs ++ [attr]) children) := by
      rw [hcells, List.getElem?_set_self (List.getElem?_eq_some_iff.mp h).1]
    rw [List.map_cons, runCalls_cons, ih hel, hcells, List.set_set, List.append_assoc, List.singleton_append]

theorem cellsOf_ne_nil (t : Node) (next : Nat) : cellsOf t next ≠ [] := by
  cases t <;> simp [cellsOf]

/-- The calls that build the children and add them one by one. -/
theorem cells_kidsCalls
    (hbuild : ∀ t ∈ ts, ∀ a, (runCalls a (treeCalls t a.cells.length)).cells = a.cells ++ cellsOf t a.cells.length)
    (h : a.cells[el]? = some (.element tag attrs children)) :
    (runCalls a (kidsCalls el ts a.cells.length)).cells =
      a.cells.set el (.element tag attrs (children ++ places ts a.cells.length)) ++ kidsCells ts a.cells.length := by
  obtain ⟨hlt, hget⟩ := List.getElem?_eq_some_iff.mp h
  induction ts generalizing a children with
  | nil =>
    rw [places, kidsCells, List.append_nil, List.append_nil, ← hget, List.set_getElem_self]
    rfl
  | cons t ts ih =>
    obtain ⟨b, hb⟩ : ∃ b, runCalls a (treeCalls t a.cells.length) = b := ⟨_, rfl⟩
    have hcells : b.cells = a.cells ++ cellsOf t a.cells.length := by rw [← hb, hbuild t (by simp) a]
    have hpos : 0 < (cellsOf t a.cells.length).length := List.length_pos_iff.mpr (cellsOf_ne_nil t _)
    have hbel : b.cells[el]? = some (.element tag attrs children) := by
      rw [hcells, List.getElem?_append_left hlt, h]
    have hadd := cells_addChild hbel (show a.cells.length < b.cells.length by
      rw [hcells, List.length_append]
      omega)
    obtain ⟨c, hc⟩ : ∃ c, Call.run b (.addChild el a.cells.length) = c := ⟨_, rfl⟩
    rw [hc, hcells, List.set_append_left _ _ hlt] at hadd
    have hlen : c.cells.length = a.cells.length + (cellsOf t a.cells.length).length := by
      rw [hadd, List.length_append, List.length_set]
    have hcel : c.cells[el]? = some (.element tag attrs (children ++ [a.cells.length])) := by
      rw [hadd, List.getElem?_append_left (by rwa [List.length_set]), List.getElem?_set_self hlt]
    obtain ⟨hclt, hcget⟩ := List.getElem?_eq_some_iff.mp hcel
    have hrest := ih (fun u hu => hbuild u (by simp [hu])) hcel hclt hcget
    rw [kidsCalls, runCalls_append, hb, runCalls_cons, hc, ← hlen, hrest, places, kidsCells, ← hlen]
    generalize c.cells.length = next
    rw [hadd, List.set_append_left _ _ (by rwa [List.length_set]), List.set_set, List.append_assoc, List.append_assoc,
      List.singleton_append]

/-- The calls for a tree put its nodes behind those that are there. -/
theorem cells_treeCalls (t : Node) (a : Doc) :
    (runCalls a (treeCalls t a.cells.length)).cells = a.cells ++ cellsOf t a.cells.length := by
  induction t using Node.induction_on generalizing a with
  | text t => rfl
  | element tag attrs ts ih =>
    obtain ⟨b, hb⟩ : ∃ b, Call.run a (.element tag) = b := ⟨_, rfl⟩
    have hbcells : b.cells = a.cells ++ [.element tag [] []] := by rw [← hb]; rfl
    have hbel : b.cells[a.cells.length]? = some (.element tag [] []) := by rw [hbcells, List.getElem?_concat_length]
    obtain ⟨c, hc⟩ : ∃ c,
        runCalls b (attrs.map fun attr => .addAttr a.cells.length attr.key attr.val) = c := ⟨_, rfl⟩
    have hccells : c.cells = a.cells ++ [.element tag attrs []] := by
      rw [← hc, cells_addAttrs hbel, hbcells, List.nil_append, List.set_append_right _ _ (le_refl _), Nat.sub_self]
      rfl
    have hcel : c.cells[a.cells.length]? = some (.element tag attrs []) := by
      rw [hccells, List.getElem?_concat_length]
    have hlen : c.cells.length = a.cells.length + 1 := by rw [hccells, List.length_append, List.length_singleton]
    have hkids := cells_kidsCalls ih hcel
    rw [hlen] at hkids
    rw [treeCalls, runCalls_append, runCalls_cons, hb, hc, hkids, hccells, List.set_append_right _ _ (le_refl _),
      Nat.sub_self, List.nil_append, cellsOf, List.append_assoc]
    rfl

/-- A tree stands where its nodes are. -/
theorem stands_of_cellsOf {next : Nat} (h : ∀ i x, (cellsOf t next)[i]? = some x → cells[next + i]? = some x) :
    Stands cells t next := by
  induction t using Node.induction_on generalizing next with
  | text t => exact h 0 _ rfl
  | element tag attrs ts ih =>
    refine ⟨places ts (next + 1), h 0 _ rfl, ?_⟩
    have hkids : ∀ i x, (kidsCells ts (next + 1))[i]? = some x → cells[next + 1 + i]? = some x := by
      intro i x hx
      rw [Nat.add_right_comm]
      exact h (i + 1) x hx
    clear h
    generalize next + 1 = next at hkids
    induction ts generalizing next with
    | nil => rfl
    | cons t ts ihts =>
      refine ⟨next, _, rfl, ih t (by simp) fun i x hx => hkids i x ?_, ihts (fun u hu => ih u (by simp [hu])) _ ?_⟩
      · rw [kidsCells, List.getElem?_append_left (List.getElem?_eq_some_iff.mp hx).1, hx]
      · intro i x hx
        rw [Nat.add_assoc]
        refine hkids _ x ?_
        rw [kidsCells, List.getElem?_append_right (Nat.le_add_right _ _), Nat.add_sub_cancel_left, hx]

/-- Nodes behind those of a document change nothing at the nodes that it has. -/
theorem encodeNode_of_append {a b : Doc} {more : List Cell} (h : b.cells = a.cells ++ more) (left : Nat)
    {n : Nat} (hn : n < a.cells.length) : encodeNode b left n = encodeNode a left n := by
  induction left generalizing n with
  | zero => rfl
  | succ left ih =>
    have hget : ∀ i < a.cells.length, b.cells[i]? = a.cells[i]? := fun i hi => by
      rw [h, List.getElem?_append_left hi]
    rw [encodeNode, encodeNode, hget n hn]
    cases hcell : a.cells[n]? with
    | none => rfl
    | some cell =>
      cases cell with
      | text t => rfl
      | element tag attrs children =>
        have hkids : ∀ c ∈ children, c < a.cells.length := a.inside _ (List.mem_of_getElem? hcell)
        have hloop : ∀ atStart, encodeChildren b (encodeNode b left) children atStart =
            encodeChildren a (encodeNode a left) children atStart := by
          clear hcell
          induction children with
          | nil => exact fun _ => rfl
          | cons c cs ihcs =>
            intro atStart
            have hc := hkids c (by simp)
            rw [encodeChildren, encodeChildren, Doc.text?, Doc.text?, hget c hc, ih hc,
              ihcs fun d hd => hkids d (by simp [hd])]
        simp only [hloop]

end Runs

/-- After any calls, the calls that build a tree make a node at which that tree is encoded, so that it is
what `tsml_decode` reads of it, and leave alone what is encoded at the nodes made before. -/
theorem tsmlEncode_afterTreeCalls (calls : List Call) (t : Node) :
    let a := runCalls tsmlBuilderCreate calls
    let b := runCalls a (treeCalls t a.cells.length)
    tsmlEncode b a.cells.length = Terseml.tsmlEncode t ∧
      (t.IsElement → t.Encodable → ∃ out, tsmlEncode b a.cells.length = .ok out ∧ tsmlDecode out = .ok t) ∧
      ∀ n < a.cells.length, tsmlEncode b n = tsmlEncode a n := by
  intro a b
  have hcells : b.cells = a.cells ++ cellsOf t a.cells.length := cells_treeCalls t a
  have hlen : b.cells.length = a.cells.length + (cellsOf t a.cells.length).length := by
    rw [hcells, List.length_append]
  have hpos : 0 < (cellsOf t a.cells.length).length := List.length_pos_iff.mpr (cellsOf_ne_nil t _)
  have hstands : Stands b.cells t a.cells.length := by
    refine stands_of_cellsOf fun i x hx => ?_
    rw [hcells, List.getElem?_append_right (Nat.le_add_right _ _), Nat.add_sub_cancel_left, hx]
  have hencode : tsmlEncode b a.cells.length = Terseml.tsmlEncode t := tsmlEncode_eq (by omega) hstands
  refine ⟨hencode, fun helement h => ?_, fun n hn => ?_⟩
  · rw [hencode]
    exact h.reencodes helement
  · rw [tsmlEncode, tsmlEncode, if_pos hn, if_pos (by omega), encodeNode_of_append hcells _ hn]

theorem tsmlEncode_afterTreeCalls_noteTree :
    ∃ out, tsmlEncode (runCalls (runCalls tsmlBuilderCreate sharedCalls) (treeCalls noteTree 2)) 2 = .ok out ∧
      tsmlDecode out = .ok noteTree :=
  (tsmlEncode_afterTreeCalls sharedCalls noteTree).2.1 rfl noteTree_encodable

end Terseml.Builder
