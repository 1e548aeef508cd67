import Triepack.Bitstream.Basic
import Triepack.Library.Escape
import Triepack.Library.Leb128

/-!
# The syntax of terseml

A document is read as a tree of items: elements as they are written, and runs of text between
them. A dialect says what the grammar leaves to those who read it.
-/

namespace Terseml

open Escape

abbrev bs : UInt8 := 0x5C
abbrev lbr : UInt8 := 0x7B
abbrev rbr : UInt8 := 0x7D
abbrev lsq : UInt8 := 0x5B
abbrev rsq : UInt8 := 0x5D
abbrev com : UInt8 := 0x2C
abbrev col : UInt8 := 0x3A
abbrev letterB : UInt8 := 0x42
abbrev letterb : UInt8 := 0x62
abbrev digit0 : UInt8 := 0x30

/-- `TSML_MAX_DEPTH`. -/
def maxDepth : Nat := 256

/-- `TSML_TAG_TEXT`. -/
def tagText : List UInt8 := [0x23, 0x74, 0x65, 0x78, 0x74]

/-- `tsml_result` of a call that fails. -/
inductive TsmlErr where
  | malformed | depth | alloc | param
  deriving DecidableEq, Repr

/-! ## Nodes -/

/-- `tsml_attr`. -/
structure Attr where
  key : List UInt8
  val : List UInt8
  deriving DecidableEq, Repr

/-- `tsml_node`. -/
inductive Node where
  | text (text : List UInt8)
  | element (tag : List UInt8) (attrs : List Attr) (children : List Node)

/-- Induction on a node, with the hypothesis for every child. -/
theorem Node.induction_on {P : Node → Prop} (n : Node) (text : ∀ t, P (.text t))
    (element : ∀ tag attrs children, (∀ c ∈ children, P c) → P (.element tag attrs children)) : P n := by
  refine Node.rec (motive_1 := P) (motive_2 := fun cs => ∀ c ∈ cs, P c) text
    (fun tag attrs children => element tag attrs children) (by simp) (fun c cs hc hcs => ?_) n
  exact List.forall_mem_cons.mpr ⟨hc, hcs⟩

/-! ## Escaping -/

/-- `esc_ctx`. -/
inductive EscCtx where
  | tag | key | val | text
  deriving DecidableEq, Repr

/-- `is_reserved`. -/
def isReserved (ctx : EscCtx) (c : UInt8) : Bool :=
  if c = bs then true
  else
    match ctx with
    | .tag => c == com || c == lbr || c == rbr
    | .key => c == col || c == com || c == rsq
    | .val => c == com || c == rsq
    | .text => c == lbr || c == rbr

/-- `valid_escape`. -/
def validEscape (c : UInt8) : Bool :=
  c == lbr || c == rbr || c == lsq || c == rsq || c == com || c == col || c == bs

/-- The runs of a context. -/
def EscCtx.scheme (ctx : EscCtx) : Scheme UInt8 where
  esc := bs
  stop := isReserved ctx
  meaning e := if validEscape e then some e else none

/-- What stands behind a backslash in a `\b` run. -/
def binescape (e : UInt8) : Option UInt8 := if e = digit0 then some 0 else if e = bs then some bs else none

/-- The runs behind `\b`. -/
def binScheme : Scheme UInt8 where
  esc := bs
  stop c := c == 0
  meaning := binescape

/-- What a run of a context stands for: the byte behind a backslash is itself. -/
def copyRun : List UInt8 → List UInt8
  | [] => []
  | [c] => if c = bs then [] else [c]
  | c :: e :: rest => if c = bs then e :: copyRun rest else c :: copyRun (e :: rest)

/-- What a run behind `\b` stands for. -/
def copyBinary : List UInt8 → List UInt8
  | [] => []
  | [c] => if c = bs then [] else [c]
  | c :: e :: rest =>
    if c = bs then (if e = digit0 then 0 else e) :: copyBinary rest else c :: copyBinary (e :: rest)

theorem copyRun_of_run {ctx : EscCtx} {raw s : List UInt8} (h : Scheme.Run ctx.scheme raw s) :
    copyRun raw = s := by
  induction h with
  | nil => rfl
  | @plain c raw s hesc _ _ ih =>
    have hc : c ≠ bs := hesc
    cases raw <;> simp_all [copyRun]
  | @escaped e c raw s hmeaning _ ih =>
    obtain rfl : e = c := by
      simp only [EscCtx.scheme] at hmeaning
      split_ifs at hmeaning
      exact Option.some.inj hmeaning
    simp [copyRun, EscCtx.scheme, ih]

theorem copyBinary_of_run {raw s : List UInt8} (h : Scheme.Run binScheme raw s) :
    copyBinary raw = s := by
  induction h with
  | nil => rfl
  | @plain c raw s hesc _ _ ih =>
    have hc : c ≠ bs := hesc
    cases raw <;> simp_all [copyBinary]
  | @escaped e c raw s hmeaning _ ih =>
    have hc : (if e = digit0 then 0 else e) = c := by
      simp only [binScheme, binescape] at hmeaning
      split_ifs at hmeaning ⊢ <;> simp_all
    simp [copyBinary, binScheme, ih, hc]

/-! ## Items -/

/-- What stands in a content: a run of text in one of its three forms, or an element. The strings
are as they are written, with their escapes. -/
inductive Item where
  | text (raw : List UInt8)
  | terminated (raw : List UInt8)
  | counted (varint payload : List UInt8)
  | singleton (head : List UInt8) (content : List Item)
  | plain (tag : List UInt8) (content : List Item)
  | attributed (tag : List UInt8) (pairs : List (List UInt8 × List UInt8)) (trailing comma : Bool)
    (content : List Item)

namespace Item

/-- Induction on an item, with the hypothesis for every item in its content. -/
theorem induction_on {P : Item → Prop} (i : Item) (text : ∀ raw, P (.text raw))
    (terminated : ∀ raw, P (.terminated raw)) (counted : ∀ varint payload, P (.counted varint payload))
    (singleton : ∀ head content, (∀ i ∈ content, P i) → P (.singleton head content))
    (plain : ∀ tag content, (∀ i ∈ content, P i) → P (.plain tag content))
    (attributed : ∀ tag pairs trailing comma content, (∀ i ∈ content, P i) →
      P (.attributed tag pairs trailing comma content)) : P i := by
  refine Item.rec (motive_1 := P) (motive_2 := fun is => ∀ i ∈ is, P i) text terminated counted
    singleton plain attributed (by simp) (fun i is hi his => ?_) i
  exact List.forall_mem_cons.mpr ⟨hi, his⟩

def IsText : Item → Prop
  | .text _ => True
  | _ => False

def IsElement : Item → Prop
  | .singleton .. | .plain .. | .attributed .. => True
  | _ => False

end Item

/-- The pairs of an attribute list behind one another. -/
def pairsText (pairs : List (List UInt8 × List UInt8)) : List UInt8 :=
  [com].intercalate (pairs.map fun p => p.1 ++ col :: p.2)

mutual

/-- An item as it is written. -/
def Item.bytes : Item → List UInt8
  | .text raw => raw
  | .terminated raw => bs :: letterb :: (raw ++ [0])
  | .counted varint payload => bs :: letterB :: (varint ++ payload)
  | .singleton head content => lbr :: (head ++ (contentBytes content ++ [rbr]))
  | .plain tag content => lbr :: (tag ++ com :: (contentBytes content ++ [rbr]))
  | .attributed tag pairs trailing comma content =>
    lbr :: (tag ++ com :: lsq :: (pairsText pairs ++ ((if trailing then [com] else []) ++
      rsq :: ((if comma then [com] else []) ++ (contentBytes content ++ [rbr])))))

def contentBytes : List Item → List UInt8
  | [] => []
  | i :: is => i.bytes ++ contentBytes is

end

/-- A text node, if there is text. -/
def textNode (t : List UInt8) : List Node := if t = [] then [] else [.text t]

mutual

/-- The nodes that an item stands for: an empty run stands for none. -/
def Item.nodes : Item → List Node
  | .text raw => textNode (copyRun raw)
  | .terminated raw => textNode (copyBinary raw)
  | .counted _ payload => textNode payload
  | .singleton head content => [.element tagText [] (textNode (copyRun head) ++ contentNodes content)]
  | .plain tag content => [.element (copyRun tag) [] (contentNodes content)]
  | .attributed tag pairs _ _ content =>
    [.element (copyRun tag) (pairs.map fun p => ⟨copyRun p.1, copyRun p.2⟩) (contentNodes content)]

def contentNodes : List Item → List Node
  | [] => []
  | i :: is => i.nodes ++ contentNodes is

end

theorem contentNodes_eq_flatMap (is : List Item) : contentNodes is = is.flatMap Item.nodes := by
  induction is with
  | nil => rw [contentNodes]; rfl
  | cons i is ih => rw [contentNodes, ih, List.flatMap_cons]

theorem contentBytes_eq_flatMap (is : List Item) : contentBytes is = is.flatMap Item.bytes := by
  induction is with
  | nil => rw [contentBytes]; rfl
  | cons i is ih => rw [contentBytes, ih, List.flatMap_cons]

theorem Item.nodes_of_isElement {i : Item} (h : i.IsElement) :
    ∃ tag attrs children, i.nodes = [.element tag attrs children] := by
  cases i with
  | text | terminated | counted => exact h.elim
  | singleton | plain | attributed => exact ⟨_, _, _, by rw [Item.nodes]⟩

mutual

/-- No element in the item is nested too deeply, if the item is at a depth. -/
def Item.Within (limit : Nat) : Item → (depth : Nat) → Prop
  | .singleton _ content, depth => depth ≤ limit ∧ contentWithin limit content (depth + 1)
  | .plain _ content, depth => depth ≤ limit ∧ contentWithin limit content (depth + 1)
  | .attributed _ _ _ _ content, depth => depth ≤ limit ∧ contentWithin limit content (depth + 1)
  | _, _ => True

def contentWithin (limit : Nat) : List Item → (depth : Nat) → Prop
  | [], _ => True
  | i :: is, depth => i.Within limit depth ∧ contentWithin limit is depth

end

/-! ## Dialects -/

/-- What readers do differently. -/
structure Dialect where
  /-- A singleton may hold more than text. -/
  richSingleton : Bool
  /-- Content may follow the attributes without a comma. -/
  bareContent : Bool
  /-- A `\b` or `\B` run may follow text. -/
  runAfterText : Bool
  /-- The length that is meant by the number of a `\B` run. -/
  length : Nat → Nat

/-- The string can be read in a context. -/
def IsRun (ctx : EscCtx) (raw : List UInt8) : Prop := ∃ s, Scheme.Run ctx.scheme raw s

/-- `varint`. -/
def IsVarint (varint : List UInt8) : Prop := Leb128.IsCode varint ∧ varint.length ≤ 10

/-- What may stand behind an item. Text goes on to the next construct. -/
def Follows (D : Dialect) (i : Item) (next : Option Item) : Prop :=
  i.IsText → ∀ j ∈ next, ¬ j.IsText ∧ (D.runAfterText ∨ j.IsElement)

mutual

/-- The item is well formed in the dialect. -/
def Item.Ok (D : Dialect) : Item → Prop
  | .text raw => raw ≠ [] ∧ IsRun .text raw
  | .terminated raw => ∃ s, Scheme.Run binScheme raw s
  | .counted varint payload => IsVarint varint ∧ D.length (Leb128.byteValue varint) = payload.length
  | .singleton head content =>
    IsRun .tag head ∧ contentOk D content ∧ (∀ i ∈ content.head?, ¬ i.IsText) ∧
      (content = [] ∨ D.richSingleton)
  | .plain tag content =>
    IsRun .tag tag ∧ contentOk D content ∧ (contentBytes content).head? ≠ some lsq
  | .attributed tag pairs trailing comma content =>
    IsRun .tag tag ∧ (∀ p ∈ pairs, IsRun .key p.1 ∧ IsRun .val p.2) ∧ (trailing → pairs ≠ []) ∧
      contentOk D content ∧
      (comma = false → (contentBytes content).head? ≠ some com ∧ (content = [] ∨ D.bareContent))

def contentOk (D : Dialect) : List Item → Prop
  | [] => True
  | i :: is => i.Ok D ∧ contentOk D is ∧ Follows D i is.head?

end

/-- What `tsml_decode` reads. -/
def Dialect.c : Dialect := ⟨false, true, false, Triepack.u64⟩

/-- What `decode` of the Python module reads. -/
def Dialect.python : Dialect := ⟨false, true, false, id⟩

/-- The published grammar. -/
def Dialect.grammar : Dialect := ⟨true, false, true, id⟩

/-- What anyone reads. -/
def Dialect.tolerant : Dialect := ⟨true, true, true, Triepack.u64⟩

end Terseml
