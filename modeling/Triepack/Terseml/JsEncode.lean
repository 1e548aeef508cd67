import Triepack.Terseml.PythonEncode

/-!
# The encoder of the JavaScript module

It escapes byte by byte, where the Python module replaces bytes one kind at a time, and writes the
same bytes for every tree. Lengths are far below 2^53, so the doubles that count them are exact.
-/

namespace Terseml.Js

open Triepack
open Python (EncodeError)

/-! ## Strings -/

def isSet (set : List UInt8) (byte : UInt8) : Bool := set.contains byte

def rTag : List UInt8 := [com, lbr, rbr]

def rKey : List UInt8 := [col, com, rsq]

def rVal : List UInt8 := [com, rsq]

def rText : List UInt8 := [lbr, rbr]

/-- `escapeBytes`; only the first byte is compared with the leading one. -/
def escapeBytes (reserved : List UInt8) : List UInt8 → (escapeLeading : Option UInt8) → List UInt8
  | [], _ => []
  | b :: raw, escapeLeading =>
    (if b = bs || isSet reserved b || escapeLeading = some b then [bs, b] else [b]) ++
      escapeBytes reserved raw none

/-- The loop of `varint`. -/
def varintLoop : (fuel n : Nat) → List UInt8
  | 0, _ => []
  | fuel + 1, n =>
    let b := n &&& 0x7F
    let n := n / 128
    if n ≠ 0 then UInt8.ofNat (b ||| 0x80) :: varintLoop fuel n else [UInt8.ofNat b]

def varint (n : Nat) : List UInt8 := varintLoop (n + 1) n

def sizeInline (b : List UInt8) : Nat :=
  b.foldl (fun n x => if x = lbr ∨ x = rbr ∨ x = bs then n + 1 else n) b.length

def sizeTerminated (b : List UInt8) : Nat :=
  b.foldl (fun n x => if x = 0 ∨ x = bs then n + 1 else n) (2 + b.length + 1)

def sizeCounted (b : List UInt8) : Nat := 2 + (varint b.length).length + b.length

def chooseForm (payload : List UInt8) (leadingBracket : Bool) : BinForm :=
  let c := sizeCounted payload
  let t := sizeTerminated payload
  let i := sizeInline payload + if leadingBracket ∧ payload.head? = some lsq then 1 else 0
  let best := min c (min t i)
  if c = best then .counted
  else if t = best then .terminated
  else .inline

def encodeBinary (payload : List UInt8) (form : BinForm) : List UInt8 :=
  if form = .counted then bs :: letterB :: (varint payload.length ++ payload)
  else
    let body := payload.flatMap fun b => if b = bs then [bs, bs] else if b = 0 then [bs, digit0] else [b]
    bs :: letterb :: (body ++ [0])

/-! ## Elements -/

/-- The loop of `mergeText`. -/
def mergeStep (out : List Node) (c : Node) : List Node :=
  match out.getLast?, c with
  | some (.text last), .text t => out.dropLast ++ [.text (last ++ t)]
  | _, _ => out ++ [c]

def mergeText (children : List Node) : List Node :=
  (children.foldl mergeStep []).filter fun c =>
    match c with
    | .element .. => true
    | .text t => decide (t.length > 0)

/-- The loop of `encode` over the children that have been merged. -/
def encodeChildren (encode : Node → Except EncodeError (List UInt8)) :
    List Node → (atStart : Bool) → Except EncodeError (List UInt8)
  | [], _ => .ok []
  | child :: children, atStart => do
    let part ←
      match child with
      | .element .. => encode child
      | .text t =>
        let form := chooseForm t atStart
        .ok (if form = .inline then escapeBytes rText t (if atStart then some lsq else none)
          else encodeBinary t form)
    let parts ← encodeChildren encode children false
    .ok (part ++ parts)

/-- The rest of `encode`, for an element. -/
def encodeElement (encode : Node → Except EncodeError (List UInt8)) (tag : List UInt8) (attrs : List Attr)
    (children : List Node) : Except EncodeError (List UInt8) := do
  let pairs := attrs.map fun a => escapeBytes rKey a.key none ++ col :: escapeBytes rVal a.val none
  let slot := if attrs = [] then [] else com :: lsq :: ([com].intercalate pairs ++ [rsq])
  let children := mergeText children
  let content ←
    if children.length > 0 then do
      let parts ← encodeChildren encode children (attrs = [])
      .ok (com :: parts)
    else .ok [com]
  .ok (lbr :: (escapeBytes rTag tag none ++ (slot ++ (content ++ [rbr]))))

/-- `encode`, with the number of levels that are left: none are where `depth` is over `MAX_DEPTH`. -/
def encode : (levels : Nat) → Node → Except EncodeError (List UInt8)
  | 0, _ => .error .nesting
  | levels + 1, .text t => encodeElement (encode levels) tagText [] [.text t]
  | levels + 1, .element tag attrs children => encodeElement (encode levels) tag attrs children

/-- `encode` at the root. -/
def encodeRoot (node : Node) : Except EncodeError (List UInt8) := encode (maxDepth + 1) node

/-- `encodeDocument`. -/
def encodeDocument (nodes : List Node) : Except EncodeError (List UInt8) := do
  let parts ← nodes.mapM encodeRoot
  .ok parts.flatten

/-! ## The same bytes as in Python -/

section Strings

variable {ctx : EscCtx}

/-- The bytes that the module lists for a context. -/
def reserved : EscCtx → List UInt8
  | .tag => rTag
  | .key => rKey
  | .val => rVal
  | .text => rText

theorem isReserved_eq (ctx : EscCtx) (b : UInt8) : isReserved ctx b = (b = bs || isSet (reserved ctx) b) := by
  cases ctx <;> simp only [isReserved, reserved, isSet, rTag, rKey, rVal, rText] <;> grind

theorem escapeBytes_eq (ctx : EscCtx) (raw : List UInt8) (lead : Bool) :
    escapeBytes (reserved ctx) raw (if lead then some lsq else none) = writeEscaped ctx raw lead := by
  induction raw generalizing lead with
  | nil => rfl
  | cons b raw ih =>
    have hrest := ih false
    have hlead : ((if lead = true then some lsq else none) = some b) ↔ (lead && b == lsq) = true := by
      cases lead <;> grind
    rw [escapeBytes, writeEscaped, isReserved_eq]
    simp only [Bool.false_eq_true, if_false] at hrest
    rw [hrest]
    simp only [Bool.or_eq_true, decide_eq_true_eq, hlead]

theorem escapeBytes_eq_escape (ctx : EscCtx) (raw : List UInt8) (lead : Bool) (hctx : lead → ctx = .text) :
    escapeBytes (reserved ctx) raw (if lead then some lsq else none) =
      Python.escape raw ctx (if lead then [lsq] else []) := by
  rw [escapeBytes_eq, Python.escape_eq raw ctx lead hctx]

theorem varintLoop_eq {fuel n : Nat} (hfuel : n < fuel) : varintLoop fuel n = Leb128.code n := by
  induction fuel generalizing n with
  | zero => omega
  | succ fuel ih =>
    have hlow : n &&& 0x7F = n % 128 := Nat.and_two_pow_sub_one_eq_mod n 7
    rw [varintLoop, hlow]
    by_cases hn : n < 128
    · have hz : n / 128 = 0 := Nat.div_eq_of_lt hn
      rw [if_neg (by omega), Leb128.code_of_lt hn, Nat.mod_eq_of_lt hn]
    · rw [if_pos (by omega), Leb128.code_of_le (by omega), ih (by omega),
        or_continuation (Nat.mod_lt _ (by decide))]

theorem varint_eq (n : Nat) : varint n = Leb128.code n := varintLoop_eq (Nat.lt_succ_self n)

/-- A loop that counts. -/
theorem foldl_count {P : UInt8 → Prop} [DecidablePred P] (b : List UInt8) (n : Nat) :
    b.foldl (fun n x => if P x then n + 1 else n) n = n + b.countP fun x => decide (P x) := by
  induction b generalizing n with
  | nil => rfl
  | cons x b ih =>
    rw [List.foldl_cons, ih, List.countP_cons]
    by_cases hx : P x
    · simp only [hx, if_true, decide_true]
      omega
    · simp [hx]

theorem chooseForm_eq (payload : List UInt8) (lead : Bool) :
    chooseForm payload lead = Python.chooseForm payload lead := by
  have hinline : sizeInline payload = Python.sizeInline payload := by
    rw [sizeInline, foldl_count, Python.sizeInline]
    congr 2
    grind
  have hterminated : sizeTerminated payload = Python.sizeNulterm payload := by
    rw [sizeTerminated, foldl_count, Python.sizeNulterm, Nat.add_right_comm]
    congr 3
    grind
  have hcounted : sizeCounted payload = Python.sizeCounted payload := by
    rw [sizeCounted, Python.sizeCounted, varint_eq, Python.varint_eq]
  have hhead : (lead = true ∧ payload.head? = some lsq) ↔ (lead && payload.take 1 == [lsq]) = true := by
    cases payload <;> simp
  simp only [chooseForm, Python.chooseForm, hinline, hterminated, hcounted, hhead]

theorem encodeBinary_eq (payload : List UInt8) (form : BinForm) :
    encodeBinary payload form = Python.encodeBinary payload form := by
  have hbs : bs ≠ 0 := by decide
  have hbody : (payload.flatMap fun b => if b = bs then [bs, bs] else if b = 0 then [bs, digit0] else [b]) =
      escapeBinary payload := by
    refine List.flatMap_congr fun b _ => ?_
    by_cases hzero : b = 0
    · simp [hzero, hbs.symm]
    · simp [hzero]
  rw [encodeBinary, Python.encodeBinary_eq, writeBinary, hbody, varint_eq, varintPut_eq]

end Strings

section Elements

theorem mergeStep_eq (out : List Node) (c : Node) : mergeStep out c = Python.mergeStep out c := by
  unfold mergeStep Python.mergeStep
  cases c with
  | element tag attrs children => cases out.getLast? <;> simp [Node.text?]
  | text t =>
    cases hlast : out.getLast? with
    | none => simp [Node.text?]
    | some last => cases last <;> simp [Node.text?]

theorem mergeText_eq (children : List Node) : mergeText children = Python.mergeText children := by
  have hstep : mergeStep = Python.mergeStep := funext fun out => funext (mergeStep_eq out)
  rw [mergeText, Python.mergeText, hstep]
  congr 1
  funext c
  cases c with
  | element tag attrs children => simp [Node.text?]
  | text t => cases t <;> simp [Node.text?]

theorem encodeChildren_eq {encode encode' : Node → Except EncodeError (List UInt8)} {children : List Node}
    (h : ∀ c ∈ children, encode c = encode' c) (atStart : Bool) :
    encodeChildren encode children atStart = Python.encodeChildren encode' children atStart := by
  induction children generalizing atStart with
  | nil => rfl
  | cons c children ih =>
    have hrest := ih (fun d hd => h d (List.mem_cons_of_mem c hd)) false
    unfold encodeChildren Python.encodeChildren
    rw [hrest]
    cases c with
    | element tag attrs grandchildren =>
      rw [h _ List.mem_cons_self]
      rfl
    | text t =>
      have hescape := escapeBytes_eq_escape .text t atStart fun _ => rfl
      simp only [reserved] at hescape
      simp only [Node.text?, chooseForm_eq, encodeBinary_eq, hescape]

theorem encodeElement_eq {encode encode' : Node → Except EncodeError (List UInt8)} {children : List Node}
    (h : ∀ c ∈ Python.mergeText children, encode c = encode' c) (tag : List UInt8) (attrs : List Attr) :
    encodeElement encode tag attrs children = Python.encodeElement encode' tag attrs children := by
  have hescape : ∀ (ctx : EscCtx) (raw : List UInt8), escapeBytes (reserved ctx) raw none =
      Python.escape raw ctx [] := fun ctx raw => by
    have := escapeBytes_eq_escape ctx raw false (by simp)
    simpa using this
  have hkey := hescape .key
  have hval := hescape .val
  have htag := hescape .tag
  simp only [reserved] at hkey hval htag
  rw [encodeElement, Python.encodeElement, mergeText_eq, ← encodeChildren_eq h]
  simp only [hkey, hval, htag]
  by_cases hpos : (Python.mergeText children).length > 0
  · rw [if_pos hpos]
    cases encodeChildren encode (Python.mergeText children) (decide (attrs = [])) <;> rfl
  · have hnil : Python.mergeText children = [] := List.eq_nil_of_length_eq_zero (by omega)
    rw [if_neg hpos, hnil]
    rfl

/-- The two encoders write the same bytes or fail alike, for every tree and at every depth. -/
theorem encode_eq (levels : Nat) (n : Node) : encode levels n = Python.encode levels n := by
  induction levels generalizing n with
  | zero => rfl
  | succ levels ih =>
    cases n with
    | text t => exact encodeElement_eq (fun c _ => ih c) tagText []
    | element tag attrs children => exact encodeElement_eq (fun c _ => ih c) tag attrs

end Elements

end Terseml.Js
