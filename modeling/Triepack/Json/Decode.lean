import Triepack.Core.Iterator
import Triepack.Json.Dom

/-!
# Decoding JSON

`extract_entries` walks the trie on its own and sorts what it finds; `emit_json` groups the keys
by their next segment and writes what stands under each. As in the parser, `Stop.oob` is a write
outside of a fixed array. `printf` of floating-point numbers is a parameter.
-/

namespace Triepack

open JsonText

/-! ## The entries of a dictionary -/

/-- `flat_entry`. -/
structure FlatEntry where
  key : List UInt8
  val : Value Slice
  deriving DecidableEq, Repr

/-- `flat_entry_cmp`. -/
def flatEntryCmp (a b : FlatEntry) : Int :=
  let minLen := if a.key.length < b.key.length then a.key.length else b.key.length
  let c := memcmp minLen a.key b.key
  if c ≠ 0 then c
  else if a.key.length < b.key.length then -1
  else if a.key.length > b.key.length then 1
  else 0

/-- `qsort` with `flat_entry_cmp`. -/
structure FlatQsort where
  sort : List FlatEntry → List FlatEntry
  perm : ∀ es, (sort es).Perm es
  ascending : ∀ es, (sort es).Pairwise fun a b => flatEntryCmp a b ≤ 0

/-- `walk_frame`; its `bit_pos` is never used. -/
structure WalkFrame where
  keyLen : Nat
  remaining : Nat
  deriving DecidableEq, Repr

/-- The walk of `extract_entries`: the first `key_len` bytes of `key_buf`, the frames from the top
on, and the entries found. -/
structure Walk where
  key : List UInt8
  stack : List WalkFrame
  entries : List FlatEntry

/-- `sizeof(key_buf)`. -/
def keyBufSize : Nat := 4096

/-- The number of frames that `stack` is allocated for. -/
def walkDepth : Nat := 256

/-- An array of fixed size is written behind its last element. -/
def putAt {α : Type} (size : Nat) (xs : List α) (x : α) : Except Stop (List α) :=
  if xs.length < size then .ok (xs ++ [x]) else .error (.oob xs.length)

/-- The same of a stack. -/
def pushAt {α : Type} (size : Nat) (xs : List α) (x : α) : Except Stop (List α) :=
  if xs.length < size then .ok (x :: xs) else .error (.oob xs.length)

/-- A pure computation between the reads. -/
def Rd.lift {α : Type} (x : Except Stop α) : Rd α := fun r => (x, r)

/-- The value that `extract_entries` looks up for a key it has found. -/
def foundValue (d : Dict) (key : List UInt8) : Except Stop (Value Slice) :=
  match dictLookupN d key with
  | .ok val => .ok val
  | .error (.rc _) => .ok .null
  | .error e => .error e

/-- A terminal: the key that the walk is at is an entry. -/
def recordEntry (d : Dict) (w : Walk) : Except Stop Walk :=
  if w.entries.length < dictCount d then do
    let val ← foundValue d w.key
    let entries ← putAt (dictCount d) w.entries ⟨w.key, val⟩
    .ok { w with entries := entries }
  else .ok w

/-- SKIP and its distance, neither of which is looked at. -/
def readSkip (sym : SymbolInfo) : Rd Unit := do
  let _ ← bsReadBits sym.bitsPerSymbol
  let _ ← bsReadVarintU
  pure ()

/-- Behind a terminal: the frames without children left are popped, and the next child of the top
one is taken. The walk is over (`goto done`) when its SKIP cannot be read. -/
def popFrames (sym : SymbolInfo) (w : Walk) : Rd (Walk ⊕ Walk) := fun r =>
  match w.stack.dropWhile fun f => f.remaining == 0 with
  | [] => (.ok (.inl { w with stack := [] }), r)
  | f :: frames =>
    let w := { w with
      key := w.key.take f.keyLen
      stack := { f with remaining := f.remaining - 1 } :: frames }
    if f.remaining - 1 = 0 then (.ok (.inl w), r)
    else
      match readSkip sym r with
      | (.ok (), r) => (.ok (.inl w), r)
      | (.error (.rc _), r) => (.ok (.inr w), r)
      | (.error e, r) => (.error e, r)

/-- A BRANCH: a frame for its children. -/
def pushFrame (sym : SymbolInfo) (w : Walk) : Rd Walk := do
  let childCount ← bsReadVarintU
  if w.stack.length ≥ walkDepth then Op.fail .jsonDepth
  else if childCount > 1 then do
    let remaining := u32 (u32 childCount + (2 ^ 32 - 1))
    let stack ← Rd.lift (pushAt walkDepth w.stack ⟨w.key.length, remaining⟩)
    readSkip sym
    pure { w with stack := stack }
  else do
    let stack ← Rd.lift (pushAt walkDepth w.stack ⟨w.key.length, 0⟩)
    pure { w with stack := stack }

/-- A symbol of a key. -/
def appendSymbol (sym : SymbolInfo) (code : Nat) (w : Walk) : Except Stop Walk :=
  if ¬ sym.codeIsCtrl (if code < 256 then code else 0) then
    if w.key.length < keyBufSize - 1 then do
      let key ← putAt keyBufSize w.key (if code < 256 then sym.reverseMap code else 0)
      .ok { w with key := key }
    else .ok w
  else .ok w

/-- One iteration of the walk. -/
def extractBody (d : Dict) (w : Walk) : Rd (Walk ⊕ Walk) :=
  if ¬ w.entries.length < dictCount d then pure (.inr w)
  else do
    let code ← bsReadBits d.sym.bitsPerSymbol
    if code = d.sym.ctrlCodes .end_ then do
      let w ← Rd.lift (recordEntry d w)
      popFrames d.sym w
    else if code = d.sym.ctrlCodes .endVal then do
      let _ ← bsReadVarintU
      let w ← Rd.lift (recordEntry d w)
      popFrames d.sym w
    else if code = d.sym.ctrlCodes .branch then do
      let w ← pushFrame d.sym w
      pure (.inl w)
    else if code = d.sym.ctrlCodes .skip then do
      let _ ← bsReadVarintU
      pure (.inl w)
    else do
      let w ← Rd.lift (appendSymbol d.sym code w)
      pure (.inl w)

/-- The walk; every iteration but the last reads a symbol. -/
def extractWalk (d : Dict) : Rd Walk := do
  bsReaderSeek d.trieStart
  Op.loop (extractBody d) (8 * d.buf.length + 2) ⟨[], [], []⟩

/-- `root_type` as it is stored. -/
def rootTypeOf (rootVal : Value Slice) : Nat :=
  match rootVal with
  | .uint val => u32 val.toNat
  | .int val => u32 val.toUInt64.toNat
  | _ => jsonRootObject.toNat

/-- The root type of a dictionary; the default is an object. -/
def lookupRootType (d : Dict) : Except Stop Nat :=
  match dictLookup d jsonMetaRoot with
  | .ok rootVal => .ok (rootTypeOf rootVal)
  | .error (.rc _) => .ok jsonRootObject.toNat
  | .error e => .error e

/-- A key that is no metadata. -/
def IsPlain (key : List UInt8) : Prop := key.head? ≠ some 1

instance : DecidablePred IsPlain := fun _ => inferInstanceAs (Decidable (_ ≠ _))

/-- The entries in their order. -/
def sortFlat (qs : FlatQsort) (es : List FlatEntry) : List FlatEntry :=
  if es.length > 1 then qs.sort es else es

/-- `extract_entries`. -/
def extractEntries (qs : FlatQsort) (buf : List UInt8) : Except Stop (List FlatEntry × Nat) := do
  let d ← dictOpen buf
  let w ← (extractWalk d (bsReaderCreate buf)).1
  let rootType ← lookupRootType d
  .ok (sortFlat qs (w.entries.filter fun e => decide (IsPlain e.key)), rootType)

/-! ## Text -/

/-- What `printf` makes of floating-point numbers: `%g` of a float32, `%.17g` of a float64. -/
structure PrintFloat where
  g : UInt32 → List UInt8
  g17 : UInt64 → List UInt8

/-- A hexadecimal digit of `%04x`. -/
def hexLower (n : Nat) : UInt8 := if n < 10 then UInt8.ofNat (0x30 + n) else UInt8.ofNat (0x57 + n)

/-- A byte in a string. -/
def escapeByte (c : UInt8) : List UInt8 :=
  if c = quote then [backslash, quote]
  else if c = backslash then [backslash, backslash]
  else if c = 0x08 then [backslash, 0x62]
  else if c = 0x0C then [backslash, 0x66]
  else if c = 0x0A then [backslash, 0x6E]
  else if c = 0x0D then [backslash, 0x72]
  else if c = 0x09 then [backslash, 0x74]
  else if c < 0x20 then
    [backslash, letterU, 0x30, 0x30, hexLower (c.toNat / 16), hexLower (c.toNat % 16)]
  else [c]

/-- `sb_append_json_string`. -/
def jsonString (str : List UInt8) : List UInt8 := quote :: (str.flatMap escapeByte ++ [quote])

/-- `%lld`. -/
def signedDecimal (i : Int) : List UInt8 :=
  if i < 0 then minus :: decimal i.natAbs else decimal i.natAbs

/-- `sb_append_value`. -/
def valueText (pf : PrintFloat) : Value (List UInt8) → List UInt8
  | .null => nullWord
  | .bool b => if b then trueWord else falseWord
  | .int i => signedDecimal i.toInt
  | .uint u => decimal u.toNat
  | .float32 bits =>
    if (pf.g bits).any fun c => c == point || c == 0x65 || c == 0x45 then pf.g bits
    else pf.g bits ++ [point, 0x30]
  | .float64 bits => pf.g17 bits
  | .string s => jsonString s
  | _ => nullWord

/-- `emit_indent`; without an indent it writes nothing. -/
def indentText (indent : Option (List UInt8)) (depth : Nat) : List UInt8 :=
  match indent with
  | none => []
  | some ind => 0x0A :: (List.replicate depth ind).flatten

/-! ## Tree reconstruction -/

/-- Where the next segment of a key begins behind a prefix. -/
def segStart (prefixLen : Nat) (key : List UInt8) : Nat :=
  if key[prefixLen]? = some point then prefixLen + 1 else prefixLen

/-- `next_segment` of what is left of a key: a segment in brackets, or one up to the next
separator. -/
def nextSegment : List UInt8 → List UInt8
  | [] => []
  | c :: rest =>
    if c = openBracket then
      c :: (rest.takeWhile (· != closeBracket) ++ (rest.dropWhile (· != closeBracket)).take 1)
    else (c :: rest).takeWhile inSegment

/-- The segment of a key behind a prefix. -/
def segmentOf (prefixLen : Nat) (key : List UInt8) : List UInt8 :=
  nextSegment (key.drop (segStart prefixLen key))

/-- The key goes on behind the prefix. -/
def GoesOn (pre key : List UInt8) : Prop :=
  pre <+: key ∧ IsPlain key ∧ segStart pre.length key < key.length

instance (pre : List UInt8) : DecidablePred (GoesOn pre) := fun _ => inferInstanceAs (Decidable (_ ∧ _))

/-- `is_array_index` behind the prefix. -/
def atIndex (prefixLen : Nat) (key : List UInt8) : Bool :=
  key[segStart prefixLen key]? == some openBracket

/-- The unique segments of keys in the order in which they come first. -/
def uniqueSegments (prefixLen : Nat) (keys : List (List UInt8)) : List (List UInt8) :=
  keys.foldl (fun segs key =>
    let seg := segmentOf prefixLen key
    if seg = [] ∨ seg ∈ segs then segs else segs ++ [seg]) []

/-- The prefix of a child: a segment, behind a point if it belongs to an object that is not the
root. The buffer `new_prefix` has room for a terminator. -/
def newPrefix (isArray : Bool) (pre seg : List UInt8) : Except Stop (List UInt8) :=
  let new := if isArray ∨ pre = [] then pre ++ seg else pre ++ point :: seg
  if new.length < pathSize then .ok new else .error (.oob new.length)

/-- The entry with a key. -/
def findLeaf (es : List FlatEntry) (key : List UInt8) : Option FlatEntry :=
  es.find? fun e => decide (e.key = key ∧ IsPlain e.key)

/-- Whether a key extends the prefix. -/
def hasChildren (es : List FlatEntry) (pre : List UInt8) : Bool :=
  es.any fun e => decide (pre.length < e.key.length ∧ pre <+: e.key ∧ IsPlain e.key)

section Emit

variable (pf : PrintFloat) (buf : List UInt8) (indent : Option (List UInt8)) (es : List FlatEntry)

/-- The text of an entry's value. -/
def entryText (e : FlatEntry) : List UInt8 := valueText pf (e.val.map (Slice.read buf))

/-- A child with its separators: in an object, its name comes first. -/
def childText (isArray : Bool) (depth : Nat) (seg text : List UInt8) : List UInt8 :=
  indentText indent (depth + 1) ++
    (if isArray then text
    else jsonString seg ++ colon :: (if indent.isSome then 0x20 :: text else text))

/-- The children of a container behind one another, in its brackets. -/
def containerText (isArray : Bool) (depth : Nat) (children : List (List UInt8)) : List UInt8 :=
  (if isArray then openBracket else openBrace) ::
    ((children.intersperse [comma]).flatten ++
      ((if children.isEmpty then [] else indentText indent depth) ++
        [if isArray then closeBracket else closeBrace]))

/-- `emit_json`. -/
def emitJson : (fuel : Nat) → (pre : List UInt8) → (depth : Nat) → Except Stop (List UInt8)
  | 0, _, _ => .error .fuel
  | fuel + 1, pre, depth =>
    let keys := (es.map FlatEntry.key).filter fun key => decide (GoesOn pre key)
    if keys = [] then
      match findLeaf es pre with
      | some e => .ok (entryText pf buf e)
      | none => .ok nullWord
    else do
      let isArray := keys.all (atIndex pre.length)
      let children ← (uniqueSegments pre.length keys).mapM fun seg => do
        let new ← newPrefix isArray pre seg
        let text ← match findLeaf es new, hasChildren es new with
          | some e, false => .ok (entryText pf buf e)
          | _, _ => emitJson fuel new (depth + 1)
        .ok (childText indent isArray depth seg text)
      .ok (containerText indent isArray depth children)

end Emit

/-! ## One-shot decode -/

/-- `decode_impl`; every level of `emit_json` lengthens the prefix, which is at most as long as
the key buffer. -/
def decodeImpl (pf : PrintFloat) (qs : FlatQsort) (indent : Option (List UInt8)) (buf : List UInt8) :
    Except Stop (List UInt8) := do
  let (es, rootType) ← extractEntries qs buf
  if es.length = 0 then
    .ok (if rootType = jsonRootArray.toNat then [openBracket, closeBracket] else [openBrace, closeBrace])
  else emitJson pf buf indent es (pathSize + 1) [] 0

/-- `tp_json_decode`. -/
def jsonDecode (pf : PrintFloat) (qs : FlatQsort) (buf : List UInt8) : Except Stop (List UInt8) :=
  decodeImpl pf qs none buf

/-- `tp_json_decode_pretty`. -/
def jsonDecodePretty (pf : PrintFloat) (qs : FlatQsort) (indent buf : List UInt8) :
    Except Stop (List UInt8) := decodeImpl pf qs (some indent) buf

end Triepack
