import Triepack.Core.Build
import Triepack.Go.Bitstream

/-!
# The dictionary encoder of the Go module

Ranges of the sorted entries are lists, as in the models of the other encoders. A key that is indexed behind
its end panics. Recursion is as deep as it needs to be.
-/

namespace Triepack.Go

/-! ## The checksum -/

/-- `crc32Table`; its entries are those of the C library. -/
def crc32Table : List UInt32 := Triepack.crc32Table

/-- One byte of the loop of `computeCRC32`. -/
def crcStep (crc : UInt32) (b : UInt8) : UInt32 :=
  crc32Table.getD ((crc ^^^ b.toUInt32) &&& 0xFF).toNat 0 ^^^ ((crc >>> 8) &&& 0x00FFFFFF)

/-- `computeCRC32`. -/
def computeCRC32 (data : List UInt8) : UInt32 := (data.foldl crcStep 0xFFFFFFFF ^^^ 0xFFFFFFFF) &&& 0xFFFFFFFF

/-! ## Values -/

/-- What a map holds: a string is its bytes, a float its bit pattern. Values of any other type are refused. -/
inductive Any where
  | nil
  | bool (val : Bool)
  | int (val : Int64)
  | int64 (val : Int64)
  | uint64 (val : UInt64)
  | float32 (bits : UInt32)
  | float64 (bits : UInt64)
  | string (val : List UInt8)
  | bytes (val : List UInt8)
  | other (typeName : String)
  deriving DecidableEq, Repr

def tpNull : Nat := 0
def tpBool : Nat := 1
def tpInt : Nat := 2
def tpUint : Nat := 3
def tpFloat32 : Nat := 4
def tpFloat64 : Nat := 5
def tpString : Nat := 6
def tpBlob : Nat := 7

/-- The cases `int` and `int64` of `encodeValue`. -/
def encodeInt (v : Int64) : Write Unit :=
  if v < 0 then do
    writeBits tpInt 4
    writeVarInt v
  else do
    writeBits tpUint 4
    writeVarUint v.toUInt64.toNat

/-- `encodeValue`. -/
def encodeValue : Any → Write Unit
  | .nil => writeBits tpNull 4
  | .bool v => do
    writeBits tpBool 4
    if v then writeBit 1 else writeBit 0
  | .int v => encodeInt v
  | .int64 v => encodeInt v
  | .uint64 v => do
    writeBits tpUint 4
    writeVarUint v.toNat
  | .float32 bits => do
    writeBits tpFloat32 4
    writeU32 bits
  | .float64 bits => do
    writeBits tpFloat64 4
    writeU64 (bits >>> 32).toUInt32 (bits &&& 0xFFFFFFFF).toUInt32
  | .string v => do
    writeBits tpString 4
    writeVarUint v.length
    alignToByte
    writeBytes v
  | .bytes v => do
    writeBits tpBlob 4
    writeVarUint v.length
    alignToByte
    writeBytes v
  | .other typeName => throw (.err s!"unsupported value type: {typeName}")

/-! ## Maps and their symbols -/

/-- `trieEntry`. -/
structure TrieEntry where
  key : List UInt8
  val : Any
  deriving DecidableEq, Repr

/-- A `map[string]interface{}`, in the order in which a range comes to its entries. -/
structure Map where
  entries : List TrieEntry
  nodup : (entries.map TrieEntry.key).Nodup

/-- `sort.Slice`: what it returns is in order, and entries that are equal for `less` come as they come. -/
structure SortSlice {α : Type} (less : α → α → Bool) where
  run : List α → List α
  perm : ∀ as, (run as).Perm as
  sorted : ∀ as, (run as).Pairwise fun a b => less b a = false

/-- The comparison of two keys in `encodeData`. -/
def keyLess : List UInt8 → List UInt8 → Bool
  | a :: as, b :: bs => if a ≠ b then decide (a < b) else keyLess as bs
  | as, bs => decide (as.length < bs.length)

def entryLess (a b : TrieEntry) : Bool := keyLess a.key b.key

def numControlCodes : Nat := 6

/-- `MaxAlphabetSize`. -/
def maxAlphabetSize : Nat := 255 - numControlCodes

def ctrlEnd : Nat := 0
def ctrlEndVal : Nat := 1
def ctrlSkip : Nat := 2
def ctrlBranch : Nat := 5

/-- `used`. -/
def used (entries : List TrieEntry) (b : UInt8) : Bool := entries.any fun e => e.key.contains b

/-- `alphabetSize`. -/
def alphabetSize (entries : List TrieEntry) : Nat := allBytes.countP (used entries)

/-- The loop that finds `bps`. -/
def bpsLoop (totalSymbols : Nat) : (fuel bps : Nat) → Nat
  | 0, bps => bps
  | fuel + 1, bps => if 1 <<< bps < totalSymbols then bpsLoop totalSymbols fuel (bps + 1) else bps

/-- `symbolMap`, `reverseMap` and the next code. -/
structure SymbolTables where
  symbolMap : UInt8 → Nat
  reverseMap : Nat → Nat
  code : Nat

/-- One round of the loop that gives the bytes their codes. -/
def assignStep (used : UInt8 → Bool) (t : SymbolTables) (i : UInt8) : SymbolTables :=
  if used i then
    { symbolMap := Function.update t.symbolMap i t.code
      reverseMap := if t.code < 256 then Function.update t.reverseMap t.code i.toNat else t.reverseMap
      code := t.code + 1 }
  else t

/-- The tables after the loop. -/
def symbolTables (entries : List TrieEntry) : SymbolTables :=
  allBytes.foldl (assignStep (used entries)) ⟨fun _ => 0, fun _ => 0, numControlCodes⟩

/-- `encodeCtx`, without the entries. -/
structure EncodeCtx where
  bps : Nat
  symbolMap : UInt8 → Nat
  ctrlCodes : List Nat
  hasValues : Bool

/-- `ctrlCodes[c]`. -/
def EncodeCtx.ctrl (ctx : EncodeCtx) (c : Nat) : Nat := ctx.ctrlCodes.getD c 0

/-! ## Ranges -/

/-- `entries[i].key[common]`. -/
def byteAt (e : TrieEntry) (common : Nat) : Except Fail UInt8 :=
  match e.key[common]? with
  | some b => .ok b
  | none => .error (.panic "index out of range")

/-- The loop that sets `allHave`. -/
def allHave (first : TrieEntry) (rest : List TrieEntry) (common : Nat) : Bool :=
  !decide (first.key.length ≤ common) &&
    rest.all fun e => !decide (e.key.length ≤ common) && e.key.getD common 0 == first.key.getD common 0

/-- The loop that finds the common prefix; it ends at the latest with the first key. -/
def commonLoop (first : TrieEntry) (rest : List TrieEntry) : (fuel common : Nat) → Nat
  | 0, common => common
  | fuel + 1, common =>
    if allHave first rest common then commonLoop first rest fuel (common + 1) else common

def commonEnd (first : TrieEntry) (rest : List TrieEntry) (prefixLen : Nat) : Nat :=
  commonLoop first rest first.key.length prefixLen

/-- The loop that moves `ce` over the entries that have `ch` at `common`. -/
def takeRun (common : Nat) (ch : UInt8) : List TrieEntry → Except Fail (List TrieEntry × List TrieEntry)
  | [] => .ok ([], [])
  | e :: es => do
    let b ← byteAt e common
    if b = ch then
      let (run, rest) ← takeRun common ch es
      .ok (e :: run, rest)
    else .ok ([], e :: es)

/-- The ranges from `cs` to `ce` of the loops over the children. -/
def childRuns (common : Nat) : (fuel : Nat) → List TrieEntry → Except Fail (List (List TrieEntry))
  | _, [] => .ok []
  | 0, _ :: _ => .error .loop
  | fuel + 1, e :: es => do
    let ch ← byteAt e common
    let (run, rest) ← takeRun common ch es
    let runs ← childRuns common fuel rest
    .ok ((e :: run) :: runs)

/-! ## The size of a subtree -/

/-- The loop over the children in `trieSubtreeSize` from `childI` on. -/
def childrenSize (bps childCount : Nat) (size : List TrieEntry → Nat → Except Fail (Nat × Nat)) :
    (childI : Nat) → List (List TrieEntry) → (valueIdx : Nat) → Except Fail (Nat × Nat)
  | _, [], valueIdx => .ok (0, valueIdx)
  | childI, run :: runs, valueIdx => do
    let (childSz, valueIdx) ← size run valueIdx
    let (bits, valueIdx) ← childrenSize bps childCount size (childI + 1) runs valueIdx
    if childI < childCount - 1 then .ok (bps + varUintBits childSz + childSz + bits, valueIdx)
    else .ok (childSz + bits, valueIdx)

/-- `trieSubtreeSize`, with the value index behind the subtree. -/
def trieSubtreeSize (ctx : EncodeCtx) :
    (fuel : Nat) → List TrieEntry → (prefixLen valueIdx : Nat) → Except Fail (Nat × Nat)
  | 0, _, _, _ => .error .loop
  | _ + 1, [], _, _ => .error .loop
  | fuel + 1, first :: rest, prefixLen, valueIdx => do
    let common := commonEnd first rest prefixLen
    let bits := (common - prefixLen) * ctx.bps
    let hasTerminal := first.key.length = common
    let children := if hasTerminal then rest else first :: rest
    let runs ← childRuns common children.length children
    let childCount := runs.length
    let terminal := if ctx.hasValues ∧ first.val ≠ .nil then ctx.bps + varUintBits valueIdx else ctx.bps
    let size := fun run => trieSubtreeSize ctx fuel run common
    if hasTerminal ∧ childCount = 0 then .ok (bits + terminal, valueIdx + 1)
    else if hasTerminal then do
      let (sz, valueIdx) ← childrenSize ctx.bps childCount size 0 runs (valueIdx + 1)
      .ok (bits + terminal + (ctx.bps + varUintBits childCount) + sz, valueIdx)
    else do
      let (sz, valueIdx) ← childrenSize ctx.bps childCount size 0 runs valueIdx
      .ok (bits + (ctx.bps + varUintBits childCount) + sz, valueIdx)

/-! ## Writing the trie -/

/-- The terminal of an entry. -/
def writeTerminal (ctx : EncodeCtx) (e : TrieEntry) (valueIdx : Nat) : Write Unit :=
  if ctx.hasValues ∧ e.val ≠ .nil then do
    writeBits (ctx.ctrl ctrlEndVal) ctx.bps
    writeVarUint valueIdx
  else writeBits (ctx.ctrl ctrlEnd) ctx.bps

/-- The distance that stands before a child. -/
def writeSkip (ctx : EncodeCtx) (size : List TrieEntry → Nat → Except Fail (Nat × Nat))
    (run : List TrieEntry) (valueIdx : Nat) : Write Unit := do
  let (childSz, _) ← StateT.lift (size run valueIdx)
  writeBits (ctx.ctrl ctrlSkip) ctx.bps
  writeVarUint childSz

/-- The loop over the children in `trieWrite` from `childI` on. -/
def writeChildren (ctx : EncodeCtx) (childCount : Nat)
    (size : List TrieEntry → Nat → Except Fail (Nat × Nat)) (child : List TrieEntry → Nat → Write Nat) :
    (childI : Nat) → List (List TrieEntry) → (valueIdx : Nat) → Write Nat
  | _, [], valueIdx => pure valueIdx
  | childI, run :: runs, valueIdx => do
    (if childI < childCount - 1 then writeSkip ctx size run valueIdx else pure ())
    let valueIdx ← child run valueIdx
    writeChildren ctx childCount size child (childI + 1) runs valueIdx

/-- `trieWrite`, with the value index behind the subtree. -/
def trieWrite (ctx : EncodeCtx) : (fuel : Nat) → List TrieEntry → (prefixLen valueIdx : Nat) → Write Nat
  | 0, _, _, _ => throw .loop
  | _ + 1, [], _, _ => throw .loop
  | fuel + 1, first :: rest, prefixLen, valueIdx => do
    let common := commonEnd first rest prefixLen
    ((first.key.take common).drop prefixLen).forM fun ch => writeBits (ctx.symbolMap ch) ctx.bps
    let hasTerminal := first.key.length = common
    let children := if hasTerminal then rest else first :: rest
    let runs ← StateT.lift (childRuns common children.length children)
    let childCount := runs.length
    (if hasTerminal then writeTerminal ctx first valueIdx else pure ())
    let valueIdx := if hasTerminal then valueIdx + 1 else valueIdx
    if childCount = 0 then pure valueIdx
    else do
      writeBits (ctx.ctrl ctrlBranch) ctx.bps
      writeVarUint childCount
      writeChildren ctx childCount (fun run => trieSubtreeSize ctx fuel run common)
        (fun run => trieWrite ctx fuel run common) 0 runs valueIdx

/-! ## The file -/

def tpMagic : List UInt8 := [0x54, 0x52, 0x50, 0x00]
def tpVersionMajor : UInt8 := 1
def tpVersionMinor : UInt8 := 0
def tpFlagHasValues : UInt16 := 1

/-- The header with its placeholders. -/
def writeHeader (flags : UInt16) (numKeys : UInt32) : Write Unit := do
  tpMagic.forM writeU8
  writeU8 tpVersionMajor
  writeU8 tpVersionMinor
  writeU16 flags
  writeU32 numKeys
  writeU32 0
  writeU32 0
  writeU32 0
  writeU32 0
  writeU32 0

/-- The configuration of the trie. -/
def writeConfig (ctx : EncodeCtx) (totalSymbols : Nat) (reverseMap : Nat → Nat) : Write Unit := do
  writeBits ctx.bps 4
  writeBits totalSymbols 8
  (List.range numControlCodes).forM fun c => writeBits (ctx.ctrl c) ctx.bps
  (List.range' numControlCodes (totalSymbols - numControlCodes)).forM fun cd =>
    writeVarUint (if cd < 256 then reverseMap cd else 0)

/-- The value store. -/
def encodeValues (entries : List TrieEntry) : Write Unit := entries.forM fun e => encodeValue e.val

/-- `hasValues`. -/
def hasValues (entries : List TrieEntry) : Bool := entries.any fun e => decide (e.val ≠ .nil)

/-- `ctx` for the sorted entries. -/
def context (entries : List TrieEntry) : EncodeCtx where
  bps := bpsLoop (alphabetSize entries + numControlCodes) (alphabetSize entries + numControlCodes) 1
  symbolMap := (symbolTables entries).symbolMap
  ctrlCodes := List.range numControlCodes
  hasValues := hasValues entries

/-- What `encodeData` writes of the sorted entries before it aligns, with the offsets it takes. -/
def writeStream (entries : List TrieEntry) : Write StreamOffsets := do
  let totalSymbols := alphabetSize entries + numControlCodes
  let ctx := context entries
  writeHeader (if ctx.hasValues then tpFlagHasValues else 0) (UInt32.ofNat entries.length)
  let dataStart ← position
  writeConfig ctx totalSymbols (symbolTables entries).reverseMap
  let triePos ← position
  let _ ← (if entries.length > 0 then trieWrite ctx entries.length entries 0 0 else pure 0)
  let valuePos ← position
  (if ctx.hasValues then encodeValues entries else pure ())
  let endPos ← position
  pure ⟨triePos - dataStart, valuePos - dataStart, endPos - dataStart⟩

/-- `patchU32`. -/
def patchU32 (buf : List UInt8) (offset : Nat) (value : UInt32) : List UInt8 :=
  (((buf.set offset ((value >>> 24) &&& 0xFF).toUInt8).set (offset + 1)
    ((value >>> 16) &&& 0xFF).toUInt8).set (offset + 2)
      ((value >>> 8) &&& 0xFF).toUInt8).set (offset + 3) (value &&& 0xFF).toUInt8

/-- The header offsets and the checksum in the finished buffer. -/
def patchOffsets (offs : StreamOffsets) (outBuf : List UInt8) : List UInt8 :=
  let outBuf := patchU32 outBuf 12 (UInt32.ofNat offs.trieDataOffset)
  let outBuf := patchU32 outBuf 16 (UInt32.ofNat offs.valueStoreOffset)
  let outBuf := patchU32 outBuf 20 0
  let outBuf := patchU32 outBuf 24 (UInt32.ofNat offs.totalDataBits)
  let crcDataLen := outBuf.length - 4
  patchU32 outBuf crcDataLen (computeCRC32 (outBuf.take crcDataLen))

/-- `encodeData`. -/
def encodeData (sort : SortSlice entryLess) (data : Map) : Except Fail (List UInt8) :=
  let entries := sort.run data.entries
  let totalSymbols := alphabetSize entries + numControlCodes
  if totalSymbols > 255 then
    .error (.err (s!"keys use too many distinct byte values ({alphabetSize entries}); " ++
      s!"the format allows at most {maxAlphabetSize}"))
  else do
    let (offs, w) ← writeStream entries (newBitWriter 256)
    let (_, w) ← alignToByte w
    let (_, w) ← writeU32 (computeCRC32 w.toBytes) w
    .ok (patchOffsets offs w.toBytes)

end Triepack.Go
