import Mathlib.Data.List.Sort
import Triepack.Core.Build
import Triepack.Python.Bitstream

/-!
# The dictionary encoder of the Python module

Ranges of the sorted entries are lists here, as in the C encoder. A key that is indexed behind its end
raises. `_trie_write` and `_trie_subtree_size` are given how many frames can be opened inside their own,
and a call for which there are too few raises `RecursionError`.
-/

namespace Triepack.Python

open CallStack

/-! ## The checksum -/

/-- `TABLE`. -/
def table : List Nat :=
  [0x00000000, 0x77073096, 0xEE0E612C, 0x990951BA, 0x076DC419, 0x706AF48F, 0xE963A535, 0x9E6495A3,
   0x0EDB8832, 0x79DCB8A4, 0xE0D5E91E, 0x97D2D988, 0x09B64C2B, 0x7EB17CBD, 0xE7B82D07, 0x90BF1D91,
   0x1DB71064, 0x6AB020F2, 0xF3B97148, 0x84BE41DE, 0x1ADAD47D, 0x6DDDE4EB, 0xF4D4B551, 0x83D385C7,
   0x136C9856, 0x646BA8C0, 0xFD62F97A, 0x8A65C9EC, 0x14015C4F, 0x63066CD9, 0xFA0F3D63, 0x8D080DF5,
   0x3B6E20C8, 0x4C69105E, 0xD56041E4, 0xA2677172, 0x3C03E4D1, 0x4B04D447, 0xD20D85FD, 0xA50AB56B,
   0x35B5A8FA, 0x42B2986C, 0xDBBBC9D6, 0xACBCF940, 0x32D86CE3, 0x45DF5C75, 0xDCD60DCF, 0xABD13D59,
   0x26D930AC, 0x51DE003A, 0xC8D75180, 0xBFD06116, 0x21B4F4B5, 0x56B3C423, 0xCFBA9599, 0xB8BDA50F,
   0x2802B89E, 0x5F058808, 0xC60CD9B2, 0xB10BE924, 0x2F6F7C87, 0x58684C11, 0xC1611DAB, 0xB6662D3D,
   0x76DC4190, 0x01DB7106, 0x98D220BC, 0xEFD5102A, 0x71B18589, 0x06B6B51F, 0x9FBFE4A5, 0xE8B8D433,
   0x7807C9A2, 0x0F00F934, 0x9609A88E, 0xE10E9818, 0x7F6A0DBB, 0x086D3D2D, 0x91646C97, 0xE6635C01,
   0x6B6B51F4, 0x1C6C6162, 0x856530D8, 0xF262004E, 0x6C0695ED, 0x1B01A57B, 0x8208F4C1, 0xF50FC457,
   0x65B0D9C6, 0x12B7E950, 0x8BBEB8EA, 0xFCB9887C, 0x62DD1DDF, 0x15DA2D49, 0x8CD37CF3, 0xFBD44C65,
   0x4DB26158, 0x3AB551CE, 0xA3BC0074, 0xD4BB30E2, 0x4ADFA541, 0x3DD895D7, 0xA4D1C46D, 0xD3D6F4FB,
   0x4369E96A, 0x346ED9FC, 0xAD678846, 0xDA60B8D0, 0x44042D73, 0x33031DE5, 0xAA0A4C5F, 0xDD0D7CC9,
   0x5005713C, 0x270241AA, 0xBE0B1010, 0xC90C2086, 0x5768B525, 0x206F85B3, 0xB966D409, 0xCE61E49F,
   0x5EDEF90E, 0x29D9C998, 0xB0D09822, 0xC7D7A8B4, 0x59B33D17, 0x2EB40D81, 0xB7BD5C3B, 0xC0BA6CAD,
   0xEDB88320, 0x9ABFB3B6, 0x03B6E20C, 0x74B1D29A, 0xEAD54739, 0x9DD277AF, 0x04DB2615, 0x73DC1683,
   0xE3630B12, 0x94643B84, 0x0D6D6A3E, 0x7A6A5AA8, 0xE40ECF0B, 0x9309FF9D, 0x0A00AE27, 0x7D079EB1,
   0xF00F9344, 0x8708A3D2, 0x1E01F268, 0x6906C2FE, 0xF762575D, 0x806567CB, 0x196C3671, 0x6E6B06E7,
   0xFED41B76, 0x89D32BE0, 0x10DA7A5A, 0x67DD4ACC, 0xF9B9DF6F, 0x8EBEEFF9, 0x17B7BE43, 0x60B08ED5,
   0xD6D6A3E8, 0xA1D1937E, 0x38D8C2C4, 0x4FDFF252, 0xD1BB67F1, 0xA6BC5767, 0x3FB506DD, 0x48B2364B,
   0xD80D2BDA, 0xAF0A1B4C, 0x36034AF6, 0x41047A60, 0xDF60EFC3, 0xA867DF55, 0x316E8EEF, 0x4669BE79,
   0xCB61B38C, 0xBC66831A, 0x256FD2A0, 0x5268E236, 0xCC0C7795, 0xBB0B4703, 0x220216B9, 0x5505262F,
   0xC5BA3BBE, 0xB2BD0B28, 0x2BB45A92, 0x5CB36A04, 0xC2D7FFA7, 0xB5D0CF31, 0x2CD99E8B, 0x5BDEAE1D,
   0x9B64C2B0, 0xEC63F226, 0x756AA39C, 0x026D930A, 0x9C0906A9, 0xEB0E363F, 0x72076785, 0x05005713,
   0x95BF4A82, 0xE2B87A14, 0x7BB12BAE, 0x0CB61B38, 0x92D28E9B, 0xE5D5BE0D, 0x7CDCEFB7, 0x0BDBDF21,
   0x86D3D2D4, 0xF1D4E242, 0x68DDB3F8, 0x1FDA836E, 0x81BE16CD, 0xF6B9265B, 0x6FB077E1, 0x18B74777,
   0x88085AE6, 0xFF0F6A70, 0x66063BCA, 0x11010B5C, 0x8F659EFF, 0xF862AE69, 0x616BFFD3, 0x166CCF45,
   0xA00AE278, 0xD70DD2EE, 0x4E048354, 0x3903B3C2, 0xA7672661, 0xD06016F7, 0x4969474D, 0x3E6E77DB,
   0xAED16A4A, 0xD9D65ADC, 0x40DF0B66, 0x37D83BF0, 0xA9BCAE53, 0xDEBB9EC5, 0x47B2CF7F, 0x30B5FFE9,
   0xBDBDF21C, 0xCABAC28A, 0x53B39330, 0x24B4A3A6, 0xBAD03605, 0xCDD70693, 0x54DE5729, 0x23D967BF,
   0xB3667A2E, 0xC4614AB8, 0x5D681B02, 0x2A6F2B94, 0xB40BBE37, 0xC30C8EA1, 0x5A05DF1B, 0x2D02EF8D]

/-- One byte of the loop of `crc32`. -/
def crcStep (crc : Nat) (b : UInt8) : Nat :=
  table.getD ((crc ^^^ b.toNat) &&& 0xFF) 0 ^^^ ((crc >>> 8) &&& 0x00FFFFFF)

/-- `crc32`. -/
def crc32 (data : List UInt8) : Nat := (data.foldl crcStep 0xFFFFFFFF ^^^ 0xFFFFFFFF) &&& 0xFFFFFFFF

/-! ## Values -/

/-- What a dictionary maps its keys to; a string is its UTF-8 bytes, a float its bit pattern. -/
inductive PyValue where
  | none
  | bool (val : Bool)
  | int (val : Int)
  | float (bits : UInt64)
  | str (utf8 : List UInt8)
  | bytes (data : List UInt8)
  deriving DecidableEq, Repr

def tpNull : Nat := 0
def tpBool : Nat := 1
def tpInt : Nat := 2
def tpUint : Nat := 3
def tpFloat64 : Nat := 5
def tpString : Nat := 6
def tpBlob : Nat := 7

/-- `encode_value`. -/
def encodeValue : PyValue → Write Unit
  | .none => writeBits tpNull 4
  | .bool val => do
    writeBits tpBool 4
    writeBit (if val then 1 else 0)
  | .int val =>
    if val < 0 then do
      writeBits tpInt 4
      writeVarInt val
    else do
      writeBits tpUint 4
      writeVarUint val
  | .float bits => do
    writeBits tpFloat64 4
    writeU64 (bits.toNat >>> 32) (bits.toNat &&& 0xFFFFFFFF)
  | .str utf8 => do
    writeBits tpString 4
    writeVarUint utf8.length
    alignToByte
    writeBytes utf8
  | .bytes data => do
    writeBits tpBlob 4
    writeVarUint data.length
    alignToByte
    writeBytes data

/-! ## Dictionaries and their symbols -/

/-- A key, as its UTF-8 bytes, and its value. -/
abbrev Item : Type := List UInt8 × PyValue

/-- A `dict` whose keys are strings. -/
structure Dict where
  items : List Item
  nodup : (items.map Prod.fst).Nodup

def numControlCodes : Nat := 6

def ctrlEnd : Nat := 0
def ctrlEndVal : Nat := 1
def ctrlSkip : Nat := 2
def ctrlBranch : Nat := 5

/-- `entries.sort` with the keys as its key. -/
def sortItems (items : List Item) : List Item := items.insertionSort fun a b => a.1 ≤ b.1

/-- `used`. -/
def usedTable (items : List Item) (b : UInt8) : Bool := items.any fun e => e.1.contains b

/-- `alphabet_size`. -/
def alphabetSize (items : List Item) : Nat := allBytes.countP (usedTable items)

/-- The loop that finds `bps`. -/
def bpsLoop (totalSymbols : Nat) : (fuel bps : Nat) → Nat
  | 0, bps => bps
  | fuel + 1, bps => if 1 <<< bps < totalSymbols then bpsLoop totalSymbols fuel (bps + 1) else bps

/-- `symbol_map`, `reverse_map` and the next code. -/
structure SymbolTables where
  symbolMap : UInt8 → Nat
  reverseMap : Nat → UInt8
  code : Nat

/-- One round of the loop that gives the bytes their codes. -/
def assignStep (used : UInt8 → Bool) (t : SymbolTables) (i : UInt8) : SymbolTables :=
  if used i then
    { symbolMap := Function.update t.symbolMap i t.code
      reverseMap := Function.update t.reverseMap t.code i
      code := t.code + 1 }
  else t

/-- The tables after the loop. -/
def symbolTables (items : List Item) : SymbolTables :=
  allBytes.foldl (assignStep (usedTable items)) ⟨fun _ => 0, fun _ => 0, numControlCodes⟩

/-- `ctx`, without the entries. -/
structure Ctx where
  bps : Nat
  symbolMap : UInt8 → Nat
  ctrlCodes : List Nat
  hasValues : Bool

/-- `ctrl_codes[c]`. -/
def Ctx.ctrl (ctx : Ctx) (c : Nat) : Nat := ctx.ctrlCodes.getD c 0

/-! ## Ranges -/

/-- `deduped[i][0][common]`. -/
def byteAt (e : Item) (common : Nat) : Except Err UInt8 :=
  match e.1[common]? with
  | some b => .ok b
  | none => .error .indexError

/-- The loop that sets `all_have`. -/
def allHave (first : Item) (rest : List Item) (common : Nat) : Bool :=
  !decide (first.1.length ≤ common) &&
    rest.all fun e => !decide (e.1.length ≤ common) && e.1.getD common 0 == first.1.getD common 0

/-- The loop that finds the common prefix; it ends at the latest with the first key. -/
def commonLoop (first : Item) (rest : List Item) : (fuel common : Nat) → Nat
  | 0, common => common
  | fuel + 1, common =>
    if allHave first rest common then commonLoop first rest fuel (common + 1) else common

def commonEnd (first : Item) (rest : List Item) (prefixLen : Nat) : Nat :=
  commonLoop first rest first.1.length prefixLen

/-- The loop that moves `ce` over the entries that have `ch` at `common`. -/
def takeRun (common : Nat) (ch : UInt8) : List Item → Except Err (List Item × List Item)
  | [] => .ok ([], [])
  | e :: es => do
    let b ← byteAt e common
    if b = ch then
      let (run, rest) ← takeRun common ch es
      .ok (e :: run, rest)
    else .ok ([], e :: es)

/-- The ranges from `cs` to `ce` of the loops over the children. -/
def childRuns (common : Nat) : (fuel : Nat) → List Item → Except Err (List (List Item))
  | _, [] => .ok []
  | 0, _ :: _ => .error .loop
  | fuel + 1, e :: es => do
    let ch ← byteAt e common
    let (run, rest) ← takeRun common ch es
    let runs ← childRuns common fuel rest
    .ok ((e :: run) :: runs)

/-! ## The size of a subtree -/

/-- The call of `var_uint_bits`. -/
def varUintSize (frames : Frames) (val : Nat) : Except Err Nat := frames.call 1 (.ok (varUintBits val))

/-- The loop over the children in `_trie_subtree_size` from `child_i` on. -/
def childrenSize (frames : Frames) (bps childCount : Nat)
    (size : List Item → Nat → Except Err (Nat × Nat)) :
    (childI : Nat) → List (List Item) → (valueIdx : Nat) → Except Err (Nat × Nat)
  | _, [], valueIdx => .ok (0, valueIdx)
  | childI, run :: runs, valueIdx => do
    let (childSz, valueIdx) ← size run valueIdx
    let skip ← (if childI < childCount - 1 then do
        let distBits ← varUintSize frames childSz
        .ok (bps + distBits)
      else .ok 0)
    let (bits, valueIdx) ← childrenSize frames bps childCount size (childI + 1) runs valueIdx
    .ok (skip + childSz + bits, valueIdx)

/-- The terminal of an entry. -/
def terminalSize (frames : Frames) (ctx : Ctx) (e : Item) (valueIdx : Nat) : Except Err Nat :=
  if ctx.hasValues ∧ e.2 ≠ .none then do
    let idxBits ← varUintSize frames valueIdx
    .ok (ctx.bps + idxBits)
  else .ok ctx.bps

/-- The BRANCH of a subtree and its children. -/
def branchSize (frames : Frames) (ctx : Ctx) (size : List Item → Nat → Except Err (Nat × Nat))
    (runs : List (List Item)) (valueIdx : Nat) : Except Err (Nat × Nat) := do
  let countBits ← varUintSize frames runs.length
  let (bits, valueIdx) ← childrenSize frames ctx.bps runs.length size 0 runs valueIdx
  .ok (ctx.bps + countBits + bits, valueIdx)

/-- `_trie_subtree_size`, with the value index behind the subtree. -/
def trieSubtreeSize (ctx : Ctx) :
    (fuel : Nat) → Frames → List Item → (prefixLen valueIdx : Nat) → Except Err (Nat × Nat)
  | 0, _, _, _, _ => .error .loop
  | _ + 1, _, [], _, _ => .error .loop
  | fuel + 1, frames, first :: rest, prefixLen, valueIdx => do
    let common := commonEnd first rest prefixLen
    let bits := (common - prefixLen) * ctx.bps
    let hasTerminal := first.1.length = common
    let children := if hasTerminal then rest else first :: rest
    let runs ← childRuns common children.length children
    let childCount := runs.length
    let size := fun run valueIdx =>
      frames.call 1 (trieSubtreeSize ctx fuel (frames.inside 1) run common valueIdx)
    if hasTerminal ∧ childCount = 0 then do
      let terminal ← terminalSize frames ctx first valueIdx
      .ok (bits + terminal, valueIdx + 1)
    else if hasTerminal then do
      let terminal ← terminalSize frames ctx first valueIdx
      let (branch, valueIdx) ← branchSize frames ctx size runs (valueIdx + 1)
      .ok (bits + terminal + branch, valueIdx)
    else do
      let (branch, valueIdx) ← branchSize frames ctx size runs valueIdx
      .ok (bits + branch, valueIdx)

/-! ## Writing the trie -/

/-- The terminal of an entry. -/
def writeTerminal (frames : Frames) (ctx : Ctx) (e : Item) (valueIdx : Nat) : Write Unit :=
  if ctx.hasValues ∧ e.2 ≠ .none then do
    frames.call 2 (writeBits (ctx.ctrl ctrlEndVal) ctx.bps)
    frames.call 4 (writeVarUint valueIdx)
  else frames.call 2 (writeBits (ctx.ctrl ctrlEnd) ctx.bps)

/-- The distance that stands before a child. -/
def writeSkip (frames : Frames) (ctx : Ctx) (size : List Item → Nat → Except Err (Nat × Nat))
    (run : List Item) (valueIdx : Nat) : Write Unit := do
  let (childSz, _) ← StateT.lift (size run valueIdx)
  frames.call 2 (writeBits (ctx.ctrl ctrlSkip) ctx.bps)
  frames.call 4 (writeVarUint childSz)

/-- The loop over the children in `_trie_write` from `child_i` on. -/
def writeChildren (frames : Frames) (ctx : Ctx) (childCount : Nat)
    (size : List Item → Nat → Except Err (Nat × Nat)) (child : List Item → Nat → Write Nat) :
    (childI : Nat) → List (List Item) → (valueIdx : Nat) → Write Nat
  | _, [], valueIdx => pure valueIdx
  | childI, run :: runs, valueIdx => do
    (if childI < childCount - 1 then writeSkip frames ctx size run valueIdx else pure ())
    let valueIdx ← child run valueIdx
    writeChildren frames ctx childCount size child (childI + 1) runs valueIdx

/-- `_trie_write`, with the value index behind the subtree. `write_bits` opens a frame for `_ensure`, and
`write_var_uint` three, for `write_u8`, `write_bits` and `_ensure`. -/
def trieWrite (ctx : Ctx) :
    (fuel : Nat) → Frames → List Item → (prefixLen valueIdx : Nat) → Write Nat
  | 0, _, _, _, _ => throw .loop
  | _ + 1, _, [], _, _ => throw .loop
  | fuel + 1, frames, first :: rest, prefixLen, valueIdx => do
    let common := commonEnd first rest prefixLen
    ((first.1.take common).drop prefixLen).forM fun ch =>
      frames.call 2 (writeBits (ctx.symbolMap ch) ctx.bps)
    let hasTerminal := first.1.length = common
    let children := if hasTerminal then rest else first :: rest
    let runs ← StateT.lift (childRuns common children.length children)
    let childCount := runs.length
    (if hasTerminal then writeTerminal frames ctx first valueIdx else pure ())
    let valueIdx := if hasTerminal then valueIdx + 1 else valueIdx
    if childCount = 0 then pure valueIdx
    else do
      frames.call 2 (writeBits (ctx.ctrl ctrlBranch) ctx.bps)
      frames.call 4 (writeVarUint childCount)
      writeChildren frames ctx childCount
        (fun run valueIdx =>
          frames.call 1 (trieSubtreeSize ctx fuel (frames.inside 1) run common valueIdx))
        (fun run valueIdx => frames.call 1 (trieWrite ctx fuel (frames.inside 1) run common valueIdx))
        0 runs valueIdx

/-! ## The file -/

def tpMagic : List UInt8 := [0x54, 0x52, 0x50, 0x00]
def tpVersionMajor : Nat := 1
def tpVersionMinor : Nat := 0
def tpFlagHasValues : Nat := 1

/-- The header with its placeholders. -/
def writeHeader (flags numKeys : Nat) : Write Unit := do
  tpMagic.forM fun b => writeU8 b.toNat
  writeU8 tpVersionMajor
  writeU8 tpVersionMinor
  writeU16 flags
  writeU32 numKeys
  writeU32 0
  writeU32 0
  writeU32 0
  writeU32 0
  writeU32 0

/-- The configuration of the trie. -/
def writeConfig (ctx : Ctx) (totalSymbols : Nat) (reverseMap : Nat → UInt8) : Write Unit := do
  writeBits ctx.bps 4
  writeBits totalSymbols 8
  (List.range numControlCodes).forM fun c => writeBits (ctx.ctrl c) ctx.bps
  (List.range' numControlCodes (totalSymbols - numControlCodes)).forM fun cd =>
    writeVarUint (if cd < 256 then (reverseMap cd).toNat else 0)

/-- The value store. -/
def encodeValues : List Item → Write Unit
  | [] => pure ()
  | e :: es => do
    encodeValue e.2
    encodeValues es

/-- `has_values`. -/
def hasValues (items : List Item) : Bool := items.any fun e => decide (e.2 ≠ .none)

/-- `ctx` for the sorted entries. -/
def context (deduped : List Item) : Ctx where
  bps := bpsLoop (alphabetSize deduped + numControlCodes) (alphabetSize deduped + numControlCodes) 1
  symbolMap := (symbolTables deduped).symbolMap
  ctrlCodes := List.range numControlCodes
  hasValues := hasValues deduped

/-- What `encode` writes of the sorted entries before it aligns, with the offsets it takes. -/
def writeStream (frames : Frames) (deduped : List Item) : Write StreamOffsets := do
  let totalSymbols := alphabetSize deduped + numControlCodes
  let ctx := context deduped
  writeHeader (if ctx.hasValues then tpFlagHasValues else 0) deduped.length
  let dataStart ← position
  writeConfig ctx totalSymbols (symbolTables deduped).reverseMap
  let triePos ← position
  let _ ← (if deduped ≠ [] then trieWrite ctx deduped.length (frames.more 5) deduped 0 0 else pure 0)
  let valuePos ← position
  (if ctx.hasValues then encodeValues deduped else pure ())
  let endPos ← position
  pure ⟨triePos - dataStart, valuePos - dataStart, endPos - dataStart⟩

/-- `_patch_u32`. -/
def patchU32 (buf : List UInt8) (offset value : Nat) : List UInt8 :=
  (((buf.set offset (UInt8.ofNat ((value >>> 24) &&& 0xFF))).set (offset + 1)
    (UInt8.ofNat ((value >>> 16) &&& 0xFF))).set (offset + 2)
      (UInt8.ofNat ((value >>> 8) &&& 0xFF))).set (offset + 3) (UInt8.ofNat (value &&& 0xFF))

/-- The header offsets and the checksum in the finished buffer. -/
def patchOffsets (offs : StreamOffsets) (outBuf : List UInt8) : List UInt8 :=
  let outBuf := patchU32 outBuf 12 offs.trieDataOffset
  let outBuf := patchU32 outBuf 16 offs.valueStoreOffset
  let outBuf := patchU32 outBuf 20 0
  let outBuf := patchU32 outBuf 24 offs.totalDataBits
  let crcDataLen := outBuf.length - 4
  patchU32 outBuf crcDataLen (crc32 (outBuf.take crcDataLen))

/-- `encode`, where `frames` can be opened inside its frame besides the six that the deepest of its other
calls takes: `encode_value`, `write_var_int`, `write_var_uint`, `write_u8`, `write_bits` and `_ensure`. -/
def encode (frames : Frames) (data : Dict) : Except Err (List UInt8) :=
  let deduped := sortItems data.items
  if alphabetSize deduped + numControlCodes > 255 then .error .valueError
  else do
    let (offs, w) ← writeStream frames deduped (.init 256)
    let (_, w) ← alignToByte w
    let (_, w) ← writeU32 (crc32 w.toBytes) w
    .ok (patchOffsets offs w.toBytes)

end Triepack.Python
