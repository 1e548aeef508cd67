import Triepack.Python.Encode
import Triepack.Python.Reader

/-!
# The dictionary decoder of the Python module

The trie is walked depth first, and every key that the walk comes to is assigned. The values are
read afterwards, one for each key in the order of the keys, whatever index a terminal has. The three
functions that call each other are given how many frames can be opened inside their own.
-/

namespace Triepack.Python

open CallStack

/-! ## Values -/

/-- `raw.decode("utf-8")`; a string is its bytes. -/
def decodeUtf8 (raw : List UInt8) : Except ReadErr (List UInt8) :=
  if raw.toByteArray.IsValidUTF8 then .ok raw else .error .unicodeError

/-- The double that has the value of a single, as bit patterns. -/
def widen (bits : Nat) : UInt64 :=
  let sign := bits / 2 ^ 31
  let exp := bits / 2 ^ 23 % 2 ^ 8
  let frac := bits % 2 ^ 23
  let magnitude :=
    if exp = 255 then 2047 * 2 ^ 52 + frac * 2 ^ 29
    else if exp ≠ 0 then (exp + 896) * 2 ^ 52 + frac * 2 ^ 29
    else if frac = 0 then 0
    -- a subnormal single is a normal double
    else (frac.log2 + 873) * 2 ^ 52 + frac * 2 ^ (52 - frac.log2)
  UInt64.ofNat (sign * 2 ^ 63 + magnitude)

def tpFloat32 : Nat := 4

/-- `decode_value`. -/
def decodeValue : Read PyValue := do
  let tag ← readBits 4
  if tag = tpNull then return .none
  else if tag = tpBool then return .bool ((← readBit) != 0)
  else if tag = tpInt then return .int (← readVarInt)
  else if tag = tpUint then return .int (← readVarUint)
  else if tag = tpFloat32 then return .float (widen (← readU32))
  else if tag = tpFloat64 then do
    let hi ← readU32
    let lo ← readU32
    return .float (UInt64.ofNat (hi * 2 ^ 32 + lo))
  else if tag = tpString then do
    let raw ← readSlice
    let utf8 ← StateT.lift (decodeUtf8 raw)
    return .str utf8
  else if tag = tpBlob then return .bytes (← readSlice)
  else throw .valueError

/-! ## Assigning to a dictionary -/

/-- `{}`. -/
def Dict.empty : Dict := ⟨[], List.nodup_nil⟩

/-- The items after an assignment. A key that is there keeps its place. -/
def setItem (items : List Item) (key : List UInt8) (val : PyValue) : List Item :=
  if items.any fun e => decide (e.1 = key) then items.map fun e => if e.1 = key then (key, val) else e
  else items ++ [(key, val)]

theorem setItem_eq (items : List Item) (key : List UInt8) (val : PyValue) :
    setItem items key val =
      if key ∈ items.map Prod.fst then items.map fun e => if e.1 = key then (key, val) else e
      else items ++ [(key, val)] := by
  have hany : (items.any fun e => decide (e.1 = key)) = true ↔ key ∈ items.map Prod.fst := by
    simp only [List.any_eq_true, decide_eq_true_eq, List.mem_map]
  rw [setItem]
  simp only [hany]

theorem keys_setItem (items : List Item) (key : List UInt8) (val : PyValue) :
    (setItem items key val).map Prod.fst =
      if key ∈ items.map Prod.fst then items.map Prod.fst else items.map Prod.fst ++ [key] := by
  rw [setItem_eq]
  split_ifs
  · rw [List.map_map]
    refine List.map_congr_left fun e _ => ?_
    by_cases h : e.1 = key
    · simp [h]
    · simp [h]
  · rw [List.map_append]
    rfl

/-- `result[key] = val`. -/
def Dict.set (d : Dict) (key : List UInt8) (val : PyValue) : Dict where
  items := setItem d.items key val
  nodup := by
    rw [keys_setItem]
    split_ifs with h
    · exact d.nodup
    · rw [List.nodup_append]
      refine ⟨d.nodup, List.nodup_singleton key, fun a ha b hb => ?_⟩
      obtain rfl : b = key := by simpa using hb
      exact fun heq => h (heq ▸ ha)

@[simp] theorem Dict.items_set (d : Dict) (key : List UInt8) (val : PyValue) :
    (d.set key val).items = setItem d.items key val := rfl

/-! ## The walk over the trie -/

/-- What the configuration of the trie says. -/
structure Config where
  bps : Nat
  ctrlCodes : List Nat
  reverseMap : Nat → UInt8

/-- `ctrl_codes[c]`. -/
def Config.ctrl (cfg : Config) (c : Nat) : Nat := cfg.ctrlCodes.getD c 0

/-- The reader, `key_stack` and `result`. -/
structure WalkState where
  reader : BitReader
  keyStack : List UInt8
  result : Dict

/-- A part of the walk. -/
abbrev Walk (α : Type) : Type := StateT WalkState (Except ReadErr) α

def Walk.rd {α : Type} (m : Read α) : Walk α := fun s =>
  match m s.reader with
  | .ok (a, r) => .ok (a, { s with reader := r })
  | .error e => .error e

/-- `r.position`. -/
def Walk.position : Walk Nat := fun s => .ok (s.reader.pos, s)

/-- `del key_stack[n:]`. -/
def truncateKey (n : Nat) : Walk Unit := fun s => .ok ((), { s with keyStack := s.keyStack.take n })

/-- `key_stack.append(byte_val)`. -/
def pushKey (byteVal : UInt8) : Walk Unit :=
  fun s => .ok ((), { s with keyStack := s.keyStack ++ [byteVal] })

/-- The key on the stack is assigned `None`. -/
def assignKey : Walk Unit := fun s =>
  match decodeUtf8 s.keyStack with
  | .ok key => .ok ((), { s with result := s.result.set key .none })
  | .error e => .error e

/-- The loop of `walk_branch` with `n` of the children left. `walk` is `dfs_walk`, with the frames inside its
own; `read_var_uint` opens two more, for `read_u8` and `read_bits`. -/
def walkChildren (frames : Frames) (cfg : Config) (walk : Frames → Nat → Walk Unit)
    (savedKeyLen end_ : Nat) : (n : Nat) → Walk Unit
  | 0 => pure ()
  | n + 1 =>
    if n > 0 then do
      let _ ← frames.call 1 (Walk.rd (readBits cfg.bps))
      let skipDist ← frames.call 3 (Walk.rd readVarUint)
      let childStartPos ← frames.call 1 Walk.position
      truncateKey savedKeyLen
      frames.call 1 (walk (frames.inside 1) (childStartPos + skipDist))
      frames.call 1 (Walk.rd (seek (childStartPos + skipDist)))
      walkChildren frames cfg walk savedKeyLen end_ n
    else do
      let _ ← frames.call 1 Walk.position
      truncateKey savedKeyLen
      frames.call 1 (walk (frames.inside 1) end_)

/-- `walk_branch`. -/
def walkBranch (frames : Frames) (cfg : Config) (walk : Frames → Nat → Walk Unit) (childCount end_ : Nat) :
    Walk Unit :=
  fun s => (do
    walkChildren frames cfg walk s.keyStack.length end_ childCount
    truncateKey s.keyStack.length : Walk Unit) s

/-- `walk_branch_if_present`. -/
def walkBranchIfPresent (frames : Frames) (cfg : Config) (walk : Frames → Nat → Walk Unit) (end_ : Nat) :
    Walk Unit := do
  let pos ← frames.call 1 Walk.position
  if pos ≥ end_ then pure ()
  else do
    let sym ← frames.call 1 (Walk.rd (readBits cfg.bps))
    if sym ≠ cfg.ctrl ctrlBranch then throw .valueError
    else do
      let childCount ← frames.call 3 (Walk.rd readVarUint)
      frames.call 1 (walkBranch (frames.inside 1) cfg walk childCount end_)

/-- `dfs_walk`. A round of its loop takes one of the fuel, and so does a call from inside it. -/
def dfsWalk (cfg : Config) : (fuel : Nat) → Frames → (end_ : Nat) → Walk Unit
  | 0, _, _ => throw .loop
  | fuel + 1, frames, end_ => do
    let pos ← frames.call 1 Walk.position
    if pos ≥ end_ then pure ()
    else do
      let sym ← frames.call 1 (Walk.rd (readBits cfg.bps))
      if sym = cfg.ctrl ctrlEnd then do
        assignKey
        frames.call 1 (walkBranchIfPresent (frames.inside 1) cfg (dfsWalk cfg fuel) end_)
      else if sym = cfg.ctrl ctrlEndVal then do
        let _ ← frames.call 3 (Walk.rd readVarUint)
        assignKey
        frames.call 1 (walkBranchIfPresent (frames.inside 1) cfg (dfsWalk cfg fuel) end_)
      else if sym = cfg.ctrl ctrlBranch then do
        let childCount ← frames.call 3 (Walk.rd readVarUint)
        frames.call 1 (walkBranch (frames.inside 1) cfg (dfsWalk cfg fuel) childCount end_)
      else do
        pushKey (if sym < 256 then cfg.reverseMap sym else 0)
        dfsWalk cfg fuel frames end_

/-! ## The file -/

def tpHeaderSize : Nat := 32

/-- Two and four bytes of the header. -/
def u16At (buf : List UInt8) (i : Nat) : Nat := ((buf.getD i 0).toNat <<< 8) ||| (buf.getD (i + 1) 0).toNat

def u32At (buf : List UInt8) (i : Nat) : Nat :=
  ((buf.getD i 0).toNat <<< 24) ||| ((buf.getD (i + 1) 0).toNat <<< 16) |||
    ((buf.getD (i + 2) 0).toNat <<< 8) ||| (buf.getD (i + 3) 0).toNat

/-- The control codes, `n` of them. -/
def readCtrlCodes (bps : Nat) : (n : Nat) → Read (List Nat)
  | 0 => pure []
  | n + 1 => do
    let code ← readBits bps
    let codes ← readCtrlCodes bps n
    return code :: codes

/-- The loop over the symbol table from `cd` on. -/
def readSymbolTable : (n cd : Nat) → (Nat → UInt8) → Read (Nat → UInt8)
  | 0, _, reverseMap => pure reverseMap
  | n + 1, cd, reverseMap => do
    let cp ← readVarUint
    readSymbolTable n (cd + 1)
      (if cd < 256 ∧ cp < 256 then Function.update reverseMap cd (UInt8.ofNat cp) else reverseMap)

/-- The configuration of the trie. -/
def readConfig : Read Config := do
  let bps ← readBits 4
  if bps < 1 ∨ bps > 8 then throw .valueError
  else do
    let symbolCount ← readBits 8
    if symbolCount < numControlCodes ∨ symbolCount > 1 <<< bps then throw .valueError
    else do
      let ctrlCodes ← readCtrlCodes bps numControlCodes
      let reverseMap ← readSymbolTable (symbolCount - numControlCodes) numControlCodes fun _ => 0
      return ⟨bps, ctrlCodes, reverseMap⟩

/-- The values of the sorted keys. -/
def decodeValues : List (List UInt8) → Dict → Read Dict
  | [], result => pure result
  | key :: keys, result => do
    let val ← decodeValue
    decodeValues keys (result.set key val)

/-- The walk over the trie and the pass over the values. -/
def readItems (frames : Frames) (cfg : Config) (hasValues : Bool) (trieStart valueStart : Nat)
    (reader : BitReader) : Except ReadErr Dict := do
  let (_, s) ← dfsWalk cfg (8 * reader.buf.length + 2) (frames.more 5) valueStart
    ⟨{ reader with pos := trieStart }, [], .empty⟩
  if hasValues then do
    let sortedKeys := (s.result.items.map Prod.fst).insertionSort (· ≤ ·)
    let (result, _) ← decodeValues sortedKeys s.result { s.reader with pos := valueStart }
    .ok result
  else .ok s.result

/-- `decode`, where `frames` can be opened inside its frame besides the six that `encode` needs; all other
calls take five at most: `decode_value`, `read_var_int`, `read_var_uint`, `read_u8` and `read_bits`. -/
def decode (frames : Frames) (buffer : List UInt8) : Except ReadErr Dict :=
  if buffer.length < tpHeaderSize + 4 then .error .valueError
  else if buffer.take 4 ≠ tpMagic then .error .valueError
  else if (buffer.getD 4 0).toNat ≠ tpVersionMajor then .error .valueError
  else
    let flags := u16At buffer 6
    let hasValues := flags &&& tpFlagHasValues ≠ 0
    let numKeys := u32At buffer 8
    let trieDataOffset := u32At buffer 12
    let valueStoreOffset := u32At buffer 16
    let crcDataLen := buffer.length - 4
    if crc32 (buffer.take crcDataLen) ≠ u32At buffer crcDataLen then .error .valueError
    else if numKeys = 0 then .ok .empty
    else do
      let dataStart := tpHeaderSize * 8
      let (cfg, reader) ← readConfig ⟨buffer, dataStart⟩
      readItems frames cfg hasValues (dataStart + trieDataOffset) (dataStart + valueStoreOffset) reader

end Triepack.Python
