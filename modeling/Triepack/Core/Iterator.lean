import Triepack.Core.DictLookup

/-!
# Iteration

An iterator walks the trie one key at a time. Its stack has a frame for every BRANCH it is
inside, and a position bounds the subtree that is being walked: a child with a SKIP ends where
that leads to, the last child ends with its parent, and the root ends at the value store.
-/

namespace Triepack

open BitString

/-- `tp_iter_frame`. -/
structure IterFrame where
  subtreeEnd : Nat
  nextChildPos : Nat
  remaining : Nat
  keyPrefixLen : Nat
  deriving DecidableEq, Repr

/-- `tp_iterator`. The head of `stack` is its top, and `keyBuf` is what was written to the key
buffer. -/
structure Iter where
  dict : Dict
  pos : Nat
  done : Bool
  keyBuf : List UInt8
  keyLen : Nat
  stack : List IterFrame
  started : Bool
  rootPos : Nat
  rootEnd : Nat
  rootKeyLen : Nat
  valuePos : Nat
  valueIndex : Nat

def iterMaxDepth : Nat := 256

/-- What `tp_iter_next` hands out. -/
structure IterItem where
  key : List UInt8
  val : Value Slice
  deriving DecidableEq, Repr

/-! ## Operations on an iterator and a reader -/

abbrev It (α : Type) : Type := Op (Iter × Reader) α

def It.rd {α : Type} (m : Rd α) : It α := fun (it, r) => ((m r).1, it, (m r).2)

def It.get : It Iter := fun (it, r) => (.ok it, it, r)

def It.modify (f : Iter → Iter) : It Unit := fun (it, r) => (.ok (), f it, r)

section It

variable {α β : Type} {m : Rd α} {f : α → It β} {it : Iter} {r r' : Reader}

theorem It.rd_bind_ok {a : α} (h : m r = (.ok a, r')) : (It.rd m >>= f) (it, r) = f a (it, r') :=
  Op.bind_ok (by rw [It.rd, h])

theorem It.rd_bind_error {e : Stop} (h : m r = (.error e, r')) :
    (It.rd m >>= f) (it, r) = (.error e, it, r') :=
  Op.bind_error (by rw [It.rd, h])

theorem It.rd_bind_eq_ok {b : β} {s : Iter × Reader} (h : (It.rd m >>= f) (it, r) = (.ok b, s)) :
    ∃ a r', m r = (.ok a, r') ∧ f a (it, r') = (.ok b, s) := by
  rcases hm : m r with ⟨e | a, r'⟩
  · rw [It.rd_bind_error hm] at h
    simp at h
  · exact ⟨a, r', rfl, (It.rd_bind_ok hm).symm.trans h⟩

theorem It.get_bind (f : Iter → It β) : (It.get >>= f) (it, r) = f it (it, r) := rfl

theorem It.modify_bind (g : Iter → Iter) (f : Unit → It β) :
    (It.modify g >>= f) (it, r) = f () (g it, r) := rfl

end It

def Iter.pushKey (it : Iter) (byte : UInt8) : Iter :=
  { it with
    keyBuf := it.keyBuf.take it.keyLen ++ byte :: it.keyBuf.drop (it.keyLen + 1)
    keyLen := it.keyLen + 1 }

/-- `iter_push_key`. -/
def iterPushKey (byte : UInt8) : It Unit := It.modify fun it => it.pushKey byte

/-- The part of `iter_value_at` that walks the value store from its start, unless the cursor is
where it should be. -/
def iterSeekValue (it : Iter) (index : Nat) : Rd Unit :=
  if index ≠ it.valueIndex then do
    bsReaderSeek it.dict.valueStart
    skipValues index
  else pure ()

/-- `iter_value_at`: the cursor is moved to the value unless it is there. -/
def iterValueAt (index : Nat) : It (Value Slice) := fun (it, r) =>
  if ¬ it.dict.info.hasValues then (.ok .null, it, r)
  else
    match iterSeekValue it index (bsReaderCreate it.dict.buf) with
    | (.error e, _) => (.error e, it, r)
    | (.ok (), vr) =>
      let it := if index ≠ it.valueIndex then { it with valuePos := vr.pos, valueIndex := index } else it
      match (do bsReaderSeek it.valuePos; valueDecode : Rd (Value Slice)) vr with
      | (.error e, _) => (.error e, it, r)
      | (.ok val, vr) =>
        (.ok val, { it with valuePos := vr.pos, valueIndex := u64 (index + 1) }, r)

/-- `descending` with `subtree_end`: whether the next sibling is to be found or a subtree is
being walked. -/
inductive IterMode where
  | sibling
  | walk (subtreeEnd : Nat)
  deriving DecidableEq, Repr

/-- A BRANCH, whose symbol is consumed: a frame for its children. -/
def iterPushFrame (subtreeEnd : Nat) : It Unit := do
  let nchildren ← It.rd bsReadVarintU
  let it ← It.get
  if it.stack.length ≥ iterMaxDepth then Op.fail .overflow
  else do
    let nextChildPos ← It.rd bsReaderPosition
    It.modify fun it =>
      { it with stack := ⟨subtreeEnd, nextChildPos, u32 nchildren, it.keyLen⟩ :: it.stack }

/-- Take the next child off a frame; the result is where it ends. Every child but the last is
introduced by SKIP and its length, which is also where the following sibling begins. -/
def iterTakeChild (f : IterFrame) (frames : List IterFrame) : It Nat := do
  It.rd (bsReaderSeek f.nextChildPos)
  let it ← It.get
  let sym := it.dict.sym
  if f.remaining > 1 then do
    let skipSym ← It.rd (bsReadBits sym.bitsPerSymbol)
    if skipSym ≠ sym.ctrlCodes .skip then Op.fail .corrupt
    else do
      let dist ← It.rd bsReadVarintU
      let pos ← It.rd bsReaderPosition
      It.modify fun it =>
        { it with
          pos := pos
          stack := { f with
            nextChildPos := u64 (pos + dist)
            remaining := f.remaining - 1 } :: frames }
      return u64 (pos + dist)
  else do
    It.modify fun it =>
      { it with pos := f.nextChildPos, stack := { f with remaining := f.remaining - 1 } :: frames }
    return f.subtreeEnd

/-- Move to the next unvisited sibling, and enter it. -/
def iterSibling : It IterMode := do
  It.modify fun it => { it with stack := it.stack.dropWhile fun f => f.remaining == 0 }
  let it ← It.get
  match it.stack with
  | [] => Op.fail .eof
  | f :: frames => do
    It.modify fun it => { it with keyLen := f.keyPrefixLen }
    let subtreeEnd ← iterTakeChild f frames
    let it ← It.get
    It.rd (bsReaderSeek it.pos)
    return .walk subtreeEnd

/-- One symbol of a walk down, which may yield a key. -/
def iterWalk (subtreeEnd : Nat) : It (IterMode ⊕ IterItem) := do
  let pos ← It.rd bsReaderPosition
  if pos ≥ subtreeEnd then return .inl .sibling
  else do
    let it ← It.get
    let sym := it.dict.sym
    let code ← It.rd (bsReadBits sym.bitsPerSymbol)
    if code = sym.ctrlCodes .end_ ∨ code = sym.ctrlCodes .endVal then do
      let index ← (if code = sym.ctrlCodes .endVal then do
        let vi ← It.rd bsReadVarintU
        return some vi
      else return none)
      let pos ← It.rd bsReaderPosition
      (if pos < subtreeEnd then do
        let branchSym ← It.rd (bsReadBits sym.bitsPerSymbol)
        if branchSym ≠ sym.ctrlCodes .branch then Op.fail .corrupt else iterPushFrame subtreeEnd
      else pure ())
      let val ← (match index with
        | none => return .null
        | some vi => iterValueAt vi)
      let it ← It.get
      return .inr ⟨it.keyBuf.take it.keyLen, val⟩
    else if code = sym.ctrlCodes .branch then do
      iterPushFrame subtreeEnd
      return .inl .sibling
    else if code < 256 ∧ sym.codeIsCtrl code then Op.fail .corrupt
    else do
      iterPushKey (if code < 256 then sym.reverseMap code else 0)
      return .inl (.walk subtreeEnd)

/-- One iteration of the loop of `tp_iter_next`. -/
def iterBody : IterMode → It (IterMode ⊕ IterItem)
  | .sibling => do
    let mode ← iterSibling
    return .inl mode
  | .walk subtreeEnd => iterWalk subtreeEnd

/-! ## A bound on the iterations -/

/-- Iterations below a BRANCH with so much room on the stack, when a child reads at most `bits`
bits. -/
def branchCost (bits : Nat) : (room : Nat) → Nat
  | 0 => 0
  | room + 1 => 2 ^ 32 * (bits + 3 + branchCost bits room) + 1

/-- Iterations to enter and walk one child. -/
def childCost (bits room : Nat) : Nat := bits + 3 + branchCost bits room

/-- Iterations to finish the frames of a stack. -/
def stackCost (bits : Nat) : List IterFrame → Nat
  | [] => 0
  | f :: frames =>
    f.remaining * childCost bits (iterMaxDepth - (frames.length + 1)) + 1 + stackCost bits frames

def iterFuel (it : Iter) : Nat :=
  stackCost (8 * it.dict.buf.length) it.stack +
    childCost (8 * it.dict.buf.length) (iterMaxDepth - it.stack.length) + 2

/-! ## The calls -/

/-- The rest of `tp_iter_next`, from the first iteration of its loop on. -/
def iterRun (it : Iter) : It IterItem :=
  if ¬ it.started then do
    It.modify fun it => { it with started := true, pos := it.rootPos, keyLen := it.rootKeyLen }
    It.rd (bsReaderSeek it.rootPos)
    Op.loop iterBody (iterFuel it) (.walk it.rootEnd)
  else Op.loop iterBody (iterFuel it) .sibling

/-- `tp_iter_next`. Every failure leaves the iterator done. -/
def iterNext (it : Iter) : Except Stop IterItem × Iter :=
  if it.done then (.error (.rc .eof), it)
  else if it.dict.info.numKeys = 0 then (.error (.rc .eof), { it with done := true })
  else
    match iterRun it (it, bsReaderCreate it.dict.buf) with
    | (.ok item, it, _) => (.ok item, it)
    | (.error e, it, _) => (.error e, { it with done := true })

/-- The results of `n` calls. -/
def iterNextN : (n : Nat) → Iter → List (Except Stop IterItem) × Iter
  | 0, it => ([], it)
  | n + 1, it =>
    let (result, it) := iterNext it
    let (results, it) := iterNextN n it
    (result :: results, it)

/-- `tp_iter_reset`. -/
def iterReset (it : Iter) : Iter :=
  { it with
    pos := it.rootPos
    done := false
    keyLen := it.rootKeyLen
    stack := []
    started := false
    valuePos := it.dict.valueStart
    valueIndex := 0 }

/-- `tp_dict_iterate`. -/
def dictIterate (d : Dict) : Iter :=
  iterReset
    { dict := d
      pos := 0
      done := false
      keyBuf := []
      keyLen := 0
      stack := []
      started := false
      rootPos := d.trieStart
      rootEnd := d.valueStart
      rootKeyLen := 0
      valuePos := 0
      valueIndex := 0 }

end Triepack
