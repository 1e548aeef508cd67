import Triepack.Terseml.Decode

/-!
# The C decoder in memory

`rdr` as it is in C: a cursor into the input. Strings are slices of the input, or copies in buffers of
the arena. Where C leaves undefined what happens, because a byte behind the end of the input is read
or one behind the end of a buffer is written, the call ends with a fault.
-/

namespace Terseml.Memory

open Triepack

/-- How a call ends when not with `TSML_OK`. -/
inductive Halt where
  | rc (code : TsmlErr)
  | fuel
  | fault
  deriving DecidableEq, Repr

/-- A buffer for an unescaped string: how many bytes have been allocated, and those that have been
written through `dst[w++]`. -/
structure Buffer where
  size : Nat
  written : List UInt8
  deriving DecidableEq, Repr

/-- How often memory has been asked for, and the buffers there are, the last one first. -/
structure Arena where
  requests : Nat
  buffers : List Buffer
  deriving DecidableEq, Repr

/-- A part of the decoder. What it has done stays when it fails. -/
abbrev Dec := EStateM Halt Arena

def malformed {α : Type} : Dec α := throw (.rc .malformed)

/-- A string of the tree: where it points and how long it is. -/
inductive Str where
  | slice (start len : Nat)
  | copy (bytes : List UInt8)
  | literal (bytes : List UInt8)
  deriving DecidableEq, Repr

def Str.len : Str → Nat
  | .slice _ len => len
  | .copy bytes => bytes.length
  | .literal bytes => bytes.length

/-- `tsml_node`. -/
inductive Tree where
  | text (text : Str)
  | element (tag : Str) (attrs : List (Str × Str)) (children : List Tree)

section Decoder

/- Which requests for memory are granted, and the input. -/
variable (grant : Nat → Bool) (buf : List UInt8)

/-! ## Memory -/

/-- `arena_alloc`, or `realloc`, for nodes and their arrays. -/
def alloc : Dec Unit := fun a =>
  let a' := { a with requests := a.requests + 1 }
  if grant a.requests then .ok () a' else .error (.rc .alloc) a'

/-- `arena_alloc` for a string. -/
def allocBuffer (size : Nat) : Dec Unit := do
  alloc grant
  modify fun a => { a with buffers := ⟨size, []⟩ :: a.buffers }

/-- A byte of the input. -/
def load (i : Nat) : Dec UInt8 :=
  match buf[i]? with
  | some c => pure c
  | none => throw .fault

/-- A byte for the last buffer. -/
def store (c : UInt8) : Dec Unit := fun a =>
  match a.buffers with
  | [] => .error .fault a
  | b :: bs =>
    if b.written.length < b.size then .ok () { a with buffers := ⟨b.size, b.written ++ [c]⟩ :: bs }
    else .error .fault a

/-- `memcpy` from the input to the last buffer. -/
def copy : (pos len : Nat) → Dec Unit
  | _, 0 => pure ()
  | pos, len + 1 => do
    store (← load buf pos)
    copy (pos + 1) len

/-- What is in the last buffer. -/
def copied : Dec Str := do return .copy (((← get).buffers.head?.map Buffer.written).getD [])

/-- There is a byte before the end of the input, and it has a property. -/
def test (i : Nat) (p : UInt8 → Bool) : Dec Bool :=
  if i < buf.length then do return p (← load buf i) else pure false

/-- A loop that goes on over bytes with a property, up to a position. -/
def scan (p : UInt8 → Bool) (stop : Nat) : (fuel i : Nat) → Dec Nat
  | 0, _ => throw .fuel
  | fuel + 1, i =>
    if i < stop then do
      if p (← load buf i) then scan p stop fuel (i + 1) else pure i
    else pure i

/-! ## Strings -/

/-- The loop of `read_escaped` that finds the end of a run and counts its escapes. -/
def measureEscaped (ctx : EscCtx) : (fuel fin nesc : Nat) → Dec (Nat × Nat)
  | 0, _, _ => throw .fuel
  | fuel + 1, fin, nesc =>
    if fin < buf.length then do
      let c ← load buf fin
      if c = bs then
        if fin + 1 ≥ buf.length then malformed
        else do
          let e ← load buf (fin + 1)
          if validEscape e then measureEscaped ctx fuel (fin + 2) (nesc + 1) else malformed
      else if isReserved ctx c then pure (fin, nesc)
      else measureEscaped ctx fuel (fin + 1) nesc
    else pure (fin, nesc)

/-- The loop of `read_escaped` that copies a run without its escapes. -/
def copyEscaped (fin : Nat) : (fuel pos : Nat) → Dec Unit
  | 0, _ => throw .fuel
  | fuel + 1, pos =>
    if pos < fin then do
      let c ← load buf pos
      if c = bs then do
        store (← load buf (pos + 1))
        copyEscaped fin fuel (pos + 2)
      else do
        let run ← scan buf (· != bs) fin (buf.length + 1) pos
        copy buf pos (run - pos)
        copyEscaped fin fuel run
    else pure ()

/-- `read_escaped`. -/
def readEscaped (ctx : EscCtx) (start : Nat) : Dec (Str × Nat) := do
  let i ← scan buf (fun c => c != bs && !isReserved ctx c) buf.length (buf.length + 1) start
  if i ≥ buf.length then malformed
  else do
    let c ← load buf i
    if c ≠ bs then pure (.slice start (i - start), i)
    else do
      let (fin, nesc) ← measureEscaped buf ctx (buf.length + 1) i 0
      if fin ≥ buf.length then malformed
      else do
        allocBuffer grant (fin - start - nesc)
        copyEscaped buf fin (buf.length + 1) start
        return (← copied, fin)

/-- The loop of `read_binary` that reads a length, with what is left of its ten groups. -/
def readVarint : (groups shift claim i : Nat) → Dec (Nat × Nat)
  | 0, _, _, _ => malformed
  | groups + 1, shift, claim, i =>
    if i ≥ buf.length then malformed
    else do
      let c ← load buf i
      let claim := claim ||| u64 ((c.toNat &&& 0x7F) <<< shift)
      if c.toNat &&& 0x80 = 0 then pure (claim, i + 1) else readVarint groups (shift + 7) claim (i + 1)

/-- The loop of `read_binary` that measures a run and counts its escapes. -/
def measureBinary : (fuel fin nesc : Nat) → Dec (Nat × Nat)
  | 0, _, _ => throw .fuel
  | fuel + 1, fin, nesc =>
    if fin < buf.length then do
      let c ← load buf fin
      if c = 0 then pure (fin, nesc)
      else if c = bs then
        if fin + 1 ≥ buf.length then malformed
        else do
          let e ← load buf (fin + 1)
          if e ≠ digit0 ∧ e ≠ bs then malformed else measureBinary fuel (fin + 2) (nesc + 1)
      else measureBinary fuel (fin + 1) nesc
    else pure (fin, nesc)

/-- The loop of `read_binary` that copies a run up to its NUL, and what is behind it. -/
def copyTerminated : (fuel i : Nat) → Dec Nat
  | 0, _ => throw .fuel
  | fuel + 1, i =>
    if i < buf.length then do
      let c ← load buf i
      if c = 0 then pure (i + 1)
      else if c = bs then
        if i + 1 ≥ buf.length then malformed
        else do
          let e ← load buf (i + 1)
          if e = digit0 then do
            store 0
            copyTerminated fuel (i + 2)
          else if e = bs then do
            store bs
            copyTerminated fuel (i + 2)
          else malformed
      else do
        store c
        copyTerminated fuel (i + 1)
    else malformed

/-- `read_binary`, at its backslash. -/
def readBinary (i : Nat) : Dec (Str × Nat) :=
  if i + 1 ≥ buf.length then malformed
  else do
    let kind ← load buf (i + 1)
    let start := i + 2
    if kind = letterB then do
      let (claim, i) ← readVarint buf 10 0 0 start
      if claim > buf.length - i then malformed else pure (.slice i claim, i + claim)
    else if kind ≠ letterb then malformed
    else do
      let i ← scan buf (fun c => c != 0 && c != bs) buf.length (buf.length + 1) start
      if ← test buf i (· == 0) then pure (.slice start (i - start), i + 1)
      else do
        let (fin, nesc) ← measureBinary buf (buf.length + 1) start 0
        if fin ≥ buf.length then malformed
        else do
          allocBuffer grant (fin - start - nesc)
          let i ← copyTerminated buf (buf.length + 1) start
          return (← copied, i)

/-! ## Elements -/

/-- An array that is full grows before one more is put into it. -/
def grow (first n cap : Nat) : Dec Nat :=
  if n = cap then do
    alloc grant
    pure (if cap = 0 then first else cap * 2)
  else pure cap

/-- The array that has been filled is copied to the arena, if there is something in it. -/
def keep {α : Type} (v : List α) : Dec Unit := if v = [] then pure () else alloc grant

/-- The loop of `decode_attrs`. -/
def decodeAttrsLoop : (fuel i : Nat) → (attrs : List (Str × Str)) → (cap : Nat) → Dec (List (Str × Str) × Nat)
  | 0, _, _, _ => throw .fuel
  | fuel + 1, i, attrs, cap => do
    let (key, i) ← readEscaped grant buf .key i
    if ← test buf i (· == col) then do
      let (val, i) ← readEscaped grant buf .val (i + 1)
      let cap ← grow grant 4 attrs.length cap
      if ← test buf i (· == com) then do
        if ← test buf (i + 1) (· == rsq) then pure (attrs ++ [(key, val)], i + 1)
        else decodeAttrsLoop fuel (i + 1) (attrs ++ [(key, val)]) cap
      else pure (attrs ++ [(key, val)], i)
    else malformed

/-- `decode_attrs`, at its bracket. -/
def decodeAttrs (i : Nat) : Dec (List (Str × Str) × Nat) := do
  let (attrs, i) ← (do
    if ← test buf (i + 1) (· != rsq) then
      decodeAttrsLoop grant buf (buf.length - (i + 1) + 1) (i + 1) [] 0
    else pure ([], i + 1))
  if ← test buf i (· == rsq) then do
    keep grant attrs
    pure (attrs, i + 1)
  else malformed

mutual

/-- `decode_element`. -/
def decodeElement : (fuel depth i : Nat) → Dec (Tree × Nat)
  | 0, _, _ => throw .fuel
  | fuel + 1, depth, i =>
    if depth > maxDepth then throw (.rc .depth)
    else do
      if ← test buf i (· == lbr) then do
        alloc grant
        let (head, i) ← readEscaped grant buf .tag (i + 1)
        if i ≥ buf.length then malformed
        else do
          let c ← load buf i
          if c = rbr then
            if head.len = 0 then pure (.element (.literal tagText) [] [], i + 1)
            else do
              alloc grant
              alloc grant
              pure (.element (.literal tagText) [] [.text head], i + 1)
          else if c = lbr then malformed
          else if c ≠ com then malformed
          else if ← test buf (i + 1) (· == lsq) then do
            let (attrs, i) ← decodeAttrs grant buf (i + 1)
            if ← test buf i (· == com) then do
              let (children, i) ← decodeChildren fuel depth (i + 1) [] 0
              pure (.element head attrs children, i)
            else if ← test buf i (· == rbr) then pure (.element head attrs [], i + 1)
            else do
              let (children, i) ← decodeChildren fuel depth i [] 0
              pure (.element head attrs children, i)
          else do
            let (children, i) ← decodeChildren fuel depth (i + 1) [] 0
            pure (.element head [] children, i)
      else malformed

/-- The loop of `decode_children`, and what is behind it. -/
def decodeChildren : (fuel depth i : Nat) → (kids : List Tree) → (cap : Nat) → Dec (List Tree × Nat)
  | 0, _, _, _, _ => throw .fuel
  | fuel + 1, depth, i, kids, cap =>
    if i ≥ buf.length then malformed
    else do
      let c ← load buf i
      if c = rbr then do
        keep grant kids
        pure (kids, i + 1)
      else if c = lbr then do
        let (child, i) ← decodeElement fuel (depth + 1) i
        let cap ← grow grant 4 kids.length cap
        decodeChildren fuel depth i (kids ++ [child]) cap
      else do
        let binary ← (if c = bs then test buf (i + 1) (fun e => e == letterb || e == letterB) else pure false)
        let (t, i) ← (if binary then readBinary grant buf i else readEscaped grant buf .text i)
        if t.len = 0 then decodeChildren fuel depth i kids cap
        else do
          alloc grant
          let cap ← grow grant 4 kids.length cap
          decodeChildren fuel depth i (kids ++ [.text t]) cap

end

/-- `push_root`. -/
def pushRoot (roots : List Tree) (cap : Nat) (root : Tree) : Dec (List Tree × Nat) := do
  let cap ← grow grant 8 roots.length cap
  pure (roots ++ [root], cap)

/-- `tsml_decode`; the result is the root of the document. -/
def tsmlDecode : Dec Tree := do
  alloc grant
  let (root, i) ← decodeElement grant buf (decodeFuel buf) 0 0
  if i ≠ buf.length then malformed
  else do
    let _ ← pushRoot grant [] 0 root
    pure root

/-- The loop of `tsml_decode_document`. -/
def decodeRoots : (fuel i : Nat) → (roots : List Tree) → (cap : Nat) → Dec (List Tree)
  | 0, _, _, _ => throw .fuel
  | fuel + 1, i, roots, cap =>
    if i < buf.length then do
      let (root, i) ← decodeElement grant buf (2 * (buf.length - i) + 1) 0 i
      let (roots, cap) ← pushRoot grant roots cap root
      decodeRoots fuel i roots cap
    else pure roots

/-- `tsml_decode_document`; the result is the roots of the document. -/
def tsmlDecodeDocument : Dec (List Tree) := do
  alloc grant
  let roots ← decodeRoots grant buf (buf.length + 1) 0 [] 0
  if roots = [] then malformed else pure roots

end Decoder

end Terseml.Memory
