import Triepack.Core.Header
import Triepack.Core.Integrity
import Triepack.Core.TrieLayout

/-!
# Building a file

`tp_encoder_build` writes a header with zero offsets, the configuration, the trie and the
value store, refuses streams that the 32-bit offsets cannot address, and then patches the
offsets and the checksum into the finished bytes. `BuildLayout` is what a successful build
leaves: which bits stand where.
-/

namespace Triepack

open BitString

/-- `tp_bs_writer_position`. -/
def bsWriterPosition : Wr Nat := fun w => .ok (w.pos, w)

def uint32Max : Nat := 0xFFFFFFFF

/-- The offsets of a data stream, counted in bits from behind the header. -/
structure StreamOffsets where
  trieDataOffset : Nat
  valueStoreOffset : Nat
  totalDataBits : Nat
  deriving DecidableEq, Repr

def writeValues : List Entry → Wr Unit
  | [] => pure ()
  | e :: es => do
    valueEncode e.val
    writeValues es

/-- Whether any entry has a value other than null. -/
def entriesHaveValues (es : List Entry) : Bool := es.any fun e => decide (e.val.tag ≠ 0)

/-- The header that `tp_encoder_build` writes first. -/
def placeholderHeader (es : List Entry) : Header where
  magic0 := 0x54
  magic1 := 0x52
  magic2 := 0x50
  magic3 := 0x00
  versionMajor := formatVersionMajor
  versionMinor := formatVersionMinor
  numKeys := UInt32.ofNat es.length
  flags := if entriesHaveValues es then flagHasValues else 0

/-- The part of `tp_encoder_build` that writes, up to the checksum. -/
def writeFile (sym : SymbolInfo) (es : List Entry) : Wr StreamOffsets := do
  let hasValues := entriesHaveValues es
  headerWrite (placeholderHeader es)
  let dataStart ← bsWriterPosition
  writeTrieConfig sym
  let triePos ← bsWriterPosition
  let _ ← (if es.length > 0 then trieWrite sym hasValues es.length es 0 0 else pure 0)
  let valuePos ← bsWriterPosition
  (if hasValues then writeValues es else pure ())
  let endPos ← bsWriterPosition
  if endPos - dataStart > uint32Max ∨ triePos - dataStart > uint32Max ∨
      valuePos - dataStart > uint32Max then Wr.fail .overflow
  else do
    bsWriterAlignToByte
    pure ⟨triePos - dataStart, valuePos - dataStart, endPos - dataStart⟩

/-- Write the checksum of the bytes so far. -/
def writeCrc : Wr Unit := fun w => bsWriteU32 (crc32 (w.buf.take (w.pos / 8))) w

/-- `tp_bs_writer_detach_buffer`: the bytes written. -/
def bsWriterDetachBuffer (w : Writer) : List UInt8 := w.buf.take ((w.pos + 7) / 8)

/-- Overwrite bytes from `off` on. -/
def patchBytes (buf : List UInt8) (off : Nat) (bytes : List UInt8) : List UInt8 :=
  buf.take off ++ bytes ++ buf.drop (off + bytes.length)

/-- The offsets patched into bytes 12 to 27, and the checksum over the patched bytes. -/
def patchFile (offs : StreamOffsets) (buf : List UInt8) : List UInt8 :=
  let buf := patchBytes buf 12 (be32 (UInt32.ofNat offs.trieDataOffset) ++
    be32 (UInt32.ofNat offs.valueStoreOffset) ++ be32 0 ++ be32 (UInt32.ofNat offs.totalDataBits))
  patchBytes buf (buf.length - 4) (be32 (crc32 (buf.take (buf.length - 4))))

def writerInitialCap : Nat := 256

/-- `tp_encoder_build`; the entries stay sorted and without duplicates. -/
def encoderBuild (q : Qsort) (enc : Encoder) : Except Stop (List UInt8) × Encoder :=
  let es := sortedEntries q enc.entries
  let sym := analyzeSymbols enc.opts.bitsPerSymbol (es.map Entry.key)
  let built : Except Stop (List UInt8) :=
    if sym.symbolCount > 255 then .error (.rc .alphabet)
    else
      match (do
        let offs ← writeFile sym es
        writeCrc
        pure offs : Wr StreamOffsets) (bsWriterCreate writerInitialCap 0) with
      | .ok (offs, w) => .ok (patchFile offs (bsWriterDetachBuffer w))
      | .error e => .error e
  (built, ⟨enc.opts, es, (length_sortedEntries_le q enc.entries).trans_lt enc.count_lt⟩)

/-! ## The value store as bits -/

/-- The bits of values stored one after another from bit `p` on. -/
def valuesBits (p : Nat) : List (Value (List UInt8)) → List Bool
  | [] => []
  | v :: vs => valueBits p v ++ valuesBits (p + (valueBits p v).length) vs

theorem valueEncode_of_ok {val : Value (List UInt8)} {w w' : Writer} (hw : w.Valid)
    (h : valueEncode val w = .ok ((), w')) : val.Encodable := by
  by_contra hval
  rw [valueEncode_error hval hw] at h
  simp at h

/-- A value store that was written holds the values of all entries. -/
theorem writeValues_of_ok {es : List Entry} {w w' : Writer} (hw : w.Valid)
    (h : writeValues es w = .ok ((), w')) :
    (∀ e ∈ es, e.val.Encodable) ∧ w'.Valid ∧
      w'.bits = w.bits ++ valuesBits w.pos (es.map Entry.val) := by
  induction es generalizing w with
  | nil =>
    obtain rfl : w = w' := by simpa [writeValues] using h
    exact ⟨by simp, hw, by simp [valuesBits]⟩
  | cons e es ih =>
    obtain ⟨_, u, hu, hrest⟩ := Wr.bind_eq_ok h
    have he := valueEncode_of_ok hw hu
    obtain ⟨_, huv, hub⟩ := (valueEncode_appends w.pos he).ok hw rfl hu
    obtain ⟨hes, hv, hb⟩ := ih huv hrest
    have hupos : u.pos = w.pos + (valueBits w.pos e.val).length := by
      rw [← huv.length_bits, hub, List.length_append, hw.length_bits]
    refine ⟨fun x hx => ?_, hv, ?_⟩
    · rcases List.mem_cons.mp hx with rfl | hx
      · exact he
      · exact hes x hx
    · rw [hb, hub, hupos, List.append_assoc]
      rfl

/-! ## What a successful build leaves -/

/-- The header with its offsets. -/
def fileHeader (es : List Entry) (offs : StreamOffsets) : Header :=
  { placeholderHeader es with
    trieDataOffset := UInt32.ofNat offs.trieDataOffset
    valueStoreOffset := UInt32.ofNat offs.valueStoreOffset
    totalDataBits := UInt32.ofNat offs.totalDataBits }

/-- The bits of the trie of the entries. -/
def TrieCode (sym : SymbolInfo) (es : List Entry) (trie : List Bool) : Prop :=
  if es = [] then trie = []
  else ∃ t : Trie, t.Compact ∧ t.entries = es.map (suffixEntry 0) ∧
    trie = trieBits sym (entriesHaveValues es) t 0

/-- The bits of the value store when it starts at bit `p`. -/
def storeBits (p : Nat) (es : List Entry) : List Bool :=
  if entriesHaveValues es then valuesBits p (es.map Entry.val) else []

/-- The parts of the data stream that `tp_encoder_build` writes for sorted entries. -/
structure StreamLayout (bps : Nat) (es : List Entry) where
  config : List Bool
  trie : List Bool
  config_eq : config =
    configBits (symbolWidth bps (usedBytes (es.map Entry.key))) (usedBytes (es.map Entry.key))
  trie_eq : TrieCode (analyzeSymbols bps (es.map Entry.key)) es trie
  encodable : entriesHaveValues es = true → ∀ e ∈ es, e.val.Encodable

namespace StreamLayout

variable {bps : Nat} {es : List Entry} (l : StreamLayout bps es)

/-- Where the value store starts in the file. -/
def storePos : Nat := 256 + l.config.length + l.trie.length

def store : List Bool := storeBits l.storePos es

def offsets : StreamOffsets where
  trieDataOffset := l.config.length
  valueStoreOffset := l.config.length + l.trie.length
  totalDataBits := l.config.length + l.trie.length + l.store.length

/-- The data stream up to the next byte boundary. -/
def bits : List Bool :=
  l.config ++ (l.trie ++ (l.store ++ padBits (l.storePos + l.store.length)))

end StreamLayout

theorem length_headerBits (h : Header) : (bytesBits (headerBytes h)).length = 256 := by simp [headerSize]

theorem bsWriterPosition_bind {α : Type} (f : Nat → Wr α) (w : Writer) :
    (bsWriterPosition >>= f) w = f w.pos w := rfl

theorem writeTrie_of_ok {bps : Nat} (hbps : bps ≤ 15) {es : List Entry}
    (hcount : (usedBytes (es.map Entry.key)).length ≤ 249) (hasc : StrictlyAscending es)
    {w w' : Writer} (hw : w.Valid) {vi : Nat}
    (h : (if es.length > 0 then
        trieWrite (analyzeSymbols bps (es.map Entry.key)) (entriesHaveValues es) es.length es 0 0
      else pure 0) w = .ok (vi, w')) :
    ∃ trie, TrieCode (analyzeSymbols bps (es.map Entry.key)) es trie ∧ w'.Valid ∧
      w'.bits = w.bits ++ trie := by
  split_ifs at h with hlen
  · have hwidth := symbolWidth_bounds hbps hcount
    have hne : es ≠ [] := List.length_pos_iff.mp hlen
    obtain ⟨t, ht⟩ := exists_laidOut (entriesHaveValues es)
      (by rw [bitsPerSymbol_analyzeSymbols]; exact hwidth.1)
      (by rw [bitsPerSymbol_analyzeSymbols]; exact hwidth.2) hne le_rfl
      ⟨hasc, [], rfl, fun _ _ => List.nil_prefix⟩
    obtain ⟨_, hv, hb⟩ := (ht.appends 0 w.pos).ok hw rfl h
    refine ⟨_, ?_, hv, hb⟩
    rw [TrieCode, if_neg hne]
    exact ⟨t, ht.compact, ht.entries_eq, rfl⟩
  · obtain ⟨_, rfl⟩ : 0 = vi ∧ w = w' := by simpa using h
    have hnil : es = [] := by simpa using hlen
    exact ⟨[], by rw [TrieCode, if_pos hnil], hw, by simp⟩

theorem writeStore_of_ok {es : List Entry} {w w' : Writer} (hw : w.Valid)
    (h : (if entriesHaveValues es then writeValues es else pure ()) w = .ok ((), w')) :
    (entriesHaveValues es = true → ∀ e ∈ es, e.val.Encodable) ∧ w'.Valid ∧
      w'.bits = w.bits ++ storeBits w.pos es := by
  rw [storeBits]
  split_ifs at h ⊢ with hvals
  · obtain ⟨henc, hv, hb⟩ := writeValues_of_ok hw h
    exact ⟨fun _ => henc, hv, hb⟩
  · obtain rfl : w = w' := by simpa using h
    exact ⟨fun h => absurd h hvals, hw, by simp⟩

/-- `tp_encoder_build` up to the checksum, once it went through. -/
theorem writeFile_of_ok {bps : Nat} (hbps : bps ≤ 15) {es : List Entry}
    (hcount : (usedBytes (es.map Entry.key)).length ≤ 249) (hasc : StrictlyAscending es)
    {offs : StreamOffsets} {w : Writer}
    (h : writeFile (analyzeSymbols bps (es.map Entry.key)) es (bsWriterCreate writerInitialCap 0) =
      .ok (offs, w)) :
    ∃ l : StreamLayout bps es, offs = l.offsets ∧ l.offsets.totalDataBits ≤ uint32Max ∧ w.Valid ∧
      w.bits = bytesBits (headerBytes (placeholderHeader es)) ++ l.bits := by
  obtain ⟨_, w₁, h₁, h⟩ := Wr.bind_eq_ok h
  obtain ⟨_, hv₁, hb₁⟩ := (headerWrite_appends 0 (placeholderHeader es)).ok (.create _ _) rfl h₁
  rw [bits_create, List.nil_append] at hb₁
  have hp₁ : w₁.pos = 256 := by rw [← hv₁.length_bits, hb₁, length_headerBits]
  rw [bsWriterPosition_bind] at h
  obtain ⟨_, w₂, h₂, h⟩ := Wr.bind_eq_ok h
  obtain ⟨_, hv₂, hb₂⟩ := (writeTrieConfig_appends w₁.pos hbps hcount).ok hv₁ rfl h₂
  rw [bsWriterPosition_bind] at h
  obtain ⟨_, w₃, h₃, h⟩ := Wr.bind_eq_ok h
  obtain ⟨trie, htrie, hv₃, hb₃⟩ := writeTrie_of_ok hbps hcount hasc hv₂ h₃
  rw [bsWriterPosition_bind] at h
  obtain ⟨_, w₄, h₄, h⟩ := Wr.bind_eq_ok h
  obtain ⟨hval, hv₄, hb₄⟩ := writeStore_of_ok hv₃ h₄
  rw [bsWriterPosition_bind] at h
  let l : StreamLayout bps es := ⟨_, trie, rfl, htrie, hval⟩
  have hp₂ : w₂.pos = 256 + l.config.length := by
    rw [← hv₂.length_bits, hb₂, List.length_append, hv₁.length_bits, hp₁]
  have hp₃ : w₃.pos = l.storePos := by
    rw [← hv₃.length_bits, hb₃, List.length_append, hv₂.length_bits, hp₂]
    rfl
  have hp₄ : w₄.pos = l.storePos + l.store.length := by
    rw [← hv₄.length_bits, hb₄, List.length_append, hv₃.length_bits, hp₃]
    rfl
  have hoffs : w₂.pos - w₁.pos = l.offsets.trieDataOffset ∧
      w₃.pos - w₁.pos = l.offsets.valueStoreOffset ∧
      w₄.pos - w₁.pos = l.offsets.totalDataBits := by
    simp only [hp₁, hp₂, hp₃, hp₄, StreamLayout.offsets, StreamLayout.storePos]
    omega
  split_ifs at h with hlarge
  · simp at h
  · obtain ⟨_, w₅, h₅, h⟩ := Wr.bind_eq_ok h
    obtain ⟨_, hv₅, hb₅⟩ := (bsWriterAlignToByte_appends w₄.pos).ok hv₄ rfl h₅
    rw [hoffs.1, hoffs.2.1, hoffs.2.2] at h hlarge
    obtain ⟨rfl, rfl⟩ : l.offsets = offs ∧ w₅ = w := by simpa using h
    refine ⟨l, rfl, by omega, hv₅, ?_⟩
    rw [hb₅, hb₄, hb₃, hb₂, hb₁, hp₄, hp₃]
    simp only [StreamLayout.bits, StreamLayout.store, List.append_assoc]
    rfl

/-! ## The finished bytes -/

/-- At a byte boundary the bits written are those of the bytes written. -/
theorem Writer.bytesBits_take {w : Writer} (h : w.pos % 8 = 0) :
    bytesBits (w.buf.take (w.pos / 8)) = w.bits := by
  rw [← take_bytesBits, Writer.bits]
  congr 1
  omega

theorem StreamLayout.length_bits_mod {bps : Nat} {es : List Entry} (l : StreamLayout bps es) :
    (256 + l.bits.length) % 8 = 0 := by
  simp only [StreamLayout.bits, List.length_append, padBits, List.length_replicate,
    StreamLayout.storePos]
  omega

/-- Bytes whose bits are a header and more are that header and more. -/
theorem exists_body {h : Header} {bits : List Bool} {out : List UInt8}
    (hout : bytesBits out = bytesBits (headerBytes h) ++ bits) :
    ∃ body, out = headerBytes h ++ body ∧ bytesBits body = bits := by
  refine ⟨out.drop 32, ?_, ?_⟩
  · have htake : out.take 32 = headerBytes h := by
      apply bytesBits_injective
      rw [← take_bytesBits, hout, List.take_left' (by rw [length_headerBits])]
    rw [← htake, List.take_append_drop]
  · rw [← drop_bytesBits, hout, List.drop_left' (by rw [length_headerBits])]

theorem patchBytes_append {as bs bs' cs : List UInt8} (h : bs.length = bs'.length) :
    patchBytes (as ++ (bs ++ cs)) as.length bs' = as ++ (bs' ++ cs) := by
  rw [patchBytes, List.take_left, ← h, ← List.drop_drop, List.drop_left, List.drop_left,
    List.append_assoc]

/-- Patching the offsets and the checksum into a file written with the placeholder header. -/
theorem patchFile_eq (es : List Entry) (offs : StreamOffsets) (body : List UInt8) (crc : UInt32) :
    patchFile offs (headerBytes (placeholderHeader es) ++ body ++ be32 crc) =
      headerBytes (fileHeader es offs) ++
        (body ++ be32 (crc32 (headerBytes (fileHeader es offs) ++ body))) := by
  have hoffsets : patchBytes (headerBytes (placeholderHeader es) ++ body ++ be32 crc) 12
      (be32 (UInt32.ofNat offs.trieDataOffset) ++ be32 (UInt32.ofNat offs.valueStoreOffset) ++
        be32 0 ++ be32 (UInt32.ofNat offs.totalDataBits)) =
      headerBytes (fileHeader es offs) ++ body ++ be32 crc := by
    have hpatch := @patchBytes_append
      ([(0x54 : UInt8), 0x52, 0x50, 0x00, formatVersionMajor, formatVersionMinor] ++
        (be16 (placeholderHeader es).flags ++ be32 (placeholderHeader es).numKeys))
      (be32 0 ++ be32 0 ++ be32 0 ++ be32 0)
      (be32 (UInt32.ofNat offs.trieDataOffset) ++ be32 (UInt32.ofNat offs.valueStoreOffset) ++
        be32 0 ++ be32 (UInt32.ofNat offs.totalDataBits))
      (be32 0 ++ (body ++ be32 crc)) rfl
    simp only [headerBytes, fileHeader, placeholderHeader, List.append_assoc] at hpatch ⊢
    exact hpatch
  have hlen : (headerBytes (fileHeader es offs) ++ body ++ be32 crc).length - 4 =
      (headerBytes (fileHeader es offs) ++ body).length := by
    simp only [List.length_append, length_be32]
    omega
  have hcrc := @patchBytes_append (headerBytes (fileHeader es offs) ++ body) (be32 crc)
    (be32 (crc32 (headerBytes (fileHeader es offs) ++ body))) [] rfl
  simp only [patchFile, hoffsets, hlen, List.take_left]
  simpa only [List.append_nil, List.append_assoc] using hcrc

/-- Behind whole bytes the checksum of these bytes is written. -/
theorem detach_writeCrc {u v : Writer} (hu : u.Valid) (hupos : u.pos % 8 = 0)
    (hcrc : writeCrc u = .ok ((), v)) :
    bsWriterDetachBuffer v = u.buf.take (u.pos / 8) ++ be32 (crc32 (u.buf.take (u.pos / 8))) := by
  obtain ⟨_, hv, hvbits⟩ :=
    (bsWriteBits_appends u.pos (n := 32) (by omega) (by omega)).ok hu rfl hcrc
  have hvpos : v.pos % 8 = 0 := by
    rw [← hv.length_bits, hvbits, List.length_append, hu.length_bits, length_natBits]
    omega
  apply bytesBits_injective
  rw [bsWriterDetachBuffer, show (v.pos + 7) / 8 = v.pos / 8 by omega, Writer.bytesBits_take hvpos,
    hvbits, bytesBits_append, Writer.bytesBits_take hupos, bytesBits_be32]

/-- What stands where in the bytes of a successful build. -/
theorem encoderBuild_layout {q : Qsort} {enc enc' : Encoder} {buf : List UInt8}
    (hopts : enc.opts.bitsPerSymbol ≤ 15) (h : encoderBuild q enc = (.ok buf, enc')) :
    (usedBytes ((sortedEntries q enc.entries).map Entry.key)).length ≤ 249 ∧
    ∃ l : StreamLayout enc.opts.bitsPerSymbol (sortedEntries q enc.entries),
      l.offsets.totalDataBits ≤ uint32Max ∧
      ∃ body, bytesBits body = l.bits ∧
        buf = headerBytes (fileHeader (sortedEntries q enc.entries) l.offsets) ++
          (body ++ be32 (crc32
            (headerBytes (fileHeader (sortedEntries q enc.entries) l.offsets) ++ body))) := by
  have hbuilt := congrArg Prod.fst h
  simp only [encoderBuild, symbolCount_analyzeSymbols] at hbuilt
  split_ifs at hbuilt with hcount
  refine ⟨by omega, ?_⟩
  split at hbuilt
  · rename_i offs w hrun
    obtain ⟨offs', u, hfile, hrest⟩ := Wr.bind_eq_ok hrun
    obtain ⟨_, v, hcrc, hpure⟩ := Wr.bind_eq_ok hrest
    obtain ⟨rfl, rfl⟩ : offs' = offs ∧ v = w := by simpa using hpure
    obtain ⟨l, rfl, htotal, hu, hubits⟩ :=
      writeFile_of_ok hopts (by omega) (strictlyAscending_sortedEntries q enc.entries) hfile
    have hupos : u.pos % 8 = 0 := by
      rw [← hu.length_bits, hubits, List.length_append, length_headerBits]
      exact l.length_bits_mod
    obtain ⟨body, hbody, hbits⟩ := exists_body ((Writer.bytesBits_take hupos).trans hubits)
    have hout := detach_writeCrc hu hupos hcrc
    refine ⟨l, htotal, body, hbits, ?_⟩
    rw [hout, hbody] at hbuilt
    rw [← patchFile_eq]
    exact (Except.ok.inj hbuilt).symm
  · simp at hbuilt

end Triepack
