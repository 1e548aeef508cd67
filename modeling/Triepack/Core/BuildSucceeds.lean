import Triepack.Core.Build

/-!
# When a build succeeds

Few enough distinct key bytes and values of the kinds that are implemented are always written; what
can still be refused is a data stream that is too long for its 32-bit offsets.
-/

namespace Triepack

open BitString

/-- From every valid writer the operation succeeds. -/
def Wr.Succeeds {α : Type} (m : Wr α) : Prop :=
  ∀ w : Writer, w.Valid → ∃ a w', m w = .ok (a, w') ∧ w'.Valid

theorem Wr.Succeeds.of_appends {α : Type} {m : Wr α} {bs : Nat → List Bool} {a : Nat → α}
    (h : ∀ p, Wr.Appends p m (bs p) (a p)) : Wr.Succeeds m := by
  intro w hw
  obtain ⟨w', hm, hw', _⟩ := h w.pos w hw rfl
  exact ⟨_, w', hm, hw'⟩

theorem Wr.Succeeds.pure {α : Type} (a : α) : Wr.Succeeds (Pure.pure a : Wr α) :=
  fun w hw => ⟨a, w, rfl, hw⟩

theorem writeValues_succeeds {es : List Entry} (h : ∀ e ∈ es, e.val.Encodable) :
    Wr.Succeeds (writeValues es) := by
  induction es with
  | nil => exact .pure ()
  | cons e es ih =>
    intro w hw
    obtain ⟨_, u, hu, huv⟩ :=
      Wr.Succeeds.of_appends (fun p => valueEncode_appends p (h e (by simp))) w hw
    obtain ⟨_, w', hw', hv⟩ := ih (fun e he => h e (by simp [he])) u huv
    exact ⟨(), w', (Wr.bind_ok hu).trans hw', hv⟩

/-- Sorted entries over few enough bytes always have a trie. -/
theorem writeTrie_succeeds {bps : Nat} (hbps : bps ≤ 15) {es : List Entry}
    (hcount : (usedBytes (es.map Entry.key)).length ≤ 249) (hasc : StrictlyAscending es) :
    Wr.Succeeds (if es.length > 0 then
        trieWrite (analyzeSymbols bps (es.map Entry.key)) (entriesHaveValues es) es.length es 0 0
      else pure 0) := by
  split_ifs with hlen
  · have hwidth := symbolWidth_bounds hbps hcount
    obtain ⟨t, ht⟩ := exists_laidOut (entriesHaveValues es)
      (by rw [bitsPerSymbol_analyzeSymbols]; exact hwidth.1)
      (by rw [bitsPerSymbol_analyzeSymbols]; exact hwidth.2) (List.length_pos_iff.mp hlen) le_rfl
      ⟨hasc, [], rfl, fun _ _ => List.nil_prefix⟩
    exact .of_appends fun p => ht.appends 0 p
  · exact .pure 0

/-- The stream is written, or it is too long. -/
theorem writeFile_ok_or_overflow {bps : Nat} (hbps : bps ≤ 15) {es : List Entry}
    (hcount : (usedBytes (es.map Entry.key)).length ≤ 249) (hasc : StrictlyAscending es)
    (hval : ∀ e ∈ es, e.val.Encodable) {w : Writer} (hw : w.Valid) :
    (∃ offs w', writeFile (analyzeSymbols bps (es.map Entry.key)) es w = .ok (offs, w') ∧ w'.Valid) ∨
      writeFile (analyzeSymbols bps (es.map Entry.key)) es w = .error (.rc .overflow) := by
  obtain ⟨_, w₁, h₁, hv₁⟩ :=
    Wr.Succeeds.of_appends (fun p => headerWrite_appends p (placeholderHeader es)) w hw
  obtain ⟨_, w₂, h₂, hv₂⟩ :=
    Wr.Succeeds.of_appends (fun p => writeTrieConfig_appends p hbps hcount) w₁ hv₁
  obtain ⟨_, w₃, h₃, hv₃⟩ := writeTrie_succeeds hbps hcount hasc w₂ hv₂
  have hstore : Wr.Succeeds (if entriesHaveValues es then writeValues es else pure ()) := by
    split_ifs
    · exact writeValues_succeeds hval
    · exact .pure ()
  obtain ⟨_, w₄, h₄, hv₄⟩ := hstore w₃ hv₃
  rw [writeFile, Wr.bind_ok h₁, bsWriterPosition_bind, Wr.bind_ok h₂, bsWriterPosition_bind,
    Wr.bind_ok h₃, bsWriterPosition_bind, Wr.bind_ok h₄, bsWriterPosition_bind]
  split_ifs with hlarge
  · exact .inr rfl
  · obtain ⟨_, w₅, h₅, hv₅⟩ := Wr.Succeeds.of_appends bsWriterAlignToByte_appends w₄ hv₄
    exact .inl ⟨_, w₅, Wr.bind_ok h₅, hv₅⟩

/-- A build whose keys have at most 249 distinct bytes and whose values are implemented returns
bytes, unless the stream is too long. -/
theorem encoderBuild_ok_or_overflow (q : Qsort) {enc : Encoder} (hopts : enc.opts.bitsPerSymbol ≤ 15)
    (hcount : (usedBytes ((sortedEntries q enc.entries).map Entry.key)).length ≤ 249)
    (hval : ∀ e ∈ enc.entries, e.val.Encodable) :
    (∃ buf, (encoderBuild q enc).1 = .ok buf) ∨ (encoderBuild q enc).1 = .error (.rc .overflow) := by
  have hasc := strictlyAscending_sortedEntries q enc.entries
  have hval' : ∀ e ∈ sortedEntries q enc.entries, e.val.Encodable := fun e he =>
    hval e (mem_of_mem_sortedEntries he)
  simp only [encoderBuild, symbolCount_analyzeSymbols]
  rw [if_neg (by omega)]
  obtain ⟨offs, u, hfile, hu⟩ | herror :=
    writeFile_ok_or_overflow hopts hcount hasc hval' (Writer.Valid.create writerInitialCap 0)
  · obtain ⟨v, hcrc, _⟩ :=
      bsWriteBits_appends u.pos (v := (crc32 (u.buf.take (u.pos / 8))).toNat) (n := 32) (by omega)
        (by omega) u hu rfl
    have hrun : (do
        let offs ← writeFile (analyzeSymbols enc.opts.bitsPerSymbol
          ((sortedEntries q enc.entries).map Entry.key)) (sortedEntries q enc.entries)
        writeCrc
        pure offs : Wr StreamOffsets) (bsWriterCreate writerInitialCap 0) = .ok (offs, v) :=
      (Wr.bind_ok hfile).trans (Wr.bind_ok hcrc)
    rw [hrun]
    exact .inl ⟨_, rfl⟩
  · rw [Wr.bind_error herror]
    exact .inr rfl

/-! ## The stream of a build that is short enough -/

theorem Wr.Appends.position_bind {α : Type} {p : Nat} {f : Nat → Wr α} {bs : List Bool} {a : α}
    (hf : Wr.Appends p (f p) bs a) : Wr.Appends p (bsWriterPosition >>= f) bs a := by
  intro w hw hp
  obtain ⟨w', hw', h⟩ := hf w hw hp
  exact ⟨w', by rw [bsWriterPosition_bind, hp, hw'], h⟩

theorem writeValues_appends (p : Nat) {es : List Entry} (h : ∀ e ∈ es, e.val.Encodable) :
    Wr.Appends p (writeValues es) (valuesBits p (es.map Entry.val)) () := by
  induction es generalizing p with
  | nil => exact .pure p ()
  | cons e es ih =>
    exact (valueEncode_appends p (h e (by simp))).bind (ih _ fun x hx => h x (by simp [hx]))

/-- A stream that the offsets can address is written as it is laid out. -/
theorem writeFile_appends {bps : Nat} (hbps : bps ≤ 15) {es : List Entry}
    (hcount : (usedBytes (es.map Entry.key)).length ≤ 249) (l : StreamLayout bps es) {vi : Nat}
    (htrie : Wr.Appends (256 + l.config.length) (if es.length > 0 then
        trieWrite (analyzeSymbols bps (es.map Entry.key)) (entriesHaveValues es) es.length es 0 0
      else pure 0) l.trie vi)
    (hbound : l.offsets.totalDataBits ≤ uint32Max) :
    Wr.Appends 0 (writeFile (analyzeSymbols bps (es.map Entry.key)) es)
      (bytesBits (headerBytes (placeholderHeader es)) ++ l.bits) l.offsets := by
  have hdata : 0 + (bytesBits (headerBytes (placeholderHeader es))).length = 256 := by
    rw [length_headerBits]
  have hstore : Wr.Appends l.storePos (if entriesHaveValues es then writeValues es else pure ())
      l.store () := by
    rw [StreamLayout.store, storeBits]
    split_ifs with hvals
    · exact writeValues_appends _ (l.encodable hvals)
    · exact .pure _ ()
  have hconfig := writeTrieConfig_appends 256 hbps hcount
  rw [← l.config_eq] at hconfig
  have hoffs : (⟨256 + l.config.length - 256, l.storePos - 256,
      l.storePos + l.store.length - 256⟩ : StreamOffsets) = l.offsets := by
    simp only [StreamLayout.offsets, StreamLayout.storePos, StreamOffsets.mk.injEq]
    omega
  refine (headerWrite_appends 0 _).bind (.position_bind ?_)
  rw [hdata]
  refine hconfig.bind (.position_bind (htrie.bind (.position_bind (hstore.bind (.position_bind ?_)))))
  rw [if_neg]
  · rw [← List.append_nil (padBits _), ← hoffs]
    exact (bsWriterAlignToByte_appends _).bind (.pure _ _)
  · simp only [StreamLayout.offsets, StreamLayout.storePos] at hbound ⊢
    omega

/-- The build of such a stream: its bytes and their checksum, patched. -/
theorem encoderBuild_of_layout {q : Qsort} {enc : Encoder} {bps : Nat} {es : List Entry}
    (hopts : enc.opts.bitsPerSymbol = bps) (hes : sortedEntries q enc.entries = es) (hbps : bps ≤ 15)
    (hcount : (usedBytes (es.map Entry.key)).length ≤ 249) (l : StreamLayout bps es) {vi : Nat}
    (htrie : Wr.Appends (256 + l.config.length) (if es.length > 0 then
        trieWrite (analyzeSymbols bps (es.map Entry.key)) (entriesHaveValues es) es.length es 0 0
      else pure 0) l.trie vi)
    (hbound : l.offsets.totalDataBits ≤ uint32Max) :
    ∃ bytes, bytesBits bytes = bytesBits (headerBytes (placeholderHeader es)) ++ l.bits ∧
      (encoderBuild q enc).1 = .ok (patchFile l.offsets (bytes ++ be32 (crc32 bytes))) := by
  obtain ⟨u, hfile, hu, hubits⟩ := writeFile_appends hbps hcount l htrie hbound
    (bsWriterCreate writerInitialCap 0) (.create _ _) rfl
  rw [bits_create, List.nil_append] at hubits
  have hupos : u.pos % 8 = 0 := by
    rw [← hu.length_bits, hubits, List.length_append, length_headerBits]
    exact l.length_bits_mod
  obtain ⟨v, hcrc, _⟩ :=
    bsWriteBits_appends u.pos (v := (crc32 (u.buf.take (u.pos / 8))).toNat) (n := 32) (by omega)
      (by omega) u hu rfl
  refine ⟨u.buf.take (u.pos / 8), by rw [Writer.bytesBits_take hupos, hubits], ?_⟩
  have hrun : (do
      let offs ← writeFile (analyzeSymbols bps (es.map Entry.key)) es
      writeCrc
      pure offs : Wr StreamOffsets) (bsWriterCreate writerInitialCap 0) = .ok (l.offsets, v) :=
    (Wr.bind_ok hfile).trans (Wr.bind_ok hcrc)
  simp only [encoderBuild, hopts, hes, symbolCount_analyzeSymbols]
  rw [if_neg (by omega), hrun]
  simp only [detach_writeCrc hu hupos hcrc]

end Triepack
