import Triepack.Core.Build

/-!
# Opening a file

`dict_open_impl` checks the header, the checksum unless it is told not to, and the
configuration. A dictionary opened from built bytes `Represents` the sorted entries: its trie is
the prefix tree of the keys and its value store holds their values in order. Of bytes of any
other origin only `Dict.Sound` is known.
-/

namespace Triepack

open BitString

/-- `tp_dict_info`. -/
structure DictInfo where
  formatVersionMajor : UInt8
  formatVersionMinor : UInt8
  numKeys : Nat
  trieMode : AddrMode
  valueMode : AddrMode
  checksumType : ChecksumType
  bitsPerSymbol : Nat
  hasValues : Bool
  hasSuffixTable : Bool
  compactMode : Bool
  totalBytes : Nat
  deriving DecidableEq, Repr

/-- `tp_dict`; its `len` is the length of `buf`. -/
structure Dict where
  buf : List UInt8
  info : DictInfo
  hdr : Header
  trieStart : Nat
  valueStart : Nat
  sym : SymbolInfo

/-- The big-endian number in bytes `off` to `off + 3`. -/
def be32At (buf : List UInt8) (off : Nat) : UInt32 :=
  UInt32.ofNat (((buf.getD off 0).toNat <<< 24) ||| ((buf.getD (off + 1) 0).toNat <<< 16) |||
    ((buf.getD (off + 2) 0).toNat <<< 8) ||| (buf.getD (off + 3) 0).toNat)

/-- `dict_open_impl`. -/
def dictOpenImpl (buf : List UInt8) (checkCrc : Bool) : Except Stop Dict :=
  if buf.length < headerSize then .error (.rc .truncated)
  else
    match headerRead (bsReaderCreate buf) with
    | (.error e, _) => .error e
    | (.ok hdr, r) =>
      if checkCrc ∧ buf.length ≥ 4 ∧
          crc32 (buf.take (buf.length - 4)) ≠ be32At buf (buf.length - 4) then
        .error (.rc .corrupt)
      else if hdr.flags &&& flagHasSuffixTable ≠ 0 then .error (.rc .version)
      else
        match parseTrieConfig r with
        | (.error e, _) => .error e
        | (.ok sym, _) => .ok
          { buf := buf
            info :=
              { formatVersionMajor := hdr.versionMajor
                formatVersionMinor := hdr.versionMinor
                numKeys := hdr.numKeys.toNat
                trieMode := .bit
                valueMode := .byte
                checksumType := .crc32
                bitsPerSymbol := sym.bitsPerSymbol
                hasValues := decide (hdr.flags &&& flagHasValues ≠ 0)
                hasSuffixTable := false
                compactMode := decide (hdr.flags &&& flagCompactMode ≠ 0)
                totalBytes := buf.length }
            hdr := hdr
            trieStart := headerSize * 8 + hdr.trieDataOffset.toNat
            valueStart := headerSize * 8 + hdr.valueStoreOffset.toNat
            sym := sym }

/-- `tp_dict_open`. -/
def dictOpen (buf : List UInt8) : Except Stop Dict := dictOpenImpl buf true

/-- `tp_dict_open_unchecked`. -/
def dictOpenUnchecked (buf : List UInt8) : Except Stop Dict := dictOpenImpl buf false

/-- `tp_dict_count`. -/
def dictCount (d : Dict) : Nat := d.info.numKeys

/-! ## Untrusted bytes -/

/-- Bytes that an address space can hold: no C object is anywhere near 2^60 bytes long. -/
structure Buffer where
  bytes : List UInt8
  length_lt : bytes.length < 2 ^ 60

/-- What is known of an opened dictionary whatever the bytes. -/
structure Dict.Sound (d : Dict) : Prop where
  length_lt : d.buf.length < 2 ^ 60
  one_le : 1 ≤ d.sym.bitsPerSymbol
  le_eight : d.sym.bitsPerSymbol ≤ 8
  trieStart_lt : d.trieStart < 2 ^ 33
  valueStart_lt : d.valueStart < 2 ^ 33

/-- Opening reads only inside the buffer: whatever the bytes, it fails with a result code. -/
theorem dictOpenImpl_safe {b : Buffer} {checkCrc : Bool} {e : Stop}
    (h : dictOpenImpl b.bytes checkCrc = .error e) : ∃ code, e = .rc code := by
  rw [dictOpenImpl] at h
  split at h
  · exact ⟨_, (Except.error.inj h).symm⟩
  have hr := Reader.Sound.create b.length_lt
  obtain ⟨r, hsound, _, hread | ⟨hdr, hread⟩⟩ := headerRead_safe.cases hr
  · obtain ⟨code, hfail⟩ := hread
    simp only [hfail] at h
    exact ⟨code, (Except.error.inj h).symm⟩
  simp only [hread] at h
  split at h
  · exact ⟨_, (Except.error.inj h).symm⟩
  split at h
  · exact ⟨_, (Except.error.inj h).symm⟩
  obtain ⟨_, _, _, hparse | ⟨sym, hparse⟩⟩ := parseTrieConfig_safe.cases hsound
  · obtain ⟨code, hfail⟩ := hparse
    simp only [hfail] at h
    exact ⟨code, (Except.error.inj h).symm⟩
  · simp [hparse] at h

theorem dictOpenImpl_sound {b : Buffer} {checkCrc : Bool} {d : Dict}
    (h : dictOpenImpl b.bytes checkCrc = .ok d) : d.Sound ∧ d.buf = b.bytes := by
  rw [dictOpenImpl] at h
  split at h
  · simp at h
  split at h
  · simp at h
  rename_i hdr r _
  split at h
  · simp at h
  split at h
  · simp at h
  split at h
  · simp at h
  rename_i sym _ hparse
  obtain rfl := Except.ok.inj h
  obtain ⟨hone, height⟩ := parseTrieConfig_bitsPerSymbol hparse
  have ht := hdr.trieDataOffset.toNat_lt
  have hv := hdr.valueStoreOffset.toNat_lt
  exact ⟨⟨b.length_lt, hone, height, by simp only [headerSize]; omega,
    by simp only [headerSize]; omega⟩, rfl⟩

/-! ## Built bytes -/

/-- The dictionary of the sorted entries `es`, whose keys form the tree `t`. -/
structure Represents (d : Dict) (es : List Entry) (t : Trie) : Prop where
  sound : d.Sound
  numKeys_eq : d.info.numKeys = es.length
  count_lt : es.length < 2 ^ 32
  hasValues_eq : d.info.hasValues = entriesHaveValues es
  codes : d.sym.Codes (usedBytes (es.map Entry.key))
  compact : t.Compact
  entries_eq : t.entries = es.map (suffixEntry 0)
  ascending : StrictlyAscending es
  trie_at : At (bytesBits d.buf) d.trieStart (trieBits d.sym d.info.hasValues t 0)
  valueStart_eq : d.valueStart = d.trieStart + (trieBits d.sym d.info.hasValues t 0).length
  values_at : At (bytesBits d.buf) d.valueStart (storeBits d.valueStart es)
  encodable : entriesHaveValues es = true → ∀ e ∈ es, e.val.Encodable

theorem shiftLeft_or {a b n : Nat} (h : b < 2 ^ n) : (a <<< n) ||| b = a * 2 ^ n + b := by
  rw [← Nat.shiftLeft_add_eq_or_of_lt h, Nat.shiftLeft_eq]

theorem or_be32 (v : UInt32) :
    ((UInt8.ofNat (v.toNat >>> 24)).toNat <<< 24) ||| ((UInt8.ofNat (v.toNat >>> 16)).toNat <<< 16) |||
      ((UInt8.ofNat (v.toNat >>> 8)).toNat <<< 8) ||| (UInt8.ofNat v.toNat).toNat = v.toNat := by
  have hv := v.toNat_lt
  simp only [UInt8.toNat_ofNat', Nat.shiftRight_eq_div_pow, Nat.or_assoc]
  rw [shiftLeft_or (n := 8) (by omega), shiftLeft_or (n := 16) (by omega),
    shiftLeft_or (n := 24) (by omega)]
  omega

/-- Bytes of the middle part. -/
theorem getD_append_add {as bs cs : List UInt8} {i : Nat} (hi : i < bs.length) :
    (as ++ (bs ++ cs)).getD (as.length + i) 0 = bs.getD i 0 := by
  simp only [List.getD_eq_getElem?_getD]
  rw [List.getElem?_append_right (by omega), Nat.add_sub_cancel_left, List.getElem?_append_left hi]

theorem be32At_append (pre : List UInt8) (v : UInt32) : be32At (pre ++ be32 v) pre.length = v := by
  have hget : ∀ i < 4, (pre ++ be32 v).getD (pre.length + i) 0 = (be32 v).getD i 0 := by
    intro i hi
    have h := @getD_append_add pre (be32 v) [] i (by rwa [length_be32])
    rwa [List.append_nil] at h
  have hget₀ := hget 0 (by omega)
  rw [Nat.add_zero] at hget₀
  rw [be32At, hget₀, hget 1 (by omega), hget 2 (by omega), hget 3 (by omega)]
  simp only [be32, List.getD_cons_zero, List.getD_cons_succ, or_be32, UInt32.ofNat_toNat]

/-- The parts of the bits of a built file. -/
theorem StreamLayout.bits_at {bps : Nat} {es : List Entry} (l : StreamLayout bps es) {h : Header}
    {body : List UInt8} (footer : List UInt8) (hbody : bytesBits body = l.bits) :
    At (bytesBits (headerBytes h ++ (body ++ footer))) 0 (bytesBits (headerBytes h)) ∧
    At (bytesBits (headerBytes h ++ (body ++ footer))) 256 l.config ∧
    At (bytesBits (headerBytes h ++ (body ++ footer))) (256 + l.config.length) l.trie ∧
    At (bytesBits (headerBytes h ++ (body ++ footer))) l.storePos l.store := by
  have hall : At (bytesBits (headerBytes h ++ (body ++ footer))) 0
      (bytesBits (headerBytes h) ++ (l.config ++ (l.trie ++ (l.store ++
        padBits (l.storePos + l.store.length))))) := by
    refine ⟨bytesBits footer, ?_⟩
    rw [bytesBits_append, bytesBits_append, hbody, StreamLayout.bits, List.drop_zero]
    simp only [List.append_assoc]
  have hdata := hall.right
  rw [length_headerBits] at hdata
  exact ⟨hall.left, by simpa using hdata.left, by simpa using hdata.right.left,
    by simpa [StreamLayout.storePos] using hdata.right.right.left⟩

/-- How many bytes a data stream takes. -/
theorem StreamLayout.length_body {bps : Nat} {es : List Entry} (l : StreamLayout bps es)
    {body : List UInt8} (hbody : bytesBits body = l.bits) :
    8 * body.length < l.offsets.totalDataBits + 8 := by
  have hbits := congrArg List.length hbody
  have hpad : (padBits (l.storePos + l.store.length)).length < 8 := by
    rw [padBits, List.length_replicate]
    omega
  have hlen : l.bits.length = l.offsets.totalDataBits +
      (padBits (l.storePos + l.store.length)).length := by
    simp only [StreamLayout.bits, StreamLayout.offsets, List.length_append]
    omega
  rw [length_bytesBits] at hbits
  omega

theorem codes_eq {bps bps' : Nat} {keys : List (List UInt8)}
    (h : (parsedSymbols bps' (usedBytes keys)).Codes (usedBytes keys)) :
    (analyzeSymbols bps keys).ctrlCodes = (parsedSymbols bps' (usedBytes keys)).ctrlCodes :=
  funext fun c => (ctrlCodes_analyzeSymbols bps keys c).trans (h.ctrl c).symm

/-- The alphabet has room in symbols of its width, and the width is one that a file may have. -/
def WidthFits (bps : Nat) (used : List UInt8) : Prop :=
  symbolWidth bps used ≤ 8 ∧ used.length + 6 ≤ 2 ^ symbolWidth bps used

/-- The minimum width fits. -/
theorem widthFits_auto {used : List UInt8} (hcount : used.length ≤ 249) : WidthFits 0 used := by
  obtain ⟨_, hhigh, hfits⟩ := @autoBits_spec (used.length + 6) (by omega) (by omega)
  exact ⟨hhigh, hfits⟩

/-- The dictionary that opens with the parsed symbols. -/
def Dict.ofFile (buf : List UInt8) (hdr : Header) (sym : SymbolInfo) : Dict where
  buf := buf
  info :=
    { formatVersionMajor := hdr.versionMajor
      formatVersionMinor := hdr.versionMinor
      numKeys := hdr.numKeys.toNat
      trieMode := .bit
      valueMode := .byte
      checksumType := .crc32
      bitsPerSymbol := sym.bitsPerSymbol
      hasValues := decide (hdr.flags &&& flagHasValues ≠ 0)
      hasSuffixTable := false
      compactMode := decide (hdr.flags &&& flagCompactMode ≠ 0)
      totalBytes := buf.length }
  hdr := hdr
  trieStart := headerSize * 8 + hdr.trieDataOffset.toNat
  valueStart := headerSize * 8 + hdr.valueStoreOffset.toNat
  sym := sym

/-- Bytes that begin with a header of this version, end with their checksum and are not too many
open when their configuration can be parsed. -/
theorem dictOpenImpl_eq_parse {hdr : Header} {body : List UInt8} (checkCrc : Bool)
    (hmagic : hdr.magic0 = 0x54 ∧ hdr.magic1 = 0x52 ∧ hdr.magic2 = 0x50 ∧ hdr.magic3 = 0x00)
    (hversion : hdr.versionMajor = formatVersionMajor)
    (hflags : hdr.flags &&& flagHasSuffixTable = 0) (hsmall : 36 + body.length < 2 ^ 60) :
    let buf := headerBytes hdr ++ (body ++ be32 (crc32 (headerBytes hdr ++ body)))
    dictOpenImpl buf checkCrc =
      match parseTrieConfig { bsReaderCreate buf with pos := 256 } with
      | (.error e, _) => .error e
      | (.ok sym, _) => .ok (.ofFile buf hdr sym) := by
  intro buf
  have hbuflen : buf.length = 36 + body.length := by
    simp only [buf, List.length_append, length_headerBytes, length_be32, headerSize]
    omega
  have hat : At (bytesBits buf) 0 (bytesBits (headerBytes hdr)) := by
    refine ⟨bytesBits (body ++ be32 (crc32 (headerBytes hdr ++ body))), ?_⟩
    rw [List.drop_zero, ← bytesBits_append]
  have hread : headerRead (bsReaderCreate buf) = (.ok hdr, { bsReaderCreate buf with pos := 256 }) := by
    have := headerRead_reads (h := hdr) hmagic hversion (bsReaderCreate buf)
      (.create (by omega)) hat
    rw [length_headerBits] at this
    exact this
  have hfooter : crc32 (buf.take (buf.length - 4)) = be32At buf (buf.length - 4) := by
    have hsplit : buf = (headerBytes hdr ++ body) ++ be32 (crc32 (headerBytes hdr ++ body)) := by
      rw [List.append_assoc]
    have hfront : buf.length - 4 = (headerBytes hdr ++ body).length := by
      rw [hbuflen, List.length_append, length_headerBytes, headerSize]
      omega
    rw [hfront, hsplit, List.take_left, be32At_append]
  rw [dictOpenImpl, if_neg (by simp only [headerSize]; omega), hread]
  simp only
  rw [if_neg (by rw [hfooter]; simp), if_neg (by simpa using hflags)]
  rfl

/-- What `tp_encoder_build` writes is accepted, checked or not, and opens as the dictionary of
the sorted entries, provided the width of its symbols fits. -/
theorem dictOpenImpl_of_widthFits {q : Qsort} {enc enc' : Encoder} {buf : List UInt8}
    (checkCrc : Bool) (hopts : enc.opts.bitsPerSymbol ≤ 15)
    (hfits : WidthFits enc.opts.bitsPerSymbol
      (usedBytes ((sortedEntries q enc.entries).map Entry.key)))
    (h : encoderBuild q enc = (.ok buf, enc')) :
    ∃ d, dictOpenImpl buf checkCrc = .ok d ∧ d.buf = buf ∧ (d.Sound ∧ d.trieStart ≤ 8 * buf.length) ∧
      d.info.numKeys = (sortedEntries q enc.entries).length ∧
      (sortedEntries q enc.entries ≠ [] → ∃ t, Represents d (sortedEntries q enc.entries) t) := by
  obtain ⟨hcount, l, htotal, body, hbody, hbuf⟩ := encoderBuild_layout hopts h
  have hasc := strictlyAscending_sortedEntries q enc.entries
  have hlt := (length_sortedEntries_le q enc.entries).trans_lt enc.count_lt
  generalize sortedEntries q enc.entries = es at *
  set hdr := fileHeader es l.offsets with hhdr
  obtain ⟨_, hatConfig, hatTrie, hatStore⟩ :=
    l.bits_at (h := hdr) (be32 (crc32 (headerBytes hdr ++ body))) hbody
  rw [← hbuf] at hatConfig hatTrie hatStore
  have htotal' : l.offsets.totalDataBits < 2 ^ 32 := by simp only [uint32Max] at htotal; omega
  have hbodylen := l.length_body hbody
  have hsmall : buf.length < 2 ^ 60 := by
    rw [hbuf]
    simp only [List.length_append, length_headerBytes, length_be32, headerSize]
    omega
  have hflags : hdr.flags &&& flagHasSuffixTable = 0 ∧
      decide (hdr.flags &&& flagHasValues ≠ 0) = entriesHaveValues es := by
    simp only [hhdr, fileHeader, placeholderHeader]
    cases entriesHaveValues es <;> decide
  have htrieStart : headerSize * 8 + hdr.trieDataOffset.toNat = 256 + l.config.length := by
    simp only [hhdr, fileHeader, StreamLayout.offsets, headerSize, UInt32.toNat_ofNat'] at *
    omega
  have hstart := hatConfig.le (by simp [l.config_eq, configBits, natBits])
  rw [length_bytesBits] at hstart
  -- the configuration
  obtain ⟨hhigh, hroom⟩ := hfits
  have hlow : 3 ≤ symbolWidth enc.opts.bitsPerSymbol (usedBytes (es.map Entry.key)) := by
    by_contra hless
    have := Nat.pow_le_pow_right (show 0 < 2 by omega)
      (show symbolWidth enc.opts.bitsPerSymbol (usedBytes (es.map Entry.key)) ≤ 2 by omega)
    omega
  have hwidth := bitsPerSymbol_analyzeSymbols enc.opts.bitsPerSymbol (es.map Entry.key)
  rw [l.config_eq] at hatConfig
  generalize symbolWidth enc.opts.bitsPerSymbol (usedBytes (es.map Entry.key)) = bps at *
  have hcodes := codes_parsedSymbols (nodup_usedBytes (es.map Entry.key)) ⟨hlow, hhigh⟩ hroom
  have hparse := parseTrieConfig_reads ⟨hlow, hhigh⟩ hroom hcount
    { bsReaderCreate buf with pos := 256 }
    ((Reader.Sound.create hsmall).move (by
      have hle := hatConfig.le (by simp [configBits, natBits])
      rw [length_bytesBits] at hle
      simp only [bsReaderCreate]
      rw [u64_of_lt (by omega)]
      omega)) hatConfig
  have hopen : dictOpenImpl buf checkCrc =
      .ok (.ofFile buf hdr (parsedSymbols bps (usedBytes (es.map Entry.key)))) := by
    have heq := @dictOpenImpl_eq_parse hdr body checkCrc ⟨rfl, rfl, rfl, rfl⟩ rfl hflags.1 (by omega)
    rw [hbuf]
    simp only at heq
    rw [heq, ← hbuf, hparse]
  have hsound := (dictOpenImpl_sound (b := ⟨buf, hsmall⟩) hopen).1
  have hnum : hdr.numKeys.toNat = es.length := by
    simp only [hhdr, fileHeader, placeholderHeader, UInt32.toNat_ofNat']
    omega
  refine ⟨_, hopen, rfl, ⟨hsound, by simp only [Dict.ofFile, htrieStart]; exact hstart⟩, hnum,
    fun hne => ?_⟩
  obtain ⟨t, hcompact, hentries, htrie⟩ : ∃ t : Trie, t.Compact ∧ t.entries = es.map (suffixEntry 0) ∧
      l.trie = trieBits (analyzeSymbols enc.opts.bitsPerSymbol (es.map Entry.key))
        (entriesHaveValues es) t 0 := by
    have h := l.trie_eq
    rwa [TrieCode, if_neg hne] at h
  rw [trieBits_congr (by rw [hwidth, bitsPerSymbol_parsedSymbols])
    (codes_eq hcodes) (symbolMap_parsedSymbols _ bps _).symm] at htrie
  have hvalueStart : headerSize * 8 + hdr.valueStoreOffset.toNat = l.storePos := by
    simp only [hhdr, fileHeader, StreamLayout.offsets, StreamLayout.storePos, headerSize,
      UInt32.toNat_ofNat'] at *
    omega
  exact ⟨t, hsound, hnum, hlt, hflags.2, hcodes, hcompact, hentries, hasc,
    by simp only [Dict.ofFile, htrieStart, hflags.2, ← htrie]; exact hatTrie,
    by simp only [Dict.ofFile, htrieStart, hvalueStart, hflags.2, ← htrie]; rfl,
    by simp only [Dict.ofFile, hvalueStart]; exact hatStore, l.encodable⟩

/-- With the minimum width the bytes of a build always open. -/
theorem dictOpenImpl_encoderBuild {q : Qsort} {enc enc' : Encoder} {buf : List UInt8}
    (checkCrc : Bool) (hopts : enc.opts.bitsPerSymbol = 0)
    (h : encoderBuild q enc = (.ok buf, enc')) :
    ∃ d, dictOpenImpl buf checkCrc = .ok d ∧ d.buf = buf ∧ (d.Sound ∧ d.trieStart ≤ 8 * buf.length) ∧
      d.info.numKeys = (sortedEntries q enc.entries).length ∧
      (sortedEntries q enc.entries ≠ [] → ∃ t, Represents d (sortedEntries q enc.entries) t) := by
  refine dictOpenImpl_of_widthFits checkCrc (by omega) ?_ h
  rw [hopts]
  exact widthFits_auto (encoderBuild_layout (by omega) h).1

end Triepack
