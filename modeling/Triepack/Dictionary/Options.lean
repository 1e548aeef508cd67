import Triepack.Dictionary.RoundTrip

/-!
# Builds with a forced symbol width

`tp_encoder_create_ex` takes every width up to 15, and `tp_encoder_build` writes with it. What
opens again are the files whose width is at most 8 and leaves each symbol of the alphabet a code.
-/

namespace Triepack

open BitString

/-- The bytes open as a dictionary that finds every added key with its value. -/
def FindsAdded (adds : List Addition) (buf : List UInt8) : Prop :=
  ∃ d, dictOpen buf = .ok d ∧
    ∀ a ∈ adds, ∃ v, dictLookupN d a.1 = .ok v ∧ v.map (Slice.read buf) = a.2.getD .null

/-- What `tp_encoder_create_ex` hands out. -/
theorem encoderCreateEx_eq_ok {opts : EncoderOptions} {enc : Encoder}
    (h : encoderCreateEx opts = .ok enc) :
    enc.opts = opts ∧ enc.entries = [] ∧ opts.bitsPerSymbol ≤ 15 := by
  rw [encoderCreateEx] at h
  split_ifs at h with _ _ _ _ _ hwidth
  obtain rfl := Except.ok.inj h
  exact ⟨rfl, rfl, by omega⟩

/-- Keys with the same bytes in them have the same alphabet. -/
theorem usedBytes_congr {keys keys' : List (List UInt8)}
    (h : ∀ b, (∃ key ∈ keys, b ∈ key) ↔ ∃ key ∈ keys', b ∈ key) : usedBytes keys = usedBytes keys' := by
  rw [usedBytes, usedBytes]
  refine List.filter_congr fun b _ => ?_
  have hb := h b
  simp only [← mem_usedBytes] at hb
  rw [Bool.eq_iff_iff]
  simpa [usedBytes, mem_allBytes] using hb

/-- A configuration whose width does not fit is rejected. -/
theorem parseTrieConfig_rejects {bps : Nat} {used : List UInt8} {r : Reader} (hr : r.Sound)
    (hbps : bps ≤ 15) (hcount : used.length ≤ 249)
    (hat : At (bytesBits r.buf) r.pos (configBits bps used))
    (hfits : ¬ (bps ≤ 8 ∧ used.length + 6 ≤ 2 ^ bps)) :
    ∃ r', parseTrieConfig r = (.error (.rc .alphabet), r') := by
  rw [configBits] at hat
  have hwidth := bsReadBits_reads (n := 4) (v := bps) (by omega) (by omega) (by omega) r hr hat.left
  rw [parseTrieConfig, Op.bind_ok hwidth]
  split_ifs with hrange
  · exact ⟨_, rfl⟩
  have hnext := hat.right.left
  have hr' : ({ r with pos := r.pos + (natBits 4 bps).length } : Reader).Sound := by
    refine hr.move ?_
    have hle := hnext.le (by simp [natBits])
    have hlen := hr.bitLen_eq
    rw [length_bytesBits] at hle
    omega
  have hcode := bsReadBits_reads (n := 8) (v := used.length + 6) (by omega) (by omega) (by omega)
    { r with pos := r.pos + (natBits 4 bps).length } hr' hnext
  rw [Op.bind_ok hcode, Nat.one_shiftLeft, if_pos (by rw [show numControlCodes = 6 from rfl]; omega)]
  exact ⟨_, rfl⟩

section Built

variable {opts : EncoderOptions} {enc : Encoder} (hcreate : encoderCreateEx opts = .ok enc)
  {q : Qsort} {adds : List Addition}

include hcreate

theorem entries_createEx (adds : List Addition) :
    (encoderAddAll enc adds).entries = (survivors adds).map Addition.entry :=
  entries_addAll (encoderCreateEx_eq_ok hcreate).2.1 adds

/-- The alphabet of a file is that of the keys that are left. -/
theorem usedBytes_createEx :
    usedBytes ((sortedEntries q (encoderAddAll enc adds).entries).map Entry.key) =
      usedBytes ((survivors adds).map Prod.fst) := by
  refine usedBytes_congr fun b => ?_
  rw [entries_createEx hcreate]
  simp only [List.mem_map, exists_exists_and_eq_and]
  constructor
  · rintro ⟨e, he, hb⟩
    obtain ⟨a, ha, rfl⟩ := List.mem_map.mp (mem_of_mem_sortedEntries he)
    exact ⟨a, ha, hb⟩
  · rintro ⟨a, ha, hb⟩
    obtain ⟨e, he, hkey⟩ := exists_mem_sortedEntries q (List.mem_map_of_mem (f := Addition.entry) ha)
    exact ⟨e, he, by rw [hkey]; exact hb⟩

variable {buf : List UInt8} (h : (encoderBuild q (encoderAddAll enc adds)).1 = .ok buf)

include h

/-- Bytes whose width does not fit do not open. -/
theorem widthFits_of_open {d : Dict} (hopen : dictOpen buf = .ok d) :
    WidthFits opts.bitsPerSymbol (usedBytes ((survivors adds).map Prod.fst)) := by
  obtain ⟨hopts, _, hle⟩ := encoderCreateEx_eq_ok hcreate
  have hwidth : (encoderAddAll enc adds).opts.bitsPerSymbol = opts.bitsPerSymbol := by
    rw [opts_addAll, hopts]
  obtain ⟨hcount, l, htotal, body, hbody, hbuf⟩ :=
    encoderBuild_layout (by omega) (Prod.ext h rfl)
  have hused := @usedBytes_createEx opts enc hcreate q adds
  rw [← hused, ← hwidth]
  by_contra hfits
  rw [hwidth] at hfits
  generalize hes : sortedEntries q (encoderAddAll enc adds).entries = es at *
  have hbodylen := l.length_body hbody
  have hsmall : 36 + body.length < 2 ^ 60 := by simp only [uint32Max] at htotal; omega
  have hflags : (fileHeader es l.offsets).flags &&& flagHasSuffixTable = 0 := by
    simp only [fileHeader, placeholderHeader]
    cases entriesHaveValues es <;> decide
  have heq := @dictOpenImpl_eq_parse (fileHeader es l.offsets) body true ⟨rfl, rfl, rfl, rfl⟩ rfl
    hflags hsmall
  simp only at heq
  obtain ⟨_, hatConfig, _, _⟩ := l.bits_at (h := fileHeader es l.offsets)
    (be32 (crc32 (headerBytes (fileHeader es l.offsets) ++ body))) hbody
  rw [← hbuf] at heq hatConfig
  rw [l.config_eq, hwidth] at hatConfig
  have hbuflen : buf.length < 2 ^ 60 := by
    rw [hbuf]
    simp only [List.length_append, length_headerBytes, length_be32, headerSize]
    omega
  have hreader : ({ bsReaderCreate buf with pos := 256 } : Reader).Sound := by
    refine (Reader.Sound.create hbuflen).move ?_
    have hle := hatConfig.le (by simp [configBits, natBits])
    rw [length_bytesBits] at hle
    simp only [bsReaderCreate]
    rw [u64_of_lt (by omega)]
    omega
  obtain ⟨_, hbound⟩ := @autoBits_spec ((usedBytes (es.map Entry.key)).length + 6)
    (by omega) (by omega)
  obtain ⟨r', hreject⟩ := parseTrieConfig_rejects hreader (by
    rw [symbolWidth, show numControlCodes = 6 from rfl]
    split_ifs <;> omega) hcount hatConfig hfits
  rw [dictOpen, heq, hreject] at hopen
  simp at hopen

/-- Bytes whose width fits find what is left of the additions. -/
theorem findsAdded_of_widthFits (hkeys : (adds.map Prod.fst).Nodup)
    (hlt : adds.length < 2 ^ 32)
    (hfits : WidthFits opts.bitsPerSymbol (usedBytes ((survivors adds).map Prod.fst))) :
    FindsAdded adds buf := by
  obtain ⟨hopts, _, hle⟩ := encoderCreateEx_eq_ok hcreate
  have hwidth : (encoderAddAll enc adds).opts.bitsPerSymbol = opts.bitsPerSymbol := by
    rw [opts_addAll, hopts]
  rw [← usedBytes_createEx hcreate (q := q), ← hwidth] at hfits
  obtain ⟨d, hopen, hbuf, _, _, hrep⟩ :=
    dictOpenImpl_of_widthFits true (by omega) hfits (Prod.ext h rfl)
  refine ⟨d, hopen, fun a ha => ?_⟩
  have hnodup : ((encoderAddAll enc adds).entries.map Entry.key).Nodup := by
    rw [entries_createEx hcreate, List.map_map]
    exact hkeys.sublist ((survivors_suffix adds).sublist.map _)
  have hmem : a.entry ∈ sortedEntries q (encoderAddAll enc adds).entries := by
    rw [(sortedEntries_perm q hnodup).mem_iff, entries_createEx hcreate, survivors_eq_self hlt]
    exact List.mem_map_of_mem ha
  obtain ⟨t, ht⟩ := hrep (List.ne_nil_of_mem hmem)
  obtain ⟨v, hlookup, hval⟩ := ht.dictLookupN_of_mem hmem
  rw [hbuf] at hval
  exact ⟨v, hlookup, hval⟩

end Built

/-- The bytes of a build open, and every key is found, exactly when the width leaves each symbol
a code and is at most 8; from 2^32 additions on, the width is still needed for them to open. -/
theorem findsAdded_iff_widthFits {opts : EncoderOptions} {enc : Encoder}
    (hcreate : encoderCreateEx opts = .ok enc) {q : Qsort} {adds : List Addition}
    (hkeys : (adds.map Prod.fst).Nodup) {buf : List UInt8}
    (h : (encoderBuild q (encoderAddAll enc adds)).1 = .ok buf) :
    (FindsAdded adds buf →
      WidthFits opts.bitsPerSymbol (usedBytes ((survivors adds).map Prod.fst))) ∧
    (adds.length < 2 ^ 32 →
      (FindsAdded adds buf ↔ WidthFits opts.bitsPerSymbol (usedBytes (adds.map Prod.fst)))) := by
  have hneeded : FindsAdded adds buf →
      WidthFits opts.bitsPerSymbol (usedBytes ((survivors adds).map Prod.fst)) := by
    rintro ⟨d, hopen, _⟩
    exact widthFits_of_open hcreate h hopen
  refine ⟨hneeded, fun hlt => ?_⟩
  have henough := findsAdded_of_widthFits hcreate h hkeys hlt
  rw [survivors_eq_self hlt] at hneeded henough
  exact ⟨hneeded, henough⟩

/-- The default options with a forced width. -/
def forcedWidth (bps : Nat) : EncoderOptions := { encoderDefaults with bitsPerSymbol := bps }

/-- Five bits for eight symbols. -/
theorem findsAdded_five : ∃ enc buf, encoderCreateEx (forcedWidth 5) = .ok enc ∧
    FindsAdded [([7, 0], some (.string [1, 2])), ([], some (.int (-5)))] buf := by
  obtain ⟨buf, h⟩ := exists_build (.keepingLast ⟨[], .null⟩)
    (encoderAddAll ⟨forcedWidth 5, [], by decide⟩
      [([7, 0], some (.string [1, 2])), ([], some (.int (-5)))]) (by decide +kernel)
  refine ⟨⟨forcedWidth 5, [], by decide⟩, buf, rfl, ?_⟩
  exact ((@findsAdded_iff_widthFits (forcedWidth 5) _ rfl _ _ (by decide) _ h).2 (by decide)).mpr
    ⟨by decide +kernel, by decide +kernel⟩

/-- Three bits for nine symbols: the build succeeds and its bytes do not open. -/
theorem not_findsAdded_three : ∃ enc q buf,
    encoderCreateEx (forcedWidth 3) = .ok enc ∧
      (encoderBuild q (encoderAddAll enc [([97], none), ([98], none), ([99], none)])).1 = .ok buf ∧
      ¬ FindsAdded [([97], none), ([98], none), ([99], none)] buf := by
  obtain ⟨buf, h⟩ := exists_build (.keepingLast ⟨[], .null⟩)
    (encoderAddAll ⟨forcedWidth 3, [], by decide⟩ [([97], none), ([98], none), ([99], none)])
    (by decide +kernel)
  refine ⟨⟨forcedWidth 3, [], by decide⟩, _, buf, rfl, h, ?_⟩
  rintro ⟨d, hopen, _⟩
  obtain ⟨_, hroom⟩ := @widthFits_of_open (forcedWidth 3) _ rfl _ _ _ h _ hopen
  have hnine : ¬ (usedBytes ((survivors [([97], none), ([98], none), ([99], none)]).map
      Prod.fst)).length + 6 ≤ 2 ^ 3 := by decide +kernel
  exact hnine hroom

end Triepack
