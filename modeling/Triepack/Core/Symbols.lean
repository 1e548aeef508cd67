import Mathlib.Data.List.Nodup
import Triepack.Bitstream.RoundTrip

/-!
# The symbol alphabet

A trie is a sequence of symbols of one width: six control codes, and one code for each byte
value that occurs in a key. `SymbolInfo.Codes` is what both sides of a file agree on: the
encoder's tables satisfy it, and so do the tables parsed from the configuration it writes.
-/

namespace Triepack

open BitString

/-- The control codes `TP_CTRL_*`. -/
inductive TpCtrl where
  | end_ | endVal | skip | suffix | escape | branch
  deriving DecidableEq, Repr

def numControlCodes : Nat := 6

/-- The number of a control code, which is also the symbol the encoder gives it. -/
def TpCtrl.index : TpCtrl → Nat
  | .end_ => 0
  | .endVal => 1
  | .skip => 2
  | .suffix => 3
  | .escape => 4
  | .branch => 5

def TpCtrl.all : List TpCtrl := [.end_, .endVal, .skip, .suffix, .escape, .branch]

/-- `tp_symbol_info`. -/
structure SymbolInfo where
  bitsPerSymbol : Nat
  symbolCount : Nat
  alphabetSize : Nat
  ctrlCodes : TpCtrl → Nat
  symbolMap : UInt8 → Nat
  reverseMap : Nat → UInt8
  codeIsCtrl : Nat → Bool

/-- The tables after `memset`. -/
def SymbolInfo.zero : SymbolInfo where
  bitsPerSymbol := 0
  symbolCount := 0
  alphabetSize := 0
  ctrlCodes := fun _ => 0
  symbolMap := fun _ => 0
  reverseMap := fun _ => 0
  codeIsCtrl := fun _ => false

/-! ## Analysis of the keys -/

def allBytes : List UInt8 := (List.range 256).map UInt8.ofNat

/-- The byte values that occur in the keys, in increasing order. -/
def usedBytes (keys : List (List UInt8)) : List UInt8 :=
  allBytes.filter fun b => keys.any fun key => key.contains b

/-- The loop of `analyze_symbols` that finds the width of a symbol. -/
def autoBitsLoop (totalSymbols : Nat) : (fuel bps : Nat) → Nat
  | 0, bps => bps
  | fuel + 1, bps =>
    if 1 <<< bps < totalSymbols then autoBitsLoop totalSymbols fuel (bps + 1) else bps

/-- The minimum width for so many symbols, found in fewer rounds than there are symbols. -/
def autoBits (totalSymbols : Nat) : Nat := autoBitsLoop totalSymbols totalSymbols 1

/-- Give the bytes consecutive codes from `code` on. -/
def assignSymbols : List UInt8 → (code : Nat) → SymbolInfo → SymbolInfo
  | [], _, sym => sym
  | b :: bs, code, sym =>
    assignSymbols bs (code + 1)
      { sym with
        symbolMap := Function.update sym.symbolMap b code
        reverseMap := if code < 256 then Function.update sym.reverseMap code b else sym.reverseMap }

/-- `analyze_symbols`; a width of 0 in the options asks for the minimum. -/
def analyzeSymbols (bitsPerSymbol : Nat) (keys : List (List UInt8)) : SymbolInfo :=
  let used := usedBytes keys
  let totalSymbols := used.length + numControlCodes
  assignSymbols used numControlCodes
    { SymbolInfo.zero with
      bitsPerSymbol := if bitsPerSymbol = 0 then autoBits totalSymbols else bitsPerSymbol
      symbolCount := totalSymbols
      alphabetSize := used.length
      ctrlCodes := TpCtrl.index
      codeIsCtrl := fun code => decide (code < numControlCodes) }

/-! ## The configuration at the head of the data stream -/

def writeCtrlCodes (sym : SymbolInfo) : List TpCtrl → Wr Unit
  | [] => pure ()
  | c :: cs => do
    bsWriteBits (sym.ctrlCodes c) sym.bitsPerSymbol
    writeCtrlCodes sym cs

/-- The bytes of `n` codes from `code` on. -/
def writeSymbolTable (sym : SymbolInfo) : (n code : Nat) → Wr Unit
  | 0, _ => pure ()
  | n + 1, code => do
    bsWriteVarintU (if code < 256 then (sym.reverseMap code).toNat else 0)
    writeSymbolTable sym n (code + 1)

/-- The part of `tp_encoder_build` that writes the trie configuration. -/
def writeTrieConfig (sym : SymbolInfo) : Wr Unit := do
  bsWriteBits sym.bitsPerSymbol 4
  bsWriteBits sym.symbolCount 8
  writeCtrlCodes sym TpCtrl.all
  writeSymbolTable sym (sym.symbolCount - numControlCodes) numControlCodes

def readCtrlCodes : List TpCtrl → SymbolInfo → Rd SymbolInfo
  | [], sym => pure sym
  | c :: cs, sym => do
    let val ← bsReadBits sym.bitsPerSymbol
    readCtrlCodes cs
      { sym with
        ctrlCodes := Function.update sym.ctrlCodes c val
        codeIsCtrl := if val < 256 then Function.update sym.codeIsCtrl val true else sym.codeIsCtrl }

def readSymbolTable : (n code : Nat) → SymbolInfo → Rd SymbolInfo
  | 0, _, sym => pure sym
  | n + 1, code, sym => do
    let cp ← bsReadVarintU
    readSymbolTable n (code + 1)
      (if code < 256 ∧ cp < 256 then
        { sym with
          symbolMap := Function.update sym.symbolMap (UInt8.ofNat cp) code
          reverseMap := Function.update sym.reverseMap code (UInt8.ofNat cp) }
      else sym)

/-- `parse_trie_config`. -/
def parseTrieConfig : Rd SymbolInfo := do
  let bps ← bsReadBits 4
  if bps < 1 ∨ bps > 8 then Op.fail .alphabet
  else do
    let count ← bsReadBits 8
    if count < numControlCodes ∨ count > 1 <<< bps then Op.fail .alphabet
    else do
      let sym ← readCtrlCodes TpCtrl.all
        { SymbolInfo.zero with bitsPerSymbol := bps, symbolCount := count }
      readSymbolTable (count - numControlCodes) numControlCodes sym

/-! ## Tables that agree with an alphabet -/

/-- The control codes are the first six symbols and each byte of the alphabet has a symbol
of its own among the others. -/
structure SymbolInfo.Codes (sym : SymbolInfo) (used : List UInt8) : Prop where
  three_le : 3 ≤ sym.bitsPerSymbol
  le_eight : sym.bitsPerSymbol ≤ 8
  ctrl : ∀ c, sym.ctrlCodes c = c.index
  is_ctrl : ∀ code, sym.codeIsCtrl code = decide (code < 6)
  six_le : ∀ b ∈ used, 6 ≤ sym.symbolMap b
  symbol_lt : ∀ b ∈ used, sym.symbolMap b < 2 ^ sym.bitsPerSymbol
  reverse : ∀ b ∈ used, sym.reverseMap (sym.symbolMap b) = b
  unused : ∀ b, b ∉ used → sym.symbolMap b = 0

theorem TpCtrl.index_lt (c : TpCtrl) : c.index < 6 := by cases c <;> decide

/-- In tables that agree with an alphabet, a byte is known from its symbol. -/
theorem SymbolInfo.Codes.symbolMap_inj {sym : SymbolInfo} {used : List UInt8} (hs : sym.Codes used)
    {a b : UInt8} (ha : a ∈ used) (h : sym.symbolMap a = sym.symbolMap b) : a = b := by
  by_cases hb : b ∈ used
  · rw [← hs.reverse a ha, h, hs.reverse b hb]
  · have hsix := hs.six_le a ha
    rw [h, hs.unused b hb] at hsix
    omega

theorem SymbolInfo.Codes.ctrl_lt {sym : SymbolInfo} {used : List UInt8} (hs : sym.Codes used)
    (c : TpCtrl) : sym.ctrlCodes c < 2 ^ sym.bitsPerSymbol := by
  rw [hs.ctrl]
  calc c.index < 2 ^ 3 := by have := c.index_lt; omega
    _ ≤ 2 ^ sym.bitsPerSymbol := Nat.pow_le_pow_right (by omega) hs.three_le

theorem mem_allBytes (b : UInt8) : b ∈ allBytes :=
  List.mem_map.mpr ⟨b.toNat, List.mem_range.mpr b.toNat_lt, UInt8.ofNat_toNat⟩

theorem mem_usedBytes {keys : List (List UInt8)} {b : UInt8} :
    b ∈ usedBytes keys ↔ ∃ key ∈ keys, b ∈ key := by
  simp [usedBytes, mem_allBytes]

theorem nodup_allBytes : allBytes.Nodup := by
  refine List.Nodup.map_on (fun i hi j hj h => ?_) List.nodup_range
  have hnat := congrArg UInt8.toNat h
  rw [List.mem_range] at hi hj
  simp only [UInt8.toNat_ofNat'] at hnat
  omega

theorem nodup_usedBytes (keys : List (List UInt8)) : (usedBytes keys).Nodup :=
  nodup_allBytes.filter _

/-- Keys whose bytes are all of one kind use no more bytes than there are of it. -/
theorem length_usedBytes_le_countP {keys : List (List UInt8)} {kind : UInt8 → Bool}
    (h : ∀ key ∈ keys, ∀ b ∈ key, kind b = true) : (usedBytes keys).length ≤ allBytes.countP kind := by
  have hsub : usedBytes keys ⊆ allBytes.filter kind := fun b hb => by
    obtain ⟨key, hkey, hmem⟩ := mem_usedBytes.mp hb
    exact List.mem_filter.mpr ⟨mem_allBytes b, h key hkey b hmem⟩
  rw [List.countP_eq_length_filter]
  exact ((nodup_usedBytes keys).subperm hsub).length_le

theorem autoBitsLoop_spec {totalSymbols fuel bps : Nat} (hfuel : totalSymbols ≤ bps + fuel)
    (hbps : 1 ≤ bps) (hlt : bps = 1 ∨ 2 ^ (bps - 1) < totalSymbols) :
    totalSymbols ≤ 2 ^ autoBitsLoop totalSymbols fuel bps ∧
      1 ≤ autoBitsLoop totalSymbols fuel bps ∧
      (autoBitsLoop totalSymbols fuel bps = 1 ∨
        2 ^ (autoBitsLoop totalSymbols fuel bps - 1) < totalSymbols) := by
  induction fuel generalizing bps with
  | zero =>
    have := Nat.lt_two_pow_self (n := bps)
    rw [autoBitsLoop]
    exact ⟨by omega, hbps, hlt⟩
  | succ fuel ih =>
    rw [autoBitsLoop, Nat.one_shiftLeft]
    split_ifs with hsmall
    · exact ih (by omega) (by omega) (.inr hsmall)
    · exact ⟨by omega, hbps, hlt⟩

/-- The minimum width of the symbols of a file is between three and eight. -/
theorem autoBits_spec {totalSymbols : Nat} (hlow : 6 ≤ totalSymbols) (hhigh : totalSymbols ≤ 256) :
    3 ≤ autoBits totalSymbols ∧ autoBits totalSymbols ≤ 8 ∧
      totalSymbols ≤ 2 ^ autoBits totalSymbols := by
  obtain ⟨hfits, _, hmin⟩ :=
    @autoBitsLoop_spec totalSymbols totalSymbols 1 (by omega) (by omega) (.inl rfl)
  change _ ≤ 2 ^ autoBits totalSymbols at hfits
  change autoBits totalSymbols = 1 ∨ 2 ^ (autoBits totalSymbols - 1) < _ at hmin
  refine ⟨?_, ?_, hfits⟩
  · by_contra hsmall
    have := Nat.pow_le_pow_right (show 0 < 2 by omega) (show autoBits totalSymbols ≤ 2 by omega)
    omega
  · by_contra hlarge
    have := Nat.pow_le_pow_right (show 0 < 2 by omega)
      (show 8 ≤ autoBits totalSymbols - 1 by omega)
    omega

/-- Only the two byte tables change when symbols are assigned. -/
theorem assignSymbols_frame (used : List UInt8) (code : Nat) (sym : SymbolInfo) :
    assignSymbols used code sym =
      { sym with
        symbolMap := (assignSymbols used code sym).symbolMap
        reverseMap := (assignSymbols used code sym).reverseMap } := by
  induction used generalizing code sym with
  | nil => rfl
  | cons b bs ih =>
    rw [assignSymbols, ih]

theorem symbolMap_assignSymbols_of_notMem {used : List UInt8} {code : Nat} {sym : SymbolInfo}
    {b : UInt8} (h : b ∉ used) : (assignSymbols used code sym).symbolMap b = sym.symbolMap b := by
  induction used generalizing code sym with
  | nil => rfl
  | cons c cs ih =>
    rw [List.mem_cons, not_or] at h
    rw [assignSymbols, ih h.2]
    exact Function.update_of_ne h.1 _ _

theorem reverseMap_assignSymbols_of_lt {used : List UInt8} {code i : Nat} {sym : SymbolInfo}
    (h : i < code) : (assignSymbols used code sym).reverseMap i = sym.reverseMap i := by
  induction used generalizing code sym with
  | nil => rfl
  | cons c cs ih =>
    rw [assignSymbols, ih (by omega)]
    simp only
    split_ifs
    · exact Function.update_of_ne (by omega) _ _
    · rfl

theorem assignSymbols_getElem {used : List UInt8} (hnd : used.Nodup) {code i : Nat}
    {sym : SymbolInfo} (hi : i < used.length) (hcode : code + used.length ≤ 256) :
    (assignSymbols used code sym).symbolMap used[i] = code + i ∧
      (assignSymbols used code sym).reverseMap (code + i) = used[i] := by
  induction used generalizing code i sym with
  | nil => simp at hi
  | cons c cs ih =>
    obtain ⟨hc, hcs⟩ := List.nodup_cons.mp hnd
    rw [List.length_cons] at hi hcode
    rw [assignSymbols]
    cases i with
    | zero =>
      rw [List.getElem_cons_zero, symbolMap_assignSymbols_of_notMem hc, Nat.add_zero,
        reverseMap_assignSymbols_of_lt (by omega), if_pos (by omega)]
      simp
    | succ i =>
      obtain ⟨hmap, hrev⟩ := @ih hcs (code + 1) i _ (by omega) (by omega)
      rw [List.getElem_cons_succ, hmap, show code + (i + 1) = code + 1 + i by omega, hrev]
      simp

/-- Tables with the right control codes agree with the alphabet once it has its symbols. -/
theorem codes_assignSymbols {used : List UInt8} (hnd : used.Nodup) {sym : SymbolInfo}
    (hbps : 3 ≤ sym.bitsPerSymbol ∧ sym.bitsPerSymbol ≤ 8)
    (hfits : 6 + used.length ≤ 2 ^ sym.bitsPerSymbol) (hctrl : ∀ c, sym.ctrlCodes c = c.index)
    (hisCtrl : ∀ code, sym.codeIsCtrl code = decide (code < 6))
    (hmap : ∀ b, sym.symbolMap b = 0) : (assignSymbols used 6 sym).Codes used := by
  have hpow := Nat.pow_le_pow_right (show 0 < 2 by omega) hbps.2
  have hget : ∀ b ∈ used, ∃ i < used.length, (assignSymbols used 6 sym).symbolMap b = 6 + i ∧
      (assignSymbols used 6 sym).reverseMap (6 + i) = b := by
    intro b hb
    obtain ⟨i, hi, rfl⟩ := List.getElem_of_mem hb
    exact ⟨i, hi, assignSymbols_getElem hnd hi (by omega)⟩
  have hframe := assignSymbols_frame used 6 sym
  have hwidth : (assignSymbols used 6 sym).bitsPerSymbol = sym.bitsPerSymbol := by rw [hframe]
  refine ⟨by rw [hwidth]; exact hbps.1, by rw [hwidth]; exact hbps.2, fun c => ?_, fun code => ?_,
    fun b hb => ?_, fun b hb => ?_, fun b hb => ?_, fun b hb => ?_⟩
  · rw [hframe]
    exact hctrl c
  · rw [hframe]
    exact hisCtrl code
  · obtain ⟨i, _, hi, _⟩ := hget b hb
    omega
  · obtain ⟨i, hlt, hi, _⟩ := hget b hb
    rw [hwidth]
    omega
  · obtain ⟨i, _, hi, hrev⟩ := hget b hb
    rw [hi, hrev]
  · rw [symbolMap_assignSymbols_of_notMem hb, hmap]

/-! ## The configuration as bits -/

def ctrlBits (bps : Nat) (cs : List TpCtrl) : List Bool :=
  cs.flatMap fun c => natBits bps c.index

def tableBits (used : List UInt8) : List Bool := used.flatMap fun b => Leb128.bits b.toNat

/-- The configuration of a trie over the alphabet `used`. -/
def configBits (bps : Nat) (used : List UInt8) : List Bool :=
  natBits 4 bps ++ (natBits 8 (used.length + 6) ++ (ctrlBits bps TpCtrl.all ++ tableBits used))

theorem writeCtrlCodes_appends (p : Nat) {sym : SymbolInfo} (hbps : 0 < sym.bitsPerSymbol)
    (hbps' : sym.bitsPerSymbol ≤ 64) (hctrl : ∀ c, sym.ctrlCodes c = c.index) (cs : List TpCtrl) :
    Wr.Appends p (writeCtrlCodes sym cs) (ctrlBits sym.bitsPerSymbol cs) () := by
  induction cs generalizing p with
  | nil => exact .pure p ()
  | cons c cs ih =>
    have hc := bsWriteBits_appends p (v := sym.ctrlCodes c) hbps hbps'
    rw [hctrl c] at hc
    rw [writeCtrlCodes, hctrl c]
    exact hc.bind (ih _)

theorem writeSymbolTable_appends (p : Nat) {sym : SymbolInfo} {bytes : List UInt8} {code : Nat}
    (hcode : code + bytes.length ≤ 256)
    (hrev : ∀ (i : Nat) (h : i < bytes.length), sym.reverseMap (code + i) = bytes[i]) :
    Wr.Appends p (writeSymbolTable sym bytes.length code) (tableBits bytes) () := by
  induction bytes generalizing p code with
  | nil => exact .pure p ()
  | cons b bs ih =>
    rw [List.length_cons] at hcode
    have hb := hrev 0 (by simp)
    rw [Nat.add_zero, List.getElem_cons_zero] at hb
    rw [List.length_cons, writeSymbolTable, if_pos (by omega), hb]
    refine (bsWriteVarintU_appends p _).bind (ih _ (by omega) fun i hi => ?_)
    have hi' := hrev (i + 1) (by simpa using hi)
    rwa [List.getElem_cons_succ, show code + (i + 1) = code + 1 + i by omega] at hi'

/-- The width that the encoder gives the symbols of a file. -/
def symbolWidth (bitsPerSymbol : Nat) (used : List UInt8) : Nat :=
  if bitsPerSymbol = 0 then autoBits (used.length + numControlCodes) else bitsPerSymbol

@[simp] theorem bitsPerSymbol_analyzeSymbols (bps : Nat) (keys : List (List UInt8)) :
    (analyzeSymbols bps keys).bitsPerSymbol = symbolWidth bps (usedBytes keys) := by
  rw [analyzeSymbols, assignSymbols_frame]
  rfl

@[simp] theorem symbolCount_analyzeSymbols (bps : Nat) (keys : List (List UInt8)) :
    (analyzeSymbols bps keys).symbolCount = (usedBytes keys).length + 6 := by
  rw [analyzeSymbols, assignSymbols_frame]
  rfl

theorem ctrlCodes_analyzeSymbols (bps : Nat) (keys : List (List UInt8)) (c : TpCtrl) :
    (analyzeSymbols bps keys).ctrlCodes c = c.index := by
  rw [analyzeSymbols, assignSymbols_frame]

/-- With the minimum width, the encoder's own tables agree with the alphabet of the keys. -/
theorem codes_analyzeSymbols {keys : List (List UInt8)} (h : (usedBytes keys).length ≤ 249) :
    (analyzeSymbols 0 keys).Codes (usedBytes keys) := by
  obtain ⟨hlow, hhigh, hfits⟩ :=
    @autoBits_spec ((usedBytes keys).length + 6) (by omega) (by omega)
  refine codes_assignSymbols (nodup_usedBytes keys) ⟨hlow, hhigh⟩ ?_ (fun _ => rfl) (fun _ => rfl)
    (fun _ => rfl)
  rw [Nat.add_comm]
  exact hfits

theorem symbolWidth_bounds {bps : Nat} (hbps : bps ≤ 15) {used : List UInt8}
    (hcount : used.length ≤ 249) : 0 < symbolWidth bps used ∧ symbolWidth bps used ≤ 64 := by
  obtain ⟨hlow, hhigh, _⟩ := @autoBits_spec (used.length + 6) (by omega) (by omega)
  rw [symbolWidth, show numControlCodes = 6 from rfl]
  split_ifs <;> omega

theorem writeTrieConfig_appends (p : Nat) {bps : Nat} (hbps : bps ≤ 15) {keys : List (List UInt8)}
    (hcount : (usedBytes keys).length ≤ 249) :
    Wr.Appends p (writeTrieConfig (analyzeSymbols bps keys))
      (configBits (symbolWidth bps (usedBytes keys)) (usedBytes keys)) () := by
  have hwidth := symbolWidth_bounds hbps hcount
  have hrev : ∀ (i : Nat) (h : i < (usedBytes keys).length),
      (analyzeSymbols bps keys).reverseMap (6 + i) = (usedBytes keys)[i] := fun i h =>
    (assignSymbols_getElem (nodup_usedBytes keys) h
      (by rw [show numControlCodes = 6 from rfl]; omega)).2
  have hctrl := @writeCtrlCodes_appends
    (p + (natBits 4 (symbolWidth bps (usedBytes keys))).length +
      (natBits 8 ((usedBytes keys).length + 6)).length) (analyzeSymbols bps keys)
    (by simpa using hwidth.1) (by simpa using hwidth.2) (ctrlCodes_analyzeSymbols bps keys)
    TpCtrl.all
  simp only [writeTrieConfig, bitsPerSymbol_analyzeSymbols, symbolCount_analyzeSymbols] at hctrl ⊢
  refine (bsWriteBits_appends p (by omega) (by omega)).bind
    ((bsWriteBits_appends _ (by omega) (by omega)).bind (hctrl.bind ?_))
  exact @writeSymbolTable_appends _ _ _ 6 (by omega) hrev

/-- The tables after the control codes `cs` were read as they are written. -/
def setCtrlCodes : List TpCtrl → SymbolInfo → SymbolInfo
  | [], sym => sym
  | c :: cs, sym =>
    setCtrlCodes cs
      { sym with
        ctrlCodes := Function.update sym.ctrlCodes c c.index
        codeIsCtrl := Function.update sym.codeIsCtrl c.index true }

theorem readCtrlCodes_reads {cs : List TpCtrl} {sym : SymbolInfo} (hbps : 3 ≤ sym.bitsPerSymbol)
    (hbps' : sym.bitsPerSymbol ≤ 64) :
    Rd.Reads (readCtrlCodes cs sym) (ctrlBits sym.bitsPerSymbol cs) (setCtrlCodes cs sym) := by
  induction cs generalizing sym with
  | nil => exact .pure sym
  | cons c cs ih =>
    have hlt : c.index < 2 ^ sym.bitsPerSymbol := by
      have hpow := Nat.pow_le_pow_right (show 0 < 2 by omega) hbps
      have := c.index_lt
      omega
    refine (bsReadBits_reads (by omega) hbps' hlt).bind ?_
    rw [if_pos (by have := c.index_lt; omega)]
    exact @ih { sym with
      ctrlCodes := Function.update sym.ctrlCodes c c.index
      codeIsCtrl := Function.update sym.codeIsCtrl c.index true } hbps hbps'

theorem readSymbolTable_reads {used : List UInt8} {code : Nat} {sym : SymbolInfo}
    (hcode : code + used.length ≤ 256) :
    Rd.Reads (readSymbolTable used.length code sym) (tableBits used)
      (assignSymbols used code sym) := by
  induction used generalizing code sym with
  | nil => exact .pure sym
  | cons b bs ih =>
    rw [List.length_cons] at hcode
    have hb := b.toNat_lt
    refine (bsReadVarintU_reads (by omega)).bind ?_
    rw [if_pos (by omega), UInt8.ofNat_toNat, assignSymbols, if_pos (by omega)]
    exact ih (by omega)

/-- The tables that parsing the configuration gives. -/
def parsedSymbols (bps : Nat) (used : List UInt8) : SymbolInfo :=
  assignSymbols used 6
    (setCtrlCodes TpCtrl.all
      { SymbolInfo.zero with bitsPerSymbol := bps, symbolCount := used.length + 6 })

theorem codes_parsedSymbols {bps : Nat} {used : List UInt8} (hnd : used.Nodup)
    (hbps : 3 ≤ bps ∧ bps ≤ 8) (hfits : used.length + 6 ≤ 2 ^ bps) :
    (parsedSymbols bps used).Codes used := by
  refine codes_assignSymbols hnd hbps (by rw [Nat.add_comm]; exact hfits) (fun c => ?_)
    (fun code => ?_) (fun _ => rfl)
  · cases c <;> rfl
  · by_cases hcode : code < 6
    · interval_cases code <;> rfl
    · simp only [TpCtrl.all, setCtrlCodes, TpCtrl.index]
      repeat rw [Function.update_of_ne (by omega)]
      simp [SymbolInfo.zero, hcode]

@[simp] theorem bitsPerSymbol_parsedSymbols (bps : Nat) (used : List UInt8) :
    (parsedSymbols bps used).bitsPerSymbol = bps := by
  rw [parsedSymbols, assignSymbols_frame]
  rfl

theorem parseTrieConfig_reads {bps : Nat} {used : List UInt8} (hbps : 3 ≤ bps ∧ bps ≤ 8)
    (hfits : used.length + 6 ≤ 2 ^ bps) (hcount : used.length ≤ 249) :
    Rd.Reads parseTrieConfig (configBits bps used) (parsedSymbols bps used) := by
  refine (bsReadBits_reads (by omega) (by omega) (by omega)).bind ?_
  rw [if_neg (by omega)]
  refine (bsReadBits_reads (by omega) (by omega) (by omega)).bind ?_
  rw [Nat.one_shiftLeft, if_neg (by rw [show numControlCodes = 6 from rfl]; omega)]
  refine (readCtrlCodes_reads hbps.1 (by simp only; omega)).bind ?_
  exact readSymbolTable_reads (by rw [show numControlCodes = 6 from rfl]; omega)

/-- Both sides of a file give the bytes the same symbols. -/
theorem symbolMap_assignSymbols_congr {used : List UInt8} {code : Nat} {sym sym' : SymbolInfo}
    (h : sym.symbolMap = sym'.symbolMap) :
    (assignSymbols used code sym).symbolMap = (assignSymbols used code sym').symbolMap := by
  induction used generalizing code sym sym' with
  | nil => exact h
  | cons b bs ih => exact ih (by rw [h])

theorem symbolMap_parsedSymbols (bps bps' : Nat) (keys : List (List UInt8)) :
    (parsedSymbols bps' (usedBytes keys)).symbolMap = (analyzeSymbols bps keys).symbolMap :=
  symbolMap_assignSymbols_congr rfl

/-! ## Untrusted configurations -/

theorem readCtrlCodes_safe {cs : List TpCtrl} {sym : SymbolInfo} (hbps : 0 < sym.bitsPerSymbol)
    (hbps' : sym.bitsPerSymbol ≤ 64) : Rd.Safe (readCtrlCodes cs sym) := by
  induction cs generalizing sym with
  | nil => exact .pure _
  | cons c cs ih => exact (bsReadBits_safe hbps hbps').bind fun val => ih hbps hbps'

theorem readSymbolTable_safe {n code : Nat} {sym : SymbolInfo} :
    Rd.Safe (readSymbolTable n code sym) := by
  induction n generalizing code sym with
  | zero => exact .pure _
  | succ n ih => exact bsReadVarintU_safe.bind fun cp => ih

theorem parseTrieConfig_safe : Rd.Safe parseTrieConfig := by
  refine (bsReadBits_safe (by omega) (by omega)).bind fun bps => ?_
  split
  · exact .fail _
  · refine (bsReadBits_safe (by omega) (by omega)).bind fun count => ?_
    split
    · exact .fail _
    · exact (readCtrlCodes_safe (by simp only; omega) (by simp only; omega)).bind
        fun _ => readSymbolTable_safe

theorem readCtrlCodes_bitsPerSymbol {cs : List TpCtrl} {sym sym' : SymbolInfo} {r r' : Reader}
    (h : readCtrlCodes cs sym r = (.ok sym', r')) : sym'.bitsPerSymbol = sym.bitsPerSymbol := by
  induction cs generalizing sym r with
  | nil =>
    obtain ⟨rfl, _⟩ : sym = sym' ∧ r = r' := by simpa [readCtrlCodes] using h
    rfl
  | cons c cs ih =>
    obtain ⟨_, _, _, hrest⟩ := Op.bind_eq_ok h
    rw [ih hrest]

theorem readSymbolTable_bitsPerSymbol {n code : Nat} {sym sym' : SymbolInfo} {r r' : Reader}
    (h : readSymbolTable n code sym r = (.ok sym', r')) :
    sym'.bitsPerSymbol = sym.bitsPerSymbol := by
  induction n generalizing code sym r with
  | zero =>
    obtain ⟨rfl, _⟩ : sym = sym' ∧ r = r' := by simpa [readSymbolTable] using h
    rfl
  | succ n ih =>
    obtain ⟨cp, _, _, hrest⟩ := Op.bind_eq_ok h
    rw [ih hrest]
    split_ifs <;> rfl

/-- Whatever the bytes, an accepted configuration has symbols of one to eight bits. -/
theorem parseTrieConfig_bitsPerSymbol {sym : SymbolInfo} {r r' : Reader}
    (h : parseTrieConfig r = (.ok sym, r')) :
    1 ≤ sym.bitsPerSymbol ∧ sym.bitsPerSymbol ≤ 8 := by
  obtain ⟨bps, _, _, h⟩ := Op.bind_eq_ok h
  split_ifs at h with hrange
  · simp at h
  obtain ⟨count, _, _, h⟩ := Op.bind_eq_ok h
  split_ifs at h with hcount
  · simp at h
  obtain ⟨sym', _, hctrl, htable⟩ := Op.bind_eq_ok h
  rw [readSymbolTable_bitsPerSymbol htable, readCtrlCodes_bitsPerSymbol hctrl]
  simp only
  omega

end Triepack
