import Triepack.Core.TrieOutline
import Triepack.Go.SameBytes

/-!
# The Go encoder and the C library write the same bytes

Unlike the Python module the Go module has 32-bit floats. They change the value store only, so the trie is
known from the Python encoder and the store is written out once more.
-/

namespace Triepack.Go

open BitString CallStack

/-! ## Values -/

/-- The value that the C library has for a value of a map. -/
def Any.toValue : Any → Value (List UInt8)
  | .nil => .null
  | .bool val => .bool val
  | .int val => if val < 0 then .int val else .uint val.toUInt64
  | .int64 val => if val < 0 then .int val else .uint val.toUInt64
  | .uint64 val => .uint val
  | .float32 bits => .float32 bits
  | .float64 bits => .float64 bits
  | .string val => .string val
  | .bytes val => .blob val
  | .other _ => .bool false

/-- The entry that is added for an entry of a map. -/
def TrieEntry.library (e : TrieEntry) : Entry := ⟨e.key, e.val.toValue⟩

/-- The types that `encodeValue` knows. -/
def Any.Supported : Any → Prop
  | .other _ => False
  | _ => True

instance : DecidablePred Any.Supported
  | .other _ => inferInstanceAs (Decidable False)
  | .nil | .bool _ | .int _ | .int64 _ | .uint64 _ | .float32 _ | .float64 _ | .string _ | .bytes _ =>
    inferInstanceAs (Decidable True)

theorem toValue_ofInt64 (val : Int64) : (Python.PyValue.int val.toInt).toValue =
    if val < 0 then .int val else .uint val.toUInt64 := by
  have hint := toInt_eq_toUInt64 val
  have hlt : val < 0 ↔ val.toInt < 0 := Int64.lt_iff_toInt_lt
  rw [Python.PyValue.toValue]
  simp only [hlt]
  by_cases hneg : val.toInt < 0
  · rw [if_pos hneg, if_pos hneg, Int64.ofInt_toInt]
  · have hval : val.toInt.toNat = val.toUInt64.toNat := by
      have := val.toUInt64.toNat_lt
      split_ifs at hint <;> omega
    rw [if_neg hneg, if_neg hneg, hval, UInt64.ofNat_toNat]

theorem toValue_python {v : Any} (h : v.InPython) : v.python.toValue = v.toValue := by
  cases v with
  | int val => exact toValue_ofInt64 val
  | int64 val => exact toValue_ofInt64 val
  | uint64 val =>
    rw [Any.python, Python.PyValue.toValue, if_neg (by omega), Int.toNat_natCast, UInt64.ofNat_toNat]
    rfl
  | float32 => exact h.elim
  | other => exact h.elim
  | _ => rfl

theorem inRange_python {v : Any} : v.python.InRange := by
  cases v with
  | int val =>
    have hlow := val.le_toInt
    have hhigh := val.toInt_lt
    constructor <;> omega
  | int64 val =>
    have hlow := val.le_toInt
    have hhigh := val.toInt_lt
    constructor <;> omega
  | uint64 val =>
    have hhigh := val.toNat_lt
    constructor <;> omega
  | _ => trivial

theorem tag_toValue {v : Any} : v.toValue.tag = 0 ↔ v.python.toValue.tag = 0 := by
  cases v with
  | int val => rw [Any.python, toValue_ofInt64, Any.toValue]
  | int64 val => rw [Any.python, toValue_ofInt64, Any.toValue]
  | uint64 val =>
    have h : (Any.uint64 val).InPython := trivial
    rw [toValue_python h]
  | float32 => simp [Any.toValue, Any.python, Python.PyValue.toValue, Value.tag]
  | _ => rfl

theorem encodable_toValue (v : Any) : v.toValue.Encodable := by
  cases v with
  | int val =>
    rw [Any.toValue]
    split_ifs <;> trivial
  | int64 val =>
    rw [Any.toValue]
    split_ifs <;> trivial
  | _ => trivial

/-! ## The value store -/

/-- The calls of the Python writer that write a value; a 32-bit float is written field by field. -/
def Any.program : Any → Python.Write Unit
  | .float32 bits => do
    Python.writeBits tpFloat32 4
    Python.writeU32 bits.toNat
  | v => Python.encodeValue v.python

theorem program_sim {v : Any} (h : v.Supported) : Sim (encodeValue v) v.program := by
  cases v with
  | float32 bits => exact (writeBits_sim _ _).bind fun _ => writeU32_sim bits
  | other => exact h.elim
  | _ => exact encodeValue_sim trivial

theorem program_eq {v : Any} (h : v.InPython) : v.program = Python.encodeValue v.python := by
  cases v with
  | float32 => exact h.elim
  | _ => rfl

theorem program_appends (p : Nat) {v : Any} (h : v.Supported) :
    Python.Appends p v.program (valueBits p v.toValue) () := by
  by_cases hv : v.InPython
  · have hbits := Python.encodeValue_appends p v.python
    rw [program_eq hv]
    rwa [Python.PyValue.bits_eq p inRange_python, toValue_python hv] at hbits
  · cases v with
    | float32 bits =>
      exact (Python.writeBits_appends p (by omega) (by omega)).bind (Python.writeU32_appends _ _)
    | other => exact h.elim
    | _ => exact absurd trivial hv

/-- The calls of the Python writer that write the value store. -/
def storeProgram (entries : List TrieEntry) : Python.Write Unit := entries.forM fun e => e.val.program

theorem storeProgram_appends {entries : List TrieEntry} (h : ∀ e ∈ entries, e.val.Supported) (p : Nat) :
    Python.Appends p (storeProgram entries) (valuesBits p ((entries.map TrieEntry.library).map Entry.val)) () := by
  induction entries generalizing p with
  | nil => exact .pure p ()
  | cons e es ih => exact (program_appends p (h e (by simp))).bind (ih (fun x hx => h x (by simp [hx])) _)

/-! ## The entries of both libraries -/

section Entries

variable (entries : List TrieEntry)

theorem outline_library : (entries.map TrieEntry.library).map Entry.outline =
    ((entries.map TrieEntry.python).map Python.entry).map Entry.outline := by
  simp only [List.map_map]
  refine List.map_congr_left fun e _ => ?_
  have hvalue : (TrieEntry.library e).val.tag = 0 ↔ (Python.entry (TrieEntry.python e)).val.tag = 0 := tag_toValue
  simp only [Function.comp_apply, Entry.outline, hvalue]
  rfl

theorem keys_python : Python.keys (entries.map TrieEntry.python) =
    (entries.map TrieEntry.library).map Entry.key := by
  simp only [Python.keys, List.map_map]
  rfl

theorem entriesHaveValues_library : entriesHaveValues (entries.map TrieEntry.library) =
    Python.hasValues (entries.map TrieEntry.python) := by
  rw [Python.hasValues_eq, entriesHaveValues, entriesHaveValues, List.map_map, List.any_map, List.any_map]
  refine congrArg (List.any entries) (funext fun e => decide_eq_decide.mpr (not_congr tag_toValue))

theorem placeholderHeader_library : placeholderHeader (entries.map TrieEntry.library) =
    placeholderHeader ((entries.map TrieEntry.python).map Python.entry) := by
  rw [placeholderHeader, placeholderHeader, entriesHaveValues_library, Python.hasValues_eq]
  simp only [List.length_map]

end Entries

theorem store_appends {entries : List TrieEntry} (h : ∀ e ∈ entries, e.val.Supported) (p : Nat) :
    Python.Appends p (if Python.hasValues (entries.map TrieEntry.python) then storeProgram entries else pure ())
      (storeBits p (entries.map TrieEntry.library)) () := by
  rw [storeBits, entriesHaveValues_library]
  split_ifs
  · exact storeProgram_appends h p
  · exact .pure p ()

theorem strictlyAscending_python {sort : SortSlice entryLess} {data : Map} :
    StrictlyAscending (((sort.run data.entries).map TrieEntry.python).map Python.entry) := by
  rw [python_sort]
  exact Python.strictlyAscending_sortItems data.python.nodup

theorem strictlyAscending_library {sort : SortSlice entryLess} {data : Map} :
    StrictlyAscending ((sort.run data.entries).map TrieEntry.library) := by
  have h := List.pairwise_map.mp (List.pairwise_map.mp (@strictlyAscending_python sort data))
  exact List.pairwise_map.mpr h

/-! ## The file -/

/-- The file of a stream: its bytes and their checksum, patched. -/
theorem encodeData_of_stream {sort : SortSlice entryLess} {data : Map} {n : Python.Write StreamOffsets}
    {bits : List Bool} {offs : StreamOffsets} (hcount : alphabetSize (sort.run data.entries) ≤ 249)
    (hsim : Sim (writeStream (sort.run data.entries)) n) (h : Python.Appends 0 n bits offs) :
    ∃ bytes, bytesBits bytes = bits ++ padBits bits.length ∧
      encodeData sort data = .ok (patchOffsets offs (bytes ++ be32 (Triepack.crc32 bytes))) := by
  obtain ⟨u, v, w, hu, hv, hw, hout, hbytes⟩ := Python.finish_of_stream h
  have hsmall : ¬ alphabetSize (sort.run data.entries) + numControlCodes > 255 := by
    rw [show numControlCodes = 6 from rfl]
    omega
  rw [← python_newBitWriter] at hu
  obtain ⟨u', rfl, hgo⟩ := hsim.of_ok hu
  obtain ⟨v', rfl, hgo'⟩ := alignToByte_sim.of_ok hv
  have hcrc : Python.crc32 v'.python.toBytes = (computeCRC32 v'.toBytes).toNat := by
    rw [computeCRC32_eq, ← Python.crc32_eq]
    rfl
  rw [hcrc] at hw
  obtain ⟨w', rfl, hgo''⟩ := (writeU32_sim (computeCRC32 v'.toBytes)).of_ok hw
  refine ⟨v'.python.toBytes, hbytes, ?_⟩
  simp only [encodeData, if_neg hsmall, hgo, hgo', hgo'', bind, Except.bind]
  exact congrArg (fun out => Except.ok (patchOffsets offs out)) hout

/-- The number of bits in the data stream that `encodeData` writes. -/
def dataStreamBits (sort : SortSlice entryLess) (data : Map) : Nat :=
  match writeStream (sort.run data.entries) (newBitWriter 256) with
  | .ok (offs, _) => offs.totalDataBits
  | .error _ => 0

theorem dataStreamBits_eq {sort : SortSlice entryLess} {data : Map} {n : Python.Write StreamOffsets}
    {bits : List Bool} {offs : StreamOffsets} (hsim : Sim (writeStream (sort.run data.entries)) n)
    (h : Python.Appends 0 n bits offs) : dataStreamBits sort data = offs.totalDataBits := by
  obtain ⟨u, hu, _⟩ := h (.init 256) (Writer.Valid.create 256 0) rfl
  rw [← python_newBitWriter] at hu
  obtain ⟨u', _, hgo⟩ := hsim.of_ok hu
  rw [dataStreamBits, hgo]

/-- What stands in the trie of the C encoder once it is written. -/
theorem trieCode_of_appends {es : List Entry} (hcount : (usedBytes (es.map Entry.key)).length ≤ 249)
    (hasc : StrictlyAscending es) {trie : List Bool} {vi : Nat}
    (h : Wr.Appends 0 (if es.length > 0 then
        Triepack.trieWrite (analyzeSymbols 0 (es.map Entry.key)) (entriesHaveValues es) es.length es 0 0
      else pure 0) trie vi) :
    TrieCode (analyzeSymbols 0 (es.map Entry.key)) es trie := by
  obtain ⟨w, hw, _, hbits⟩ := h (bsWriterCreate 256 0) (.create _ _) rfl
  obtain ⟨trie', hcode, _, hbits'⟩ := writeTrie_of_ok (by omega) hcount hasc (.create _ _) hw
  rw [hbits] at hbits'
  rwa [List.append_cancel_left hbits']

/-- The C library writes the same trie for its own entries. -/
theorem trieWrite_library {entries : List TrieEntry} {p vi : Nat} {trie : List Bool}
    (h : Wr.Appends p (if ((entries.map TrieEntry.python).map Python.entry).length > 0 then
        Triepack.trieWrite (analyzeSymbols 0 (Python.keys (entries.map TrieEntry.python)))
          (entriesHaveValues ((entries.map TrieEntry.python).map Python.entry))
          ((entries.map TrieEntry.python).map Python.entry).length
          ((entries.map TrieEntry.python).map Python.entry) 0 0
      else pure 0) trie vi) :
    Wr.Appends p (if (entries.map TrieEntry.library).length > 0 then
        Triepack.trieWrite (analyzeSymbols 0 ((entries.map TrieEntry.library).map Entry.key))
          (entriesHaveValues (entries.map TrieEntry.library)) (entries.map TrieEntry.library).length
          (entries.map TrieEntry.library) 0 0
      else pure 0) trie vi := by
  rw [keys_python, ← Python.hasValues_eq] at h
  rw [entriesHaveValues_library, trieWrite_congr (outline_library entries)]
  simpa only [List.length_map] using h

/-- The bits of the padded stream are those that the C encoder lays out. -/
theorem stream_padded {entries : List TrieEntry} (l : StreamLayout 0 (entries.map TrieEntry.library))
    {bits : List Bool} (hbits : bits =
      bytesBits (headerBytes (placeholderHeader ((entries.map TrieEntry.python).map Python.entry))) ++
        (l.config ++ (l.trie ++ l.store))) :
    bits ++ padBits bits.length =
      bytesBits (headerBytes (placeholderHeader (entries.map TrieEntry.library))) ++ l.bits := by
  have hlen : bits.length = l.storePos + l.store.length := by
    simp only [hbits, List.length_append, length_headerBits, StreamLayout.storePos]
    omega
  rw [hlen, hbits, ← placeholderHeader_library, StreamLayout.bits]
  simp only [List.append_assoc]

/-- Whatever sorts the additions, the C encoder comes to the entries of the map in their order. -/
theorem sortedEntries_library {sort : SortSlice entryLess} {data : Map} (q : Qsort) {es : List Entry}
    (hes : es.Perm (data.entries.map TrieEntry.library)) :
    sortedEntries q es = (sort.run data.entries).map TrieEntry.library := by
  have hnodup : (es.map Entry.key).Nodup := by
    rw [(hes.map Entry.key).nodup_iff, List.map_map]
    exact data.nodup
  have hperm := (sortedEntries_perm q hnodup).trans
    (hes.trans ((sort.perm data.entries).map TrieEntry.library).symm)
  refine List.Perm.eq_of_pairwise (fun a b _ _ hab hba => ?_) (strictlyAscending_sortedEntries q es)
    strictlyAscending_library hperm
  exact absurd (List.lt_trans hab hba) (List.lt_irrefl _)

/-- Both encoders refuse the alphabet, or they return the same bytes, on every map of values that the Go module
supports and whose stream the offsets can address. -/
theorem encodeData_eq_encoderBuild (sort : SortSlice entryLess) (data : Map)
    (hvalues : ∀ e ∈ data.entries, e.val.Supported) (hbits : dataStreamBits sort data ≤ 2 ^ 32 - 1)
    {enc : Encoder} (hcreate : encoderCreate = .ok enc) (q : Qsort) {adds : List Addition}
    (hadds : (adds.map Addition.entry).Perm (data.entries.map TrieEntry.library)) :
    ((encoderBuild q (encoderAddAll enc adds)).1 = .error (.rc .alphabet) ∧
        ∃ text, encodeData sort data = .error (.err text)) ∨
      ∃ buf, (encoderBuild q (encoderAddAll enc adds)).1 = .ok buf ∧ encodeData sort data = .ok buf := by
  obtain rfl : freshEncoder = enc := Except.ok.inj hcreate
  have hsupported : ∀ e ∈ sort.run data.entries, e.val.Supported := fun e he =>
    hvalues e ((sort.perm data.entries).mem_iff.mp he)
  obtain ⟨trie, n, hlen, _, hpython, hlibrary⟩ := Python.exists_trie (@strictlyAscending_python sort data)
  have hasc := @strictlyAscending_library sort data
  have hstream := (Python.streamWith_appends (hpython .unbounded) (store_appends hsupported _)).appends
    (Frames.room_unbounded n)
  have hsim := writeStream_sim_of_store (Simulates.forM _ fun e he => program_sim (hsupported e he))
  rw [dataStreamBits_eq hsim hstream] at hbits
  -- every entry takes a bit, so the additions are fewer than 2^32
  have hsmall : (sort.run data.entries).length < 2 ^ 32 := by
    rw [List.length_map] at hlen
    dsimp only at hbits
    omega
  have hentries : (encoderAddAll freshEncoder adds).entries = adds.map Addition.entry := by
    have hcount := hadds.length_eq
    rw [List.length_map, List.length_map, ← (sort.perm data.entries).length_eq] at hcount
    rw [entries_addAll rfl, survivors_eq_self (by omega)]
  have hsorted : sortedEntries q (encoderAddAll freshEncoder adds).entries =
      (sort.run data.entries).map TrieEntry.library := by
    rw [hentries, sortedEntries_library q hadds]
  have hopts : (encoderAddAll freshEncoder adds).opts.bitsPerSymbol = 0 := by
    rw [opts_addAll]
    rfl
  have hkeys := keys_python (sort.run data.entries)
  have hsize : alphabetSize (sort.run data.entries) =
      (usedBytes (((sort.run data.entries).map TrieEntry.library).map Entry.key)).length := by
    rw [alphabetSize_eq, Python.alphabetSize_eq, hkeys]
  by_cases hcount : (usedBytes (((sort.run data.entries).map TrieEntry.library).map Entry.key)).length ≤ 249
  · obtain ⟨_, hwrite⟩ := hlibrary (by rw [List.length_map]; exact hsmall)
    obtain ⟨_, hstart⟩ := hwrite 0
    obtain ⟨vi, htrie⟩ := hwrite (256 + (Python.configBits ((sort.run data.entries).map TrieEntry.python)).length)
    let l : StreamLayout 0 ((sort.run data.entries).map TrieEntry.library) :=
      { config := Python.configBits ((sort.run data.entries).map TrieEntry.python)
        trie := trie
        config_eq := by rw [Python.configBits_eq _ (by rw [hkeys]; exact hcount), hkeys]
        trie_eq := trieCode_of_appends hcount hasc (trieWrite_library hstart)
        encodable := fun _ e he => by
          obtain ⟨x, _, rfl⟩ := List.mem_map.mp he
          exact encodable_toValue x.val }
    obtain ⟨bytes, hbytes, hbuild⟩ :=
      encoderBuild_of_layout hopts hsorted (by omega) hcount l (trieWrite_library htrie) hbits
    obtain ⟨bytes', hbytes', hencode⟩ := encodeData_of_stream (by rw [hsize]; exact hcount) hsim hstream
    obtain rfl := bytesBits_injective (hbytes'.trans ((stream_padded l rfl).trans hbytes.symm))
    have hlong : 28 ≤ (bytes' ++ be32 (Triepack.crc32 bytes')).length := by
      have hlength := congrArg List.length hbytes
      rw [length_bytesBits, List.length_append, length_headerBits] at hlength
      rw [List.length_append]
      omega
    rw [patchOffsets_eq, Python.patchOffsets_eq _ hlong] at hencode
    exact .inr ⟨_, hbuild, hencode⟩
  · have hlarge : alphabetSize (sort.run data.entries) + numControlCodes > 255 := by
      rw [hsize, show numControlCodes = 6 from rfl]
      omega
    refine .inl ⟨?_, _, if_pos hlarge⟩
    simp only [encoderBuild, hopts, hsorted, symbolCount_analyzeSymbols]
    rw [if_pos (Nat.add_lt_add_right (Nat.lt_of_not_le hcount) 6)]

/-- A 32-bit float and a positive and a negative number. -/
def threeEntries : Map :=
  ⟨[⟨[98], .int 7⟩, ⟨[98, 97], .float32 0x40490FDB⟩, ⟨[97], .int64 (-7)⟩], by decide⟩

theorem encodeData_eq_encoderBuild_threeEntries :
    ((encoderBuild (.keepingLast ⟨[], .null⟩) (encoderAddAll freshEncoder
        [([98], some (.uint 7)), ([97], some (.int (-7))), ([98, 97], some (.float32 0x40490FDB))])).1 =
          .error (.rc .alphabet) ∧ ∃ text, encodeData .byInsertion threeEntries = .error (.err text)) ∨
      ∃ buf, (encoderBuild (.keepingLast ⟨[], .null⟩) (encoderAddAll freshEncoder
        [([98], some (.uint 7)), ([97], some (.int (-7))), ([98, 97], some (.float32 0x40490FDB))])).1 =
          .ok buf ∧ encodeData .byInsertion threeEntries = .ok buf :=
  encodeData_eq_encoderBuild _ _ (by decide) (by decide +kernel) encoderCreate_eq _ (by decide)

end Triepack.Go
