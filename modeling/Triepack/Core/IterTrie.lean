import Triepack.Core.IterStep
import Triepack.Library.TreeDepth

/-!
# Iterating over a built dictionary

The stack of a running iterator is a list of subtrees that are still to be visited, and the
key buffer holds the path to each of them. `pendingVisits` reads off what the iterator is going
to yield; one call of `tp_iter_next` takes the first of it.
-/

namespace Triepack

open BitString WhileLoop

/-! ## Reading one node -/

section Node

variable {d : Dict} (hd : d.Sound) {used : List UInt8} (hcodes : d.sym.Codes used) {it : Iter}
  (hit : it.dict = d) {pos subtreeEnd : Nat}

include hd hcodes hit

omit hd in
theorem iterWalk_of_read {code pos' : Nat} (hlt : pos < subtreeEnd)
    (h : bsReadBits d.sym.bitsPerSymbol (d.reader pos) = (.ok code, d.reader pos')) :
    iterWalk subtreeEnd (it, d.reader pos) =
      (if code = 0 ∨ code = 1 then do
        let index ← (if code = 1 then do
          let vi ← It.rd bsReadVarintU
          return some vi
        else return none)
        let pos ← It.rd bsReaderPosition
        (if pos < subtreeEnd then do
          let branchSym ← It.rd (bsReadBits d.sym.bitsPerSymbol)
          if branchSym ≠ 5 then Op.fail .corrupt else iterPushFrame subtreeEnd
        else pure ())
        let val ← (match index with
          | none => return .null
          | some vi => iterValueAt vi)
        let it ← It.get
        return .inr ⟨it.keyBuf.take it.keyLen, val⟩
      else if code = 5 then do
        iterPushFrame subtreeEnd
        return .inl .sibling
      else if code < 256 ∧ d.sym.codeIsCtrl code then Op.fail .corrupt
      else do
        iterPushKey (if code < 256 then d.sym.reverseMap code else 0)
        return .inl (.walk subtreeEnd) : It (IterMode ⊕ IterItem)) (it, d.reader pos') := by
  have h0 : d.sym.ctrlCodes .end_ = 0 := hcodes.ctrl _
  have h1 : d.sym.ctrlCodes .endVal = 1 := hcodes.ctrl _
  have h5 : d.sym.ctrlCodes .branch = 5 := hcodes.ctrl _
  have hpos : bsReaderPosition (d.reader pos) = (.ok pos, d.reader pos) := rfl
  rewrite [iterWalk, It.rd_bind_ok hpos, if_neg (by omega), It.get_bind, hit, It.rd_bind_ok h, h0, h1, h5]
  rfl

/-- A byte of a label. -/
theorem iterWalk_byte {b : UInt8} (hb : b ∈ used) (hlt : pos < subtreeEnd)
    (h : At (bytesBits d.buf) pos (symbolBits d.sym (d.sym.symbolMap b))) :
    iterWalk subtreeEnd (it, d.reader pos) =
      (.ok (.inl (.walk subtreeEnd)), it.pushKey b, d.reader (pos + d.sym.bitsPerSymbol)) := by
  have hsix := hcodes.six_le b hb
  have hcode := symbol_lt_256 hcodes hb
  rw [iterWalk_of_read hcodes hit hlt (read_byte hd hcodes hb h), if_neg (by omega),
    if_neg (by omega), hcodes.is_ctrl, if_neg (by simpa using fun _ => hsix), if_pos hcode,
    hcodes.reverse b hb]
  rfl

omit hcodes hit in
/-- The rest of a BRANCH. -/
theorem iterPushFrame_at (it : Iter) (subtreeEnd : Nat) {n : Nat} (hn : n < 2 ^ 64)
    (h : At (bytesBits d.buf) pos (Leb128.bits n)) :
    iterPushFrame subtreeEnd (it, d.reader pos) =
      (if it.stack.length ≥ iterMaxDepth then .error (.rc .overflow) else .ok (),
        if it.stack.length ≥ iterMaxDepth then it
        else { it with
          stack := ⟨subtreeEnd, pos + (Leb128.bits n).length, u32 n, it.keyLen⟩ :: it.stack },
        d.reader (pos + (Leb128.bits n).length)) := by
  rw [iterPushFrame, It.rd_bind_ok (readVarint_at hd hn h), It.get_bind]
  split_ifs <;> rfl

/-- A BRANCH without a terminal in front of it. -/
theorem iterWalk_branch {n : Nat} (hn : n < 2 ^ 64) (hlt : pos < subtreeEnd)
    (h : At (bytesBits d.buf) pos (branchBits d.sym n)) :
    iterWalk subtreeEnd (it, d.reader pos) =
      (if it.stack.length ≥ iterMaxDepth then .error (.rc .overflow) else .ok (.inl .sibling),
        if it.stack.length ≥ iterMaxDepth then it
        else { it with
          stack := ⟨subtreeEnd, pos + (branchBits d.sym n).length, u32 n, it.keyLen⟩ :: it.stack },
        d.reader (pos + (branchBits d.sym n).length)) := by
  have hcount := h.right
  rw [length_symbolBits] at hcount
  have hpush := iterPushFrame_at hd it subtreeEnd hn hcount
  have hlen : (branchBits d.sym n).length = d.sym.bitsPerSymbol + (Leb128.bits n).length := by
    rw [branchBits, List.length_append, length_symbolBits]
  rw [iterWalk_of_read hcodes hit hlt (read_ctrl hd hcodes h.left), if_neg (by decide),
    if_pos (by decide), hlen, ← Nat.add_assoc]
  split_ifs at hpush ⊢
  · rw [Op.bind_error hpush]
  · rw [Op.bind_ok hpush]
    rfl

/-- The BRANCH that may follow a terminal. -/
def iterTerminalBranch (d : Dict) (subtreeEnd : Nat) : It Unit := do
  let pos ← It.rd bsReaderPosition
  if pos < subtreeEnd then do
    let branchSym ← It.rd (bsReadBits d.sym.bitsPerSymbol)
    if branchSym ≠ 5 then Op.fail .corrupt else iterPushFrame subtreeEnd
  else pure ()

/-- A terminal. -/
theorem iterWalk_term {v : Value (List UInt8)} {vi : Nat} (hlt : pos < subtreeEnd)
    (h : At (bytesBits d.buf) pos (termBits d.sym d.info.hasValues vi (some v))) :
    iterWalk subtreeEnd (it, d.reader pos) = (do
      iterTerminalBranch d subtreeEnd
      let val ← (if d.info.hasValues ∧ v.tag ≠ 0 then iterValueAt (u32 vi) else return .null)
      let it ← It.get
      return .inr ⟨it.keyBuf.take it.keyLen, val⟩ : It (IterMode ⊕ IterItem))
      (it, d.reader (pos + (termBits d.sym d.info.hasValues vi (some v)).length)) := by
  simp only [termBits] at h ⊢
  by_cases hval : d.info.hasValues ∧ v.tag ≠ 0
  · simp only [if_pos hval] at h ⊢
    have hvi := readVarint_at hd (by have := u32_lt vi; omega) h.right
    rw [length_symbolBits] at hvi
    have hindex : (do let vi ← It.rd bsReadVarintU; return some vi : It (Option Nat))
        (it, d.reader (pos + d.sym.bitsPerSymbol)) = (.ok (some (u32 vi)), it,
          d.reader (pos + d.sym.bitsPerSymbol + (Leb128.bits (u32 vi)).length)) :=
      It.rd_bind_ok hvi
    rw [iterWalk_of_read hcodes hit hlt (read_ctrl hd hcodes h.left), if_pos (by decide),
      if_pos (by decide), Op.bind_ok hindex, List.length_append, length_symbolBits, ← Nat.add_assoc]
    rfl
  · simp only [if_neg hval] at h ⊢
    rw [iterWalk_of_read hcodes hit hlt (read_ctrl hd hcodes h), if_pos (by decide),
      if_neg (by decide), length_symbolBits]
    rfl

omit hd hcodes hit in
theorem iterTerminalBranch_end (d : Dict) (it : Iter) (hle : subtreeEnd ≤ pos) :
    iterTerminalBranch d subtreeEnd (it, d.reader pos) = (.ok (), it, d.reader pos) := by
  have hpos : bsReaderPosition (d.reader pos) = (.ok pos, d.reader pos) := rfl
  rw [iterTerminalBranch, It.rd_bind_ok hpos, if_neg (by omega)]
  rfl

omit hit in
theorem iterTerminalBranch_at (it : Iter) {n : Nat} (hn : n < 2 ^ 64) (hlt : pos < subtreeEnd)
    (h : At (bytesBits d.buf) pos (branchBits d.sym n)) :
    iterTerminalBranch d subtreeEnd (it, d.reader pos) =
      (if it.stack.length ≥ iterMaxDepth then .error (.rc .overflow) else .ok (),
        if it.stack.length ≥ iterMaxDepth then it
        else { it with
          stack := ⟨subtreeEnd, pos + (branchBits d.sym n).length, u32 n, it.keyLen⟩ :: it.stack },
        d.reader (pos + (branchBits d.sym n).length)) := by
  have hpos : bsReaderPosition (d.reader pos) = (.ok pos, d.reader pos) := rfl
  have hcount := h.right
  rw [length_symbolBits] at hcount
  rw [iterTerminalBranch, It.rd_bind_ok hpos, if_pos hlt,
    It.rd_bind_ok (read_ctrl hd hcodes h.left), if_neg (by decide), iterPushFrame_at hd it subtreeEnd hn hcount,
    branchBits, List.length_append, length_symbolBits, ← Nat.add_assoc]

end Node

/-! ## Values -/

section Values

variable {d : Dict} {es : List Entry} {t₀ : Trie} (hd : Represents d es t₀)

/-- The value at an index of the store. -/
def storedValue (d : Dict) (es : List Entry) (i : Nat) : Value Slice :=
  (valueDecode (d.reader (d.valueAt es i))).1.toOption.getD .null

/-- What is yielded for an entry. -/
structure Yielded (d : Dict) (es : List Entry) (e : List UInt8 × Value (List UInt8))
    (item : IterItem) : Prop where
  key_eq : item.key = e.1
  val_eq : item.val.map (Slice.read d.buf) = e.2
  stored : ∃ i, es[i]?.map Entry.key = some e.1 ∧
    item.val = if d.info.hasValues ∧ e.2.tag ≠ 0 then storedValue d es i else .null

include hd in
/-- The key determines what is yielded. -/
theorem Yielded.unique {e : List UInt8 × Value (List UInt8)} {item item' : IterItem}
    (h : Yielded d es e item) (h' : Yielded d es e item') : item = item' := by
  obtain ⟨i, hi, hval⟩ := h.stored
  obtain ⟨j, hj, hval'⟩ := h'.stored
  obtain rfl : i = j := by
    have hnodup := StrictlyAscending.nodup_keys hd.ascending
    rw [← List.getElem?_map] at hi hj
    exact (List.getElem?_inj (List.getElem?_eq_some_iff.mp hi).1 hnodup).mp (hi.trans hj.symm)
  obtain ⟨key, val⟩ := item
  obtain ⟨key', val'⟩ := item'
  obtain rfl : key = key' := h.key_eq.trans h'.key_eq.symm
  obtain rfl : val = val' := hval.trans hval'.symm
  rfl

/-- The value cursor stands at the start of some value or at the end of the store. -/
def Iter.CursorOk (it : Iter) (es : List Entry) : Prop :=
  it.valueIndex ≤ es.length ∧ it.valuePos = it.dict.valueAt es it.valueIndex

include hd in
/-- Wherever the cursor is, the value at an index is found, and the cursor is behind it. -/
theorem iterValueAt_spec {it : Iter} (hit : it.dict = d) (hcursor : it.CursorOk es) {i : Nat}
    (hi : i < es.length) (hv : d.info.hasValues = true) (r : Reader) :
    iterValueAt i (it, r) = (.ok (storedValue d es i),
        { it with valuePos := d.valueAt es (i + 1), valueIndex := i + 1 }, r) ∧
      (storedValue d es i).map (Slice.read d.buf) = es[i].val := by
  obtain ⟨hskip, hle, v, hdec, hread⟩ := hd.value_at hv hi
  have hstored : storedValue d es i = v := by rw [storedValue, hdec]; rfl
  refine ⟨?_, by rw [hstored]; exact hread⟩
  have hcount := hd.count_lt
  have hindex : u64 (i + 1) = i + 1 := u64_of_lt (by omega)
  obtain ⟨_, hpos⟩ := hcursor
  subst hit
  have hseek : ∀ p, bsReaderSeek (it.dict.valueAt es i) (it.dict.reader p) =
      (.ok (), it.dict.reader (it.dict.valueAt es i)) := fun p => seek_reader hd.sound hle
  rw [iterValueAt, if_neg (by simp [hv])]
  by_cases hsame : i = it.valueIndex
  · have hmove : iterSeekValue it i (bsReaderCreate it.dict.buf) = (.ok (), it.dict.reader 0) := by
      rw [iterSeekValue, if_neg (by simpa using hsame)]
      rfl
    simp only [hmove, if_neg (not_not.mpr hsame)]
    rw [← hsame] at hpos
    rw [hpos, Op.bind_ok (hseek 0), hdec, hstored, hindex]
    rfl
  · have hmove : iterSeekValue it i (bsReaderCreate it.dict.buf) =
        (.ok (), it.dict.reader (it.dict.valueAt es i)) := by
      have hstart := @seek_reader it.dict 0 hd.sound _ hd.trie_end_le
      rw [iterSeekValue, if_pos hsame]
      exact (Op.bind_ok hstart).trans hskip
    simp only [hmove, if_pos hsame, Dict.reader_pos]
    rw [Op.bind_ok (hseek _), hdec, hstored, hindex]
    rfl

include hd in
/-- The value of a terminal, if it has one. -/
theorem terminalValue_spec (it : Iter) (hit : it.dict = d) (hcursor : it.CursorOk es) {i : Nat}
    {q : List UInt8} {v : Value (List UInt8)} (hentry : t₀.entries[i]? = some (q, v)) (r : Reader) :
    ∃ val p j, (if d.info.hasValues ∧ v.tag ≠ 0 then iterValueAt (u32 i) else return .null :
        It (Value Slice)) (it, r) = (.ok val, { it with valuePos := p, valueIndex := j }, r) ∧
      Iter.CursorOk { it with valuePos := p, valueIndex := j } es ∧ Yielded d es (q, v) ⟨q, val⟩ := by
  rw [hd.entries_eq, List.getElem?_map] at hentry
  obtain ⟨e, he, heq⟩ := Option.map_eq_some_iff.mp hentry
  obtain ⟨rfl, rfl⟩ : e.key = q ∧ e.val = v := by simpa [suffixEntry] using heq
  obtain ⟨hi, hget⟩ := List.getElem?_eq_some_iff.mp he
  have hcount := hd.count_lt
  have hkey : es[i]?.map Entry.key = some e.key := by rw [he]; rfl
  by_cases hval : d.info.hasValues = true ∧ e.val.tag ≠ 0
  · obtain ⟨hrun, hread⟩ := iterValueAt_spec hd hit hcursor hi hval.1 r
    rw [if_pos hval, u32_of_lt (by omega)]
    refine ⟨_, _, _, hrun, ⟨hi, by rw [hit]⟩, rfl, by rw [hread, hget], i, hkey, ?_⟩
    rw [if_pos hval]
  · rw [if_neg hval]
    refine ⟨.null, it.valuePos, it.valueIndex, rfl, hcursor, rfl, ?_, i, hkey, by rw [if_neg hval]⟩
    rw [not_and_or, not_not, Bool.not_eq_true] at hval
    obtain hval | hval := hval
    · rw [hd.val_eq_null hval (List.mem_of_getElem? he)]
      rfl
    · exact (Value.tag_eq_zero.mp hval).symm

end Values

end Triepack
