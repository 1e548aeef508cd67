import Triepack.Bitstream.Loop
import Triepack.Core.Open

/-!
# Looking a key up

`tp_dict_lookup_n` follows the key through the symbols of the trie. The stream does not mark
where a subtree ends: behind a terminal the walk just expects a BRANCH, and takes anything else
for the end of the keys that start this way.
-/

namespace Triepack

open BitString

/-- `tp_value_decode` of so many values one after another. -/
def skipValues : (n : Nat) → Rd Unit
  | 0 => pure ()
  | n + 1 => do
    let _ ← valueDecode
    skipValues n

/-- The loop of `tp_dict_lookup_n` over the children of a branch with `remaining` of them left:
whether one starts with `target`, whose symbol is then consumed. -/
def lookupChildren (sym : SymbolInfo) (target : UInt8) : (remaining : Nat) → Rd Bool
  | 0 => pure false
  | remaining + 1 => do
    let hasSkip := decide (remaining ≠ 0)
    let skipDist ← (if hasSkip then do
      let _ ← bsReadBits sym.bitsPerSymbol
      bsReadVarintU
    else pure 0)
    let csym ← bsPeekBits sym.bitsPerSymbol
    let isCtrl := decide (csym < 256) && sym.codeIsCtrl csym
    if ¬ isCtrl ∧ csym = sym.symbolMap target then do
      bsReaderAdvance sym.bitsPerSymbol
      return true
    else do
      (if hasSkip then bsReaderAdvance skipDist else pure ())
      lookupChildren sym target remaining

/-- Reading the next symbol: the end of the stream behind a terminal means that no longer key
starts this way. -/
def readLookupSymbol (bps : Nat) (expectBranch : Bool) : Rd Nat := fun r =>
  match bsReadBits bps r with
  | (.error (.rc code), r) => (.error (.rc (if expectBranch then .notFound else code)), r)
  | out => out

/-- One iteration of the loop of `tp_dict_lookup_n`. The state is the number of key bytes
consumed and whether a terminal was just passed; the result is the value index, if any. -/
def lookupBody (sym : SymbolInfo) (key : List UInt8) :
    Nat × Bool → Rd ((Nat × Bool) ⊕ Option Nat)
  | (keyIdx, expectBranch) => do
    let code ← readLookupSymbol sym.bitsPerSymbol expectBranch
    if code = sym.ctrlCodes .end_ then
      if keyIdx = key.length then return .inr none else return .inl (keyIdx, true)
    else if code = sym.ctrlCodes .endVal then do
      let vi ← bsReadVarintU
      if keyIdx = key.length then return .inr (some (u32 vi)) else return .inl (keyIdx, true)
    else if code = sym.ctrlCodes .branch then do
      let childCount ← bsReadVarintU
      match key[keyIdx]? with
      | none => Op.fail .notFound
      | some target => do
        let foundChild ← lookupChildren sym target childCount
        if foundChild then return .inl (keyIdx + 1, false) else Op.fail .notFound
    else if expectBranch then Op.fail .notFound
    else if sym.codeIsCtrl (if code < 256 then code else 0) then Op.fail .invalidParam
    else
      match key[keyIdx]? with
      | none => Op.fail .notFound
      | some byte =>
        if code = sym.symbolMap byte then return .inl (keyIdx + 1, expectBranch)
        else Op.fail .notFound

/-- Every iteration consumes a byte of the key or a symbol. -/
def lookupFuel (d : Dict) (key : List UInt8) : Nat :=
  (key.length + 1) * (8 * d.buf.length + 1) + 1

/-- The walk of `tp_dict_lookup_n` and the value it leads to. -/
def lookupValue (d : Dict) (key : List UInt8) : Rd (Value Slice) := do
  bsReaderSeek d.trieStart
  let found ← Op.loop (lookupBody d.sym key) (lookupFuel d key) (0, false)
  match found with
  | none => return .null
  | some valueIndex =>
    if d.info.hasValues then do
      bsReaderSeek d.valueStart
      skipValues valueIndex
      valueDecode
    else return .null

/-- `tp_dict_lookup_n`. -/
def dictLookupN (d : Dict) (key : List UInt8) : Except Stop (Value Slice) :=
  if d.info.numKeys = 0 then .error (.rc .notFound)
  else (lookupValue d key (bsReaderCreate d.buf)).1

/-! ## On any bytes -/

theorem skipValues_safe (n : Nat) : Rd.Safe (skipValues n) := by
  induction n with
  | zero => exact .pure ()
  | succ n ih => exact valueDecode_safe.bind fun _ => ih

section Safe

variable {sym : SymbolInfo} (hlow : 1 ≤ sym.bitsPerSymbol) (hhigh : sym.bitsPerSymbol ≤ 8)

include hlow hhigh

theorem lookupChildren_safe (target : UInt8) (remaining : Nat) :
    Rd.Safe (lookupChildren sym target remaining) := by
  induction remaining with
  | zero => exact .pure false
  | succ remaining ih =>
    refine Rd.Safe.bind ?_ fun skipDist => ?_
    · split
      · exact (bsReadBits_safe hlow (by omega)).bind fun _ => bsReadVarintU_safe
      · exact .pure 0
    · refine (bsPeekBits_safe hlow (by omega)).bind fun csym => ?_
      dsimp only
      split
      · exact (bsReaderAdvance_safe _).bind fun _ => .pure true
      · refine Rd.Safe.bind ?_ fun _ => ih
        split
        · exact bsReaderAdvance_safe _
        · exact .pure ()

theorem readLookupSymbol_safe (expectBranch : Bool) :
    Rd.Safe (readLookupSymbol sym.bitsPerSymbol expectBranch) := by
  intro r hr
  obtain ⟨t, ht, hbuf, ⟨code, h⟩ | ⟨v, h⟩⟩ :=
    (bsReadBits_safe (n := sym.bitsPerSymbol) hlow (by omega)).cases hr
  · simp only [readLookupSymbol, h]
    exact ⟨ht, hbuf, by simp⟩
  · simp only [readLookupSymbol, h]
    exact ⟨ht, hbuf, by simp⟩

theorem lookupBody_safe (key : List UInt8) (s : Nat × Bool) : Rd.Safe (lookupBody sym key s) := by
  obtain ⟨keyIdx, expectBranch⟩ := s
  refine (readLookupSymbol_safe hlow hhigh expectBranch).bind fun code => ?_
  split
  · split <;> exact .pure _
  split
  · refine bsReadVarintU_safe.bind fun vi => ?_
    split <;> exact .pure _
  split
  · refine bsReadVarintU_safe.bind fun childCount => ?_
    split
    · exact .fail _
    · refine (lookupChildren_safe hlow hhigh _ _).bind fun foundChild => ?_
      split
      · exact .pure _
      · exact .fail _
  split
  · exact .fail _
  generalize (if code < 256 then code else 0) = index
  split
  · exact .fail _
  split
  · exact .fail _
  · split
    · exact .pure _
    · exact .fail _

end Safe

theorem readLookupSymbol_of_ok {bps : Nat} {expectBranch : Bool} {r r' : Reader} {code : Nat}
    (h : readLookupSymbol bps expectBranch r = (.ok code, r')) :
    bsReadBits bps r = (.ok code, r') := by
  simp only [readLookupSymbol] at h
  split at h
  · simp at h
  · exact h

theorem pos_lt_of_readBits {n : Nat} (hn : 0 < n) (hn' : n ≤ 64) {r r' : Reader} (hr : r.Sound)
    {v : Nat} (h : bsReadBits n r = (.ok v, r')) :
    r.pos < r'.pos ∧ r'.Sound ∧ r'.buf = r.buf ∧ v < 2 ^ n := by
  obtain ⟨_, hread⟩ | ⟨hle, w, hw, hread⟩ := bsReadBits_sound hr hn hn'
  · simp [hread] at h
  · obtain ⟨rfl, rfl⟩ : w = v ∧ { r with pos := r.pos + n } = r' := by simpa [hread] using h
    exact ⟨by simp only; omega, hr.move hle, rfl, hw⟩

theorem pos_lt_of_readVarint {r r' : Reader} (hr : r.Sound) {v : Nat}
    (h : bsReadVarintU r = (.ok v, r')) : r.pos < r'.pos ∧ r'.Sound ∧ r'.buf = r.buf := by
  obtain ⟨e, t, hread, _⟩ | ⟨w, _, k, hk, hle, hread⟩ := bsReadVarintU_sound hr
  · simp [hread] at h
  · obtain ⟨rfl, rfl⟩ : w = v ∧ { r with pos := r.pos + 8 * k } = r' := by simpa [hread] using h
    exact ⟨by simp only; omega, hr.move hle, rfl⟩

/-- An iteration that goes on has consumed a byte of the key or moved the cursor on. -/
theorem lookupBody_next {sym : SymbolInfo} (hlow : 1 ≤ sym.bitsPerSymbol)
    (hhigh : sym.bitsPerSymbol ≤ 8) {key : List UInt8} {s t : Nat × Bool} {r r' : Reader}
    (hr : r.Sound) (h : lookupBody sym key s r = (.ok (.inl t), r')) :
    (t.1 = s.1 + 1 ∧ s.1 < key.length) ∨ (t.1 = s.1 ∧ r.pos < r'.pos) := by
  obtain ⟨keyIdx, expectBranch⟩ := s
  obtain ⟨code, u, hread, h⟩ := Op.bind_eq_ok h
  obtain ⟨hlt, hu, _, _⟩ := pos_lt_of_readBits hlow (by omega) hr (readLookupSymbol_of_ok hread)
  split at h
  · split at h
    · simp at h
    · obtain ⟨rfl, rfl⟩ : (keyIdx, true) = t ∧ u = r' := by simpa using h
      exact .inr ⟨rfl, hlt⟩
  split at h
  · obtain ⟨vi, v, hvi, h⟩ := Op.bind_eq_ok h
    have hlt' := (pos_lt_of_readVarint hu hvi).1
    split at h
    · simp at h
    · obtain ⟨rfl, rfl⟩ : (keyIdx, true) = t ∧ v = r' := by simpa using h
      exact .inr ⟨rfl, by omega⟩
  split at h
  · obtain ⟨childCount, v, _, h⟩ := Op.bind_eq_ok h
    cases hget : key[keyIdx]? with
    | none => simp [hget] at h
    | some target =>
      simp only [hget] at h
      obtain ⟨foundChild, w, _, h⟩ := Op.bind_eq_ok h
      split at h
      · obtain ⟨rfl, _⟩ : (keyIdx + 1, false) = t ∧ w = r' := by simpa using h
        exact .inl ⟨rfl, (List.getElem?_eq_some_iff.mp hget).1⟩
      · simp at h
  split at h
  · simp at h
  generalize (if code < 256 then code else 0) = index at h
  split at h
  · simp at h
  cases hget : key[keyIdx]? with
  | none => simp [hget] at h
  | some byte =>
    simp only [hget] at h
    split at h
    · obtain ⟨rfl, _⟩ : (keyIdx + 1, expectBranch) = t ∧ u = r' := by simpa using h
      exact .inl ⟨rfl, (List.getElem?_eq_some_iff.mp hget).1⟩
    · simp at h

/-- The loop of `tp_dict_lookup_n` ends on any bytes. -/
theorem lookup_run_isSome {d : Dict} (hd : d.Sound) (key : List UInt8) {r : Reader} (hr : r.Sound)
    (hbuf : r.buf = d.buf) :
    (WhileLoop.run (Op.loopStep (lookupBody d.sym key)) (lookupFuel d key) ((0, false), r)).isSome := by
  refine Op.run_isSome_of_measure (I := Reader.Sound)
    (μ := fun x => (key.length - x.1.1) * (8 * x.2.buf.length + 1) + (x.2.bitLen - x.2.pos)) ?_ hr ?_
  · intro s t r r' hr h
    obtain ⟨hs, hbuf, _⟩ := lookupBody_safe hd.one_le hd.le_eight key s r hr
    rw [h] at hs hbuf
    refine ⟨hs, ?_⟩
    have hlen := hr.bitLen_eq
    have hlen' := hs.bitLen_eq
    have hle := hs.pos_le
    simp only at hbuf hlen' hle ⊢
    rw [hbuf] at hlen' ⊢
    obtain ⟨ht, hlt⟩ | ⟨ht, hlt⟩ := lookupBody_next hd.one_le hd.le_eight hr h
    · obtain ⟨n, hn⟩ : ∃ n, key.length - s.1 = n + 1 := ⟨key.length - s.1 - 1, by omega⟩
      rw [show key.length - t.1 = n by omega, hn, Nat.add_one_mul n]
      omega
    · rw [ht]
      omega
  · have hlen := hr.bitLen_eq
    simp only [lookupFuel, Nat.sub_zero, hbuf, Nat.add_one_mul key.length] at hlen ⊢
    omega

end Triepack
