import Triepack.Core.Calls

/-!
# Values from untrusted bytes

A value that a call returns is the decoding of one record of the value store. It lies in the
buffer if the record is sound: the decoder accepts six tags that no kind of value has, and it
compares a length in bits modulo 2^64.
-/

namespace Triepack

open BitString WhileLoop

/-- The value has one of the eight implemented kinds, and the bytes of a string or blob lie in
the buffer. -/
def InRange (buf : List UInt8) (v : Value Slice) : Prop :=
  v.Supported ∧ ∀ s, v = .string s ∨ v = .blob s → s.off + s.len ≤ buf.length

/-- The positions that the value store's records, read one after another, start at. -/
inductive RecordAt (d : Dict) : Nat → Prop
  | start : RecordAt d d.valueStart
  | next {p : Nat} {v : Value Slice} {r : Reader} (h : RecordAt d p)
      (decode : valueDecode (d.reader p) = (.ok v, r)) : RecordAt d r.pos

/-- The tag of the record is one of the eight, and the bytes of a string or blob end before
bit 2^64. -/
def SoundRecord (d : Dict) (p : Nat) : Prop :=
  ∀ tag r, bsReadBits 4 (d.reader p) = (.ok tag, r) → tag < 8 ∧
    ∀ len r', 6 ≤ tag → bsReadVarintU r = (.ok len, r') → (r'.pos + 7) / 8 * 8 + 8 * len < 2 ^ 64

/-- A call returned the value. -/
inductive Returned (d : Dict) : Value Slice → Prop
  | lookup {key : List UInt8} {v : Value Slice} (h : dictLookupN d key = .ok v) : Returned d v
  | next {it it' : Iter} {item : IterItem} (reachable : Reachable d it)
      (h : iterNext it = (.ok item, it')) : Returned d item.val

/-- A string or blob lies in the buffer exactly when its length does not wrap around. -/
theorem sliceDecode_inRange {r r' : Reader} (hr : r.Sound) {s : Slice}
    (h : sliceDecode r = (.ok s, r')) :
    s.off + s.len ≤ r.buf.length ↔
      ∀ len r', bsReadVarintU r = (.ok len, r') → (r'.pos + 7) / 8 * 8 + 8 * len < 2 ^ 64 := by
  obtain ⟨len, r₁, hlen, h⟩ := Op.bind_eq_ok h
  obtain ⟨_, r₂, halign, h⟩ := Op.bind_eq_ok h
  obtain ⟨off, r₃, hptr, h⟩ := Op.bind_eq_ok h
  obtain ⟨rfl, rfl⟩ : (⟨off, len⟩ : Slice) = s ∧ r₃ = r' := by simpa using h
  obtain ⟨hr₁, hbuf₁, _⟩ := bsReadVarintU_safe r hr
  rw [hlen] at hr₁ hbuf₁
  rw [bsReaderAlignToByte_sound hr₁] at halign
  obtain rfl := (Prod.mk.inj halign).2
  have hbits := hr₁.bitLen_eq
  have hbound := hr₁.bitLen_lt
  simp only at hbits hbound hbuf₁
  rw [hbuf₁] at hbits
  have hwrap : ∀ len' r₁', bsReadVarintU r = (.ok len', r₁') → len' = len ∧ r₁' = r₁ := by
    intro len' r₁' h'
    rw [hlen] at h'
    simpa [eq_comm] using h'
  rw [bsReaderDirectPtr] at hptr
  split at hptr
  · simp at hptr
  split at hptr
  · simp at hptr
  rename_i _ hin
  obtain ⟨rfl, _⟩ : (r₁.pos + 7) / 8 * 8 / 8 = off ∧ _ := by simpa using hptr
  simp only at hin ⊢
  constructor
  · intro hle len' r₁' h'
    obtain ⟨rfl, rfl⟩ := hwrap len' r₁' h'
    omega
  · intro hsmall
    have hlt := hsmall len r₁ hlen
    rw [u64_of_lt (by omega : len * 8 < 2 ^ 64), u64_of_lt (by omega)] at hin
    omega

/-- A value is in range exactly when the record it is decoded from is sound. -/
theorem valueDecode_inRange {d : Dict} (hd : d.Sound) {p : Nat} (hp : p ≤ 8 * d.buf.length) {v : Value Slice} {r : Reader}
    (h : valueDecode (d.reader p) = (.ok v, r)) : InRange d.buf v ↔ SoundRecord d p := by
  have hr := hd.reader hp
  obtain ⟨tag, r₁, htag, h⟩ := Op.bind_eq_ok h
  have hr₁ : r₁.Sound ∧ r₁.buf = d.buf := by
    obtain ⟨hs, hbuf, _⟩ := bsReadBits_safe (n := 4) (by omega) (by omega) _ hr
    rw [htag] at hs hbuf
    exact ⟨hs, hbuf⟩
  have hsound : SoundRecord d p ↔ tag < 8 ∧ ∀ len r', 6 ≤ tag →
      bsReadVarintU r₁ = (.ok len, r') → (r'.pos + 7) / 8 * 8 + 8 * len < 2 ^ 64 := by
    constructor
    · exact fun hs => hs tag r₁ htag
    · intro hs tag' r₁' htag'
      rw [htag] at htag'
      obtain ⟨rfl, rfl⟩ : tag = tag' ∧ r₁ = r₁' := by simpa using htag'
      exact hs
  have hslice : ∀ {s : Slice} {r' : Reader}, sliceDecode r₁ = (.ok s, r') →
      (s.off + s.len ≤ d.buf.length ↔ ∀ len r', bsReadVarintU r₁ = (.ok len, r') →
        (r'.pos + 7) / 8 * 8 + 8 * len < 2 ^ 64) := by
    intro s r' hs
    rw [← hr₁.2]
    exact sliceDecode_inRange hr₁.1 hs
  rw [hsound]
  split at h
  · obtain ⟨rfl, _⟩ : Value.null = v ∧ _ := by simpa using h
    simp [InRange, Value.Supported]
  · obtain ⟨b, _, _, h⟩ := Op.bind_eq_ok h
    obtain ⟨rfl, _⟩ : Value.bool (b != 0) = v ∧ _ := by simpa using h
    simp [InRange, Value.Supported]
  · obtain ⟨i, _, _, h⟩ := Op.bind_eq_ok h
    obtain ⟨rfl, _⟩ : Value.int i = v ∧ _ := by simpa using h
    simp [InRange, Value.Supported]
  · obtain ⟨n, _, _, h⟩ := Op.bind_eq_ok h
    obtain ⟨rfl, _⟩ : Value.uint (UInt64.ofNat n) = v ∧ _ := by simpa using h
    simp [InRange, Value.Supported]
  · obtain ⟨n, _, _, h⟩ := Op.bind_eq_ok h
    obtain ⟨rfl, _⟩ : Value.float32 n = v ∧ _ := by simpa using h
    simp [InRange, Value.Supported]
  · obtain ⟨n, _, _, h⟩ := Op.bind_eq_ok h
    obtain ⟨rfl, _⟩ : Value.float64 n = v ∧ _ := by simpa using h
    simp [InRange, Value.Supported]
  · obtain ⟨s, _, hs, h⟩ := Op.bind_eq_ok h
    obtain ⟨rfl, _⟩ : Value.string s = v ∧ _ := by simpa using h
    simpa [InRange, Value.Supported] using hslice hs
  · obtain ⟨s, _, hs, h⟩ := Op.bind_eq_ok h
    obtain ⟨rfl, _⟩ : Value.blob s = v ∧ _ := by simpa using h
    simpa [InRange, Value.Supported] using hslice hs
  · simp at h
  · simp at h
  · obtain ⟨rfl, _⟩ : _ = v ∧ _ := by simpa using h
    have hundefined : ¬ tag < 8 := by grind
    simp [InRange, Value.Supported, hundefined]

/-! ## Where the values of calls come from -/

/-- The value is null, or the decoding of a record of the value store. -/
def FromRecord (d : Dict) (v : Value Slice) : Prop :=
  v = .null ∨ ∃ p r, RecordAt d p ∧ p ≤ 8 * d.buf.length ∧ valueDecode (d.reader p) = (.ok v, r)

section Calls

variable {d : Dict} (hd : d.Sound)

include hd

/-- Skipping values goes from record to record. -/
theorem skipValues_recordAt {n p : Nat} (hp : p ≤ 8 * d.buf.length) (h : RecordAt d p) {u : Unit}
    {r : Reader} (hskip : skipValues n (d.reader p) = (.ok u, r)) :
    RecordAt d r.pos ∧ r = d.reader r.pos ∧ r.Sound := by
  induction n generalizing p with
  | zero =>
    obtain rfl : d.reader p = r := (Prod.mk.inj hskip).2
    exact ⟨h, rfl, hd.reader hp⟩
  | succ n ih =>
    obtain ⟨v, r', hdecode, hskip⟩ := Op.bind_eq_ok hskip
    have hr' : r'.Sound ∧ r'.buf = d.buf := by
      obtain ⟨hs, hbuf, _⟩ := valueDecode_safe _ (hd.reader hp)
      rw [hdecode] at hs hbuf
      exact ⟨hs, hbuf⟩
    have hle := hr'.1.pos_le
    have hlen := hr'.1.bitLen_eq
    rw [hr'.2] at hlen
    rw [reader_eq hd hr'.1 hr'.2] at hskip
    exact ih (by omega) (h.next hdecode) hskip

/-- The value of a lookup. -/
theorem dictLookupN_fromRecord {key : List UInt8} {v : Value Slice}
    (h : dictLookupN d key = .ok v) : FromRecord d v := by
  rw [dictLookupN] at h
  split at h
  · simp at h
  rcases hvalue : lookupValue d key (bsReaderCreate d.buf) with ⟨e | v', r⟩
  · simp [hvalue] at h
  · obtain rfl : v' = v := by simpa [hvalue] using h
    obtain ⟨_, r₁, hseek, hvalue⟩ := Op.bind_eq_ok hvalue
    obtain ⟨found, r₂, hloop, hvalue⟩ := Op.bind_eq_ok hvalue
    have hr₁ : r₁.Sound ∧ r₁.buf = d.buf := by
      obtain ⟨hs, hbuf, _⟩ := bsReaderSeek_safe d.trieStart _ (Reader.Sound.create hd.length_lt)
      rw [hseek] at hs hbuf
      exact ⟨hs, hbuf⟩
    have hr₂ : r₂.Sound ∧ r₂.buf = d.buf := by
      obtain ⟨hs, hbuf, _⟩ := Rd.loop_safe (lookupBody_safe hd.one_le hd.le_eight key)
        (lookupFuel d key) (0, false) hr₁.1
      rw [hloop] at hs hbuf
      exact ⟨hs, hbuf.trans hr₁.2⟩
    cases found with
    | none =>
      obtain ⟨rfl, _⟩ : Value.null = v' ∧ _ := by simpa using hvalue
      exact .inl rfl
    | some valueIndex =>
      simp only at hvalue
      split at hvalue
      · obtain ⟨_, r₃, hseek', hvalue⟩ := Op.bind_eq_ok hvalue
        obtain ⟨_, r₄, hskip, hdecode⟩ := Op.bind_eq_ok hvalue
        obtain ⟨hle, rfl⟩ := bsReaderSeek_eq_ok hseek'
        have heq := reader_eq hd (hr₂.1.move hle) hr₂.2
        have hlen := hr₂.1.bitLen_eq
        rw [hr₂.2] at hlen
        simp only at heq
        rw [heq] at hskip
        obtain ⟨hrecord, heq₄, hr₄⟩ := skipValues_recordAt hd (by omega) .start hskip
        have hle₄ := hr₄.pos_le
        rw [heq₄, hd.bitLen] at hle₄
        rw [heq₄] at hdecode
        exact .inr ⟨r₄.pos, r, hrecord, hle₄, hdecode⟩
      · obtain ⟨rfl, _⟩ : Value.null = v' ∧ _ := by simpa using hvalue
        exact .inl rfl

/-- The value at an index comes from the record at the cursor, which then moves behind it. -/
theorem iterValueAt_fromRecord {it : Iter} (hit : it.dict = d) (hrecord : RecordAt d it.valuePos)
    {index : Nat} {r : Reader} {val : Value Slice} {s : Iter × Reader}
    (h : iterValueAt index (it, r) = (.ok val, s)) :
    FromRecord d val ∧ RecordAt d s.1.valuePos := by
  subst hit
  rw [iterValueAt] at h
  split at h
  · obtain ⟨rfl, rfl⟩ : Value.null = val ∧ (it, r) = s := by simpa using h
    exact ⟨.inl rfl, hrecord⟩
  · rcases hskip : iterSeekValue it index (bsReaderCreate it.dict.buf) with ⟨e | _, vr⟩
    · simp [hskip] at h
    · have hvr : vr.Sound ∧ vr.buf = it.dict.buf := by
        obtain ⟨hs, hbuf, _⟩ :=
          iterSeekValue_safe it index (bsReaderCreate it.dict.buf) (.create hd.length_lt)
        rw [hskip] at hs hbuf
        exact ⟨hs, hbuf⟩
      simp only [hskip] at h
      generalize hmoved : (if index ≠ it.valueIndex then
        { it with valuePos := vr.pos, valueIndex := index } else it) = moved at h
      have hcursor : RecordAt it.dict moved.valuePos := by
        rw [← hmoved]
        split
        · rename_i hne
          rw [iterSeekValue, if_pos hne] at hskip
          obtain ⟨_, r₁, hseek, hskip⟩ := Op.bind_eq_ok hskip
          obtain ⟨hle, rfl⟩ := bsReaderSeek_eq_ok hseek
          have hcreate := Reader.Sound.create hd.length_lt
          have hlen := hcreate.bitLen_eq
          simp only [show (bsReaderCreate it.dict.buf).buf = it.dict.buf from rfl] at hlen
          exact (skipValues_recordAt hd (by omega) .start hskip).1
        · exact hrecord
      rcases hread : (do bsReaderSeek moved.valuePos; valueDecode : Rd (Value Slice)) vr
        with ⟨e | v, vr'⟩
      · simp [hread] at h
      · simp only [hread] at h
        obtain ⟨rfl, rfl⟩ : v = val ∧ _ = s := by simpa using h
        obtain ⟨_, vr₁, hseek, hdecode⟩ := Op.bind_eq_ok hread
        obtain ⟨hle, rfl⟩ := bsReaderSeek_eq_ok hseek
        have hlen := hvr.1.bitLen_eq
        rw [hvr.2] at hlen
        have heq := reader_eq hd (hvr.1.move hle) hvr.2
        simp only at heq
        rw [heq] at hdecode
        exact ⟨.inr ⟨_, _, hcursor, by omega, hdecode⟩, hcursor.next hdecode⟩

/-- The loop of `tp_iter_next` keeps the cursor on the records. -/
theorem iterNext_fromRecord {it it' : Iter} {item : IterItem} (hit : it.dict = d)
    (hrecord : RecordAt d it.valuePos) (h : iterNext it = (.ok item, it')) :
    FromRecord d item.val ∧ RecordAt d it'.valuePos := by
  obtain ⟨_, _, s, r', hentry, hret⟩ := iterNext_eq_ok h
  refine hret.invariant (I := fun s => s.2.1.dict = d ∧ RecordAt d s.2.1.valuePos)
    (Q := fun out => ∀ item, out.1 = .ok item → FromRecord d item.val ∧ RecordAt d out.2.1.valuePos)
    ?_ ?_ ?_ item rfl
  · rintro ⟨mode, it, r⟩ ⟨mode', s'⟩ ⟨hit, hrecord⟩ hstep
    have hbody := Op.loopStep_eq_inl hstep
    cases mode with
    | sibling =>
      obtain ⟨mode'', s'', hsib, hbody⟩ := Op.bind_eq_ok hbody
      obtain ⟨rfl, rfl⟩ : mode'' = mode' ∧ s'' = s' := by simpa using hbody
      obtain ⟨f, frames, _, ⟨_, _, rfl⟩ | ⟨_, r₁, r₂, dist, _, _, _, rfl⟩⟩ := iterSibling_eq_ok hsib
      · exact ⟨hit, hrecord⟩
      · exact ⟨hit, hrecord⟩
    | walk subtreeEnd =>
      cases iterWalk_eq_ok hbody with
      | leave ge => exact ⟨hit, hrecord⟩
      | byte b lt read => exact ⟨hit, hrecord⟩
      | branch lt read _ push =>
        obtain ⟨n, r', _, _, rfl⟩ := iterPushFrame_eq_ok push
        exact ⟨hit, hrecord⟩
  · rintro ⟨mode, it, r⟩ ⟨res, it', r'⟩ ⟨hit, hrecord⟩ hstep item hok
    obtain rfl : res = .ok item := hok
    have hbody := Op.loopStep_eq_inr_ok hstep
    cases mode with
    | sibling =>
      obtain ⟨mode'', s'', _, hbody⟩ := Op.bind_eq_ok hbody
      simp at hbody
    | walk subtreeEnd =>
      cases iterWalk_eq_ok hbody with
      | yield lt read _ terminal =>
        obtain ⟨r₁, s₁, _, hframe, hvalue⟩ := terminal.parts
        have hs₁ : s₁.1.dict = d ∧ RecordAt d s₁.1.valuePos := by
          obtain ⟨_, rfl⟩ | ⟨_, r₂, _, push⟩ := hframe
          · exact ⟨hit, hrecord⟩
          · obtain ⟨n, r₃, _, _, rfl⟩ := iterPushFrame_eq_ok push
            exact ⟨hit, hrecord⟩
        obtain ⟨hnull, rfl⟩ | ⟨vi, hval⟩ := hvalue
        · exact ⟨.inl hnull, hs₁.2⟩
        · exact iterValueAt_fromRecord hd hs₁.1 hs₁.2 hval
  · cases hentry with
    | first notStarted le => exact ⟨hit, hrecord⟩
    | later started => exact ⟨hit, hrecord⟩

/-- Every value that a call returns is null or comes from a record. -/
theorem Returned.fromRecord {v : Value Slice} (h : Returned d v) : FromRecord d v := by
  cases h with
  | lookup h => exact dictLookupN_fromRecord hd h
  | next reachable h =>
    obtain ⟨hit, hrecord⟩ := reachable.invariant hd (P := fun it => RecordAt d it.valuePos)
      (fun fuel kind it hit => by rw [(IterKind.obtain_eq_ok hit).2.2.2.1]; exact .start)
      (fun it hit => by
        rw [iterReset]
        simp only [hit]
        exact .start)
      (fun it item it' hit hrecord h => (iterNext_fromRecord hd hit hrecord h).2)
    exact (iterNext_fromRecord hd hit (hrecord (iterNext_eq_ok h).1) h).1

end Calls

/-- All values that calls return are in range exactly when all records they are decoded from
are sound. -/
theorem returned_inRange_iff {b : Buffer} {checkCrc : Bool} {d : Dict}
    (h : dictOpenImpl b.bytes checkCrc = .ok d) :
    (∀ v, Returned d v → InRange b.bytes v) ↔
      ∀ v p r, Returned d v → RecordAt d p → p ≤ 8 * b.bytes.length →
        valueDecode (d.reader p) = (.ok v, r) → SoundRecord d p := by
  obtain ⟨hd, hbuf⟩ := dictOpenImpl_sound h
  rw [← hbuf]
  constructor
  · intro hrange v p r hv _ hp hdecode
    exact (valueDecode_inRange hd hp hdecode).mp (hrange v hv)
  · intro hsound v hv
    obtain rfl | ⟨p, r, hrecord, hp, hdecode⟩ := hv.fromRecord hd
    · exact ⟨trivial, by simp⟩
    · exact (valueDecode_inRange hd hp hdecode).mpr (hsound v p r hv hrecord hp hdecode)

/-- The file of "a" with a blob of 2^61 bytes, which are 0 bits modulo 2^64. -/
def wrapFile : List UInt8 :=
  [84, 82, 80, 0, 1, 0, 0, 1, 0, 0, 0, 1, 0, 0, 0, 38, 0, 0, 0, 52, 0, 0, 0, 0, 0, 0, 0, 128,
    0, 0, 0, 0, 48, 112, 83, 149, 135, 16, 7, 128, 128, 128, 128, 128, 128, 128, 128, 32, 129,
    140, 135, 178]

/-- Its lookup returns all 2^61 bytes. -/
theorem dictLookupN_wrapFile : ∃ d, dictOpen wrapFile = .ok d ∧
    dictLookupN d [97] = .ok (.blob ⟨48, 2 ^ 61⟩) := by
  have hlookup : (match dictOpen wrapFile with
    | .ok d => decide (dictLookupN d [97] = .ok (.blob ⟨48, 2 ^ 61⟩))
    | .error _ => false) = true := by decide +kernel
  rcases hopen : dictOpen wrapFile with e | d
  · simp [hopen] at hlookup
  · simp only [hopen, decide_eq_true_eq] at hlookup
    exact ⟨d, rfl, hlookup⟩

theorem not_inRange_blob : ¬ InRange wrapFile (.blob ⟨48, 2 ^ 61⟩) := by
  intro hrange
  have hle := hrange.2 ⟨48, 2 ^ 61⟩ (.inr rfl)
  simp [wrapFile] at hle

/-- The record that it is decoded from is not sound. -/
theorem returned_wrapFile : ∃ d v p r, dictOpenImpl wrapFile true = .ok d ∧ Returned d v ∧
    RecordAt d p ∧ valueDecode (d.reader p) = (.ok v, r) ∧ ¬ SoundRecord d p := by
  obtain ⟨d, hopen, hlookup⟩ := dictLookupN_wrapFile
  have hiff := @returned_inRange_iff ⟨wrapFile, by decide⟩ true d hopen
  by_contra hnone
  push Not at hnone
  have hrange := hiff.mpr fun v p r hv hp _ hdecode => hnone d v p r hopen hv hp hdecode
  exact not_inRange_blob (hrange _ (.lookup hlookup))

/-- The slice that its lookup returns does not lie in the 52 bytes. -/
theorem not_inRange_wrapFile : ∃ d v, dictOpen wrapFile = .ok d ∧ Returned d v ∧
    ¬ InRange wrapFile v := by
  obtain ⟨d, hopen, hlookup⟩ := dictLookupN_wrapFile
  exact ⟨d, _, hopen, .lookup hlookup, not_inRange_blob⟩

end Triepack
