import Triepack.Core.Iterator

/-!
# What an iteration of `tp_iter_next` does

Each part of the loop body is inverted once: what it has read and how it has changed the
iterator when it succeeds. That the loop ends and that it stays inside the buffer follow on any
bytes.
-/

namespace Triepack

open BitString

variable {it : Iter} {r : Reader} {s : Iter × Reader}

/-- A frame that has just been pushed. -/
theorem iterPushFrame_eq_ok {subtreeEnd : Nat} {u : Unit}
    (h : iterPushFrame subtreeEnd (it, r) = (.ok u, s)) :
    ∃ n r', bsReadVarintU r = (.ok n, r') ∧ it.stack.length < iterMaxDepth ∧
      s = ({ it with stack := ⟨subtreeEnd, r'.pos, u32 n, it.keyLen⟩ :: it.stack }, r') := by
  obtain ⟨n, r', hn, h⟩ := It.rd_bind_eq_ok h
  rw [It.get_bind] at h
  split at h
  · simp at h
  · rename_i hdepth
    obtain ⟨p, r'', hp, h⟩ := It.rd_bind_eq_ok h
    obtain ⟨rfl, rfl⟩ : r'.pos = p ∧ r' = r'' := by simpa [bsReaderPosition] using hp
    refine ⟨n, r', hn, by omega, ?_⟩
    simpa [It.modify] using (Prod.mk.inj h).2.symm

/-- The sibling that is entered next. The last child ends with its parent; in front of any other
one stands its length. -/
theorem iterSibling_eq_ok {mode : IterMode} (h : iterSibling (it, r) = (.ok mode, s)) :
    ∃ f frames, it.stack.dropWhile (fun f => f.remaining == 0) = f :: frames ∧
      (f.remaining ≤ 1 ∧ mode = .walk f.subtreeEnd ∧
        s = ({ it with
            keyLen := f.keyPrefixLen
            pos := f.nextChildPos
            stack := { f with remaining := f.remaining - 1 } :: frames },
          { r with pos := f.nextChildPos }) ∨
      1 < f.remaining ∧ ∃ r₁ r₂ dist,
        bsReadBits it.dict.sym.bitsPerSymbol { r with pos := f.nextChildPos } =
          (.ok (it.dict.sym.ctrlCodes .skip), r₁) ∧ bsReadVarintU r₁ = (.ok dist, r₂) ∧
        mode = .walk (u64 (r₂.pos + dist)) ∧
        s = ({ it with
            keyLen := f.keyPrefixLen
            pos := r₂.pos
            stack := { f with
              nextChildPos := u64 (r₂.pos + dist)
              remaining := f.remaining - 1 } :: frames },
          r₂)) := by
  rw [iterSibling, It.modify_bind, It.get_bind] at h
  cases hstack : it.stack.dropWhile fun f => f.remaining == 0 with
  | nil =>
    simp only [hstack] at h
    simp at h
  | cons f frames =>
    refine ⟨f, frames, rfl, ?_⟩
    simp only [hstack] at h
    rw [It.modify_bind] at h
    obtain ⟨subtreeEnd, ⟨it', r''⟩, hend, h⟩ := Op.bind_eq_ok h
    obtain ⟨_, r', hseek, hend⟩ := It.rd_bind_eq_ok hend
    obtain ⟨hle, rfl⟩ := bsReaderSeek_eq_ok hseek
    rw [It.get_bind] at h
    obtain ⟨_, r₃, hseek', h⟩ := It.rd_bind_eq_ok h
    obtain ⟨_, rfl⟩ := bsReaderSeek_eq_ok hseek'
    obtain ⟨rfl, rfl⟩ : .walk subtreeEnd = mode ∧ (it', { r'' with pos := it'.pos }) = s := by
      simpa using h
    rw [It.get_bind] at hend
    split at hend
    · rename_i hmany
      refine .inr ⟨hmany, ?_⟩
      obtain ⟨skipSym, r₁, hskip, hend⟩ := It.rd_bind_eq_ok hend
      split at hend
      · simp at hend
      · rename_i hsym
        obtain ⟨dist, r₂, hdist, hend⟩ := It.rd_bind_eq_ok hend
        obtain ⟨p, r₃, hp, hend⟩ := It.rd_bind_eq_ok hend
        obtain ⟨rfl, rfl⟩ : r₂.pos = p ∧ r₂ = r₃ := by simpa [bsReaderPosition] using hp
        rw [It.modify_bind] at hend
        obtain ⟨rfl, rfl, rfl⟩ : u64 (r₂.pos + dist) = subtreeEnd ∧ _ = it' ∧ r₂ = r'' := by
          simpa using hend
        rw [not_not] at hsym
        exact ⟨r₁, r₂, dist, by rw [hskip, hsym], hdist, rfl, rfl⟩
    · rename_i hlast
      refine .inl ⟨by omega, ?_⟩
      rw [It.modify_bind] at hend
      obtain ⟨rfl, rfl, rfl⟩ : f.subtreeEnd = subtreeEnd ∧ _ = it' ∧ _ = r'' := by
        simpa using hend
      exact ⟨rfl, rfl⟩

theorem iterSeekValue_safe (it : Iter) (index : Nat) : Rd.Safe (iterSeekValue it index) := by
  rw [iterSeekValue]
  split
  · exact (bsReaderSeek_safe _).bind fun _ => skipValues_safe index
  · exact .pure ()

/-- A value comes from the value store, and fetching it moves nothing but the value cursor. -/
theorem iterValueAt_eq_ok {index : Nat} {val : Value Slice}
    (h : iterValueAt index (it, r) = (.ok val, s)) :
    (∃ p i, s = ({ it with valuePos := p, valueIndex := i }, r)) ∧
      (it.dict.Sound → val = .null ∨ ∃ vr vr', vr.Sound ∧ vr.buf = it.dict.buf ∧
        valueDecode vr = (.ok val, vr')) := by
  rw [iterValueAt] at h
  split at h
  · obtain ⟨rfl, rfl⟩ : Value.null = val ∧ (it, r) = s := by simpa using h
    exact ⟨⟨it.valuePos, it.valueIndex, rfl⟩, fun _ => .inl rfl⟩
  · rcases hskip : iterSeekValue it index (bsReaderCreate it.dict.buf) with ⟨e | _, vr⟩
    · simp [hskip] at h
    · have hsafe : it.dict.Sound → vr.Sound ∧ vr.buf = it.dict.buf := by
        intro hd
        obtain ⟨hs, hbuf, _⟩ :=
          iterSeekValue_safe it index (bsReaderCreate it.dict.buf) (.create hd.length_lt)
        rw [hskip] at hs hbuf
        exact ⟨hs, hbuf⟩
      simp only [hskip] at h
      generalize hmoved : (if index ≠ it.valueIndex then
        { it with valuePos := vr.pos, valueIndex := index } else it) = moved at h
      obtain ⟨p, i, rfl⟩ : ∃ p i, moved = { it with valuePos := p, valueIndex := i } := by
        rw [← hmoved]
        split
        · exact ⟨vr.pos, index, rfl⟩
        · exact ⟨it.valuePos, it.valueIndex, rfl⟩
      rcases hdecode : (do bsReaderSeek p; valueDecode : Rd (Value Slice)) vr with ⟨e | v, vr'⟩
      · simp [hdecode] at h
      · simp only [hdecode] at h
        obtain ⟨rfl, rfl⟩ : v = val ∧ _ = s := by simpa using h
        refine ⟨⟨_, _, rfl⟩, fun hd => .inr ?_⟩
        obtain ⟨hs, hbuf⟩ := hsafe hd
        obtain ⟨_, vr₁, hseek, hdecode⟩ := Op.bind_eq_ok hdecode
        obtain ⟨hle, rfl⟩ := bsReaderSeek_eq_ok hseek
        exact ⟨_, vr', hs.move hle, hbuf, hdecode⟩

/-- END or END_VAL. -/
def SymbolInfo.IsTerminal (sym : SymbolInfo) (code : Nat) : Prop :=
  code = sym.ctrlCodes .end_ ∨ code = sym.ctrlCodes .endVal

/-- A terminal: its index, the frame for a BRANCH behind it, and the value. -/
structure YieldStep (it : Iter) (subtreeEnd code : Nat) (r : Reader) (item : IterItem)
    (s : Iter × Reader) : Prop where
  key_eq : item.key = it.keyBuf.take it.keyLen
  parts : ∃ r₁ s₁, (code ≠ it.dict.sym.ctrlCodes .endVal ∧ r₁ = r ∨
      code = it.dict.sym.ctrlCodes .endVal ∧ ∃ vi, bsReadVarintU r = (.ok vi, r₁)) ∧
    (r₁.pos ≥ subtreeEnd ∧ s₁ = (it, r₁) ∨ r₁.pos < subtreeEnd ∧ ∃ r₂,
      bsReadBits it.dict.sym.bitsPerSymbol r₁ = (.ok (it.dict.sym.ctrlCodes .branch), r₂) ∧
      iterPushFrame subtreeEnd (it, r₂) = (.ok (), s₁)) ∧
    (item.val = .null ∧ s = s₁ ∨ ∃ vi, iterValueAt vi s₁ = (.ok item.val, s))

/-- A walk goes back to the siblings at the end of its subtree. Otherwise it reads a symbol: a
byte extends the key, a BRANCH becomes a frame, and a terminal yields the key. -/
inductive WalkStep (it : Iter) (subtreeEnd : Nat) (r : Reader) :
    IterMode ⊕ IterItem → Iter × Reader → Prop where
  | leave (ge : r.pos ≥ subtreeEnd) : WalkStep it subtreeEnd r (.inl .sibling) (it, r)
  | byte {code : Nat} {r' : Reader} (b : UInt8) (lt : r.pos < subtreeEnd)
      (read : bsReadBits it.dict.sym.bitsPerSymbol r = (.ok code, r')) :
      WalkStep it subtreeEnd r (.inl (.walk subtreeEnd)) (it.pushKey b, r')
  | branch {r' : Reader} {s : Iter × Reader} (lt : r.pos < subtreeEnd)
      (read : bsReadBits it.dict.sym.bitsPerSymbol r = (.ok (it.dict.sym.ctrlCodes .branch), r'))
      (notTerminal : ¬ it.dict.sym.IsTerminal (it.dict.sym.ctrlCodes .branch))
      (push : iterPushFrame subtreeEnd (it, r') = (.ok (), s)) :
      WalkStep it subtreeEnd r (.inl .sibling) s
  | yield {code : Nat} {r' : Reader} {item : IterItem} {s : Iter × Reader} (lt : r.pos < subtreeEnd)
      (read : bsReadBits it.dict.sym.bitsPerSymbol r = (.ok code, r'))
      (isTerminal : it.dict.sym.IsTerminal code)
      (terminal : YieldStep it subtreeEnd code r' item s) : WalkStep it subtreeEnd r (.inr item) s

theorem iterWalk_eq_ok {subtreeEnd : Nat} {out : IterMode ⊕ IterItem}
    (h : iterWalk subtreeEnd (it, r) = (.ok out, s)) : WalkStep it subtreeEnd r out s := by
  rw [iterWalk] at h
  obtain ⟨p, r', hp, h⟩ := It.rd_bind_eq_ok h
  obtain ⟨rfl, rfl⟩ : r.pos = p ∧ r = r' := by simpa [bsReaderPosition] using hp
  split at h
  · rename_i hge
    obtain ⟨rfl, rfl⟩ : .inl .sibling = out ∧ (it, r) = s := by simpa using h
    exact .leave hge
  rename_i hlt
  rw [It.get_bind] at h
  obtain ⟨code, r', hcode, h⟩ := It.rd_bind_eq_ok h
  split at h
  · rename_i hterm
    obtain ⟨index, ⟨it₁, r₁⟩, hindex, h⟩ := Op.bind_eq_ok h
    obtain ⟨p, r₂, hp, h⟩ := It.rd_bind_eq_ok h
    obtain ⟨rfl, rfl⟩ : r₁.pos = p ∧ r₁ = r₂ := by simpa [bsReaderPosition] using hp
    obtain ⟨_, s₁, hbranch, h⟩ := Op.bind_eq_ok h
    obtain ⟨val, s₂, hval, h⟩ := Op.bind_eq_ok h
    obtain ⟨it₂, r₂⟩ := s₂
    rw [It.get_bind] at h
    obtain ⟨rfl, rfl⟩ : .inr _ = out ∧ (it₂, r₂) = s := by simpa using h
    have hread : it₁ = it ∧ (code ≠ it.dict.sym.ctrlCodes .endVal ∧ r₁ = r' ∨
        code = it.dict.sym.ctrlCodes .endVal ∧ ∃ vi, bsReadVarintU r' = (.ok vi, r₁)) := by
      split at hindex
      · rename_i hcode
        obtain ⟨vi, r₃, hvi, hindex⟩ := It.rd_bind_eq_ok hindex
        obtain ⟨_, rfl, rfl⟩ : some vi = index ∧ it = it₁ ∧ r₃ = r₁ := by simpa using hindex
        exact ⟨rfl, .inr ⟨hcode, vi, hvi⟩⟩
      · rename_i hcode
        obtain ⟨_, rfl, rfl⟩ : none = index ∧ it = it₁ ∧ r' = r₁ := by simpa using hindex
        exact ⟨rfl, .inl ⟨hcode, rfl⟩⟩
    obtain ⟨rfl, hread⟩ := hread
    -- neither the frame nor the value touches the key
    have hframe : (r₁.pos ≥ subtreeEnd ∧ s₁ = (it₁, r₁) ∨ r₁.pos < subtreeEnd ∧ ∃ r₂,
        bsReadBits it₁.dict.sym.bitsPerSymbol r₁ = (.ok (it₁.dict.sym.ctrlCodes .branch), r₂) ∧
        iterPushFrame subtreeEnd (it₁, r₂) = (.ok (), s₁)) ∧
        s₁.1.keyBuf = it₁.keyBuf ∧ s₁.1.keyLen = it₁.keyLen := by
      split at hbranch
      · rename_i hlt'
        obtain ⟨branchSym, r₃, hsym, hbranch⟩ := It.rd_bind_eq_ok hbranch
        split at hbranch
        · simp at hbranch
        · rename_i heq
          rw [not_not] at heq
          refine ⟨.inr ⟨hlt', r₃, by rw [hsym, heq], hbranch⟩, ?_⟩
          obtain ⟨n, r₄, _, _, rfl⟩ := iterPushFrame_eq_ok hbranch
          exact ⟨rfl, rfl⟩
      · rename_i hge
        obtain rfl : (it₁, r₁) = s₁ := by simpa using hbranch
        exact ⟨.inl ⟨by omega, rfl⟩, rfl, rfl⟩
    obtain ⟨hframe, hbuf, hlen⟩ := hframe
    have hvalue : (val = .null ∧ (it₂, r₂) = s₁ ∨ ∃ vi, iterValueAt vi s₁ = (.ok val, (it₂, r₂))) ∧
        it₂.keyBuf = s₁.1.keyBuf ∧ it₂.keyLen = s₁.1.keyLen := by
      cases index with
      | none =>
        obtain ⟨rfl, rfl⟩ : Value.null = val ∧ s₁ = (it₂, r₂) := by simpa using hval
        exact ⟨.inl ⟨rfl, rfl⟩, rfl, rfl⟩
      | some vi =>
        obtain ⟨⟨p, i, hs⟩, _⟩ := iterValueAt_eq_ok hval
        obtain ⟨rfl, _⟩ := Prod.mk.inj hs
        exact ⟨.inr ⟨vi, hval⟩, rfl, rfl⟩
    obtain ⟨hvalue, hbuf', hlen'⟩ := hvalue
    refine .yield (by omega) hcode hterm ⟨?_, r₁, s₁, hread, hframe, hvalue⟩
    rw [hbuf', hlen', hbuf, hlen]
  rename_i hterm
  split at h
  · rename_i hbranch
    obtain ⟨_, s', hpush, h⟩ := Op.bind_eq_ok h
    obtain ⟨rfl, rfl⟩ : .inl .sibling = out ∧ s' = s := by simpa using h
    exact .branch (by omega) (by rw [hcode, hbranch]) (by rwa [hbranch] at hterm) hpush
  split at h
  · simp at h
  · obtain ⟨_, s', hpush, h⟩ := Op.bind_eq_ok h
    obtain ⟨rfl, rfl⟩ : .inl (.walk subtreeEnd) = out ∧ s' = s := by simpa using h
    rw [iterPushKey] at hpush
    obtain ⟨_, rfl⟩ := Prod.mk.inj hpush
    exact .byte _ (by omega) hcode

/-! ## On any bytes -/

/-- The iterator is over the dictionary, and the reader over its buffer. -/
structure It.Ready (d : Dict) (s : Iter × Reader) : Prop where
  dict_eq : s.1.dict = d
  sound : s.2.Sound
  buf_eq : s.2.buf = d.buf

/-- However it ends, the operation has touched nothing outside the buffer. -/
def It.Safe {α : Type} (d : Dict) (m : It α) : Prop :=
  ∀ s, It.Ready d s → It.Ready d (m s).2 ∧ ∀ e, (m s).1 = .error e → ∃ code, e = .rc code

section Safe

variable {d : Dict} {α β : Type}

theorem It.Safe.pure (a : α) : It.Safe d (pure a) := fun _ hs => ⟨hs, by simp⟩

theorem It.Safe.fail (code : TpErr) : It.Safe d (Op.fail code : It α) :=
  fun _ hs => ⟨hs, fun e he => ⟨code, by simpa using he.symm⟩⟩

theorem It.Safe.bind {m : It α} {f : α → It β} (hm : It.Safe d m) (hf : ∀ a, It.Safe d (f a)) :
    It.Safe d (m >>= f) := by
  intro s hs
  obtain ⟨hs', herr⟩ := hm s hs
  rcases hrun : m s with ⟨e | a, s'⟩
  · rw [Op.bind_error hrun]
    rw [hrun] at hs' herr
    exact ⟨hs', by simpa using herr⟩
  · rw [Op.bind_ok hrun]
    rw [hrun] at hs'
    exact hf a s' hs'

theorem It.Safe.rd {m : Rd α} (hm : Rd.Safe m) : It.Safe d (It.rd m) := by
  rintro ⟨it, r⟩ ⟨hdict, hsound, hbuf⟩
  obtain ⟨hs, hbuf', herr⟩ := hm r hsound
  exact ⟨⟨hdict, hs, hbuf'.trans hbuf⟩, herr⟩

theorem It.Safe.modify {f : Iter → Iter} (hf : ∀ it, (f it).dict = it.dict) :
    It.Safe d (It.modify f) := by
  rintro ⟨it, r⟩ ⟨hdict, hsound, hbuf⟩
  exact ⟨⟨(hf it).trans hdict, hsound, hbuf⟩, by simp [It.modify]⟩

theorem It.Safe.modify_bind {g : Iter → Iter} {f : Unit → It β}
    (hg : ∀ it, (g it).dict = it.dict) (hf : ∀ u, It.Safe d (f u)) :
    It.Safe d (It.modify g >>= f) := (It.Safe.modify hg).bind hf

theorem It.Safe.get_bind {f : Iter → It β} (hf : ∀ it, it.dict = d → It.Safe d (f it)) :
    It.Safe d (It.get >>= f) := by
  rintro ⟨it, r⟩ hs
  exact hf it hs.dict_eq _ hs

theorem bsReaderPosition_safe : Rd.Safe bsReaderPosition :=
  fun r hr => ⟨hr, rfl, by simp [bsReaderPosition]⟩

theorem iterPushFrame_safe (subtreeEnd : Nat) : It.Safe d (iterPushFrame subtreeEnd) := by
  refine (It.Safe.rd bsReadVarintU_safe).bind fun n => .get_bind fun it _ => ?_
  split
  · exact .fail _
  · exact (It.Safe.rd bsReaderPosition_safe).bind fun _ => .modify fun _ => rfl

theorem iterValueAt_safe (hd : d.Sound) (index : Nat) : It.Safe d (iterValueAt index) := by
  rintro ⟨it, r⟩ ⟨hdict, hsound, hbuf⟩
  rw [iterValueAt]
  split
  · exact ⟨⟨hdict, hsound, hbuf⟩, by simp⟩
  have hcreate : (bsReaderCreate it.dict.buf).Sound := .create (by rw [hdict]; exact hd.length_lt)
  obtain ⟨vr, hvr, _, ⟨code, hskip⟩ | ⟨_, hskip⟩⟩ :=
    (iterSeekValue_safe it index).cases hcreate
  · simp only [hskip]
    exact ⟨⟨hdict, hsound, hbuf⟩, by simp⟩
  · simp only [hskip]
    generalize hmoved : (if index ≠ it.valueIndex then
      { it with valuePos := vr.pos, valueIndex := index } else it) = moved
    have hdict' : moved.dict = d := by
      rw [← hmoved]
      split <;> exact hdict
    have hread : Rd.Safe (do bsReaderSeek moved.valuePos; valueDecode : Rd (Value Slice)) :=
      (bsReaderSeek_safe _).bind fun _ => valueDecode_safe
    obtain ⟨_, _, _, ⟨code, hdec⟩ | ⟨val, hdec⟩⟩ := hread.cases hvr
    · simp only [hdec]
      exact ⟨⟨hdict', hsound, hbuf⟩, by simp⟩
    · simp only [hdec]
      exact ⟨⟨hdict', hsound, hbuf⟩, by simp⟩

section Symbols

variable (hd : d.Sound)

include hd

theorem readSymbol_safe {it : Iter} (hit : it.dict = d) :
    It.Safe d (It.rd (bsReadBits it.dict.sym.bitsPerSymbol)) := by
  have hlow := hd.one_le
  have hhigh := hd.le_eight
  exact .rd (bsReadBits_safe (by rw [hit]; omega) (by rw [hit]; omega))

theorem iterTakeChild_safe (f : IterFrame) (frames : List IterFrame) :
    It.Safe d (iterTakeChild f frames) := by
  refine (It.Safe.rd (bsReaderSeek_safe _)).bind fun _ => .get_bind fun it hit => ?_
  dsimp only
  split
  · refine (readSymbol_safe hd hit).bind fun skipSym => ?_
    split
    · exact .fail _
    · exact (It.Safe.rd bsReadVarintU_safe).bind fun _ =>
        (It.Safe.rd bsReaderPosition_safe).bind fun _ =>
          .modify_bind (fun _ => rfl) fun _ => .pure _
  · exact .modify_bind (fun _ => rfl) fun _ => .pure _

theorem iterSibling_safe : It.Safe d iterSibling := by
  refine .modify_bind (fun _ => rfl) fun _ => .get_bind fun it hit => ?_
  split
  · exact .fail _
  · exact .modify_bind (fun _ => rfl) fun _ => (iterTakeChild_safe hd _ _).bind fun _ =>
      .get_bind fun it _ => (It.Safe.rd (bsReaderSeek_safe _)).bind fun _ => .pure _

theorem iterWalk_safe (subtreeEnd : Nat) : It.Safe d (iterWalk subtreeEnd) := by
  refine (It.Safe.rd bsReaderPosition_safe).bind fun pos => ?_
  split
  · exact .pure _
  refine .get_bind fun it hit => (readSymbol_safe hd hit).bind fun code => ?_
  split
  · refine It.Safe.bind ?_ fun index => (It.Safe.rd bsReaderPosition_safe).bind fun pos =>
      It.Safe.bind ?_ fun _ => It.Safe.bind ?_ fun val => .get_bind fun it _ => .pure _
    · split
      · exact (It.Safe.rd bsReadVarintU_safe).bind fun _ => .pure _
      · exact .pure _
    · split
      · refine (readSymbol_safe hd hit).bind fun branchSym => ?_
        split
        · exact .fail _
        · exact iterPushFrame_safe _
      · exact .pure _
    · split
      · exact .pure _
      · exact iterValueAt_safe hd _
  split
  · exact (iterPushFrame_safe _).bind fun _ => .pure _
  split
  · exact .fail _
  · exact .modify_bind (fun _ => rfl) fun _ => .pure _

theorem iterBody_safe (mode : IterMode) : It.Safe d (iterBody mode) := by
  cases mode with
  | sibling => exact (iterSibling_safe hd).bind fun _ => .pure _
  | walk subtreeEnd => exact iterWalk_safe hd subtreeEnd

end Symbols

end Safe

/-! ## The loop ends -/

/-- What is left to do: the frames, and the subtree that is being walked. -/
def iterMeasure : IterMode × Iter × Reader → Nat
  | (.sibling, it, _) => stackCost (8 * it.dict.buf.length) it.stack
  | (.walk _, it, r) => stackCost (8 * it.dict.buf.length) it.stack + (r.bitLen - r.pos) + 1 +
      branchCost (8 * it.dict.buf.length) (iterMaxDepth - it.stack.length)

theorem stackCost_dropWhile_le (bits : Nat) (p : IterFrame → Bool) (frames : List IterFrame) :
    stackCost bits (frames.dropWhile p) ≤ stackCost bits frames := by
  induction frames with
  | nil => exact Nat.le_refl _
  | cons f frames ih =>
    rw [List.dropWhile_cons]
    split
    · rw [stackCost]
      omega
    · exact Nat.le_refl _

/-- A new frame costs less than the BRANCH was accounted with. -/
theorem stackCost_pushFrame (bits : Nat) (f : IterFrame) (frames : List IterFrame)
    (hf : f.remaining < 2 ^ 32) (hdepth : frames.length < iterMaxDepth) :
    stackCost bits (f :: frames) ≤
      stackCost bits frames + branchCost bits (iterMaxDepth - frames.length) := by
  obtain ⟨room, hroom⟩ : ∃ room, iterMaxDepth - frames.length = room + 1 :=
    ⟨iterMaxDepth - frames.length - 1, by omega⟩
  have hroom' : iterMaxDepth - (frames.length + 1) = room := by omega
  rw [stackCost, hroom, hroom', branchCost, childCost]
  have hle := Nat.mul_le_mul_right (bits + 3 + branchCost bits room) hf.le
  omega

theorem iterBody_next {d : Dict} (hd : d.Sound) {mode mode' : IterMode} {s s' : Iter × Reader}
    (hs : It.Ready d s) (h : iterBody mode s = (.ok (.inl mode'), s')) :
    It.Ready d s' ∧ iterMeasure (mode', s') < iterMeasure (mode, s) := by
  have hs' : It.Ready d s' := by
    obtain ⟨hs', _⟩ := iterBody_safe hd mode s hs
    rwa [h] at hs'
  refine ⟨hs', ?_⟩
  obtain ⟨it, r⟩ := s
  obtain ⟨hdict, hr, hbuf⟩ := hs
  obtain ⟨hdict', hr', hbuf'⟩ := hs'
  replace hr : r.Sound := hr
  have hbits := hr.bitLen_eq
  have hbits' := hr'.bitLen_eq
  have hle' := hr'.pos_le
  simp only at hdict hbuf hbits
  rw [hbuf] at hbits
  rw [hbuf'] at hbits'
  cases mode with
  | sibling =>
    obtain ⟨mode'', s'', hsib, h⟩ := Op.bind_eq_ok h
    obtain ⟨rfl, rfl⟩ : mode'' = mode' ∧ s'' = s' := by simpa using h
    obtain ⟨f, frames, hstack, hcase⟩ := iterSibling_eq_ok hsib
    have hpos : f.remaining ≠ 0 := by
      have hhead := List.head?_dropWhile_not (fun f : IterFrame => f.remaining == 0) it.stack
      rw [hstack] at hhead
      simpa using hhead
    have hcost := stackCost_dropWhile_le (8 * d.buf.length) (fun f => f.remaining == 0) it.stack
    obtain ⟨n, hn⟩ : ∃ n, f.remaining = n + 1 := ⟨f.remaining - 1, by omega⟩
    rw [hstack, stackCost, hn, Nat.add_one_mul n, childCost] at hcost
    have hdrop : ∀ p : Nat,
        stackCost (8 * d.buf.length)
            ({ f with nextChildPos := p, remaining := f.remaining - 1 } :: frames) +
          8 * d.buf.length + 1 +
          branchCost (8 * d.buf.length) (iterMaxDepth - (frames.length + 1)) <
        stackCost (8 * d.buf.length) it.stack := by
      intro p
      rw [stackCost, childCost]
      simp only [hn, Nat.add_sub_cancel]
      omega
    obtain ⟨_, rfl, rfl⟩ | ⟨_, r₁, r₂, dist, _, _, rfl, rfl⟩ := hcase
    · have hlt := hdrop f.nextChildPos
      simp only [iterMeasure, hdict, List.length_cons] at hlt ⊢
      omega
    · have hlt := hdrop (u64 (r₂.pos + dist))
      simp only at hbits'
      simp only [iterMeasure, hdict, List.length_cons] at hlt ⊢
      omega
  | walk subtreeEnd =>
    have hlow := hd.one_le
    have hhigh := hd.le_eight
    cases iterWalk_eq_ok h with
    | leave ge =>
      simp only [iterMeasure]
      omega
    | @byte code r' b lt read =>
      obtain ⟨hlt, _⟩ := pos_lt_of_readBits (by rw [hdict]; omega) (by rw [hdict]; omega) hr read
      simp only [iterMeasure, Iter.pushKey] at hle' hbits' ⊢
      omega
    | @branch r' s lt read _ push =>
      obtain ⟨n, r'', _, hdepth, rfl⟩ := iterPushFrame_eq_ok push
      have hcost := stackCost_pushFrame (8 * d.buf.length)
        ⟨subtreeEnd, r''.pos, u32 n, it.keyLen⟩ it.stack (u32_lt n) hdepth
      simp only [iterMeasure, hdict] at hcost ⊢
      omega

/-- The loop of `tp_iter_next` ends on any bytes. -/
theorem iter_run_isSome {d : Dict} (hd : d.Sound) {mode : IterMode} {s : Iter × Reader}
    (hs : It.Ready d s) {fuel : Nat} (hf : iterMeasure (mode, s) < fuel) :
    (WhileLoop.run (Op.loopStep iterBody) fuel (mode, s)).isSome :=
  Op.run_isSome_of_measure (I := It.Ready d) (μ := iterMeasure)
    (fun _ _ _ _ hr h => iterBody_next hd hr h) hs hf

theorem iterMeasure_sibling_lt (it : Iter) (r : Reader) : iterMeasure (.sibling, it, r) < iterFuel it := by
  simp only [iterMeasure, iterFuel]
  omega

theorem iterMeasure_walk_lt {it : Iter} {r : Reader} (h : r.bitLen ≤ 8 * it.dict.buf.length)
    (subtreeEnd : Nat) : iterMeasure (.walk subtreeEnd, it, r) < iterFuel it := by
  simp only [iterMeasure, iterFuel, childCost]
  omega

end Triepack
