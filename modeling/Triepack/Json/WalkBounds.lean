import Triepack.Core.Calls
import Triepack.Json.Decode

/-!
# The walk stays in its arrays

Whatever the bytes of an opened dictionary, `extract_entries` comes to an end, and it writes to its
key buffer, its stack and its list of entries within their bounds.
-/

namespace Triepack

open JsonText

/-! ## Operations that yield a result of a kind -/

/-- From a sound reader the operation ends with a result code or yields what it should. -/
def Rd.Yields {α : Type} (m : Rd α) (Q : α → Prop) : Prop :=
  ∀ r : Reader, r.Sound → (m r).2.Sound ∧ (m r).2.buf = r.buf ∧
    ((∃ code, (m r).1 = .error (.rc code)) ∨ ∃ a, (m r).1 = .ok a ∧ Q a)

section Yields

variable {α β : Type} {Q : α → Prop} {R : β → Prop}

theorem Rd.Yields.pure {a : α} (h : Q a) : Rd.Yields (pure a) Q :=
  fun _ hr => ⟨hr, rfl, .inr ⟨a, rfl, h⟩⟩

theorem Rd.Yields.fail (code : TpErr) : Rd.Yields (Op.fail code : Rd α) Q :=
  fun _ hr => ⟨hr, rfl, .inl ⟨code, rfl⟩⟩

theorem Rd.Yields.lift {x : Except Stop α} (h : ∃ a, x = .ok a ∧ Q a) : Rd.Yields (Rd.lift x) Q := by
  obtain ⟨a, rfl, ha⟩ := h
  exact fun _ hr => ⟨hr, rfl, .inr ⟨a, rfl, ha⟩⟩

theorem Rd.Yields.bind {m : Rd α} {f : α → Rd β} (hm : Rd.Yields m Q)
    (hf : ∀ a, Q a → Rd.Yields (f a) R) : Rd.Yields (m >>= f) R := by
  intro r hr
  obtain ⟨hs, hbuf, hcase⟩ := hm r hr
  rcases hrun : m r with ⟨x, r'⟩
  rw [hrun] at hs hbuf hcase
  obtain ⟨code, hx⟩ | ⟨a, hx, ha⟩ := hcase
  · obtain rfl : x = .error (.rc code) := hx
    rw [Op.bind_error hrun]
    exact ⟨hs, hbuf, .inl ⟨code, rfl⟩⟩
  · obtain rfl : x = .ok a := hx
    rw [Op.bind_ok hrun]
    obtain ⟨hs', hbuf', hcase'⟩ := hf a ha r' hs
    exact ⟨hs', hbuf'.trans hbuf, hcase'⟩

theorem Rd.Safe.yields {m : Rd α} (h : Rd.Safe m) : Rd.Yields m fun _ => True := by
  intro r hr
  obtain ⟨hs, hbuf, herror⟩ := h r hr
  refine ⟨hs, hbuf, ?_⟩
  cases hx : (m r).1 with
  | error e =>
    obtain ⟨code, rfl⟩ := herror e hx
    exact .inl ⟨code, rfl⟩
  | ok a => exact .inr ⟨a, rfl, trivial⟩

end Yields

/-! ## One iteration -/

/-- The lengths of what the walk keeps in its arrays. -/
structure WalkBounds (d : Dict) (w : Walk) : Prop where
  key_lt : w.key.length < keyBufSize
  stack_le : w.stack.length ≤ walkDepth
  entries_le : w.entries.length ≤ dictCount d
  keys_lt : ∀ e ∈ w.entries, e.key.length < keyBufSize

section Body

variable {d : Dict} (hd : d.Sound) {w : Walk}

include hd

theorem readSkip_yields : Rd.Yields (readSkip d.sym) fun _ => True :=
  (bsReadBits_safe hd.one_le (by have := hd.le_eight; omega)).yields.bind fun _ _ =>
    bsReadVarintU_safe.yields.bind fun _ _ => .pure trivial

/-- A lookup in between never stops the walk. -/
theorem foundValue_ok (key : List UInt8) : ∃ val, foundValue d key = .ok val := by
  rw [foundValue]
  cases hlookup : dictLookupN d key with
  | ok val => exact ⟨val, rfl⟩
  | error e =>
    obtain ⟨code, rfl⟩ := dictLookupN_safe hd hlookup
    exact ⟨.null, rfl⟩

theorem recordEntry_bounds (hw : WalkBounds d w) :
    ∃ w', recordEntry d w = .ok w' ∧ WalkBounds d w' := by
  rw [recordEntry]
  split_ifs with hlt
  · obtain ⟨val, hval⟩ := foundValue_ok hd w.key
    rw [hval, except_ok_bind, putAt, if_pos hlt, except_ok_bind]
    refine ⟨_, rfl, hw.key_lt, hw.stack_le, ?_, ?_⟩
    · rw [List.length_append, List.length_singleton]
      omega
    · intro e he
      obtain he | he := List.mem_append.mp he
      · exact hw.keys_lt e he
      · obtain rfl := List.mem_singleton.mp he
        exact hw.key_lt
  · exact ⟨w, rfl, hw⟩

theorem popFrames_bounds (hw : WalkBounds d w) :
    Rd.Yields (popFrames d.sym w) fun x => WalkBounds d (x.elim id id) := by
  have hdrop := (List.dropWhile_sublist (fun f : WalkFrame => f.remaining == 0) (l := w.stack)).length_le
  intro r hr
  rw [popFrames]
  split
  · exact ⟨hr, rfl, .inr ⟨_, rfl, hw.key_lt, Nat.zero_le _, hw.entries_le, hw.keys_lt⟩⟩
  · rename_i f frames hframes
    rw [hframes, List.length_cons] at hdrop
    have hbounds : WalkBounds d { w with
        key := w.key.take f.keyLen
        stack := { f with remaining := f.remaining - 1 } :: frames } := by
      refine ⟨?_, ?_, hw.entries_le, hw.keys_lt⟩
      · exact (List.length_take_le' _ _).trans_lt hw.key_lt
      · rw [List.length_cons]
        exact hdrop.trans hw.stack_le
    dsimp only
    split_ifs
    · exact ⟨hr, rfl, .inr ⟨_, rfl, hbounds⟩⟩
    · obtain ⟨hs, hbuf, hcase⟩ := readSkip_yields hd r hr
      rcases hskip : readSkip d.sym r with ⟨x, r'⟩
      rw [hskip] at hs hbuf hcase
      obtain ⟨code, hx⟩ | ⟨_, hx, -⟩ := hcase
      · obtain rfl : x = .error (.rc code) := hx
        exact ⟨hs, hbuf, .inr ⟨_, rfl, hbounds⟩⟩
      · obtain rfl : x = .ok () := hx
        exact ⟨hs, hbuf, .inr ⟨_, rfl, hbounds⟩⟩

theorem pushFrame_bounds (hw : WalkBounds d w) :
    Rd.Yields (pushFrame d.sym w) (WalkBounds d) := by
  refine bsReadVarintU_safe.yields.bind fun childCount _ => ?_
  split_ifs with hfull hmany
  · exact .fail _
  · have hpush : ∀ f, pushAt walkDepth w.stack f = .ok (f :: w.stack) := fun f => if_pos (by omega)
    refine Rd.Yields.bind (Q := fun stack => stack.length ≤ walkDepth) (.lift ⟨_, hpush _, ?_⟩)
      fun stack hstack => (readSkip_yields hd).bind fun _ _ =>
        .pure ⟨hw.key_lt, hstack, hw.entries_le, hw.keys_lt⟩
    rw [List.length_cons]
    omega
  · have hpush : ∀ f, pushAt walkDepth w.stack f = .ok (f :: w.stack) := fun f => if_pos (by omega)
    refine Rd.Yields.bind (Q := fun stack => stack.length ≤ walkDepth) (.lift ⟨_, hpush _, ?_⟩)
      fun stack hstack => .pure ⟨hw.key_lt, hstack, hw.entries_le, hw.keys_lt⟩
    rw [List.length_cons]
    omega

omit hd in
theorem appendSymbol_bounds (hw : WalkBounds d w) (code : Nat) :
    ∃ w', appendSymbol d.sym code w = .ok w' ∧ WalkBounds d w' := by
  rw [appendSymbol]
  generalize (if code < 256 then code else 0) = index
  generalize (if code < 256 then d.sym.reverseMap code else 0) = byte
  split_ifs with hctrl hroom
  · exact ⟨w, rfl, hw⟩
  · rw [putAt, if_pos hw.key_lt, except_ok_bind]
    refine ⟨_, rfl, ?_, hw.stack_le, hw.entries_le, hw.keys_lt⟩
    rw [List.length_append, List.length_singleton]
    omega
  · exact ⟨w, rfl, hw⟩

/-- Every iteration keeps to the arrays. -/
theorem extractBody_bounds (hw : WalkBounds d w) :
    Rd.Yields (extractBody d w) fun x => WalkBounds d (x.elim id id) := by
  rw [extractBody]
  split_ifs with hmore
  swap
  · exact .pure hw
  refine (bsReadBits_safe hd.one_le (by have := hd.le_eight; omega)).yields.bind fun code _ => ?_
  split_ifs
  · exact (Rd.Yields.lift (recordEntry_bounds hd hw)).bind fun w' hw' => popFrames_bounds hd hw'
  · exact bsReadVarintU_safe.yields.bind fun _ _ =>
      (Rd.Yields.lift (recordEntry_bounds hd hw)).bind fun w' hw' => popFrames_bounds hd hw'
  · exact (pushFrame_bounds hd hw).bind fun w' hw' => .pure hw'
  · exact bsReadVarintU_safe.yields.bind fun _ _ => .pure hw
  · exact (Rd.Yields.lift (appendSymbol_bounds hw code)).bind fun w' hw' => .pure hw'

/-! ## Progress -/

variable {r r' : Reader}

theorem readSkip_pos (hr : r.Sound) (h : readSkip d.sym r = (.ok (), r')) : r.pos ≤ r'.pos := by
  obtain ⟨_, r₁, hbits, h⟩ := Op.bind_eq_ok h
  obtain ⟨_, r₂, hvarint, h⟩ := Op.bind_eq_ok h
  obtain ⟨hlt, hr₁, -⟩ := pos_lt_of_readBits hd.one_le (by have := hd.le_eight; omega) hr hbits
  obtain ⟨hlt', -⟩ := pos_lt_of_readVarint hr₁ hvarint
  obtain rfl : r₂ = r' := (Prod.mk.inj h).2
  omega

theorem popFrames_pos (hr : r.Sound) {w' : Walk} (h : popFrames d.sym w r = (.ok (.inl w'), r')) :
    r.pos ≤ r'.pos := by
  rw [popFrames] at h
  split at h
  · rw [(Prod.mk.inj h).2]
  · dsimp only at h
    split_ifs at h
    · rw [(Prod.mk.inj h).2]
    · split at h
      · rename_i r₁ hskip
        obtain rfl : r₁ = r' := (Prod.mk.inj h).2
        exact readSkip_pos hd hr hskip
      · simp at h
      · simp at h

omit hd in
theorem Rd.lift_eq_ok {α : Type} {x : Except Stop α} {a : α} (h : Rd.lift x r = (.ok a, r')) :
    x = .ok a ∧ r = r' := Prod.mk.inj h

theorem pushFrame_pos (hr : r.Sound) {w' : Walk} (h : pushFrame d.sym w r = (.ok w', r')) :
    r.pos ≤ r'.pos := by
  obtain ⟨childCount, r₁, hvarint, h⟩ := Op.bind_eq_ok h
  obtain ⟨hlt, hr₁, -⟩ := pos_lt_of_readVarint hr hvarint
  split_ifs at h
  · simp at h
  · obtain ⟨_, r₂, hpush, h⟩ := Op.bind_eq_ok h
    obtain ⟨-, rfl⟩ := Rd.lift_eq_ok hpush
    obtain ⟨_, r₃, hskip, h⟩ := Op.bind_eq_ok h
    obtain rfl : r₃ = r' := (Prod.mk.inj h).2
    have hle := readSkip_pos hd hr₁ hskip
    omega
  · obtain ⟨_, r₂, hpush, h⟩ := Op.bind_eq_ok h
    obtain ⟨-, rfl⟩ := Rd.lift_eq_ok hpush
    obtain rfl : r₁ = r' := (Prod.mk.inj h).2
    omega

/-- An iteration that goes on has read a symbol. -/
theorem extractBody_next (hr : r.Sound) {w' : Walk} (h : extractBody d w r = (.ok (.inl w'), r')) :
    r.pos < r'.pos := by
  rw [extractBody] at h
  split_ifs at h
  swap
  · simp at h
  obtain ⟨code, r₁, hbits, h⟩ := Op.bind_eq_ok h
  obtain ⟨hlt, hr₁, -⟩ := pos_lt_of_readBits hd.one_le (by have := hd.le_eight; omega) hr hbits
  split_ifs at h
  · obtain ⟨w₁, r₂, hrecord, h⟩ := Op.bind_eq_ok h
    obtain ⟨-, rfl⟩ := Rd.lift_eq_ok hrecord
    have hle := popFrames_pos hd hr₁ h
    omega
  · obtain ⟨_, r₂, hvarint, h⟩ := Op.bind_eq_ok h
    obtain ⟨hlt', hr₂, -⟩ := pos_lt_of_readVarint hr₁ hvarint
    obtain ⟨w₁, r₃, hrecord, h⟩ := Op.bind_eq_ok h
    obtain ⟨-, rfl⟩ := Rd.lift_eq_ok hrecord
    have hle := popFrames_pos hd hr₂ h
    omega
  · obtain ⟨w₁, r₂, hpush, h⟩ := Op.bind_eq_ok h
    have hle := pushFrame_pos hd hr₁ hpush
    obtain rfl : r₂ = r' := (Prod.mk.inj h).2
    omega
  · obtain ⟨_, r₂, hvarint, h⟩ := Op.bind_eq_ok h
    obtain ⟨hlt', -⟩ := pos_lt_of_readVarint hr₁ hvarint
    obtain rfl : r₂ = r' := (Prod.mk.inj h).2
    omega
  · obtain ⟨w₁, r₂, happend, h⟩ := Op.bind_eq_ok h
    obtain ⟨-, rfl⟩ := Rd.lift_eq_ok happend
    obtain rfl : r₁ = r' := (Prod.mk.inj h).2
    exact hlt

end Body

/-! ## The walk -/

section Run

variable {d : Dict} (hd : d.Sound)

include hd

/-- The walk ends with a result code or with what it has found. -/
theorem extractWalk_bounds {r : Reader} (hr : r.Sound) (hbuf : r.buf = d.buf) :
    (∃ code, (extractWalk d r).1 = .error (.rc code)) ∨
      ∃ w, (extractWalk d r).1 = .ok w ∧ WalkBounds d w := by
  obtain ⟨r₁, hr₁, hbuf₁, ⟨code, hseek⟩ | ⟨_, hseek⟩⟩ := (bsReaderSeek_safe d.trieStart).cases hr
  · exact .inl ⟨code, by rw [extractWalk, Op.bind_error hseek]⟩
  rw [extractWalk, Op.bind_ok hseek]
  have hstart : WalkBounds d ⟨[], [], []⟩ :=
    ⟨by decide, Nat.zero_le _, Nat.zero_le _, by simp⟩
  have hends : (WhileLoop.run (Op.loopStep (extractBody d)) (8 * d.buf.length + 2)
      (⟨[], [], []⟩, r₁)).isSome := by
    refine WhileLoop.run_isSome_of_measure
      (I := fun x => WalkBounds d x.1 ∧ x.2.Sound ∧ x.2.buf = d.buf)
      (μ := fun x => 8 * d.buf.length - x.2.pos) ?_ ⟨hstart, hr₁, hbuf₁.trans hbuf⟩ (by simp only; omega)
    rintro ⟨w, r⟩ ⟨w', r'⟩ ⟨hw, hr, hbuf⟩ hstep
    have hbody := Op.loopStep_eq_inl hstep
    obtain ⟨hr', hbuf', hcase⟩ := extractBody_bounds hd hw r hr
    have hlt := extractBody_next hd hr hbody
    rw [hbody] at hr' hbuf' hcase
    have hlen := hr'.bitLen_eq
    have hle := hr'.pos_le
    simp only at hbuf hbuf' hlen hle hr' hlt ⊢
    rw [hbuf', hbuf] at hlen
    obtain ⟨_, hx⟩ | ⟨_, hx, hw'⟩ := hcase
    · simp at hx
    · obtain rfl := Except.ok.inj hx
      exact ⟨⟨hw', hr', hbuf'.trans hbuf⟩,
        show 8 * d.buf.length - r'.pos < 8 * d.buf.length - r.pos by omega⟩
  obtain ⟨out, hrun⟩ := Option.isSome_iff_exists.mp hends
  have hloop : Op.loop (extractBody d) (8 * d.buf.length + 2) ⟨[], [], []⟩ r₁ = out := by
    rw [Op.loop, hrun]
  rw [hloop]
  refine WhileLoop.Returns.invariant (I := fun x => WalkBounds d x.1 ∧ x.2.Sound)
    (Q := fun out => (∃ code, out.1 = .error (.rc code)) ∨ ∃ w, out.1 = .ok w ∧ WalkBounds d w)
    ?_ ?_ ⟨_, hrun⟩ ⟨hstart, hr₁⟩
  · rintro ⟨w, r⟩ ⟨w', r'⟩ ⟨hw, hr⟩ hstep
    have hbody := Op.loopStep_eq_inl hstep
    obtain ⟨hr', -, hcase⟩ := extractBody_bounds hd hw r hr
    rw [hbody] at hr' hcase
    obtain ⟨_, hx⟩ | ⟨_, hx, hw'⟩ := hcase
    · simp at hx
    · obtain rfl := Except.ok.inj hx
      exact ⟨hw', hr'⟩
  · rintro ⟨w, r⟩ out ⟨hw, hr⟩ hstep
    obtain ⟨-, -, hcase⟩ := extractBody_bounds hd hw r hr
    rcases hbody : extractBody d w r with ⟨x, r'⟩
    rw [hbody] at hcase
    obtain ⟨code, hx⟩ | ⟨x, hx, hw'⟩ := hcase
    · obtain rfl := hx
      obtain rfl := Sum.inr.inj ((Op.loopStep_error hbody).symm.trans hstep)
      exact .inl ⟨code, rfl⟩
    · obtain rfl := hx
      cases x with
      | inl w' => simp [Op.loopStep_next hbody] at hstep
      | inr w' =>
        obtain rfl := Sum.inr.inj ((Op.loopStep_done hbody).symm.trans hstep)
        exact .inr ⟨w', rfl, hw'⟩

end Run

/-- What is extracted from any bytes: the list is not longer than the dictionary counts, and the
keys not longer than their buffer. -/
structure ExtractBounds (d : Dict) (es : List FlatEntry) : Prop where
  entries_le : es.length ≤ dictCount d
  keys_lt : ∀ e ∈ es, e.key.length < keyBufSize

theorem perm_sortFlat (qs : FlatQsort) (es : List FlatEntry) : (sortFlat qs es).Perm es := by
  rw [sortFlat]
  split_ifs
  · exact qs.perm es
  · exact .refl es

theorem lookupRootType_ok {d : Dict} (hd : d.Sound) : ∃ rootType, lookupRootType d = .ok rootType := by
  rw [lookupRootType]
  cases hlookup : dictLookup d jsonMetaRoot with
  | ok val => exact ⟨_, rfl⟩
  | error e =>
    obtain ⟨code, rfl⟩ := dictLookupN_safe hd hlookup
    exact ⟨_, rfl⟩

/-- `extract_entries` comes to an end and stays in its arrays. -/
theorem extractEntries_bounds {b : Buffer} {d : Dict} (hopen : dictOpen b.bytes = .ok d)
    (qs : FlatQsort) : (∃ code, extractEntries qs b.bytes = .error (.rc code)) ∨
      ∃ es rootType, extractEntries qs b.bytes = .ok (es, rootType) ∧ ExtractBounds d es := by
  obtain ⟨hd, hbuf⟩ := dictOpenImpl_sound hopen
  rw [extractEntries, hopen, except_ok_bind]
  obtain ⟨code, hwalk⟩ | ⟨w, hwalk, hw⟩ :=
    extractWalk_bounds hd (Reader.Sound.create b.length_lt) hbuf.symm
  · exact .inl ⟨code, by rw [hwalk]; rfl⟩
  · obtain ⟨rootType, hroot⟩ := lookupRootType_ok hd
    rw [hwalk, except_ok_bind, hroot, except_ok_bind]
    have hperm := perm_sortFlat qs (w.entries.filter fun e => decide (IsPlain e.key))
    refine .inr ⟨_, _, rfl, ?_, fun e he => ?_⟩
    · rw [hperm.length_eq]
      exact (List.length_filter_le _ _).trans hw.entries_le
    · exact hw.keys_lt e (List.mem_of_mem_filter (hperm.mem_iff.mp he))

end Triepack
