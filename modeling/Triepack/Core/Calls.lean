import Triepack.Core.PrefixSearch

/-!
# Sequences of calls on any dictionary

What holds of iterators on a dictionary that opened, whatever its bytes: which ones calls lead
to, how a call of `tp_iter_next` enters its loop, and that every call ends inside the buffer.
-/

namespace Triepack

open BitString WhileLoop

/-- The ways to an iterator. -/
inductive IterKind where
  | iterate
  | findPrefix (str : List UInt8)

def IterKind.obtain (fuel : Nat) (d : Dict) : IterKind → Except Stop Iter
  | .iterate => .ok (dictIterate d)
  | .findPrefix str => dictFindPrefix fuel d str

/-- The iterators that calls lead to. -/
inductive Reachable (d : Dict) : Iter → Prop
  | obtained {fuel : Nat} {kind : IterKind} {it : Iter} (h : kind.obtain fuel d = .ok it) :
      Reachable d it
  | next {it : Iter} (h : Reachable d it) : Reachable d (iterNext it).2
  | reset {it : Iter} (h : Reachable d it) : Reachable d (iterReset it)

/-- An obtained iterator is a new one, over a part of the trie or marked as done. -/
theorem IterKind.obtain_eq_ok {fuel : Nat} {d : Dict} {kind : IterKind} {it : Iter}
    (h : kind.obtain fuel d = .ok it) :
    it.dict = d ∧ it.stack = [] ∧ it.started = false ∧ it.valuePos = d.valueStart ∧
      it.valueIndex = 0 ∧ it.rootKeyLen ≤ it.keyBuf.length ∧
      (it.rootPos = d.trieStart ∧ it.rootEnd = d.valueStart ∨
        ∃ fuel pre, descendToPrefix fuel d pre = .ok (it.rootPos, it.rootEnd)) := by
  cases kind with
  | iterate =>
    obtain rfl : dictIterate d = it := Except.ok.inj h
    exact ⟨rfl, rfl, rfl, rfl, rfl, Nat.le_refl _, .inl ⟨rfl, rfl⟩⟩
  | findPrefix str =>
    rw [IterKind.obtain, dictFindPrefix] at h
    split at h
    · obtain rfl : dictIterate d = it := Except.ok.inj h
      exact ⟨rfl, rfl, rfl, rfl, rfl, Nat.le_refl _, .inl ⟨rfl, rfl⟩⟩
    · split at h
      · obtain rfl := Except.ok.inj h
        exact ⟨rfl, rfl, rfl, rfl, rfl, Nat.le_refl _, .inl ⟨rfl, rfl⟩⟩
      · simp at h
      · rename_i hfind
        obtain rfl := Except.ok.inj h
        exact ⟨rfl, rfl, rfl, rfl, rfl, Nat.le_refl _, .inr ⟨fuel, _, hfind⟩⟩

/-! ## One call -/

/-- Where the loop of `tp_iter_next` is entered. -/
inductive IterEntry (it : Iter) : IterMode × Iter × Reader → Prop
  | first (notStarted : it.started = false)
      (le : it.rootPos ≤ (bsReaderCreate it.dict.buf).bitLen) :
      IterEntry it (.walk it.rootEnd,
        { it with started := true, pos := it.rootPos, keyLen := it.rootKeyLen },
        { bsReaderCreate it.dict.buf with pos := it.rootPos })
  | later (started : it.started = true) :
      IterEntry it (.sibling, it, bsReaderCreate it.dict.buf)

/-- A key comes from a loop that was entered on an iterator that is not done. -/
theorem iterNext_eq_ok {it it' : Iter} {item : IterItem} (h : iterNext it = (.ok item, it')) :
    it.done = false ∧ it.dict.info.numKeys ≠ 0 ∧ ∃ s r', IterEntry it s ∧
      Returns (Op.loopStep iterBody) s (.ok item, it', r') := by
  have hreturns : ∀ {mode : IterMode} {it₁ : Iter} {r r' : Reader},
      Op.loop iterBody (iterFuel it) mode (it₁, r) = (.ok item, it', r') →
      Returns (Op.loopStep iterBody) (mode, it₁, r) (.ok item, it', r') := by
    intro mode it₁ r r' hloop
    rw [Op.loop] at hloop
    split at hloop
    · rename_i out hrun
      exact ⟨_, hloop ▸ hrun⟩
    · simp at hloop
  rw [iterNext] at h
  split at h
  · simp at h
  rename_i hlive
  split at h
  · simp at h
  rename_i hkeys
  refine ⟨by simpa using hlive, hkeys, ?_⟩
  rcases hrun : iterRun it (it, bsReaderCreate it.dict.buf) with ⟨e | item', it₁, r'⟩
  · simp [hrun] at h
  · simp only [hrun] at h
    obtain ⟨rfl, rfl⟩ : item' = item ∧ it₁ = it' := by simpa using h
    rw [iterRun] at hrun
    split at hrun
    · rename_i hstarted
      rw [It.modify_bind] at hrun
      obtain ⟨u, r, hseek, hrun⟩ := It.rd_bind_eq_ok hrun
      obtain ⟨hle, rfl⟩ := bsReaderSeek_eq_ok hseek
      exact ⟨_, r', .first (by simpa using hstarted) hle, hreturns hrun⟩
    · rename_i hstarted
      exact ⟨_, r', .later (by simpa using hstarted), hreturns hrun⟩

/-- A lookup that fails does so with a result code, having read nothing outside the buffer. -/
theorem dictLookupN_safe {d : Dict} (hd : d.Sound) {key : List UInt8} {e : Stop}
    (h : dictLookupN d key = .error e) : ∃ code, e = .rc code := by
  rw [dictLookupN] at h
  split at h
  · exact ⟨.notFound, by simpa using h.symm⟩
  rcases hvalue : lookupValue d key (bsReaderCreate d.buf) with ⟨e' | v, r⟩
  swap
  · simp [hvalue] at h
  obtain rfl : e' = e := by simpa [hvalue] using h
  obtain ⟨r₁, hr₁, hbuf₁, ⟨code, hseek⟩ | ⟨_, hseek⟩⟩ :=
    (bsReaderSeek_safe d.trieStart).cases (Reader.Sound.create hd.length_lt)
  · rw [lookupValue, Op.bind_error hseek] at hvalue
    exact ⟨code, by simpa using (congrArg Prod.fst hvalue).symm⟩
  obtain ⟨out, hrun⟩ := Option.isSome_iff_exists.mp (lookup_run_isSome hd key hr₁ hbuf₁)
  have hloop : Op.loop (lookupBody d.sym key) (lookupFuel d key) (0, false) r₁ = out := by
    rw [Op.loop, hrun]
  have hout : out.2.Sound ∧ ∀ e, out.1 = .error e → ∃ code, e = .rc code := by
    refine Returns.invariant (I := fun x => x.2.Sound)
      (Q := fun out => out.2.Sound ∧ ∀ e, out.1 = .error e → ∃ code, e = .rc code)
      ?_ ?_ ⟨_, hrun⟩ hr₁
    · rintro ⟨s, r⟩ ⟨t, r'⟩ hs hstep
      have hsafe := (lookupBody_safe hd.one_le hd.le_eight key s r hs).1
      rwa [Op.loopStep_eq_inl hstep] at hsafe
    · rintro ⟨s, r⟩ out hs hstep
      obtain ⟨r', hr', _, ⟨code, hcase⟩ | ⟨a, hcase⟩⟩ :=
        (lookupBody_safe hd.one_le hd.le_eight key s).cases hs
      · obtain rfl := Sum.inr.inj ((Op.loopStep_error hcase).symm.trans hstep)
        exact ⟨hr', by simp⟩
      · cases a with
        | inl t => simp [Op.loopStep_next hcase] at hstep
        | inr a =>
          obtain rfl := Sum.inr.inj ((Op.loopStep_done hcase).symm.trans hstep)
          exact ⟨hr', by simp⟩
  obtain ⟨result, r₂⟩ := out
  rw [lookupValue, Op.bind_ok hseek] at hvalue
  cases result with
  | error e =>
    rw [Op.bind_error hloop] at hvalue
    obtain rfl : e = e' := by simpa using congrArg Prod.fst hvalue
    exact hout.2 e rfl
  | ok found =>
    rw [Op.bind_ok hloop] at hvalue
    cases found with
    | none => simp at hvalue
    | some valueIndex =>
      have hrest : Rd.Safe (if d.info.hasValues then do
          bsReaderSeek d.valueStart
          skipValues valueIndex
          valueDecode
        else return .null : Rd (Value Slice)) := by
        split
        · exact (bsReaderSeek_safe _).bind fun _ => (skipValues_safe _).bind fun _ =>
            valueDecode_safe
        · exact .pure _
      exact (hrest r₂ hout.1).2.2 e' (congrArg Prod.fst hvalue)

/-- However a call ends, the iterator stays over its dictionary, the call has read nothing
outside the buffer, and only a call that gave a key leaves the iterator live. -/
theorem iterNext_safe {d : Dict} (hd : d.Sound) {it : Iter} (hit : it.dict = d) :
    (iterNext it).2.dict = d ∧
      ∀ e, (iterNext it).1 = .error e → (∃ code, e = .rc code) ∧ (iterNext it).2.done = true := by
  -- the loop, entered at any place that is ready
  have hloop : ∀ {mode : IterMode} {s : Iter × Reader}, It.Ready d s →
      iterMeasure (mode, s) < iterFuel it →
      (Op.loop iterBody (iterFuel it) mode s).2.1.dict = d ∧
        ∀ e, (Op.loop iterBody (iterFuel it) mode s).1 = .error e → ∃ code, e = .rc code := by
    intro mode s hs hfuel
    obtain ⟨out, hrun⟩ := Option.isSome_iff_exists.mp (iter_run_isSome hd hs hfuel)
    rw [Op.loop, hrun]
    refine Returns.invariant (I := fun x => It.Ready d x.2)
      (Q := fun out => out.2.1.dict = d ∧ ∀ e, out.1 = .error e → ∃ code, e = .rc code)
      ?_ ?_ ⟨_, hrun⟩ hs
    · rintro ⟨mode, s⟩ ⟨mode', s'⟩ hs hstep
      have hready := (iterBody_safe hd mode s hs).1
      rwa [Op.loopStep_eq_inl hstep] at hready
    · rintro ⟨mode, s⟩ out hs hstep
      obtain ⟨hready, herr⟩ := iterBody_safe hd mode s hs
      rcases hbody : iterBody mode s with ⟨e | a, s'⟩
      · rw [hbody] at hready herr
        obtain rfl := Sum.inr.inj ((Op.loopStep_error hbody).symm.trans hstep)
        exact ⟨hready.dict_eq, by simpa using herr⟩
      · rw [hbody] at hready
        cases a with
        | inl mode' => simp [Op.loopStep_next hbody] at hstep
        | inr item =>
          obtain rfl := Sum.inr.inj ((Op.loopStep_done hbody).symm.trans hstep)
          exact ⟨hready.dict_eq, by simp⟩
  have hcreate : (bsReaderCreate it.dict.buf).Sound := by
    rw [hit]
    exact .create hd.length_lt
  have hrun : (iterRun it (it, bsReaderCreate it.dict.buf)).2.1.dict = d ∧
      ∀ e, (iterRun it (it, bsReaderCreate it.dict.buf)).1 = .error e → ∃ code, e = .rc code := by
    rw [iterRun]
    split
    · rw [It.modify_bind]
      obtain ⟨r, hr, hbuf, ⟨code, hseek⟩ | ⟨_, hseek⟩⟩ :=
        (bsReaderSeek_safe it.rootPos).cases hcreate
      · rw [It.rd_bind_error hseek]
        exact ⟨hit, by simp⟩
      · rw [It.rd_bind_ok hseek]
        have hlen := hr.bitLen_eq
        rw [hbuf] at hlen
        have hmeasure := @iterMeasure_walk_lt
          { it with started := true, pos := it.rootPos, keyLen := it.rootKeyLen } r hlen.le it.rootEnd
        exact hloop ⟨hit, hr, hbuf.trans (by rw [hit]; rfl)⟩ hmeasure
    · exact hloop ⟨hit, hcreate, by rw [hit]; rfl⟩ (iterMeasure_sibling_lt it _)
  rw [iterNext]
  split
  · rename_i hdone
    exact ⟨hit, fun e he => ⟨⟨.eof, by simpa using he.symm⟩, hdone⟩⟩
  split
  · exact ⟨hit, fun e he => ⟨⟨.eof, by simpa using he.symm⟩, rfl⟩⟩
  · rcases hcase : iterRun it (it, bsReaderCreate it.dict.buf) with ⟨e | item, it', r⟩
    · rw [hcase] at hrun
      refine ⟨hrun.1, fun e' he' => ⟨?_, rfl⟩⟩
      obtain rfl : e = e' := by simpa using he'
      exact hrun.2 e rfl
    · rw [hcase] at hrun
      exact ⟨hrun.1, by simp⟩

/-- What holds of new iterators, of reset ones, and after every key, holds of every iterator
that is not done. -/
theorem Reachable.invariant {d : Dict} (hd : d.Sound) {P : Iter → Prop}
    (hobtained : ∀ fuel kind it, IterKind.obtain fuel d kind = .ok it → P it)
    (hreset : ∀ it, it.dict = d → P (iterReset it))
    (hnext : ∀ it item it', it.dict = d → P it → iterNext it = (.ok item, it') → P it')
    {it : Iter} (h : Reachable d it) : it.dict = d ∧ (it.done = false → P it) := by
  induction h with
  | obtained h => exact ⟨(IterKind.obtain_eq_ok h).1, fun _ => hobtained _ _ _ h⟩
  | reset h ih => exact ⟨ih.1, fun _ => hreset _ ih.1⟩
  | @next it h ih =>
    obtain ⟨hdict, herr⟩ := iterNext_safe hd ih.1
    refine ⟨hdict, fun hlive => ?_⟩
    rcases hcase : iterNext it with ⟨e | item, it'⟩
    · rw [hcase] at herr hlive
      have hdone := (herr e rfl).2
      simp only at hdone hlive
      exact absurd (hlive.symm.trans hdone) (by simp)
    · exact hnext it item it' ih.1 (ih.2 (iterNext_eq_ok hcase).1) hcase

end Triepack
