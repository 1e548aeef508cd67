import Triepack.Json.WalkBounds

/-!
# Partial documents

Where the stream is not what it should be, the walk of `extract_entries` does not always end with an
error. `strictWalk` is the walk that does.
-/

namespace Triepack

open JsonText

/-! ## The walk that gives up -/

/-- The result codes of reads that fail. -/
def IsReadError (code : TpErr) : Prop :=
  code = .eof ∨ code = .overflow ∨ code = .invalidPosition ∨ code = .notAligned

instance : DecidablePred IsReadError := fun _ => inferInstanceAs (Decidable (_ ∨ _))

/-- The code is one of the control codes. -/
def SymbolInfo.IsCtrl (sym : SymbolInfo) (code : Nat) : Prop := sym.codeIsCtrl (if code < 256 then code else 0)

instance (sym : SymbolInfo) : DecidablePred sym.IsCtrl := fun _ => inferInstanceAs (Decidable (_ = true))

/-- The value of a key that was found must be readable. -/
def checkValue (d : Dict) (key : List UInt8) : Except Stop Unit :=
  match dictLookupN d key with
  | .error (.rc code) => if IsReadError code then .error (.rc code) else .ok ()
  | _ => .ok ()

/-- In the place of SKIP there must be no other control code. -/
def strictSkip (sym : SymbolInfo) : Rd Unit := do
  let code ← bsReadBits sym.bitsPerSymbol
  if sym.IsCtrl code ∧ code ≠ sym.ctrlCodes .skip then Op.fail .corrupt
  else do
    let _ ← bsReadVarintU
    pure ()

/-- Behind a terminal; a SKIP that cannot be read is an error. -/
def strictPop (sym : SymbolInfo) (w : Walk) : Rd (Walk ⊕ Walk) :=
  match w.stack.dropWhile fun f => f.remaining == 0 with
  | [] => pure (.inl { w with stack := [] })
  | f :: frames => do
    let w := { w with
      key := w.key.take f.keyLen
      stack := { f with remaining := f.remaining - 1 } :: frames }
    if f.remaining - 1 = 0 then pure (.inl w)
    else do
      strictSkip sym
      pure (.inl w)

/-- A terminal. -/
def strictTerminal (d : Dict) (w : Walk) : Rd (Walk ⊕ Walk) := do
  Rd.lift (checkValue d w.key)
  let w ← Rd.lift (recordEntry d w)
  strictPop d.sym w

/-- A BRANCH. -/
def strictPush (sym : SymbolInfo) (w : Walk) : Rd Walk := do
  let childCount ← bsReadVarintU
  if w.stack.length ≥ walkDepth then Op.fail .jsonDepth
  else if childCount > 1 then do
    let remaining := u32 (u32 childCount + (2 ^ 32 - 1))
    strictSkip sym
    pure { w with stack := ⟨w.key.length, remaining⟩ :: w.stack }
  else pure { w with stack := ⟨w.key.length, 0⟩ :: w.stack }

/-- A symbol of a key: no control code, and within the buffer. -/
def strictAppend (sym : SymbolInfo) (code : Nat) (w : Walk) : Except Stop Walk :=
  if sym.codeIsCtrl (if code < 256 then code else 0) then .error (.rc .corrupt)
  else if w.key.length < keyBufSize - 1 then
    .ok { w with key := w.key ++ [if code < 256 then sym.reverseMap code else 0] }
  else .error (.rc .overflow)

/-- One iteration of the walk that gives up on what is wrong. -/
def strictBody (d : Dict) (w : Walk) : Rd (Walk ⊕ Walk) :=
  if ¬ w.entries.length < dictCount d then pure (.inr w)
  else do
    let code ← bsReadBits d.sym.bitsPerSymbol
    if code = d.sym.ctrlCodes .end_ then strictTerminal d w
    else if code = d.sym.ctrlCodes .endVal then do
      let _ ← bsReadVarintU
      strictTerminal d w
    else if code = d.sym.ctrlCodes .branch then do
      let w ← strictPush d.sym w
      pure (.inl w)
    else if code = d.sym.ctrlCodes .skip then Op.fail .corrupt
    else do
      let w ← Rd.lift (strictAppend d.sym code w)
      pure (.inl w)

/-- The walk that gives up on what is wrong. -/
def strictWalk (d : Dict) : Rd Walk := do
  bsReaderSeek d.trieStart
  Op.loop (strictBody d) (8 * d.buf.length + 2) ⟨[], [], []⟩

/-! ## Iterations that hide nothing -/

/-- No other control code is in the place of SKIP. -/
def NoStray (sym : SymbolInfo) (r : Reader) : Prop :=
  ∀ code r', bsReadBits sym.bitsPerSymbol r = (.ok code, r') → sym.IsCtrl code → code = sym.ctrlCodes .skip

/-- Where a child is left that is not the last one, its SKIP can be read. -/
def CleanPop (sym : SymbolInfo) (stack : List WalkFrame) (r : Reader) : Prop :=
  ∀ f frames, stack.dropWhile (fun f => f.remaining == 0) = f :: frames → f.remaining - 1 ≠ 0 →
    (readSkip sym r).1 = .ok () ∧ NoStray sym r

/-- Behind the terminal of a key its value can be read, and so can the SKIP of the next child. -/
structure CleanTerminal (d : Dict) (w : Walk) (r : Reader) : Prop where
  value : ∀ code, dictLookupN d w.key = .error (.rc code) → ¬ IsReadError code
  skip : CleanPop d.sym w.stack r

/-- The symbol that is read next stands where it should, and there is room for it. -/
def CleanStep (d : Dict) (w : Walk) (r : Reader) : Prop :=
  ∀ code r₁, w.entries.length < dictCount d → bsReadBits d.sym.bitsPerSymbol r = (.ok code, r₁) →
    if code = d.sym.ctrlCodes .end_ then CleanTerminal d w r₁
    else if code = d.sym.ctrlCodes .endVal then
      ∀ v r₂, bsReadVarintU r₁ = (.ok v, r₂) → CleanTerminal d w r₂
    else if code = d.sym.ctrlCodes .branch then
      ∀ n r₂, bsReadVarintU r₁ = (.ok n, r₂) → w.stack.length < walkDepth → 1 < n → NoStray d.sym r₂
    else code ≠ d.sym.ctrlCodes .skip ∧ ¬ d.sym.IsCtrl code ∧ w.key.length < keyBufSize - 1

section Step

theorem Op.exists_error_bind {σ α β : Type} {m : Op σ α} {f : α → Op σ β} {s : σ}
    (h : ∃ e, (m s).1 = .error e) : ∃ e, ((m >>= f) s).1 = .error e := by
  obtain ⟨e, he⟩ := h
  rcases hm : m s with ⟨x, s'⟩
  rw [hm] at he
  obtain rfl : x = .error e := he
  exact ⟨e, by rw [Op.bind_error hm]⟩

variable {d : Dict} (hd : d.Sound) {w : Walk} {r : Reader}

theorem strictSkip_of_noStray {sym : SymbolInfo} (h : NoStray sym r) : strictSkip sym r = readSkip sym r := by
  rw [strictSkip, readSkip]
  rcases hbits : bsReadBits sym.bitsPerSymbol r with ⟨e | code, r'⟩
  · rw [Op.bind_error hbits, Op.bind_error hbits]
  · rw [Op.bind_ok hbits, Op.bind_ok hbits, if_neg fun hstray => hstray.2 (h code r' hbits hstray.1)]

/-- A stray code is an error. -/
theorem strictSkip_of_stray {sym : SymbolInfo} (h : ¬ NoStray sym r) :
    ∃ e, (strictSkip sym r).1 = .error e := by
  rw [NoStray] at h
  push Not at h
  obtain ⟨code, r', hbits, hctrl, hne⟩ := h
  rw [strictSkip, Op.bind_ok hbits, if_pos ⟨hctrl, hne⟩]
  exact ⟨_, rfl⟩

theorem checkValue_eq_ok {key : List UInt8} (h : ∀ code, dictLookupN d key = .error (.rc code) → ¬ IsReadError code) :
    checkValue d key = .ok () := by
  rw [checkValue]
  split
  · rename_i code hlookup
    rw [if_neg (h code hlookup)]
  · rfl

theorem checkValue_eq_error {key : List UInt8} {code : TpErr} (h : dictLookupN d key = .error (.rc code))
    (hread : IsReadError code) : checkValue d key = .error (.rc code) := by
  rw [checkValue, h]
  exact if_pos hread

theorem strictPop_of_clean {sym : SymbolInfo} (h : CleanPop sym w.stack r) :
    strictPop sym w r = popFrames sym w r := by
  rw [strictPop, popFrames]
  rcases hframes : w.stack.dropWhile (fun f => f.remaining == 0) with _ | ⟨f, frames⟩ <;> rw [hframes]
  · rfl
  · dsimp only
    by_cases hlast : f.remaining - 1 = 0
    · rw [if_pos hlast, if_pos hlast]
      rfl
    · obtain ⟨hok, hstray⟩ := h f frames hframes hlast
      rw [if_neg hlast, if_neg hlast]
      rcases hskip : readSkip sym r with ⟨x, r'⟩
      rw [hskip] at hok
      obtain rfl : x = .ok () := hok
      exact Op.bind_ok ((strictSkip_of_noStray hstray).trans hskip)

theorem strictPop_of_not_clean {sym : SymbolInfo} (h : ¬ CleanPop sym w.stack r) :
    ∃ e, (strictPop sym w r).1 = .error e := by
  rw [CleanPop] at h
  push Not at h
  obtain ⟨f, frames, hframes, hlast, hbad⟩ := h
  have hskip : ∃ e, (strictSkip sym r).1 = .error e := by
    by_cases hstray : NoStray sym r
    · rw [strictSkip_of_noStray hstray]
      rcases hread : readSkip sym r with ⟨e | u, r'⟩
      · exact ⟨e, rfl⟩
      · exact absurd hstray (hbad (by rw [hread]))
    · exact strictSkip_of_stray hstray
  rw [strictPop, hframes]
  dsimp only
  rw [if_neg hlast]
  exact Op.exists_error_bind hskip

include hd in
theorem recordEntry_ok (w : Walk) : ∃ entries, recordEntry d w = .ok { w with entries := entries } := by
  rw [recordEntry]
  split_ifs with hlt
  · obtain ⟨val, hval⟩ := foundValue_ok hd w.key
    rw [hval, except_ok_bind, putAt, if_pos hlt, except_ok_bind]
    exact ⟨_, rfl⟩
  · exact ⟨w.entries, rfl⟩

include hd in
/-- A terminal is passed as the code passes it, or not at all. -/
theorem strictTerminal_eq : CleanTerminal d w r ∧
      strictTerminal d w r = (Rd.lift (recordEntry d w) >>= popFrames d.sym) r ∨
    ¬ CleanTerminal d w r ∧ ∃ e, (strictTerminal d w r).1 = .error e := by
  obtain ⟨entries, hrecord⟩ := recordEntry_ok hd w
  have hlift : Rd.lift (recordEntry d w) r = (.ok { w with entries := entries }, r) := by rw [hrecord]; rfl
  by_cases hvalue : ∀ code, dictLookupN d w.key = .error (.rc code) → ¬ IsReadError code
  · have hcheck : Rd.lift (checkValue d w.key) r = (.ok (), r) := by rw [checkValue_eq_ok hvalue]; rfl
    rw [strictTerminal, Op.bind_ok hcheck, Op.bind_ok hlift, Op.bind_ok hlift]
    by_cases hpop : CleanPop d.sym w.stack r
    · exact .inl ⟨⟨hvalue, hpop⟩, strictPop_of_clean hpop⟩
    · exact .inr ⟨fun h => hpop h.skip, strictPop_of_not_clean hpop⟩
  · push Not at hvalue
    obtain ⟨code, hlookup, hread⟩ := hvalue
    have hcheck : Rd.lift (checkValue d w.key) r = (.error (.rc code), r) := by
      rw [checkValue_eq_error hlookup hread]
      rfl
    refine .inr ⟨fun h => h.value code hlookup hread, .rc code, ?_⟩
    rw [strictTerminal, Op.bind_error hcheck]

/-- A BRANCH is passed as the code passes it, or not at all. -/
theorem strictPush_eq (sym : SymbolInfo) (w : Walk) (r : Reader) :
    (∀ n r', bsReadVarintU r = (.ok n, r') → w.stack.length < walkDepth → 1 < n → NoStray sym r') ∧
      strictPush sym w r = pushFrame sym w r ∨
    ¬ (∀ n r', bsReadVarintU r = (.ok n, r') → w.stack.length < walkDepth → 1 < n → NoStray sym r') ∧
      ∃ e, (strictPush sym w r).1 = .error e := by
  rw [strictPush, pushFrame]
  rcases hvarint : bsReadVarintU r with ⟨e | n, r'⟩
  · rw [Op.bind_error hvarint, Op.bind_error hvarint]
    exact .inl ⟨by simp, rfl⟩
  rw [Op.bind_ok hvarint, Op.bind_ok hvarint]
  by_cases hfull : w.stack.length ≥ walkDepth
  · rw [if_pos hfull, if_pos hfull]
    exact .inl ⟨fun n' r'' h hlt => absurd hlt (by omega), rfl⟩
  rw [if_neg hfull, if_neg hfull]
  have hpush : ∀ f, Rd.lift (pushAt walkDepth w.stack f) r' = (.ok (f :: w.stack), r') := fun f => by
    rw [pushAt, if_pos (by omega)]
    rfl
  by_cases hmany : n > 1
  · rw [if_pos hmany, if_pos hmany, Op.bind_ok (hpush _)]
    by_cases hstray : NoStray sym r'
    · refine .inl ⟨fun n' r'' h _ _ => ?_, ?_⟩
      · obtain rfl := (Prod.mk.inj h).2
        exact hstray
      · rcases hskip : readSkip sym r' with ⟨e | u, r₂⟩
        · rw [Op.bind_error ((strictSkip_of_noStray hstray).trans hskip), Op.bind_error hskip]
        · rw [Op.bind_ok ((strictSkip_of_noStray hstray).trans hskip), Op.bind_ok hskip]
    · exact .inr ⟨fun h => hstray (h n r' rfl (by omega) hmany),
        Op.exists_error_bind (strictSkip_of_stray hstray)⟩
  · rw [if_neg hmany, if_neg hmany, Op.bind_ok (hpush _)]
    refine .inl ⟨fun n' r'' h _ hmany' => ?_, rfl⟩
    obtain rfl := Except.ok.inj (Prod.mk.inj h).1
    exact absurd hmany' hmany

/-- A symbol is appended as the code appends it, or not at all. -/
theorem strictAppend_eq (sym : SymbolInfo) (code : Nat) (w : Walk) :
    (¬ sym.IsCtrl code ∧ w.key.length < keyBufSize - 1) ∧ strictAppend sym code w = appendSymbol sym code w ∨
      ¬ (¬ sym.IsCtrl code ∧ w.key.length < keyBufSize - 1) ∧ ∃ e, strictAppend sym code w = .error e := by
  rw [strictAppend, appendSymbol]
  simp only [SymbolInfo.IsCtrl]
  generalize (if code < 256 then code else 0) = index
  generalize (if code < 256 then sym.reverseMap code else 0) = byte
  by_cases hctrl : sym.codeIsCtrl index = true
  · rw [if_pos hctrl]
    exact .inr ⟨fun h => h.1 hctrl, _, rfl⟩
  rw [if_neg hctrl, if_pos hctrl]
  by_cases hroom : w.key.length < keyBufSize - 1
  · rw [if_pos hroom, if_pos hroom, putAt, if_pos (by omega)]
    exact .inl ⟨⟨hctrl, hroom⟩, rfl⟩
  · rw [if_neg hroom]
    exact .inr ⟨fun h => hroom h.2, _, rfl⟩

include hd in
/-- An iteration is the one of the code, or an error. -/
theorem strictBody_eq (w : Walk) (r : Reader) :
    CleanStep d w r ∧ strictBody d w r = extractBody d w r ∨
      ¬ CleanStep d w r ∧ ∃ e, (strictBody d w r).1 = .error e := by
  rw [strictBody, extractBody]
  by_cases hdone : ¬ w.entries.length < dictCount d
  · rw [if_pos hdone, if_pos hdone]
    exact .inl ⟨fun code r₁ hmore => absurd hmore hdone, rfl⟩
  rw [if_neg hdone, if_neg hdone]
  rw [not_not] at hdone
  rcases hbits : bsReadBits d.sym.bitsPerSymbol r with ⟨e | code, r₁⟩
  · rw [Op.bind_error hbits, Op.bind_error hbits]
    exact .inl ⟨fun code r₁ _ h => by simp [hbits] at h, rfl⟩
  rw [Op.bind_ok hbits, Op.bind_ok hbits]
  -- What the step has to meet depends on the code that is read.
  have hclean : CleanStep d w r ↔ (if code = d.sym.ctrlCodes .end_ then CleanTerminal d w r₁
      else if code = d.sym.ctrlCodes .endVal then ∀ v r₂, bsReadVarintU r₁ = (.ok v, r₂) → CleanTerminal d w r₂
      else if code = d.sym.ctrlCodes .branch then
        ∀ n r₂, bsReadVarintU r₁ = (.ok n, r₂) → w.stack.length < walkDepth → 1 < n → NoStray d.sym r₂
      else code ≠ d.sym.ctrlCodes .skip ∧ ¬ d.sym.IsCtrl code ∧ w.key.length < keyBufSize - 1) := by
    refine ⟨fun h => h code r₁ hdone hbits, fun h code' r' _ hbits' => ?_⟩
    obtain ⟨hcode, rfl⟩ := Prod.mk.inj (hbits.symm.trans hbits')
    obtain rfl := Except.ok.inj hcode
    exact h
  rw [hclean]
  split_ifs with hend hendVal hbranch hskip
  · exact strictTerminal_eq hd
  · rcases hvarint : bsReadVarintU r₁ with ⟨e | v, r₂⟩
    · rw [Op.bind_error hvarint, Op.bind_error hvarint]
      exact .inl ⟨by simp, rfl⟩
    · rw [Op.bind_ok hvarint, Op.bind_ok hvarint]
      obtain ⟨hterm, heq⟩ | ⟨hterm, herror⟩ := strictTerminal_eq hd (w := w) (r := r₂)
      · refine .inl ⟨fun v' r' h => ?_, heq⟩
        obtain rfl := (Prod.mk.inj h).2
        exact hterm
      · exact .inr ⟨fun h => hterm (h v r₂ rfl), herror⟩
  · obtain ⟨hpush, heq⟩ | ⟨hpush, herror⟩ := strictPush_eq d.sym w r₁
    · refine .inl ⟨hpush, ?_⟩
      rcases hread : pushFrame d.sym w r₁ with ⟨e | w', r₂⟩
      · rw [Op.bind_error (heq.trans hread), Op.bind_error hread]
      · rw [Op.bind_ok (heq.trans hread), Op.bind_ok hread]
    · exact .inr ⟨hpush, Op.exists_error_bind herror⟩
  · exact .inr ⟨fun h => h.1 hskip, _, rfl⟩
  · obtain ⟨happend, heq⟩ | ⟨happend, e, herror⟩ := strictAppend_eq d.sym code w
    · refine .inl ⟨⟨hskip, happend⟩, ?_⟩
      rw [heq]
    · refine .inr ⟨fun h => happend h.2, e, ?_⟩
      rw [herror]
      rfl

/-- The walk that gives up is only over when all entries are there. -/
theorem strictBody_eq_inr {w' : Walk} {r' : Reader} (h : strictBody d w r = (.ok (.inr w'), r')) :
    w' = w ∧ ¬ w.entries.length < dictCount d := by
  have hpop : ∀ (w : Walk) (r : Reader), strictPop d.sym w r ≠ (.ok (.inr w'), r') := by
    intro w r heq
    rw [strictPop] at heq
    rcases hframes : w.stack.dropWhile (fun f => f.remaining == 0) with _ | ⟨f, frames⟩ <;> rw [hframes] at heq
    · simp at heq
    · dsimp only at heq
      split_ifs at heq
      · simp at heq
      · obtain ⟨_, _, _, heq⟩ := Op.bind_eq_ok heq
        simp at heq
  have hterminal : ∀ (w : Walk) (r : Reader), strictTerminal d w r ≠ (.ok (.inr w'), r') := by
    intro w r heq
    rw [strictTerminal] at heq
    obtain ⟨_, _, _, heq⟩ := Op.bind_eq_ok heq
    obtain ⟨w₁, r₁, _, heq⟩ := Op.bind_eq_ok heq
    exact hpop w₁ r₁ heq
  rw [strictBody] at h
  split_ifs at h with hmore
  swap
  · refine ⟨?_, hmore⟩
    simpa using (Prod.mk.inj h).1.symm
  obtain ⟨code, r₁, _, h⟩ := Op.bind_eq_ok h
  split_ifs at h
  · exact absurd h (hterminal w r₁)
  · obtain ⟨_, r₂, _, h⟩ := Op.bind_eq_ok h
    exact absurd h (hterminal w r₂)
  · obtain ⟨_, _, _, h⟩ := Op.bind_eq_ok h
    simp at h
  · simp at h
  · obtain ⟨_, _, _, h⟩ := Op.bind_eq_ok h
    simp at h

end Step

/-! ## Whole documents -/

/-- What the walk starts from. -/
def walkStart (d : Dict) : Walk × Reader := (⟨[], [], []⟩, d.reader d.trieStart)

/-- No iteration of the walk hides anything, nor does the lookup of the type of the root. -/
structure CleanWalk (d : Dict) : Prop where
  step : ∀ w r, WhileLoop.Reaches (Op.loopStep (extractBody d)) (walkStart d) (w, r) → CleanStep d w r
  root : ∀ code, dictLookup d jsonMetaRoot = .error (.rc code) → ¬ IsReadError code

/-- As many entries are collected as the header announces, and the walk that gives up on a failed
read, a stray control code, a deep branch or a long key collects the same. -/
def CollectsWhole (d : Dict) : Prop :=
  ∃ w, (extractWalk d (bsReaderCreate d.buf)).1 = .ok w ∧ w.entries.length = dictCount d ∧
    (strictWalk d (bsReaderCreate d.buf)).1 = .ok w ∧
    ∀ code, dictLookup d jsonMetaRoot = .error (.rc code) → ¬ IsReadError code

/-- A document is only returned when all of it has been collected. -/
def ReturnsWhole (pf : PrintFloat) (qs : FlatQsort) (indent : Option (List UInt8)) (d : Dict) : Prop :=
  ∀ text, decodeImpl pf qs indent d.buf = .ok text → CollectsWhole d

theorem Op.loop_eq_ok {S σ ρ : Type} {body : σ → Op S (σ ⊕ ρ)} {fuel : Nat} {s : σ} {r : S} {a : ρ} :
    (Op.loop body fuel s r).1 = .ok a ↔ ∃ r', WhileLoop.run (Op.loopStep body) fuel (s, r) = some (.ok a, r') := by
  rw [Op.loop]
  rcases WhileLoop.run (Op.loopStep body) fuel (s, r) with _ | ⟨x, r'⟩ <;> simp

section Run

variable {d : Dict} (hd : d.Sound)

include hd

/-- The walk that gives up comes to the end of the walk if no iteration hides anything. -/
theorem strictWalk_eq_ok {w : Walk} : (strictWalk d (bsReaderCreate d.buf)).1 = .ok w ↔
    (extractWalk d (bsReaderCreate d.buf)).1 = .ok w ∧
      ∀ w' r', WhileLoop.Reaches (Op.loopStep (extractBody d)) (walkStart d) (w', r') → CleanStep d w' r' := by
  rw [strictWalk, extractWalk]
  by_cases hseek : d.trieStart ≤ (bsReaderCreate d.buf).bitLen
  swap
  · have hfail : bsReaderSeek d.trieStart (bsReaderCreate d.buf) =
        (.error (.rc .invalidPosition), bsReaderCreate d.buf) := if_pos (by omega)
    rw [Op.bind_error hfail, Op.bind_error hfail]
    simp
  have hstart : bsReaderSeek d.trieStart (bsReaderCreate d.buf) = (.ok (), d.reader d.trieStart) :=
    if_neg (by omega)
  rw [Op.bind_ok hstart, Op.bind_ok hstart, Op.loop_eq_ok, Op.loop_eq_ok]
  -- In step with the walk of the code, up to an iteration that hides something.
  have hguard : ∀ r, WhileLoop.run (Op.loopStep (strictBody d)) (8 * d.buf.length + 2) (walkStart d) =
      some (.ok w, r) ↔ WhileLoop.run (Op.loopStep (extractBody d)) (8 * d.buf.length + 2) (walkStart d) =
      some (.ok w, r) ∧ ∀ x, WhileLoop.Reaches (Op.loopStep (extractBody d)) (walkStart d) x →
        CleanStep d x.1 x.2 := by
    intro r
    refine WhileLoop.run_guarded_iff (G := fun x : Walk × Reader => CleanStep d x.1 x.2)
      (Q := fun out : Except Stop Walk × Reader => ∃ w, out.1 = .ok w) ?_ ?_ ⟨w, rfl⟩
    · rintro ⟨w', r'⟩ hclean
      obtain ⟨-, heq⟩ | ⟨hnot, -⟩ := strictBody_eq hd w' r'
      · simp only [Op.loopStep, heq]
      · exact absurd hclean hnot
    · rintro ⟨w', r'⟩ hnot
      obtain ⟨hclean, -⟩ | ⟨-, e, he⟩ := strictBody_eq hd w' r'
      · exact absurd hclean hnot
      · rcases hbody : strictBody d w' r' with ⟨x, r''⟩
        rw [hbody] at he
        obtain rfl : x = .error e := he
        exact ⟨_, Op.loopStep_error hbody, by simp⟩
  simp only [walkStart] at hguard
  constructor
  · rintro ⟨r, hr⟩
    obtain ⟨hrun, hall⟩ := (hguard r).mp hr
    exact ⟨⟨r, hrun⟩, fun w' r' hreach => hall (w', r') hreach⟩
  · rintro ⟨⟨r, hr⟩, hall⟩
    exact ⟨r, (hguard r).mpr ⟨hr, fun x hx => hall x.1 x.2 hx⟩⟩

omit hd in
theorem length_of_strictWalk {w : Walk} (h : (strictWalk d (bsReaderCreate d.buf)).1 = .ok w) :
    ¬ w.entries.length < dictCount d := by
  rw [strictWalk] at h
  rcases hseek : bsReaderSeek d.trieStart (bsReaderCreate d.buf) with ⟨e | u, r⟩
  · rw [Op.bind_error hseek] at h
    simp at h
  rw [Op.bind_ok hseek, Op.loop_eq_ok] at h
  obtain ⟨r', hrun⟩ := h
  obtain ⟨⟨w', r''⟩, -, hexit⟩ := WhileLoop.Returns.exists_exit ⟨_, hrun⟩
  obtain ⟨rfl, hcount⟩ := strictBody_eq_inr (Op.loopStep_eq_inr_ok hexit)
  exact hcount

end Run

/-- A document is returned whole if no iteration of the walk hides anything, and where one is returned
only then. -/
theorem returnsWhole_iff_clean {b : Buffer} {d : Dict} (hopen : dictOpen b.bytes = .ok d) (pf : PrintFloat)
    (qs : FlatQsort) (indent : Option (List UInt8)) :
    (CleanWalk d → ReturnsWhole pf qs indent d) ∧
      ∀ text, decodeImpl pf qs indent b.bytes = .ok text → (ReturnsWhole pf qs indent d ↔ CleanWalk d) := by
  obtain ⟨hd, hbuf⟩ := dictOpenImpl_sound hopen
  have hclean : CleanWalk d → ReturnsWhole pf qs indent d := by
    intro hclean text htext
    rw [decodeImpl, hbuf] at htext
    obtain ⟨⟨es, rootType⟩, hextract, -⟩ := except_bind_eq_ok htext
    rw [extractEntries, hopen, except_ok_bind] at hextract
    obtain ⟨w, hwalk, -⟩ := except_bind_eq_ok hextract
    have hcreate : bsReaderCreate d.buf = bsReaderCreate b.bytes := by rw [hbuf]
    rw [← hcreate] at hwalk
    have hstrict := (strictWalk_eq_ok hd).mpr ⟨hwalk, hclean.step⟩
    obtain ⟨_, hcode⟩ | ⟨w', hw', hbounds⟩ :=
      extractWalk_bounds hd (Reader.Sound.create (hbuf ▸ b.length_lt : d.buf.length < 2 ^ 60)) rfl
    · simp [hwalk] at hcode
    · obtain rfl : w = w' := Except.ok.inj (hwalk.symm.trans hw')
      have hle := hbounds.entries_le
      have hge := length_of_strictWalk hstrict
      exact ⟨w, hwalk, by omega, hstrict, hclean.root⟩
  refine ⟨hclean, fun text htext => ⟨fun hwhole => ?_, hclean⟩⟩
  obtain ⟨w, -, -, hstrict, hroot⟩ := hwhole text (by rw [hbuf]; exact htext)
  exact ⟨((strictWalk_eq_ok hd).mp hstrict).2, hroot⟩

/-! ## Documents cut short -/

/-- A `qsort` that sorts by insertion. -/
def FlatQsort.byInsertion : FlatQsort where
  sort := List.insertionSort fun a b => a.key ≤ b.key
  perm := List.perm_insertionSort _
  ascending es := by
    have htotal : Std.Total fun a b : FlatEntry => a.key ≤ b.key := ⟨fun a b => List.le_total a.key b.key⟩
    have htrans : IsTrans FlatEntry fun a b => a.key ≤ b.key := ⟨fun _ _ _ => List.le_trans⟩
    refine (List.pairwise_insertionSort (fun a b : FlatEntry => a.key ≤ b.key) es).imp fun {a b} hab => ?_
    obtain ⟨hlt, heq⟩ := entryCmp_spec ⟨a.key, .null⟩ ⟨b.key, .null⟩
    have hsame : flatEntryCmp a b = entryCmp ⟨a.key, .null⟩ ⟨b.key, .null⟩ := rfl
    rw [hsame]
    obtain hab | hab := List.le_iff_lt_or_eq.mp hab
    · have := hlt.mpr hab
      omega
    · have := heq.mpr hab
      omega

/-- A `printf` for documents without floating-point numbers. -/
def PrintFloat.none : PrintFloat := ⟨fun _ => [], fun _ => []⟩

/-- The dictionary of the key `a`. -/
def soleFile : List UInt8 :=
  [84, 82, 80, 0, 1, 0, 0, 0, 0, 0, 0, 1, 0, 0, 0, 38, 0, 0, 0, 44, 0, 0, 0, 0, 0, 0, 0, 44, 0, 0, 0, 0,
    48, 112, 83, 149, 135, 0, 176, 200, 201, 116]

/-- A branch of three children, and a distance behind the first one that does not end. -/
def cutFile : List UInt8 :=
  [84, 82, 80, 0, 1, 0, 0, 0, 0, 0, 0, 3, 0, 0, 0, 38, 0, 0, 0, 149, 0, 0, 0, 0, 0, 0, 0, 149, 0, 0, 0, 0,
    48, 112, 83, 149, 134, 129, 160, 108, 23, 255, 255, 255, 255, 255, 255, 255, 255, 255, 248,
    132, 158, 11, 61]

/-- `{"a":null}`. -/
def soleText : List UInt8 := [0x7B, 0x22, 0x61, 0x22, 0x3A, 0x6E, 0x75, 0x6C, 0x6C, 0x7D]

theorem collectsWhole_soleFile : ∃ d, dictOpen soleFile = .ok d ∧ CollectsWhole d := by
  have hrun : (match dictOpen soleFile with
    | .ok d => (match (extractWalk d (bsReaderCreate d.buf)).1, (strictWalk d (bsReaderCreate d.buf)).1 with
      | .ok w, .ok w' => decide (w.key = w'.key ∧ w.stack = w'.stack ∧ w.entries = w'.entries ∧
          w.entries.length = dictCount d ∧ dictLookup d jsonMetaRoot = .error (.rc .notFound))
      | _, _ => false)
    | .error _ => false) = true := by decide +kernel
  rcases hopen : dictOpen soleFile with e | d
  · simp [hopen] at hrun
  simp only [hopen] at hrun
  rcases hwalk : (extractWalk d (bsReaderCreate d.buf)).1 with e | w
  · simp [hwalk] at hrun
  rcases hstrict : (strictWalk d (bsReaderCreate d.buf)).1 with e | w'
  · simp [hwalk, hstrict] at hrun
  simp only [hwalk, hstrict, decide_eq_true_eq] at hrun
  obtain ⟨hkey, hstack, hentries, hcount, hroot⟩ := hrun
  obtain rfl : w = w' := by
    cases w
    cases w'
    simp only [Walk.mk.injEq]
    exact ⟨hkey, hstack, hentries⟩
  refine ⟨d, rfl, w, hwalk, hcount, hstrict, fun code h => ?_⟩
  obtain rfl : TpErr.notFound = code := by simpa [hroot] using h
  decide

/-- In the dictionary of one key nothing is hidden. -/
theorem cleanWalk_soleFile : ∃ d, dictOpen soleFile = .ok d ∧ CleanWalk d := by
  obtain ⟨d, hopen, hwhole⟩ := collectsWhole_soleFile
  have hdecode : jsonDecode .none .byInsertion soleFile = .ok soleText := by decide +kernel
  have hiff := (@returnsWhole_iff_clean ⟨soleFile, by decide⟩ d hopen .none .byInsertion none).2 soleText hdecode
  exact ⟨d, hopen, hiff.mp fun _ _ => hwhole⟩

/-- Two of three keys are missing from the document, which is returned all the same. -/
theorem not_returnsWhole_cutFile : ∃ d, dictOpen cutFile = .ok d ∧ dictCount d = 3 ∧
    jsonDecode .none .byInsertion cutFile = .ok soleText ∧ ¬ ReturnsWhole .none .byInsertion none d := by
  have hrun : (match dictOpen cutFile with
    | .ok d => decide (d.buf = cutFile ∧ dictCount d = 3 ∧
        ((extractWalk d (bsReaderCreate d.buf)).1.map fun w => w.entries.length) = .ok 1)
    | .error _ => false) = true := by decide +kernel
  have hdecode : jsonDecode .none .byInsertion cutFile = .ok soleText := by decide +kernel
  rcases hopen : dictOpen cutFile with e | d
  · simp [hopen] at hrun
  simp only [hopen, decide_eq_true_eq] at hrun
  obtain ⟨hbuf, hcount, hlength⟩ := hrun
  refine ⟨d, rfl, hcount, hdecode, fun hwhole => ?_⟩
  obtain ⟨w, hwalk, hall, -⟩ := hwhole soleText (hbuf.symm ▸ hdecode)
  rw [hwalk] at hlength
  have hone : w.entries.length = 1 := Except.ok.inj hlength
  omega

end Triepack
