import Mathlib.Tactic.Push
import Triepack.Untrusted.Descent

/-!
# Where prefix search leaves the buffer, and where it does not end

Over whole runs of the loop of `descend_to_prefix`: it reads outside the buffer at a child that
begins less than a symbol before the end, and it goes on forever where a child that stands for a
control code leads back.
-/

namespace Triepack

open BitString WhileLoop

/-- The loop of `descend_to_prefix` comes to the state. -/
def Descends (d : Dict) (pre : List UInt8) (s : PrefixState) (r : Reader) : Prop :=
  Reaches (Op.loopStep (prefixBody d pre)) (prefixStart d, bsReaderCreate d.buf) (s, r)

section Run

variable {d : Dict} (hd : d.Sound) {pre : List UInt8} {s t : PrefixState} {r r' : Reader}

include hd

/-- What holds in every state that the loop comes to. -/
theorem Descends.inside (h : Descends d pre s r) :
    (∃ x ≤ 8 * d.buf.length, r = d.reader x) ∧ s.pos ≤ d.trieStart + 8 * d.buf.length ∧
      s.subEnd < 2 ^ 64 ∧ s.matched ≤ pre.length := by
  refine Reaches.invariant (I := fun x : PrefixState × Reader =>
    (∃ y ≤ 8 * d.buf.length, x.2 = d.reader y) ∧ x.1.pos ≤ d.trieStart + 8 * d.buf.length ∧
      x.1.subEnd < 2 ^ 64 ∧ x.1.matched ≤ pre.length) ?_ h ?_
  · rintro ⟨s, r⟩ ⟨t, r'⟩ ⟨⟨x, hx, rfl⟩, _, hend, hmatched⟩ hstep
    have hbody := Op.loopStep_eq_inl hstep
    obtain ⟨code, herr⟩ | ⟨bit, herr, _⟩ | ⟨found, hfound⟩ | ⟨t', y, hnext, hy, hcase⟩ :=
      @prefixBody_cases d hd pre s x
    · simp [hbody] at herr
    · simp [hbody] at herr
    · simp [hbody] at hfound
    · obtain ⟨rfl, rfl⟩ : t = t' ∧ r' = d.reader y := by simpa [hbody] using hnext
      cases hcase with
      | byte lt matched subEnd le =>
        exact ⟨⟨y, hy, rfl⟩, by simp only; omega, by simpa [subEnd] using hend, by
          simp only; omega⟩
      | child branch compared le first matched =>
        refine ⟨⟨y, hy, rfl⟩, by simp only; omega, ?_, by simpa [matched] using hmatched⟩
        exact compared.end_lt hend
  · exact ⟨⟨0, by omega, rfl⟩, by simp only [prefixStart]; omega,
      by have := hd.valueStart_lt; simp only [prefixStart]; omega, by simp [prefixStart]⟩

theorem Descends.reader (h : Descends d pre s r) : ∃ x ≤ 8 * d.buf.length, r = d.reader x :=
  (h.inside hd).1

theorem Descends.next (h : Descends d pre s r)
    (hstep : Op.loopStep (prefixBody d pre) (s, r) = .inl (t, r')) : PrefixNext d pre s t := by
  obtain ⟨x, _, rfl⟩ := h.reader hd
  have hbody := Op.loopStep_eq_inl hstep
  obtain ⟨code, herr⟩ | ⟨bit, herr, _⟩ | ⟨found, hfound⟩ | ⟨t', y, hnext, _, hcase⟩ :=
    @prefixBody_cases d hd pre s x
  · simp [hbody] at herr
  · simp [hbody] at herr
  · simp [hbody] at hfound
  · obtain ⟨rfl, rfl⟩ : t = t' ∧ r' = d.reader y := by simpa [hbody] using hnext
    exact hcase

/-- A search reads outside the buffer exactly at a child that begins too late. -/
theorem descendToPrefix_oob_iff :
    (∃ fuel bit, descendToPrefix fuel d pre = .error (.oob bit)) ↔
      ∃ s r, Descends d pre s r ∧ PeeksOutside d pre s := by
  constructor
  · rintro ⟨fuel, bit, h⟩
    rw [descendToPrefix, Op.loop] at h
    split at h
    · rename_i out hrun
      obtain ⟨⟨s, r⟩, hreach, hexit⟩ := Returns.exists_exit ⟨fuel, hrun⟩
      refine ⟨s, r, hreach, ?_⟩
      obtain ⟨x, _, rfl⟩ := Descends.reader hd hreach
      obtain ⟨code, herr⟩ | ⟨_, _, hpeek⟩ | ⟨found, hfound⟩ | ⟨t, y, hnext, _, _⟩ :=
        @prefixBody_cases d hd pre s x
      · rw [Op.loopStep_error (Prod.ext herr rfl)] at hexit
        rw [← Sum.inr.inj hexit] at h
        simp at h
      · exact hpeek
      · rw [Op.loopStep_done (Prod.ext hfound rfl)] at hexit
        rw [← Sum.inr.inj hexit] at h
        simp at h
      · rw [Op.loopStep_next hnext] at hexit
        simp at hexit
    · simp at h
  · rintro ⟨s, r, hreach, hpeek⟩
    obtain ⟨x, _, rfl⟩ := hreach.reader hd
    obtain ⟨bit, herr⟩ := hpeek.oob hd (x := x)
    obtain ⟨fuel, hrun⟩ := hreach.returns (.of_inr (Op.loopStep_error (Prod.ext herr rfl)))
    exact ⟨fuel, bit, by rw [descendToPrefix, Op.loop, hrun]⟩

end Run

/-! ## Reading -/

/-- No call on the dictionary reads a bit outside the buffer. -/
structure ReadsInside (d : Dict) : Prop where
  lookup : ∀ key bit, dictLookupN d key ≠ .error (.oob bit)
  findPrefix : ∀ fuel str bit, dictFindPrefix fuel d str ≠ .error (.oob bit)
  next : ∀ it, Reachable d it → ∀ bit, (iterNext it).1 ≠ .error (.oob bit)

theorem Reachable.dict_eq {d : Dict} (hd : d.Sound) {it : Iter} (h : Reachable d it) :
    it.dict = d :=
  (h.invariant hd (P := fun _ => True) (fun _ _ _ _ => trivial) (fun _ _ => trivial)
    (fun _ _ _ _ _ _ => trivial)).1

/-- `tp_dict_find_prefix` reads outside the buffer only in its search. -/
theorem dictFindPrefix_eq_oob {fuel : Nat} {d : Dict} {str : List UInt8} {bit : Nat} :
    dictFindPrefix fuel d str = .error (.oob bit) ↔
      (str.takeWhile fun b => b != 0) ≠ [] ∧ d.info.numKeys ≠ 0 ∧
        descendToPrefix fuel d (str.takeWhile fun b => b != 0) = .error (.oob bit) := by
  rw [dictFindPrefix]
  simp only [List.length_eq_zero_iff]
  split
  · rename_i hall
    constructor
    · simp
    · rintro ⟨hne, hkeys, _⟩
      exact absurd hall (by simp [hne, hkeys])
  · rename_i hsearch
    rw [not_or] at hsearch
    split
    · rename_i herr
      simp [herr]
    · rename_i e hne herr
      simp [herr, hsearch]
    · rename_i herr
      simp [herr]

/-- All reads of all calls are inside the buffer exactly when no search compares a child that
begins less than a symbol before the end. -/
theorem readsInside_iff {b : Buffer} {checkCrc : Bool} {d : Dict}
    (h : dictOpenImpl b.bytes checkCrc = .ok d) :
    ReadsInside d ↔ (d.info.numKeys ≠ 0 → ∀ (str : List UInt8) s r,
      Descends d (str.takeWhile fun b => b != 0) s r →
      ∀ byte nchildren childPreamble child,
        AtBranch d (str.takeWhile fun b => b != 0) s byte nchildren childPreamble →
        Compared d (d.sym.symbolMap byte) s.subEnd nchildren childPreamble child →
        child.1 + d.sym.bitsPerSymbol ≤ 8 * b.bytes.length) := by
  obtain ⟨hd, hbuf⟩ := dictOpenImpl_sound h
  rw [← hbuf]
  constructor
  · intro hinside hkeys str s r hreach byte nchildren childPreamble child hat hcomp
    by_contra hout
    obtain ⟨fuel, bit, hoob⟩ := (descendToPrefix_oob_iff hd).mpr
      ⟨s, r, hreach, byte, nchildren, childPreamble, child, hat, hcomp, by omega⟩
    refine hinside.findPrefix fuel str bit (dictFindPrefix_eq_oob.mpr ⟨fun hnil => ?_, hkeys, hoob⟩)
    have hget := hat.get
    simp [hnil] at hget
  · intro hin
    refine ⟨fun key bit herr => ?_, fun fuel str bit herr => ?_, fun it hit bit herr => ?_⟩
    · obtain ⟨code, hcode⟩ := dictLookupN_safe hd herr
      simp at hcode
    · obtain ⟨_, hkeys, hoob⟩ := dictFindPrefix_eq_oob.mp herr
      obtain ⟨s, r, hreach, byte, nchildren, childPreamble, child, hat, hcomp, hout⟩ :=
        (descendToPrefix_oob_iff hd).mp ⟨fuel, bit, hoob⟩
      have hle := hin hkeys str s r hreach byte nchildren childPreamble child hat hcomp
      omega
    · obtain ⟨⟨code, hcode⟩, _⟩ := (iterNext_safe hd (hit.dict_eq hd)).2 _ herr
      simp at hcode

/-- A file whose second child begins at the end of the buffer. -/
def peekFile : List UInt8 :=
  [84, 82, 80, 0, 1, 0, 0, 0, 0, 0, 0, 1, 0, 0, 0, 38, 0, 0, 0, 63, 0, 0, 0, 0, 0, 0, 0, 63, 0,
    0, 0, 0, 48, 112, 83, 149, 134, 129, 34, 64, 88, 32, 47, 168]

theorem dictFindPrefix_peekFile : ∃ d, dictOpen peekFile = .ok d ∧
    dictFindPrefix 1 d [97] = .error (.oob 352) := by
  have hfind : (match dictOpen peekFile with
    | .ok d => (match dictFindPrefix 1 d [97] with
      | .error e => decide (e = .oob 352)
      | .ok _ => false)
    | .error _ => false) = true := by decide +kernel
  rcases hopen : dictOpen peekFile with e | d
  · simp [hopen] at hfind
  · rw [hopen] at hfind
    refine ⟨d, rfl, ?_⟩
    rcases hcase : dictFindPrefix 1 d [97] with e | it
    · simp only [hcase, decide_eq_true_eq] at hfind
      rw [hfind]
    · simp [hcase] at hfind

/-- The search for "a" reads bit 352 of its 44 bytes. -/
theorem not_readsInside_peekFile : ∃ d, dictOpen peekFile = .ok d ∧ ¬ ReadsInside d := by
  obtain ⟨d, hopen, hfind⟩ := dictFindPrefix_peekFile
  exact ⟨d, hopen, fun hinside => hinside.findPrefix 1 [97] 352 hfind⟩

/-- The child is one that a search compares. -/
theorem compared_peekFile : ∃ d pre s r byte nchildren childPreamble child,
    dictOpenImpl peekFile true = .ok d ∧ Descends d pre s r ∧
      AtBranch d pre s byte nchildren childPreamble ∧
      Compared d (d.sym.symbolMap byte) s.subEnd nchildren childPreamble child ∧
      8 * peekFile.length < child.1 + d.sym.bitsPerSymbol := by
  obtain ⟨d, hopen, hfind⟩ := dictFindPrefix_peekFile
  have hiff := @readsInside_iff ⟨peekFile, by decide⟩ true d hopen
  by_contra hnone
  push Not at hnone
  refine (hiff.mpr fun _ str s r hreach byte nchildren childPreamble child hat hcomp => ?_).findPrefix
    1 [97] 352 hfind
  exact hnone d _ s r byte nchildren childPreamble child hopen hreach hat hcomp

/-! ## Ending -/

/-- The child that is entered stands for a control code that a branch can begin with, and begins
at or before its branch. -/
def LeadsBack (d : Dict) (pre : List UInt8) (s : PrefixState) : Prop :=
  ∃ byte nchildren childPreamble child, AtBranch d pre s byte nchildren childPreamble ∧
    Compared d (d.sym.symbolMap byte) s.subEnd nchildren childPreamble child ∧
    (∃ c, (c = .end_ ∨ c = .endVal ∨ c = .branch) ∧ d.sym.symbolMap byte = d.sym.ctrlCodes c) ∧
    child.1 ≤ s.pos

/-- A branch begins with one of three control codes. -/
theorem AtBranch.code {d : Dict} {pre : List UInt8} {s : PrefixState} {byte : UInt8}
    {nchildren childPreamble code : Nat} {r : Reader}
    (h : AtBranch d pre s byte nchildren childPreamble)
    (hread : bsReadBits d.sym.bitsPerSymbol (d.reader s.pos) = (.ok code, r)) :
    ∃ c, (c = .end_ ∨ c = .endVal ∨ c = .branch) ∧ code = d.sym.ctrlCodes c := by
  obtain ⟨code', r₁, r₂, hcode, hbranch, _⟩ := h.reads
  obtain ⟨rfl, rfl⟩ : code = code' ∧ r = r₁ := by simpa [hread] using hcode
  rw [prefixAtBranch] at hbranch
  split at hbranch
  · rename_i hkey
    obtain hend | hval := hkey
    · exact ⟨.end_, .inl rfl, hend⟩
    · exact ⟨.endVal, .inr (.inl rfl), hval⟩
  · obtain ⟨hbr, _⟩ : code = d.sym.ctrlCodes .branch ∧ r = r₂ := by simpa using hbranch
    exact ⟨.branch, .inr (.inr rfl), hbr⟩

/-- A branch is next. -/
def BranchNext (d : Dict) (pre : List UInt8) (s : PrefixState) : Prop :=
  ∃ byte nchildren childPreamble, AtBranch d pre s byte nchildren childPreamble

open Classical in
/-- What every iteration lowers that does not lead back: bytes of the prefix that are left, then
whether a branch is next, then bits ahead. -/
noncomputable def descentMeasure (d : Dict) (pre : List UInt8) (s : PrefixState) : Nat :=
  (pre.length - s.matched) * (2 * (d.trieStart + 8 * d.buf.length) + 2) +
    ((if BranchNext d pre s then d.trieStart + 8 * d.buf.length + 1 else 0) +
      (d.trieStart + 8 * d.buf.length - s.pos))

section Ends

variable {d : Dict} (hd : d.Sound) {pre : List UInt8} {s t : PrefixState}

include hd

theorem PrefixNext.measure_lt (h : PrefixNext d pre s t)
    (hpos : s.pos ≤ d.trieStart + 8 * d.buf.length) (hon : ¬ LeadsBack d pre s) :
    descentMeasure d pre t < descentMeasure d pre s := by
  simp only [descentMeasure]
  generalize hB : d.trieStart + 8 * d.buf.length = B at *
  cases h with
  | byte lt matched subEnd le =>
    obtain ⟨n, hn⟩ : ∃ n, pre.length - s.matched = n + 1 := ⟨pre.length - s.matched - 1, by omega⟩
    rw [show pre.length - t.matched = n by omega, hn, Nat.add_one_mul n]
    split <;> omega
  | @child byte n p branch compared le first matched =>
    have hat : BranchNext d pre s := ⟨byte, n, p, branch⟩
    rw [matched]
    simp only [if_pos hat]
    by_cases hback : BranchNext d pre t
    · -- the child begins with a control code, so that it lies ahead
      rw [if_pos hback]
      obtain ⟨byte', n', p', hat⟩ := hback
      have hctrl : ∃ c, (c = .end_ ∨ c = .endVal ∨ c = .branch) ∧
          d.sym.symbolMap byte = d.sym.ctrlCodes c := by
        obtain ⟨_, v, hv, hread⟩ | ⟨_, bit, hoob⟩ := bsReadBitsAt_cases hd le
        · obtain rfl : v = d.sym.symbolMap byte := Except.ok.inj (hv.symm.trans first)
          exact hat.code hread
        · rw [first] at hoob
          simp at hoob
      have hahead : s.pos < t.pos := by
        by_contra hle
        exact hon ⟨byte, n, p, (t.pos, t.subEnd), branch, compared, hctrl, by simp only; omega⟩
      omega
    · rw [if_neg hback]
      omega

end Ends

/-- The loop of `descend_to_prefix` ends when it comes to no branch whose child leads back. -/
theorem descend_halts {b : Buffer} {checkCrc : Bool} {d : Dict}
    (h : dictOpenImpl b.bytes checkCrc = .ok d) (pre : List UInt8)
    (hon : ∀ s r, Descends d pre s r → ¬ LeadsBack d pre s) :
    Halts (Op.loopStep (prefixBody d pre)) (prefixStart d, bsReaderCreate d.buf) := by
  obtain ⟨hd, _⟩ := dictOpenImpl_sound h
  have hstart : Descends d pre (prefixStart d) (bsReaderCreate d.buf) := .refl _
  refine halts_of_measure (I := fun x => Descends d pre x.1 x.2)
    (μ := fun x => descentMeasure d pre x.1) ?_ hstart
  rintro ⟨s, r⟩ ⟨t, r'⟩ hreach hstep
  exact ⟨hreach.snoc hstep,
    (hreach.next hd hstep).measure_lt hd (hreach.inside hd).2.1 (hon s r hreach)⟩

/-- A file whose trie is a branch with a child that begins where the branch does, its distance
being 2^64 - 97. -/
def cycleFile : List UInt8 :=
  [84, 82, 80, 0, 1, 0, 0, 0, 0, 0, 0, 1, 0, 0, 0, 38, 0, 0, 0, 138, 0, 0, 0, 0, 0, 0, 0, 138, 0,
    0, 0, 0, 48, 112, 83, 149, 132, 80, 37, 63, 255, 255, 255, 255, 255, 255, 255, 254, 3, 128, 165,
    210, 193, 193]

theorem recurs_cycleFile : ∃ d r, dictOpen cycleFile = .ok d ∧
    Op.loopStep (prefixBody d [98]) (prefixStart d, bsReaderCreate d.buf) =
      .inl (prefixStart d, r) ∧
    Op.loopStep (prefixBody d [98]) (prefixStart d, r) = .inl (prefixStart d, r) := by
  have hsteps : (match dictOpen cycleFile with
    | .ok d => (match Op.loopStep (prefixBody d [98]) (prefixStart d, bsReaderCreate d.buf) with
      | .inl (s, r) => decide (s = prefixStart d) &&
        (match Op.loopStep (prefixBody d [98]) (prefixStart d, r) with
          | .inl (s', r') => decide (s' = prefixStart d ∧ r' = r)
          | .inr _ => false)
      | .inr _ => false)
    | .error _ => false) = true := by decide +kernel
  rcases hopen : dictOpen cycleFile with e | d
  · simp [hopen] at hsteps
  simp only [hopen] at hsteps
  rcases hfirst : Op.loopStep (prefixBody d [98]) (prefixStart d, bsReaderCreate d.buf)
    with ⟨s, r⟩ | out
  swap
  · simp [hfirst] at hsteps
  simp only [hfirst, Bool.and_eq_true, decide_eq_true_eq] at hsteps
  obtain ⟨rfl, hsecond⟩ := hsteps
  rcases hnext : Op.loopStep (prefixBody d [98]) (prefixStart d, r) with ⟨s', r'⟩ | out
  · simp only [hnext, decide_eq_true_eq] at hsecond
    obtain ⟨rfl, rfl⟩ := hsecond
    exact ⟨d, r', rfl, hfirst, hnext⟩
  · simp [hnext] at hsecond

/-- The search for "b", which is not in the alphabet, does not end. -/
theorem not_halts_cycleFile : ∃ d, dictOpen cycleFile = .ok d ∧
    ¬ Halts (Op.loopStep (prefixBody d [98])) (prefixStart d, bsReaderCreate d.buf) := by
  obtain ⟨d, r, hopen, hfirst, hnext⟩ := recurs_cycleFile
  refine ⟨d, hopen, (Reaches.single hfirst).not_halts (Recurs.not_halts ⟨_, hnext, .refl _⟩)⟩

/-- The search for "a", whose code is not that of a control symbol, ends. -/
theorem descend_halts_cycleFile : ∃ d, dictOpenImpl cycleFile true = .ok d ∧
    Halts (Op.loopStep (prefixBody d [97])) (prefixStart d, bsReaderCreate d.buf) := by
  have hcode : (match dictOpenImpl cycleFile true with
    | .ok d => decide (d.sym.symbolMap 97 ≠ d.sym.ctrlCodes .end_ ∧
        d.sym.symbolMap 97 ≠ d.sym.ctrlCodes .endVal ∧
        d.sym.symbolMap 97 ≠ d.sym.ctrlCodes .branch)
    | .error _ => false) = true := by decide +kernel
  rcases hopen : dictOpenImpl cycleFile true with e | d
  · simp [hopen] at hcode
  simp only [hopen, decide_eq_true_eq] at hcode
  refine ⟨d, rfl, @descend_halts ⟨cycleFile, by decide⟩ true d hopen [97] ?_⟩
  rintro s r _ ⟨byte, nchildren, childPreamble, child, hat, _, ⟨c, hc, hsym⟩, _⟩
  obtain rfl : byte = 97 := by
    have hget := List.mem_of_getElem? hat.get
    simpa using hget
  obtain ⟨hend, hval, hbranch⟩ := hcode
  obtain rfl | rfl | rfl := hc
  · exact hend hsym
  · exact hval hsym
  · exact hbranch hsym

end Triepack
