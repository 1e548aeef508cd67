import Triepack.Core.Calls

/-!
# Prefix search on untrusted bytes

What one iteration of `descend_to_prefix` does whatever the trie. It looks at the first symbol of
a child without asking where the buffer ends, and where a child begins is computed modulo 2^64:
the search stays in the buffer and comes to an end as long as the children do what these steps
take for granted.
-/

namespace Triepack

open BitString WhileLoop

/-- The bits in front of a child that is not the last: SKIP, and where the child and the next
one begin. -/
def ChildSkip (d : Dict) (childPreamble childStart nextPreamble : Nat) : Prop :=
  childPreamble ≤ 8 * d.buf.length ∧ childStart ≤ 8 * d.buf.length ∧ ∃ r dist,
    bsReadBits d.sym.bitsPerSymbol (d.reader childPreamble) = (.ok (d.sym.ctrlCodes .skip), r) ∧
    bsReadVarintU r = (.ok dist, d.reader childStart) ∧ nextPreamble = u64 (childStart + dist)

/-- The child, given by its ends, is one whose first symbol the loop over the children of a
branch compares with the wanted one. -/
inductive Compared (d : Dict) (want subEnd : Nat) :
    (remaining childPreamble : Nat) → Nat × Nat → Prop
  | last {p : Nat} (le : p ≤ 8 * d.buf.length) : Compared d want subEnd 1 p (p, subEnd)
  | skip {remaining p start next : Nat} (skip : ChildSkip d p start next) :
      Compared d want subEnd (remaining + 2) p (start, next)
  | later {remaining p start next first : Nat} {child : Nat × Nat} (skip : ChildSkip d p start next)
      (read : bsReadBitsAt d.buf start d.sym.bitsPerSymbol = .ok first) (ne : first ≠ want)
      (h : Compared d want subEnd (remaining + 1) next child) :
      Compared d want subEnd (remaining + 2) p child

/-- At the state there is a BRANCH, or one behind a key, with so many children, and the prefix
goes on with the byte. -/
structure AtBranch (d : Dict) (pre : List UInt8) (s : PrefixState) (byte : UInt8)
    (nchildren childPreamble : Nat) : Prop where
  get : pre[s.matched]? = some byte
  lt : s.pos < s.subEnd
  le : s.pos ≤ 8 * d.buf.length
  preamble_le : childPreamble ≤ 8 * d.buf.length
  reads : ∃ code r₁ r₂, bsReadBits d.sym.bitsPerSymbol (d.reader s.pos) = (.ok code, r₁) ∧
    prefixAtBranch d s.subEnd code r₁ = (.ok true, r₂) ∧
    bsReadVarintU r₂ = (.ok nchildren, d.reader childPreamble)

theorem Compared.end_lt {d : Dict} {want subEnd remaining childPreamble : Nat} {child : Nat × Nat}
    (h : Compared d want subEnd remaining childPreamble child) (hend : subEnd < 2 ^ 64) :
    child.2 < 2 ^ 64 := by
  induction h with
  | last le => exact hend
  | skip skip =>
    obtain ⟨_, _, _, _, _, _, rfl⟩ := skip
    exact u64_lt _
  | later skip read ne h ih => exact ih

/-- What is read from the buffer at a position is a symbol, unless it reaches beyond the end. -/
theorem bsReadBitsAt_cases {d : Dict} (hd : d.Sound) {p : Nat} (hp : p ≤ 8 * d.buf.length) :
    (p + d.sym.bitsPerSymbol ≤ 8 * d.buf.length ∧
      ∃ v, bsReadBitsAt d.buf p d.sym.bitsPerSymbol = .ok v ∧
        bsReadBits d.sym.bitsPerSymbol (d.reader p) =
          (.ok v, d.reader (p + d.sym.bitsPerSymbol))) ∨
    (8 * d.buf.length < p + d.sym.bitsPerSymbol ∧
      ∃ bit, bsReadBitsAt d.buf p d.sym.bitsPerSymbol = .error (.oob bit)) := by
  have hlen := hd.length_lt
  have hlow := hd.one_le
  have hhigh := hd.le_eight
  by_cases hle : p + d.sym.bitsPerSymbol ≤ 8 * d.buf.length
  · refine .inl ⟨hle, ?_⟩
    obtain ⟨chunk, hchunk, hat⟩ := (hd.reader hp).window (n := d.sym.bitsPerSymbol)
      (by rw [hd.bitLen]; exact hle)
    have hread := bsReadBitsAt_of_at hat (by simp only [Dict.reader_pos]; omega) (by omega) (by omega)
    rw [hchunk] at hread
    refine ⟨bitsNat chunk, hread, ?_⟩
    have hbit := hd.bitLen p
    rw [bsReadBits, if_neg (by omega), Dict.reader_pos, u64_of_lt (by omega), if_neg (by omega)]
    exact Prod.ext hread rfl
  · obtain ⟨bit, hread, _⟩ := @readBitsLoop_oob d.buf d.sym.bitsPerSymbol p 0
      (by omega : p + d.sym.bitsPerSymbol < 2 ^ 64) (by omega) hlow
    exact .inr ⟨by omega, bit, by rw [bsReadBitsAt, if_neg (by omega), hread]⟩

section Children

variable {d : Dict} (hd : d.Sound) {want subEnd : Nat}

/-- The SKIP in front of a child, as the loop over the children reads it. -/
def readChildSkip (d : Dict) : Rd (Nat × Nat) := do
  let skipSym ← bsReadBits d.sym.bitsPerSymbol
  if skipSym ≠ d.sym.ctrlCodes .skip then Op.fail .corrupt
  else do
    let dist ← bsReadVarintU
    let childStart ← bsReaderPosition
    return (childStart, u64 (childStart + dist))

include hd

/-- A SKIP is read, or the loop stops with a result code. -/
theorem readChildSkip_cases {p : Nat} (hp : p ≤ 8 * d.buf.length) :
    (∃ code r, readChildSkip d (d.reader p) = (.error (.rc code), r)) ∨
    ∃ start next, ChildSkip d p start next ∧
      readChildSkip d (d.reader p) = (.ok (start, next), d.reader start) := by
  have hlow := hd.one_le
  have hhigh := hd.le_eight
  rw [readChildSkip]
  obtain ⟨r₁, hr₁, hbuf₁, ⟨code, hskip⟩ | ⟨skipSym, hskip⟩⟩ :=
    (bsReadBits_safe hlow (by omega)).cases (hd.reader hp)
  · exact .inl ⟨code, r₁, Op.bind_error hskip⟩
  rw [Op.bind_ok hskip]
  by_cases hsym : skipSym = d.sym.ctrlCodes .skip
  · rw [if_neg (by simpa using hsym)]
    obtain ⟨r₂, hr₂, hbuf₂, ⟨code, hdist⟩ | ⟨dist, hdist⟩⟩ := bsReadVarintU_safe.cases hr₁
    · exact .inl ⟨code, r₂, Op.bind_error hdist⟩
    · have heq := reader_eq hd hr₂ (hbuf₂.trans hbuf₁)
      have hle := hr₂.pos_le
      have hlen := hr₂.bitLen_eq
      rw [hbuf₂.trans hbuf₁, Dict.reader_buf] at hlen
      refine .inr ⟨r₂.pos, u64 (r₂.pos + dist),
        ⟨hp, by omega, r₁, dist, by rw [hskip, hsym], by rw [← heq]; exact hdist, rfl⟩, ?_⟩
      rw [← heq, Op.bind_ok hdist]
      rfl
  · rw [if_pos (by simpa using hsym)]
    exact .inl ⟨.corrupt, r₁, rfl⟩

omit hd in
/-- What a SKIP that stands in the buffer is read as. -/
theorem ChildSkip.read {p start next : Nat} (h : ChildSkip d p start next) :
    readChildSkip d (d.reader p) = (.ok (start, next), d.reader start) := by
  obtain ⟨_, _, r, dist, hskip, hdist, rfl⟩ := h
  rw [readChildSkip, Op.bind_ok hskip, if_neg (by simp), Op.bind_ok hdist]
  rfl

/-- The loop over the children when there is one more after the next. -/
theorem prefixChildren_skip {remaining p start next : Nat} (x : Nat) (h : ChildSkip d p start next) :
    prefixChildren d want subEnd (remaining + 2) p (d.reader x) =
      (do
        let first ← Op.stateless (bsReadBitsAt d.buf start d.sym.bitsPerSymbol)
        if first = want then return some (start, next)
        else prefixChildren d want subEnd (remaining + 1) next : Rd (Option (Nat × Nat)))
        (d.reader start) := by
  rw [prefixChildren, Op.bind_ok (seek_reader hd h.1), if_pos (by omega)]
  exact Op.bind_ok h.read

/-- How the loop over the children ends. -/
theorem prefixChildren_cases (remaining p x : Nat) (hx : x ≤ 8 * d.buf.length) :
    (∃ code, (prefixChildren d want subEnd remaining p (d.reader x)).1 = .error (.rc code)) ∨
    (∃ bit child, (prefixChildren d want subEnd remaining p (d.reader x)).1 = .error (.oob bit) ∧
      Compared d want subEnd remaining p child ∧
      8 * d.buf.length < child.1 + d.sym.bitsPerSymbol) ∨
    (prefixChildren d want subEnd remaining p (d.reader x)).1 = .ok none ∨
    ∃ child, prefixChildren d want subEnd remaining p (d.reader x) =
        (.ok (some child), d.reader child.1) ∧
      Compared d want subEnd remaining p child ∧ child.1 ≤ 8 * d.buf.length ∧
      bsReadBitsAt d.buf child.1 d.sym.bitsPerSymbol = .ok want := by
  induction remaining generalizing p x with
  | zero => exact .inr (.inr (.inl rfl))
  | succ remaining ih =>
    by_cases hp : p ≤ 8 * d.buf.length
    swap
    · have hseek : bsReaderSeek p (d.reader x) = (.error (.rc .invalidPosition), d.reader x) := by
        rw [bsReaderSeek, hd.bitLen, if_pos (by omega)]
      exact .inl ⟨.invalidPosition, by rw [prefixChildren, Op.bind_error hseek]⟩
    cases remaining with
    | zero =>
      have hrun : prefixChildren d want subEnd 1 p (d.reader x) =
          (do
            let first ← Op.stateless (bsReadBitsAt d.buf p d.sym.bitsPerSymbol)
            if first = want then return some (p, subEnd) else pure none :
            Rd (Option (Nat × Nat))) (d.reader p) := by
        rw [prefixChildren, Op.bind_ok (seek_reader hd hp)]
        rfl
      rw [hrun]
      obtain ⟨_, first, hread, _⟩ | ⟨hout, bit, hread⟩ := bsReadBitsAt_cases hd hp
      · have hfirst : (Op.stateless (bsReadBitsAt d.buf p d.sym.bitsPerSymbol) : Rd Nat)
            (d.reader p) = (.ok first, d.reader p) := by rw [Op.stateless, hread]
        rw [Op.bind_ok hfirst]
        by_cases hwant : first = want
        · rw [if_pos hwant]
          exact .inr (.inr (.inr ⟨(p, subEnd), rfl, .last hp, hp, by rw [hread, hwant]⟩))
        · rw [if_neg hwant]
          exact .inr (.inr (.inl rfl))
      · have hfirst : (Op.stateless (bsReadBitsAt d.buf p d.sym.bitsPerSymbol) : Rd Nat)
            (d.reader p) = (.error (.oob bit), d.reader p) := by rw [Op.stateless, hread]
        rw [Op.bind_error hfirst]
        exact .inr (.inl ⟨bit, (p, subEnd), rfl, .last hp, hout⟩)
    | succ remaining =>
      obtain ⟨code, r, hskip⟩ | ⟨start, next, hskip, _⟩ := readChildSkip_cases hd hp
      · refine .inl ⟨code, ?_⟩
        rw [prefixChildren, Op.bind_ok (seek_reader hd hp), if_pos (by omega)]
        exact congrArg Prod.fst (Op.bind_error hskip)
      rw [prefixChildren_skip hd x hskip]
      obtain ⟨_, hstart, _⟩ := id hskip
      obtain ⟨_, first, hread, _⟩ | ⟨hout, bit, hread⟩ := bsReadBitsAt_cases hd hstart
      · have hfirst : (Op.stateless (bsReadBitsAt d.buf start d.sym.bitsPerSymbol) : Rd Nat)
            (d.reader start) = (.ok first, d.reader start) := by rw [Op.stateless, hread]
        rw [Op.bind_ok hfirst]
        by_cases hwant : first = want
        · rw [if_pos hwant]
          exact .inr (.inr (.inr ⟨(start, next), rfl, .skip hskip, hstart, by rw [hread, hwant]⟩))
        · rw [if_neg hwant]
          obtain herr | ⟨bit, child, herr, hcomp, hout⟩ | hnone | ⟨child, hsome, hcomp, hle, hfound⟩ :=
            ih next start hstart
          · exact .inl herr
          · exact .inr (.inl ⟨bit, child, herr, .later hskip hread hwant hcomp, hout⟩)
          · exact .inr (.inr (.inl hnone))
          · exact .inr (.inr (.inr ⟨child, hsome, .later hskip hread hwant hcomp, hle, hfound⟩))
      · have hfirst : (Op.stateless (bsReadBitsAt d.buf start d.sym.bitsPerSymbol) : Rd Nat)
            (d.reader start) = (.error (.oob bit), d.reader start) := by rw [Op.stateless, hread]
        rw [Op.bind_error hfirst]
        exact .inr (.inl ⟨bit, (start, next), rfl, .skip hskip, hout⟩)

/-- A child whose first symbol does not end in the buffer stops the loop outside. -/
theorem Compared.oob {remaining p : Nat} {child : Nat × Nat}
    (h : Compared d want subEnd remaining p child)
    (hout : 8 * d.buf.length < child.1 + d.sym.bitsPerSymbol) {x : Nat} (hx : x ≤ 8 * d.buf.length) :
    ∃ bit r, prefixChildren d want subEnd remaining p (d.reader x) = (.error (.oob bit), r) := by
  have hstop : ∀ {start : Nat} {f : Nat → Rd (Option (Nat × Nat))}, start ≤ 8 * d.buf.length →
      8 * d.buf.length < start + d.sym.bitsPerSymbol → ∃ bit r,
        (Op.stateless (bsReadBitsAt d.buf start d.sym.bitsPerSymbol) >>= f) (d.reader start) =
          (.error (.oob bit), r) := by
    intro start f hstart hout
    obtain ⟨hin, _⟩ | ⟨_, bit, hread⟩ := bsReadBitsAt_cases hd hstart
    · omega
    · exact ⟨bit, d.reader start, Op.bind_error (by rw [Op.stateless, hread])⟩
  induction h generalizing x with
  | last le =>
    rw [prefixChildren, Op.bind_ok (seek_reader hd le)]
    exact hstop le hout
  | skip skip =>
    rw [prefixChildren_skip hd x skip]
    exact hstop skip.2.1 hout
  | later skip read ne h ih =>
    rw [prefixChildren_skip hd x skip,
      Op.bind_ok (show Op.stateless _ (d.reader _) = (.ok _, d.reader _) by rw [Op.stateless, read]),
      if_neg ne]
    exact ih hout skip.2.1

end Children

/-! ## An iteration -/

/-- How the state that follows comes about: a byte of the prefix is matched, or a child is
entered whose first symbol is the one of the next byte. -/
inductive PrefixNext (d : Dict) (pre : List UInt8) (s : PrefixState) : PrefixState → Prop
  | byte {t : PrefixState} (lt : s.matched < pre.length) (matched : t.matched = s.matched + 1)
      (subEnd : t.subEnd = s.subEnd) (le : t.pos ≤ 8 * d.buf.length) : PrefixNext d pre s t
  | child {t : PrefixState} {byte : UInt8} {nchildren childPreamble : Nat}
      (branch : AtBranch d pre s byte nchildren childPreamble)
      (compared : Compared d (d.sym.symbolMap byte) s.subEnd nchildren childPreamble
        (t.pos, t.subEnd))
      (le : t.pos ≤ 8 * d.buf.length)
      (first : bsReadBitsAt d.buf t.pos d.sym.bitsPerSymbol = .ok (d.sym.symbolMap byte))
      (matched : t.matched = s.matched) : PrefixNext d pre s t

/-- How an iteration ends that reads a bit outside the buffer. -/
def PeeksOutside (d : Dict) (pre : List UInt8) (s : PrefixState) : Prop :=
  ∃ byte nchildren childPreamble child, AtBranch d pre s byte nchildren childPreamble ∧
    Compared d (d.sym.symbolMap byte) s.subEnd nchildren childPreamble child ∧
    8 * d.buf.length < child.1 + d.sym.bitsPerSymbol

section Body

variable {d : Dict} (hd : d.Sound) {pre : List UInt8} {s : PrefixState}

include hd

theorem prefixAtBranch_safe (subEnd code : Nat) : Rd.Safe (prefixAtBranch d subEnd code) := by
  have hlow := hd.one_le
  have hhigh := hd.le_eight
  rw [prefixAtBranch]
  split
  · refine Rd.Safe.bind ?_ fun _ => bsReaderPosition_safe.bind fun pos => ?_
    · split
      · exact bsReadVarintU_safe.bind fun _ => .pure _
      · exact .pure _
    · split
      · exact .fail _
      · refine (bsReadBits_safe hlow (by omega)).bind fun branchSym => ?_
        split
        · exact .fail _
        · exact .pure _
  · exact .pure _

/-- At a BRANCH the iteration is the loop over the children. -/
theorem AtBranch.prefixBody_eq {byte : UInt8} {nchildren childPreamble : Nat}
    (h : AtBranch d pre s byte nchildren childPreamble) {x : Nat} :
    prefixBody d pre s (d.reader x) =
      (do
        let child ← prefixChildren d (d.sym.symbolMap byte) s.subEnd nchildren childPreamble
        match child with
        | none => Op.fail .notFound
        | some (pos, subEnd) => return .inl { s with pos := pos, subEnd := subEnd } :
        Rd (PrefixState ⊕ (Nat × Nat))) (d.reader childPreamble) := by
  obtain ⟨code, r₁, r₂, hcode, hbranch, hcount⟩ := h.reads
  have hlt := h.lt
  rw [prefixBody]
  simp only [h.get]
  rw [if_neg (by omega), Op.bind_ok (seek_reader hd h.le), Op.bind_ok hcode, Op.bind_ok hbranch,
    if_pos rfl, Op.bind_ok hcount]
  rfl

/-- What an iteration does. -/
theorem prefixBody_cases {x : Nat} :
    (∃ code, (prefixBody d pre s (d.reader x)).1 = .error (.rc code)) ∨
    (∃ bit, (prefixBody d pre s (d.reader x)).1 = .error (.oob bit) ∧ PeeksOutside d pre s) ∨
    (∃ found, (prefixBody d pre s (d.reader x)).1 = .ok (.inr found)) ∨
    ∃ t y, prefixBody d pre s (d.reader x) = (.ok (.inl t), d.reader y) ∧ y ≤ 8 * d.buf.length ∧
      PrefixNext d pre s t := by
  have hlow := hd.one_le
  have hhigh := hd.le_eight
  cases hget : pre[s.matched]? with
  | none => exact .inr (.inr (.inl ⟨(s.pos, s.subEnd), by rw [prefixBody]; simp only [hget]; rfl⟩))
  | some byte =>
    have hmatched := (List.getElem?_eq_some_iff.mp hget).1
    by_cases hlt : s.pos < s.subEnd
    swap
    · exact .inl ⟨.notFound, by rw [prefixBody]; simp only [hget]; rw [if_pos (by omega)]; rfl⟩
    by_cases hpos : s.pos ≤ 8 * d.buf.length
    swap
    · have hseek : bsReaderSeek s.pos (d.reader x) = (.error (.rc .invalidPosition), d.reader x) := by
        rw [bsReaderSeek, hd.bitLen, if_pos (by omega)]
      refine .inl ⟨.invalidPosition, ?_⟩
      rw [prefixBody]
      simp only [hget]
      rw [if_neg (by omega), Op.bind_error hseek]
    -- the symbol at the position, and whether a BRANCH follows
    obtain ⟨r₁, hr₁, hbuf₁, ⟨e, hcode⟩ | ⟨code, hcode⟩⟩ :=
      (bsReadBits_safe hlow (by omega)).cases (hd.reader hpos)
    · refine .inl ⟨e, ?_⟩
      rw [prefixBody]
      simp only [hget]
      rw [if_neg (by omega), Op.bind_ok (seek_reader hd hpos), Op.bind_error hcode]
    obtain ⟨r₂, hr₂, hbuf₂, ⟨e, hbranch⟩ | ⟨atBranch, hbranch⟩⟩ :=
      (prefixAtBranch_safe hd s.subEnd code).cases hr₁
    · refine .inl ⟨e, ?_⟩
      rw [prefixBody]
      simp only [hget]
      rw [if_neg (by omega), Op.bind_ok (seek_reader hd hpos), Op.bind_ok hcode,
        Op.bind_error hbranch]
    have hbody : prefixBody d pre s (d.reader x) = (if atBranch then do
          let nchildren ← bsReadVarintU
          let childPreamble ← bsReaderPosition
          let child ← prefixChildren d (d.sym.symbolMap byte) s.subEnd nchildren childPreamble
          match child with
          | none => Op.fail .notFound
          | some (pos, subEnd) => return .inl { s with pos := pos, subEnd := subEnd }
        else if code < 256 ∧ d.sym.codeIsCtrl code then Op.fail .corrupt
        else if (if code < 256 then d.sym.reverseMap code else 0) ≠ byte then Op.fail .notFound
        else do
          let pos ← bsReaderPosition
          return .inl { s with pos := pos, matched := s.matched + 1 } :
        Rd (PrefixState ⊕ (Nat × Nat))) r₂ := by
      rw [prefixBody]
      simp only [hget]
      rewrite [if_neg (by omega), Op.bind_ok (seek_reader hd hpos), Op.bind_ok hcode, Op.bind_ok hbranch]
      rfl
    have hreader₂ := reader_eq hd hr₂ (hbuf₂.trans hbuf₁)
    have hle₂ := hr₂.pos_le
    have hlen₂ := hr₂.bitLen_eq
    rw [hbuf₂.trans hbuf₁, Dict.reader_buf] at hlen₂
    cases atBranch with
    | false =>
      rw [hbody, if_neg (by simp)]
      generalize (if code < 256 then d.sym.reverseMap code else 0) = literal
      split
      · exact .inl ⟨.corrupt, rfl⟩
      split
      · exact .inl ⟨.notFound, rfl⟩
      · refine .inr (.inr (.inr ⟨_, r₂.pos, Prod.ext rfl hreader₂, by omega, ?_⟩))
        exact .byte hmatched rfl rfl (by simp only; omega)
    | true =>
      obtain ⟨r₃, hr₃, hbuf₃, ⟨e, hcount⟩ | ⟨nchildren, hcount⟩⟩ := bsReadVarintU_safe.cases hr₂
      · refine .inl ⟨e, ?_⟩
        rw [hbody, if_pos rfl, Op.bind_error hcount]
      have hbuf : r₃.buf = d.buf := hbuf₃.trans (hbuf₂.trans hbuf₁)
      have hreader₃ := reader_eq hd hr₃ hbuf
      have hle₃ := hr₃.pos_le
      have hlen₃ := hr₃.bitLen_eq
      rw [hbuf] at hlen₃
      have hat : AtBranch d pre s byte nchildren r₃.pos :=
        ⟨hget, hlt, hpos, by omega, code, r₁, r₂, hcode, hbranch, by rw [← hreader₃]; exact hcount⟩
      rw [hat.prefixBody_eq hd]
      obtain ⟨e, herr⟩ | ⟨bit, child, herr, hcomp, hout⟩ | hnone | ⟨child, hsome, hcomp, hle, hfirst⟩ :=
        @prefixChildren_cases d hd (d.sym.symbolMap byte) s.subEnd nchildren r₃.pos r₃.pos (by omega)
      · exact .inl ⟨e, congrArg Prod.fst (Op.bind_error (Prod.ext herr rfl))⟩
      · exact .inr (.inl ⟨bit, congrArg Prod.fst (Op.bind_error (Prod.ext herr rfl)),
          byte, nchildren, r₃.pos, child, hat, hcomp, hout⟩)
      · refine .inl ⟨.notFound, ?_⟩
        rw [Op.bind_ok (Prod.ext hnone rfl)]
        rfl
      · refine .inr (.inr (.inr ⟨⟨child.1, child.2, s.matched⟩, child.1, ?_, hle, ?_⟩))
        · rw [Op.bind_ok hsome]
          rfl
        · exact .child hat hcomp hle hfirst rfl

/-- At a child whose first symbol does not end in the buffer the iteration reads outside. -/
theorem PeeksOutside.oob (h : PeeksOutside d pre s) {x : Nat} :
    ∃ bit, (prefixBody d pre s (d.reader x)).1 = .error (.oob bit) := by
  obtain ⟨byte, nchildren, childPreamble, child, hat, hcomp, hout⟩ := h
  obtain ⟨bit, r, herr⟩ := hcomp.oob hd hout hat.preamble_le
  exact ⟨bit, by rw [hat.prefixBody_eq hd, Op.bind_error herr]⟩

end Body

end Triepack
