import Triepack.Core.IterDrain

/-!
# Prefix search

`descend_to_prefix` follows the bytes of a prefix to the subtree of the keys that start with it.
It keeps the end of the subtree it is in, and chooses a child by looking at its first symbol
without moving a cursor there. On malformed tries the walk need not come to an end, so that its
loop is run with fuel.
-/

namespace Triepack

open BitString WhileLoop

/-- `pos`, `end` and `matched` of `descend_to_prefix`. -/
structure PrefixState where
  pos : Nat
  subEnd : Nat
  matched : Nat
  deriving DecidableEq, Repr

/-- A read that takes no cursor. -/
def Op.stateless {σ α : Type} (result : Except Stop α) : Op σ α := fun s => (result, s)

/-- The loop of `descend_to_prefix` over the children of a branch with `remaining` of them left:
where the one that starts with the symbol `want` begins and ends. -/
def prefixChildren (d : Dict) (want subEnd : Nat) :
    (remaining childPreamble : Nat) → Rd (Option (Nat × Nat))
  | 0, _ => pure none
  | remaining + 1, childPreamble => do
    bsReaderSeek childPreamble
    let child ← (if remaining ≠ 0 then do
      let skipSym ← bsReadBits d.sym.bitsPerSymbol
      if skipSym ≠ d.sym.ctrlCodes .skip then Op.fail .corrupt
      else do
        let dist ← bsReadVarintU
        let childStart ← bsReaderPosition
        return (childStart, u64 (childStart + dist))
    else return (childPreamble, subEnd))
    let first ← Op.stateless (bsReadBitsAt d.buf child.1 d.sym.bitsPerSymbol)
    if first = want then return some child
    else prefixChildren d want subEnd remaining child.2

/-- `at_branch`: the symbol is BRANCH, or it ends a key that is shorter than the prefix, and
BRANCH follows. -/
def prefixAtBranch (d : Dict) (subEnd code : Nat) : Rd Bool :=
  let sym := d.sym
  if code = sym.ctrlCodes .end_ ∨ code = sym.ctrlCodes .endVal then do
    (if code = sym.ctrlCodes .endVal then do
      let _ ← bsReadVarintU
      return ()
    else return ())
    let pos ← bsReaderPosition
    if pos ≥ subEnd then Op.fail .notFound
    else do
      let branchSym ← bsReadBits sym.bitsPerSymbol
      if branchSym ≠ sym.ctrlCodes .branch then Op.fail .corrupt else return true
  else return decide (code = sym.ctrlCodes .branch)

/-- One iteration of the loop of `descend_to_prefix`, for the prefix `pre`. -/
def prefixBody (d : Dict) (pre : List UInt8) (s : PrefixState) : Rd (PrefixState ⊕ (Nat × Nat)) :=
  let sym := d.sym
  match pre[s.matched]? with
  | none => return .inr (s.pos, s.subEnd)
  | some byte =>
    if s.pos ≥ s.subEnd then Op.fail .notFound
    else do
      bsReaderSeek s.pos
      let code ← bsReadBits sym.bitsPerSymbol
      let atBranch ← prefixAtBranch d s.subEnd code
      if atBranch then do
        let nchildren ← bsReadVarintU
        let childPreamble ← bsReaderPosition
        let child ← prefixChildren d (sym.symbolMap byte) s.subEnd nchildren childPreamble
        match child with
        | none => Op.fail .notFound
        | some (pos, subEnd) => return .inl { s with pos := pos, subEnd := subEnd }
      else if code < 256 ∧ sym.codeIsCtrl code then Op.fail .corrupt
      else if (if code < 256 then sym.reverseMap code else 0) ≠ byte then Op.fail .notFound
      else do
        let pos ← bsReaderPosition
        return .inl { s with pos := pos, matched := s.matched + 1 }

/-- Where `descend_to_prefix` starts. -/
def prefixStart (d : Dict) : PrefixState := ⟨d.trieStart, d.valueStart, 0⟩

/-- `descend_to_prefix`. -/
def descendToPrefix (fuel : Nat) (d : Dict) (pre : List UInt8) : Except Stop (Nat × Nat) :=
  (Op.loop (prefixBody d pre) fuel (prefixStart d) (bsReaderCreate d.buf)).1

/-- `tp_dict_find_prefix`; the prefix ends at the first NUL. -/
def dictFindPrefix (fuel : Nat) (d : Dict) (str : List UInt8) : Except Stop Iter :=
  let it := dictIterate d
  let pre := str.takeWhile fun b => b != 0
  if pre.length = 0 ∨ d.info.numKeys = 0 then .ok it
  else
    match descendToPrefix fuel d pre with
    | .error (.rc .notFound) => .ok { it with done := true }
    | .error e => .error e
    | .ok (subPos, subEnd) =>
      .ok (iterReset { it with
        keyBuf := pre
        rootPos := subPos
        rootEnd := subEnd
        rootKeyLen := pre.length })

theorem descendToPrefix_unique {fuel fuel' : Nat} {d : Dict} {pre : List UInt8}
    (h : descendToPrefix fuel d pre ≠ .error .fuel) (h' : descendToPrefix fuel' d pre ≠ .error .fuel) :
    descendToPrefix fuel d pre = descendToPrefix fuel' d pre := by
  rw [descendToPrefix, Op.loop] at h ⊢
  rw [descendToPrefix, Op.loop] at h' ⊢
  split at h
  · rename_i out hrun
    split at h'
    · rename_i out' hrun'
      exact congrArg Prod.fst (Returns.unique ⟨fuel, hrun⟩ ⟨fuel', hrun'⟩)
    · exact absurd rfl h'
  · exact absurd rfl h

/-- More fuel finds nothing else. -/
theorem dictFindPrefix_unique {fuel fuel' : Nat} {d : Dict} {str : List UInt8} {it it' : Iter}
    (h : dictFindPrefix fuel d str = .ok it) (h' : dictFindPrefix fuel' d str = .ok it') :
    it = it' := by
  have hfuel : ∀ {fuel : Nat} {it : Iter}, ¬ ((str.takeWhile fun b => b != 0).length = 0 ∨
      d.info.numKeys = 0) → dictFindPrefix fuel d str = .ok it →
      descendToPrefix fuel d (str.takeWhile fun b => b != 0) ≠ .error .fuel := by
    intro fuel it hgo hok hfuel
    rw [dictFindPrefix] at hok
    simp only [if_neg hgo, hfuel] at hok
    exact absurd hok (by simp)
  by_cases hgo : (str.takeWhile fun b => b != 0).length = 0 ∨ d.info.numKeys = 0
  · rw [dictFindPrefix] at h h'
    simp only [if_pos hgo] at h h'
    exact Except.ok.inj (h.symm.trans h')
  · have hsame := descendToPrefix_unique (hfuel hgo h) (hfuel hgo h')
    rw [dictFindPrefix] at h h'
    simp only [if_neg hgo] at h h'
    rw [hsame] at h
    exact Except.ok.inj (h.symm.trans h')

/-! ## In a built dictionary -/

section Walk

variable {d : Dict} (hd : d.Sound) {used : List UInt8} (hcodes : d.sym.Codes used)
  {pre : List UInt8} {pos vi : Nat}

include hd hcodes

theorem readBitsAt_byte {b : UInt8} (hb : b ∈ used)
    (h : At (bytesBits d.buf) pos (symbolBits d.sym (d.sym.symbolMap b))) :
    bsReadBitsAt d.buf pos d.sym.bitsPerSymbol = .ok (d.sym.symbolMap b) := by
  have hlow := hd.one_le
  have hhigh := hd.le_eight
  have hlen := hd.length_lt
  have hle := h.le (symbolBits_ne_nil hd _)
  rw [length_bytesBits, length_symbolBits] at hle
  have hread := bsReadBitsAt_of_at h (by rw [length_symbolBits]; omega)
    (by rw [length_symbolBits]; omega) (by rw [length_symbolBits]; omega)
  rw [length_symbolBits] at hread
  rw [hread, symbolBits, bitsNat_natBits, Nat.mod_eq_of_lt (hcodes.symbol_lt b hb)]

/-- A byte of a label is the next byte of the prefix, or no key has the prefix. -/
theorem prefixBody_symbol {s : PrefixState} {a b : UInt8} (hget : pre[s.matched]? = some b)
    (ha : a ∈ used) (hlt : s.pos < s.subEnd)
    (h : At (bytesBits d.buf) s.pos (symbolBits d.sym (d.sym.symbolMap a))) (x : Nat) :
    prefixBody d pre s (d.reader x) =
      (if a = b then .ok (.inl ⟨s.pos + d.sym.bitsPerSymbol, s.subEnd, s.matched + 1⟩)
        else .error (.rc .notFound), d.reader (s.pos + d.sym.bitsPerSymbol)) := by
  have hsix := hcodes.six_le a ha
  have hcode := symbol_lt_256 hcodes ha
  have hle := h.le (symbolBits_ne_nil hd _)
  rw [length_bytesBits] at hle
  have h0 : d.sym.ctrlCodes .end_ = 0 := hcodes.ctrl _
  have h1 : d.sym.ctrlCodes .endVal = 1 := hcodes.ctrl _
  have h5 : d.sym.ctrlCodes .branch = 5 := hcodes.ctrl _
  have hbranch : ∀ r, prefixAtBranch d s.subEnd (d.sym.symbolMap a) r = (.ok false, r) := by
    intro r
    rw [prefixAtBranch, h0, h1, h5, if_neg (by omega)]
    rw [decide_eq_false (by omega)]
    rfl
  rw [prefixBody]
  simp only [hget]
  rw [if_neg (by omega), Op.bind_ok (seek_reader hd (by omega)),
    Op.bind_ok (read_byte hd hcodes ha h), Op.bind_ok (hbranch _), if_neg (by simp), hcodes.is_ctrl,
    if_neg (by simpa using fun _ => hsix), if_pos hcode, hcodes.reverse a ha]
  by_cases hab : a = b
  · rw [if_neg (by simpa using hab), if_pos hab]
    rfl
  · rw [if_pos hab, if_neg hab]
    rfl

/-- The loop over the children stops at the one whose label starts with the byte. -/
theorem prefixChildren_spec (b : UInt8) {kids : List Trie} (x : Nat) {subEnd : Nat}
    (h : KidsAt d used pos kids vi) (hne : kids ≠ [])
    (hend : subEnd = pos + d.kidsLen kids vi) :
    match PrefixTree.findKid b kids with
    | none => ∃ y, prefixChildren d (d.sym.symbolMap b) subEnd kids.length pos (d.reader x) =
        (.ok none, d.reader y)
    | some (i, u) => ∃ y p t, prefixChildren d (d.sym.symbolMap b) subEnd kids.length pos
          (d.reader x) = (.ok (some (p, p + d.trieLen t (vi + i))), d.reader y) ∧
        TrieAt d used p t (vi + i) ∧ t.strip? b = some u := by
  induction kids generalizing pos vi x with
  | nil => exact absurd rfl hne
  | cons t ts ih =>
    have hfirst : ∀ p, TrieAt d used p t vi → bsReadBitsAt d.buf p d.sym.bitsPerSymbol =
        .ok (d.sym.symbolMap (t.label.headD 0)) ∧
        (d.sym.symbolMap (t.label.headD 0) = d.sym.symbolMap b ↔ t.label.head? = some b) := by
      intro p hp
      have hlabel := h.labels t (by simp)
      obtain ⟨l, term, kids⟩ := t
      obtain ⟨a, l, rfl⟩ := List.exists_cons_of_ne_nil (show l ≠ [] from hlabel)
      obtain ⟨ha, hsymbol, _⟩ := hp.cons
      refine ⟨readBitsAt_byte hd hcodes ha hsymbol, ?_⟩
      simp only [PrefixTree.label, List.headD_cons, List.head?_cons, Option.some.injEq]
      exact ⟨hcodes.symbolMap_inj ha, fun heq => by rw [heq]⟩
    rw [PrefixTree.findKid, List.length_cons, prefixChildren]
    cases ts with
    | nil =>
      have htrie := h.last
      have hle := htrie.end_le hd
      obtain ⟨hread, hiff⟩ := hfirst pos htrie
      have hchild : subEnd = pos + d.trieLen t vi := by
        rw [hend, kidsLen_cons]
        simp [Dict.kidsLen, kidsBits]
      rw [Op.bind_ok (seek_reader hd (show pos ≤ _ by omega)), List.length_nil, if_neg (by simp),
        Op.bind_ok (Op.pure_apply (pos, subEnd) _), hread]
      rw [Op.bind_ok (show Op.stateless (.ok _) (d.reader pos) = (.ok _, d.reader pos) from rfl)]
      obtain ⟨hhead, u, hstrip, _⟩ | ⟨hhead, hstrip⟩ := h.strip b
      · simp only [hstrip]
        rw [if_pos (hiff.mpr hhead)]
        exact ⟨pos, pos, t, by rw [hchild]; rfl, htrie, hstrip⟩
      · simp only [hstrip, PrefixTree.findKid, Option.map_none]
        rw [if_neg (fun heq => hhead (hiff.mp heq))]
        exact ⟨pos, rfl⟩
    | cons t' ts =>
      obtain ⟨hskip, htrie, hrest⟩ := h.cons
      have hle := htrie.end_le hd
      have hlen := hd.length_lt
      have hle' := hskip.le (List.ne_nil_of_length_pos (by
        rw [skipBits, List.length_append, length_symbolBits]
        have := hd.one_le
        omega))
      rw [length_bytesBits] at hle'
      obtain ⟨hread, hiff⟩ := hfirst _ htrie
      have hdist := readVarint_at hd (by omega) hskip.right
      rw [length_symbolBits] at hdist
      have hstart : pos + d.sym.bitsPerSymbol + (Leb128.bits (d.trieLen t vi)).length =
          pos + (skipBits d.sym (d.trieLen t vi)).length := by
        rw [skipBits, List.length_append, length_symbolBits, Nat.add_assoc]
      rw [hstart] at hdist
      have hskipSym : d.sym.ctrlCodes .skip = 2 := hcodes.ctrl _
      have hpos : ∀ p, bsReaderPosition (d.reader p) = (.ok p, d.reader p) := fun _ => rfl
      have hchild : (do
          let skipSym ← bsReadBits d.sym.bitsPerSymbol
          if skipSym ≠ d.sym.ctrlCodes .skip then Op.fail .corrupt
          else do
            let dist ← bsReadVarintU
            let childStart ← bsReaderPosition
            return (childStart, u64 (childStart + dist)) : Rd (Nat × Nat)) (d.reader pos) =
          (.ok (pos + (skipBits d.sym (d.trieLen t vi)).length,
            pos + (skipBits d.sym (d.trieLen t vi)).length + d.trieLen t vi),
            d.reader (pos + (skipBits d.sym (d.trieLen t vi)).length)) := by
        rw [Op.bind_ok (read_ctrl hd hcodes hskip.left), hskipSym, if_neg (by decide),
          Op.bind_ok hdist, Op.bind_ok (hpos _), u64_of_lt (by omega)]
        rfl
      rw [Op.bind_ok (seek_reader hd (show pos ≤ _ by omega)), if_pos (by simp), Op.bind_ok hchild,
        hread]
      rw [Op.bind_ok (show Op.stateless (.ok _) (d.reader _) = (.ok _, d.reader _) from rfl)]
      obtain ⟨hhead, u, hstrip, _⟩ | ⟨hhead, hstrip⟩ := h.strip b
      · simp only [hstrip]
        rw [if_pos (hiff.mpr hhead)]
        exact ⟨_, _, t, rfl, htrie, hstrip⟩
      · simp only [hstrip]
        rw [if_neg (fun heq => hhead (hiff.mp heq))]
        have hfind := ih (pos + (skipBits d.sym (d.trieLen t vi)).length) hrest (by simp) (by
          rw [hend, kidsLen_cons, if_neg (by simp)]
          omega)
        cases hk : PrefixTree.findKid b (t' :: ts) with
        | none =>
          rw [hk] at hfind
          exact hfind
        | some r =>
          obtain ⟨i, u⟩ := r
          rw [hk] at hfind
          simpa only [Option.map_some, ← Nat.add_assoc] using hfind

/-- The symbol in front of a branch: a terminal, or BRANCH itself. -/
theorem prefixAtBranch_node {term : Option (Value (List UInt8))} {kids : List Trie}
    (h : TrieAt d used pos (.node [] term kids) vi) (hne : kids ≠ []) :
    (do
      let code ← bsReadBits d.sym.bitsPerSymbol
      prefixAtBranch d (pos + d.trieLen (.node [] term kids) vi) code : Rd Bool) (d.reader pos) =
      (.ok true, d.reader (pos + (termBits d.sym d.info.hasValues vi term).length +
        d.sym.bitsPerSymbol)) := by
  have h0 : d.sym.ctrlCodes .end_ = 0 := hcodes.ctrl _
  have h1 : d.sym.ctrlCodes .endVal = 1 := hcodes.ctrl _
  have h5 : d.sym.ctrlCodes .branch = 5 := hcodes.ctrl _
  obtain ⟨hbranch, _⟩ := h.branch hne
  have hsym := read_ctrl hd hcodes hbranch.left
  have hinside : pos + (termBits d.sym d.info.hasValues vi term).length <
      pos + d.trieLen (.node [] term kids) vi := by
    have := length_branchBits_pos hd kids.length
    rw [trieLen_node_nil, if_neg (by simpa using hne)]
    omega
  have hpos : ∀ p, bsReaderPosition (d.reader p) = (.ok p, d.reader p) := fun _ => rfl
  cases term with
  | none =>
    simp only [termBits, List.length_nil, Nat.add_zero] at hsym ⊢
    rw [Op.bind_ok hsym, prefixAtBranch, h0, h1, h5, if_neg (by decide)]
    rfl
  | some v =>
    have hterm := h.term
    generalize d.trieLen (.node [] (some v) kids) vi = len at hinside
    simp only [termBits] at hterm hsym hinside ⊢
    by_cases hval : d.info.hasValues ∧ v.tag ≠ 0
    · simp only [if_pos hval, List.length_append, length_symbolBits, ← Nat.add_assoc]
        at hterm hsym hinside ⊢
      have hvi := readVarint_at hd (by have := u32_lt vi; omega) hterm.right
      rw [length_symbolBits] at hvi
      have hindex : (do let _ ← bsReadVarintU; return () : Rd Unit)
          (d.reader (pos + d.sym.bitsPerSymbol)) = (.ok (),
            d.reader (pos + d.sym.bitsPerSymbol + (Leb128.bits (u32 vi)).length)) :=
        Op.bind_ok hvi
      rw [Op.bind_ok (read_ctrl hd hcodes hterm.left), prefixAtBranch, h0, h1, h5,
        if_pos (by decide), if_pos (by decide), Op.bind_ok hindex, Op.bind_ok (hpos _),
        if_neg (by omega), Op.bind_ok hsym, if_neg (by decide)]
      rfl
    · simp only [if_neg hval, length_symbolBits] at hterm hsym hinside ⊢
      rw [Op.bind_ok (read_ctrl hd hcodes hterm), prefixAtBranch, h0, h1, h5,
        if_pos (by decide), if_neg (by decide), Op.bind_ok (Op.pure_apply () _), Op.bind_ok (hpos _),
        if_neg (by omega), Op.bind_ok hsym, if_neg (by decide)]
      rfl

/-- A key that the prefix goes beyond, with nothing below it. -/
theorem prefixBody_leaf {s : PrefixState} {b : UInt8} {v : Value (List UInt8)}
    (hget : pre[s.matched]? = some b)
    (h : TrieAt d used s.pos (.node [] (some v) []) vi)
    (hend : s.subEnd = s.pos + d.trieLen (.node [] (some v) []) vi) (x : Nat) :
    prefixBody d pre s (d.reader x) = (.error (.rc .notFound), d.reader s.subEnd) := by
  have h0 : d.sym.ctrlCodes .end_ = 0 := hcodes.ctrl _
  have h1 : d.sym.ctrlCodes .endVal = 1 := hcodes.ctrl _
  have hle := h.end_le hd
  have hpos := trieLen_pos hd vi h.compact
  have hterm := h.term
  have hlen : d.trieLen (.node [] (some v) []) vi =
      (termBits d.sym d.info.hasValues vi (some v)).length := by
    rw [trieLen_node_nil]
    rfl
  have hreader : ∀ p, bsReaderPosition (d.reader p) = (.ok p, d.reader p) := fun _ => rfl
  rw [prefixBody]
  simp only [hget]
  rw [if_neg (by omega), Op.bind_ok (seek_reader hd (by omega))]
  rw [hlen] at hend
  rw [hend]
  simp only [termBits] at hterm ⊢
  by_cases hval : d.info.hasValues ∧ v.tag ≠ 0
  · simp only [if_pos hval, List.length_append, length_symbolBits, ← Nat.add_assoc] at hterm ⊢
    have hvi := readVarint_at hd (by have := u32_lt vi; omega) hterm.right
    rw [length_symbolBits] at hvi
    have hindex : (do let _ ← bsReadVarintU; return () : Rd Unit)
        (d.reader (s.pos + d.sym.bitsPerSymbol)) = (.ok (),
          d.reader (s.pos + d.sym.bitsPerSymbol + (Leb128.bits (u32 vi)).length)) :=
      Op.bind_ok hvi
    rw [Op.bind_ok (read_ctrl hd hcodes hterm.left)]
    refine Op.bind_error ?_
    rw [prefixAtBranch, h0, h1, if_pos (by decide), if_pos (by decide), Op.bind_ok hindex,
      Op.bind_ok (hreader _), if_pos (Nat.le_refl _)]
    rfl
  · simp only [if_neg hval, length_symbolBits] at hterm ⊢
    rw [Op.bind_ok (read_ctrl hd hcodes hterm)]
    refine Op.bind_error ?_
    rw [prefixAtBranch, h0, h1, if_pos (by decide), if_neg (by decide),
      Op.bind_ok (Op.pure_apply () _), Op.bind_ok (hreader _), if_pos (Nat.le_refl _)]
    rfl

/-- At a branch the walk goes to the child that starts with the byte. -/
theorem prefixBody_branch {s : PrefixState} {b : UInt8} {term : Option (Value (List UInt8))}
    {kids : List Trie} (hget : pre[s.matched]? = some b)
    (h : TrieAt d used s.pos (.node [] term kids) vi) (hne : kids ≠ [])
    (hend : s.subEnd = s.pos + d.trieLen (.node [] term kids) vi) (x : Nat) :
    match PrefixTree.findKid b kids with
    | none => ∃ y, prefixBody d pre s (d.reader x) = (.error (.rc .notFound), d.reader y)
    | some (i, u) => ∃ y p t, prefixBody d pre s (d.reader x) =
          (.ok (.inl ⟨p, p + d.trieLen t (vi + term.toList.length + i), s.matched⟩), d.reader y) ∧
        TrieAt d used p t (vi + term.toList.length + i) ∧ t.strip? b = some u := by
  obtain ⟨hbranch, hkids⟩ := h.branch hne
  have hle := h.end_le hd
  have hpos := trieLen_pos hd vi h.compact
  have hcount := readVarint_at hd (by have := hkids.length_lt hd; omega) hbranch.right
  rw [length_symbolBits] at hcount
  have hbranchLen : s.pos + (termBits d.sym d.info.hasValues vi term).length +
        d.sym.bitsPerSymbol + (Leb128.bits kids.length).length =
      s.pos + (termBits d.sym d.info.hasValues vi term).length +
        (branchBits d.sym kids.length).length := by
    rw [branchBits, List.length_append, length_symbolBits]
    omega
  rw [hbranchLen] at hcount
  have hsubEnd : s.subEnd = s.pos + (termBits d.sym d.info.hasValues vi term).length +
      (branchBits d.sym kids.length).length + d.kidsLen kids (vi + term.toList.length) := by
    rw [hend, trieLen_node_nil, if_neg (by simpa using hne)]
    omega
  have hfind := prefixChildren_spec hd hcodes b (s.pos + (termBits d.sym d.info.hasValues vi
    term).length + (branchBits d.sym kids.length).length) hkids hne hsubEnd
  have hreader : ∀ p, bsReaderPosition (d.reader p) = (.ok p, d.reader p) := fun _ => rfl
  -- up to the loop over the children
  have hbody : prefixBody d pre s (d.reader x) =
      (do
        let child ← prefixChildren d (d.sym.symbolMap b) s.subEnd kids.length
          (s.pos + (termBits d.sym d.info.hasValues vi term).length +
            (branchBits d.sym kids.length).length)
        match child with
        | none => Op.fail .notFound
        | some (pos, subEnd) => return .inl { s with pos := pos, subEnd := subEnd } :
        Rd (PrefixState ⊕ (Nat × Nat)))
      (d.reader (s.pos + (termBits d.sym d.info.hasValues vi term).length +
        (branchBits d.sym kids.length).length)) := by
    obtain ⟨code, hcode, hat⟩ := Op.bind_eq_ok (prefixAtBranch_node hd hcodes h hne)
    rw [← hend] at hat
    obtain ⟨hcode, hat⟩ := hat
    rw [prefixBody]
    simp only [hget]
    rw [if_neg (by omega), Op.bind_ok (seek_reader hd (by omega)), Op.bind_ok hcode,
      Op.bind_ok hat, if_pos rfl, Op.bind_ok hcount, Op.bind_ok (hreader _)]
  cases hk : PrefixTree.findKid b kids with
  | none =>
    rw [hk] at hfind
    obtain ⟨y, hfind⟩ := hfind
    exact ⟨y, by rw [hbody, Op.bind_ok hfind]; rfl⟩
  | some r =>
    obtain ⟨i, u⟩ := r
    rw [hk] at hfind
    obtain ⟨y, p, t, hfind, ht, hstrip⟩ := hfind
    exact ⟨y, p, t, by rw [hbody, Op.bind_ok hfind]; rfl, ht, hstrip⟩

/-- The walk enters a subtree with the rest of the prefix. -/
structure PrefixAt (d : Dict) (used : List UInt8) (s : PrefixState) (t : Trie) (vi : Nat) :
    Prop where
  stands : TrieAt d used s.pos t vi
  subEnd_eq : s.subEnd = s.pos + d.trieLen t vi

/-- One byte of the prefix is one step in the tree. -/
theorem prefix_step {s : PrefixState} {b : UInt8} {t : Trie} (hget : pre[s.matched]? = some b)
    (h : PrefixAt d used s t vi) (x : Nat) :
    match t.step b with
    | none => ∃ y, Returns (Op.loopStep (prefixBody d pre)) (s, d.reader x)
        (.error (.rc .notFound), d.reader y)
    | some (i, u) => ∃ y s', Reaches (Op.loopStep (prefixBody d pre)) (s, d.reader x)
        (s', d.reader y) ∧ s'.matched = s.matched + 1 ∧ PrefixAt d used s' u (vi + i) := by
  -- a byte of a label, wherever the label is
  have hsymbol : ∀ {s : PrefixState} {a : UInt8} {l : List UInt8}
      {term : Option (Value (List UInt8))} {kids : List Trie} {vi : Nat} (x : Nat),
      pre[s.matched]? = some b → PrefixAt d used s (.node (a :: l) term kids) vi →
      prefixBody d pre s (d.reader x) =
        (if a = b then .ok (.inl ⟨s.pos + d.sym.bitsPerSymbol, s.subEnd, s.matched + 1⟩)
          else .error (.rc .notFound), d.reader (s.pos + d.sym.bitsPerSymbol)) ∧
      PrefixAt d used ⟨s.pos + d.sym.bitsPerSymbol, s.subEnd, s.matched + 1⟩ (.node l term kids)
        vi := by
    intro s a l term kids vi x hget h
    obtain ⟨ha, hsym, hrest⟩ := h.stands.cons
    have hpos := trieLen_pos hd vi h.stands.compact
    have hend := h.subEnd_eq
    refine ⟨prefixBody_symbol hd hcodes hget ha (by omega) hsym x, hrest, ?_⟩
    rw [hend, trieLen_cons, Nat.add_assoc]
  obtain ⟨l, term, kids⟩ := t
  cases l with
  | cons a l =>
    obtain ⟨hbody, hnext⟩ := hsymbol x hget h
    rw [PrefixTree.step]
    by_cases hab : a = b
    · rw [if_pos hab] at hbody ⊢
      exact ⟨_, _, .single (Op.loopStep_next hbody), rfl, hnext⟩
    · rw [if_neg hab] at hbody ⊢
      exact ⟨_, .of_inr (Op.loopStep_error hbody)⟩
  | nil =>
    rw [PrefixTree.step]
    by_cases hne : kids = []
    · subst hne
      obtain ⟨v, rfl⟩ : ∃ v, term = some v := by
        cases h.stands.compact with
        | intro _ _ _ two =>
          exact Option.ne_none_iff_exists'.mp fun hnone => absurd (two hnone) (by simp)
      have hbody := prefixBody_leaf hd hcodes hget h.stands h.subEnd_eq x
      exact ⟨_, .of_inr (Op.loopStep_error hbody)⟩
    · have hbody := prefixBody_branch hd hcodes hget h.stands hne h.subEnd_eq x
      cases hk : PrefixTree.findKid b kids with
      | none =>
        rw [hk] at hbody
        obtain ⟨y, hbody⟩ := hbody
        exact ⟨y, .of_inr (Op.loopStep_error hbody)⟩
      | some r =>
        obtain ⟨i, u⟩ := r
        rw [hk] at hbody
        obtain ⟨y, p, t, hbody, ht, hstrip⟩ := hbody
        obtain ⟨l, term', kids'⟩ := t
        cases l with
        | nil => simp [PrefixTree.strip?] at hstrip
        | cons a l =>
          simp only [PrefixTree.strip?] at hstrip
          split_ifs at hstrip with hab
          obtain rfl : .node l term' kids' = u := by simpa using hstrip
          obtain ⟨hbody', hnext⟩ := hsymbol
            (s := ⟨p, p + d.trieLen (.node (a :: l) term' kids') (vi + term.toList.length + i),
              s.matched⟩) y hget ⟨ht, rfl⟩
          rw [if_pos hab] at hbody'
          refine ⟨_, _, .head (Op.loopStep_next hbody) (.single (Op.loopStep_next hbody')), rfl, ?_⟩
          rw [← Nat.add_assoc]
          exact hnext

/-- The walk of `descend_to_prefix` is `PrefixTree.descend`. -/
theorem prefix_walk {p : List UInt8} {s : PrefixState} {t : Trie} (hp : pre.drop s.matched = p)
    (h : PrefixAt d used s t vi) (x : Nat) :
    match PrefixTree.descend p t with
    | none => ∃ y, Returns (Op.loopStep (prefixBody d pre)) (s, d.reader x)
        (.error (.rc .notFound), d.reader y)
    | some (i, u) => ∃ y q, Returns (Op.loopStep (prefixBody d pre)) (s, d.reader x)
        (.ok (q, q + d.trieLen u (vi + i)), d.reader y) ∧ TrieAt d used q u (vi + i) := by
  induction p generalizing s t vi x with
  | nil =>
    have hget : pre[s.matched]? = none :=
      List.getElem?_eq_none (List.drop_eq_nil_iff.mp hp)
    have hbody : prefixBody d pre s (d.reader x) = (.ok (.inr (s.pos, s.subEnd)), d.reader x) := by
      rw [prefixBody]
      simp only [hget]
      rfl
    refine ⟨x, s.pos, ?_, h.stands⟩
    rw [Nat.add_zero, ← h.subEnd_eq]
    exact .of_inr (Op.loopStep_done hbody)
  | cons b p ih =>
    have hget : pre[s.matched]? = some b := by
      rw [← List.head?_drop, hp]
      rfl
    have hnext : pre.drop (s.matched + 1) = p := by
      rw [← List.drop_drop, hp]
      rfl
    have hstep := prefix_step hd hcodes hget h x
    rw [PrefixTree.descend]
    cases hs : t.step b with
    | none =>
      rw [hs] at hstep
      exact hstep
    | some r =>
      obtain ⟨i, u⟩ := r
      rw [hs] at hstep
      obtain ⟨y, s', hreach, hmatched, hat⟩ := hstep
      have hwalk := ih (by rw [hmatched]; exact hnext) hat y
      simp only [Option.bind_some]
      cases hdesc : PrefixTree.descend p u with
      | none =>
        rw [hdesc] at hwalk
        obtain ⟨z, hret⟩ := hwalk
        exact ⟨z, hreach.returns hret⟩
      | some r =>
        obtain ⟨j, v⟩ := r
        rw [hdesc] at hwalk
        obtain ⟨z, q, hret, hq⟩ := hwalk
        rw [Nat.add_assoc] at hret hq
        exact ⟨z, q, hreach.returns hret, hq⟩

end Walk

section Find

variable {d : Dict} {es : List Entry} {t₀ : Trie} (hd : Represents d es t₀) {pre : List UInt8}

include hd

/-- `descend_to_prefix` finds the subtree, or that there is none. -/
theorem Represents.descendToPrefix (pre : List UInt8) :
    match PrefixTree.descend pre t₀ with
    | none => ∃ bound, ∀ fuel ≥ bound, descendToPrefix fuel d pre = .error (.rc .notFound)
    | some (i, u) => ∃ bound q, (∀ fuel ≥ bound,
          descendToPrefix fuel d pre = .ok (q, q + d.trieLen u i)) ∧
        TrieAt d (usedBytes (es.map Entry.key)) q u i := by
  have hstart : PrefixAt d (usedBytes (es.map Entry.key)) (prefixStart d) t₀ 0 :=
    ⟨hd.trieAt, hd.valueStart_eq⟩
  have hwalk := @prefix_walk d hd.sound _ hd.codes pre 0 _ _ _ rfl hstart 0
  rw [show pre.drop (prefixStart d).matched = pre from List.drop_zero] at hwalk
  cases hdesc : PrefixTree.descend pre t₀ with
  | none =>
    rw [hdesc] at hwalk
    obtain ⟨y, hret⟩ := hwalk
    obtain ⟨bound, hloop⟩ := Op.exists_loop_eq hret
    exact ⟨bound, fun fuel hle => congrArg Prod.fst (hloop fuel hle)⟩
  | some r =>
    obtain ⟨i, u⟩ := r
    rw [hdesc] at hwalk
    obtain ⟨y, q, hret, hq⟩ := hwalk
    rw [Nat.zero_add] at hret hq
    obtain ⟨bound, hloop⟩ := Op.exists_loop_eq hret
    exact ⟨bound, q, fun fuel hle => congrArg Prod.fst (hloop fuel hle), hq⟩

/-- A search without a match hands out an iterator over everything that is done. -/
theorem Represents.pending_noMatch :
    Pending d es t₀ ⟨[], t₀, 0⟩ { dictIterate d with done := true } [] :=
  .done hd.pending_iterate.settled.setDone rfl

/-- What `tp_dict_find_prefix` hands out. -/
theorem Represents.dictFindPrefix (hne : pre ≠ []) (hnul : 0 ∉ pre) :
    match PrefixTree.descend pre t₀ with
    | none => ∃ bound, ∀ fuel ≥ bound,
        dictFindPrefix fuel d pre = .ok { dictIterate d with done := true }
    | some (i, u) => ∃ bound it, (∀ fuel ≥ bound, dictFindPrefix fuel d pre = .ok it) ∧
        Pending d es t₀ ⟨pre, u, i⟩ it (IterRoot.visits ⟨pre, u, i⟩) := by
  have htake : pre.takeWhile (fun b => b != 0) = pre := by
    refine List.takeWhile_eq_self_iff.mpr fun b hb => ?_
    simpa using fun heq : b = 0 => hnul (heq ▸ hb)
  have hgo : ¬ (pre.length = 0 ∨ d.info.numKeys = 0) := by
    have hlen := List.length_pos_of_ne_nil hne
    have hkeys := List.length_pos_of_ne_nil hd.ne_nil
    rw [hd.numKeys_eq]
    omega
  have hdescend := hd.descendToPrefix pre
  cases hdesc : PrefixTree.descend pre t₀ with
  | none =>
    rw [hdesc] at hdescend
    obtain ⟨bound, hfail⟩ := hdescend
    refine ⟨bound, fun fuel hle => ?_⟩
    rw [Triepack.dictFindPrefix]
    simp only [htake, if_neg hgo, hfail fuel hle]
  | some r =>
    obtain ⟨i, u⟩ := r
    rw [hdesc] at hdescend
    obtain ⟨bound, q, hfound, hq⟩ := hdescend
    refine ⟨bound, iterReset { dictIterate d with
      keyBuf := pre
      rootPos := q
      rootEnd := q + d.trieLen u i
      rootKeyLen := pre.length }, fun fuel hle => ?_, ?_⟩
    · rw [Triepack.dictFindPrefix]
      simp only [htake, if_neg hgo, hfound fuel hle]
    · obtain ⟨hcompact, front, back, hentries, rfl, _⟩ :=
        PrefixTree.descend_eq_some hd.compact hdesc
      refine .fresh ⟨⟨rfl, hq, rfl, rfl, ?_⟩, List.take_length⟩ ⟨Nat.zero_le _, rfl⟩ rfl rfl rfl
      rw [hentries, List.append_assoc, List.drop_left]
      exact List.prefix_append _ _

/-- Below a branch limit that nothing exceeds, the subtree's visits are the keys that start with
the prefix. -/
theorem Represents.visits_of_descend {i : Nat} {u : Trie}
    (hdepth : ∀ e ∈ es, PrefixTree.nesting (es.map Entry.key) e.key ≤ iterMaxDepth)
    (hdesc : PrefixTree.descend pre t₀ = some (i, u)) :
    IterRoot.visits ⟨pre, u, i⟩ =
      ((es.filter fun e => pre.isPrefixOf e.key).map Entry.pair).map some := by
  obtain ⟨hcompact, haround⟩ := PrefixTree.descend_eq_some hd.compact hdesc
  have hunder : ∀ e ∈ u.entries, PrefixTree.under pre e ∈ t₀.entries := fun e he =>
    haround.under_mem he
  obtain ⟨front, back, hentries, _, hother⟩ := haround
  have hkeys : t₀.entries.map Prod.fst = es.map Entry.key := by
    rw [hd.entries_eq_pairs, List.map_map]
    rfl
  have hpairs : (u.entries.map (PrefixTree.under pre)) =
      (es.filter fun e => pre.isPrefixOf e.key).map Entry.pair := by
    have hfilter : (es.filter fun e => pre.isPrefixOf e.key).map Entry.pair =
        t₀.entries.filter fun e => pre.isPrefixOf e.1 := by
      rw [hd.entries_eq_pairs, List.filter_map]
      rfl
    have hout : ∀ {l : List (List UInt8 × Value (List UInt8))}, (∀ e ∈ l, ¬ pre <+: e.1) →
        l.filter (fun e => pre.isPrefixOf e.1) = [] := fun h =>
      List.filter_eq_nil_iff.mpr fun e he => by simpa using h e he
    have hin : (u.entries.map (PrefixTree.under pre)).filter (fun e => pre.isPrefixOf e.1) =
        u.entries.map (PrefixTree.under pre) := by
      refine List.filter_eq_self.mpr fun e he => ?_
      obtain ⟨x, _, rfl⟩ := List.mem_map.mp he
      simp [PrefixTree.under]
    rw [hfilter, hentries, List.filter_append, List.filter_append, hin,
      hout fun e he => hother e (List.mem_append_left _ he),
      hout fun e he => hother e (List.mem_append_right _ he), List.nil_append, List.append_nil]
  have hshallow : ∀ x ∈ PrefixTree.nested u, x.2 ≤ iterMaxDepth := by
    intro x hx
    rw [hcompact.nested_eq] at hx
    obtain ⟨e, he, rfl⟩ := List.mem_map.mp hx
    have hmem := hunder e he
    have hsub : (u.entries.map Prod.fst).map (pre ++ ·) ⊆ es.map Entry.key := by
      rw [← hkeys]
      intro k hk
      obtain ⟨k', hk', rfl⟩ := List.mem_map.mp hk
      obtain ⟨x, hx, rfl⟩ := List.mem_map.mp hk'
      exact List.mem_map.mpr ⟨_, hunder x hx, rfl⟩
    rw [hd.entries_eq_pairs] at hmem
    obtain ⟨e', he', heq⟩ := List.mem_map.mp hmem
    have hkey : e'.key = pre ++ e.1 := congrArg Prod.fst heq
    calc
      PrefixTree.nesting (u.entries.map Prod.fst) e.1 =
          PrefixTree.nesting ((u.entries.map Prod.fst).map (pre ++ ·)) (pre ++ e.1) :=
        (PrefixTree.nesting_map_append _ _ _).symm
      _ ≤ PrefixTree.nesting (es.map Entry.key) (pre ++ e.1) := PrefixTree.nesting_mono hsub _
      _ ≤ iterMaxDepth := by
        rw [← hkey]
        exact hdepth e' he'
  have hvisits : PrefixTree.visits iterMaxDepth u = u.entries.map some := by
    obtain ⟨_, hvis⟩ | ⟨front', x, back', rest, heq, _, hx, _⟩ := hcompact.cutAt_visits iterMaxDepth
    · rw [hvis, ← PrefixTree.map_fst_nested, List.map_map]
      rfl
    · exact absurd (hshallow x (by rw [heq]; simp)) (by omega)
  rw [← hpairs, IterRoot.visits, hvisits, List.map_map, List.map_map]
  rfl

/-- Without a match no key starts with the prefix. -/
theorem Represents.filter_eq_nil_iff :
    PrefixTree.descend pre t₀ = none ↔ ∀ e ∈ es, ¬ pre <+: e.key := by
  constructor
  · intro hdesc e he
    refine PrefixTree.descend_eq_none hd.compact hdesc (e := e.pair) ?_
    rw [hd.entries_eq_pairs]
    exact List.mem_map_of_mem he
  · intro h
    rcases hdesc : PrefixTree.descend pre t₀ with _ | ⟨i, u⟩
    · rfl
    · obtain ⟨hcompact, haround⟩ := PrefixTree.descend_eq_some hd.compact hdesc
      obtain ⟨e, he⟩ := List.exists_mem_of_ne_nil _ hcompact.entries_ne_nil
      have hmem := haround.under_mem he
      rw [hd.entries_eq_pairs] at hmem
      obtain ⟨e', he', heq⟩ := List.mem_map.mp hmem
      have hkey : e'.key = pre ++ e.1 := congrArg Prod.fst heq
      exact absurd (hkey ▸ List.prefix_append pre e.1) (h e' he')

end Find

end Triepack
