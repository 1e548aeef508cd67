import Triepack.Core.TrieRead

/-!
# Looking up in a laid-out trie

The walk of `tp_dict_lookup_n` over a subtree finds the key, reports that it is missing, or,
when the key extends the last key of the subtree, passes that key's terminal and goes on reading
behind the subtree. Between two children that last case is harmless; behind the last leaf of the
trie it is not.
-/

namespace Triepack

open BitString WhileLoop

theorem u32_lt (n : Nat) : u32 n < 2 ^ 32 := Nat.mod_lt _ (by decide)

@[simp] theorem u32_u32 (n : Nat) : u32 (u32 n) = u32 n := u32_u32_add n 0

section Body

variable {d : Dict} (hd : d.Sound) {used : List UInt8} (hcodes : d.sym.Codes used)
  (key : List UInt8) (keyIdx : Nat) (expectBranch : Bool) {pos : Nat}

include hcodes

theorem symbol_lt_256 {b : UInt8} (hb : b ∈ used) : d.sym.symbolMap b < 256 := by
  have hlt := hcodes.symbol_lt b hb
  have hpow := Nat.pow_le_pow_right (show 0 < 2 by omega) hcodes.le_eight
  omega

include hd

theorem read_ctrl {c : TpCtrl} (h : At (bytesBits d.buf) pos (symbolBits d.sym (d.sym.ctrlCodes c))) :
    bsReadBits d.sym.bitsPerSymbol (d.reader pos) =
      (.ok c.index, d.reader (pos + d.sym.bitsPerSymbol)) := by
  have hread := readSymbol_at hd (hcodes.ctrl_lt c) h
  rwa [hcodes.ctrl] at hread

theorem read_byte {b : UInt8} (hb : b ∈ used)
    (h : At (bytesBits d.buf) pos (symbolBits d.sym (d.sym.symbolMap b))) :
    bsReadBits d.sym.bitsPerSymbol (d.reader pos) =
      (.ok (d.sym.symbolMap b), d.reader (pos + d.sym.bitsPerSymbol)) :=
  readSymbol_at hd (hcodes.symbol_lt b hb) h

omit hd in
/-- One iteration, once its symbol is read. -/
theorem lookupBody_of_read {r r' : Reader} {code : Nat}
    (h : bsReadBits d.sym.bitsPerSymbol r = (.ok code, r')) :
    lookupBody d.sym key (keyIdx, expectBranch) r =
      (if code = 0 then
        if keyIdx = key.length then return .inr none else return .inl (keyIdx, true)
      else if code = 1 then do
        let vi ← bsReadVarintU
        if keyIdx = key.length then return .inr (some (u32 vi)) else return .inl (keyIdx, true)
      else if code = 5 then do
        let childCount ← bsReadVarintU
        match key[keyIdx]? with
        | none => Op.fail .notFound
        | some target => do
          let foundChild ← lookupChildren d.sym target childCount
          if foundChild then return .inl (keyIdx + 1, false) else Op.fail .notFound
      else if expectBranch then Op.fail .notFound
      else if d.sym.codeIsCtrl (if code < 256 then code else 0) then Op.fail .invalidParam
      else
        match key[keyIdx]? with
        | none => Op.fail .notFound
        | some byte =>
          if code = d.sym.symbolMap byte then return .inl (keyIdx + 1, expectBranch)
          else Op.fail .notFound : Rd ((Nat × Bool) ⊕ Option Nat)) r' := by
  have hread : readLookupSymbol d.sym.bitsPerSymbol expectBranch r = (.ok code, r') := by
    simp only [readLookupSymbol, h]
  have h0 : d.sym.ctrlCodes .end_ = 0 := hcodes.ctrl _
  have h1 : d.sym.ctrlCodes .endVal = 1 := hcodes.ctrl _
  have h5 : d.sym.ctrlCodes .branch = 5 := hcodes.ctrl _
  rewrite [lookupBody, Op.bind_ok hread, h0, h1, h5]
  rfl

/-- A literal symbol is compared with the next byte of the key, unless a BRANCH is expected. -/
theorem lookupBody_symbol {b : UInt8} (hb : b ∈ used)
    (h : At (bytesBits d.buf) pos (symbolBits d.sym (d.sym.symbolMap b))) :
    lookupBody d.sym key (keyIdx, expectBranch) (d.reader pos) =
      (if expectBranch = false ∧ key[keyIdx]? = some b then .ok (.inl (keyIdx + 1, false))
        else .error (.rc .notFound), d.reader (pos + d.sym.bitsPerSymbol)) := by
  have hsix := hcodes.six_le b hb
  have hlt := symbol_lt_256 hcodes hb
  rw [lookupBody_of_read hcodes _ _ _ (read_byte hd hcodes hb h), if_neg (by omega), if_neg (by omega),
    if_neg (by omega)]
  cases expectBranch with
  | true => rfl
  | false =>
    rw [if_neg (by simp), hcodes.is_ctrl, if_pos hlt, if_neg (by simpa using hsix)]
    cases hget : key[keyIdx]? with
    | none => rfl
    | some c =>
      by_cases hbc : b = c
      · subst hbc
        simp
      · have hne : d.sym.symbolMap b ≠ d.sym.symbolMap c := fun heq =>
          hbc (hcodes.symbolMap_inj hb heq)
        simp [hne, Ne.symm hbc]

/-- The SKIP in front of a sibling is not a BRANCH. -/
theorem lookupBody_skip {n : Nat} (h : At (bytesBits d.buf) pos (skipBits d.sym n)) :
    lookupBody d.sym key (keyIdx, true) (d.reader pos) =
      (.error (.rc .notFound), d.reader (pos + d.sym.bitsPerSymbol)) :=
  lookupBody_of_read hcodes _ _ _ (read_ctrl hd hcodes h.left)

/-- A terminal is the key's own, or a shorter key's. -/
theorem lookupBody_term {v : Value (List UInt8)} {vi : Nat}
    (h : At (bytesBits d.buf) pos (termBits d.sym d.info.hasValues vi (some v))) :
    lookupBody d.sym key (keyIdx, expectBranch) (d.reader pos) =
      (if keyIdx = key.length then
          .ok (.inr (if d.info.hasValues ∧ v.tag ≠ 0 then some (u32 vi) else none))
        else .ok (.inl (keyIdx, true)),
        d.reader (pos + (termBits d.sym d.info.hasValues vi (some v)).length)) := by
  simp only [termBits] at h ⊢
  by_cases hval : d.info.hasValues ∧ v.tag ≠ 0
  · simp only [if_pos hval] at h ⊢
    have hvi := readVarint_at hd (by have := u32_lt vi; omega) h.right
    rw [length_symbolBits] at hvi
    rw [lookupBody_of_read hcodes _ _ _ (read_ctrl hd hcodes h.left), if_neg (by decide),
      if_pos (by decide), Op.bind_ok hvi, u32_u32, List.length_append, length_symbolBits,
      ← Nat.add_assoc]
    split_ifs <;> rfl
  · simp only [if_neg hval] at h ⊢
    rw [lookupBody_of_read hcodes _ _ _ (read_ctrl hd hcodes h), if_pos (by decide), length_symbolBits]
    split_ifs <;> rfl

/-- A branch hands over to the loop over its children, if the key goes on. -/
theorem lookupBody_branch {n : Nat} (hn : n < 2 ^ 64)
    (h : At (bytesBits d.buf) pos (branchBits d.sym n)) :
    lookupBody d.sym key (keyIdx, expectBranch) (d.reader pos) =
      (match key[keyIdx]? with
        | none => Op.fail .notFound
        | some target => do
          let foundChild ← lookupChildren d.sym target n
          if foundChild then return .inl (keyIdx + 1, false) else Op.fail .notFound :
        Rd ((Nat × Bool) ⊕ Option Nat)) (d.reader (pos + (branchBits d.sym n).length)) := by
  have hcount := readVarint_at hd hn h.right
  rw [length_symbolBits] at hcount
  rw [lookupBody_of_read hcodes _ _ _ (read_ctrl hd hcodes h.left), if_neg (by decide), if_neg (by decide),
    if_pos (by decide), Op.bind_ok hcount, branchBits, List.length_append, length_symbolBits,
    ← Nat.add_assoc]

/-! ## The children of a branch -/

theorem peek_byte {b : UInt8} (hb : b ∈ used)
    (h : At (bytesBits d.buf) pos (symbolBits d.sym (d.sym.symbolMap b))) :
    bsPeekBits d.sym.bitsPerSymbol (d.reader pos) = (.ok (d.sym.symbolMap b), d.reader pos) := by
  rw [bsPeekBits_eq, read_byte hd hcodes hb h]

omit hd in
theorem symbol_ne_ctrl {b : UInt8} (hb : b ∈ used) :
    (decide (d.sym.symbolMap b < 256) && d.sym.codeIsCtrl (d.sym.symbolMap b)) = false := by
  have hsix := hcodes.six_le b hb
  rw [hcodes.is_ctrl]
  simp [hsix]

/-- Looking at the first symbol of a child, whose preamble has been read. -/
theorem lookupChild_peek {a target : UInt8} {l : List UInt8} {term : Option (Value (List UInt8))}
    {kids : List Trie} {vi : Nat} (h : TrieAt d used pos (.node (a :: l) term kids) vi)
    (rest : Rd Bool) :
    ((do
      let csym ← bsPeekBits d.sym.bitsPerSymbol
      let isCtrl := decide (csym < 256) && d.sym.codeIsCtrl csym
      if ¬ isCtrl ∧ csym = d.sym.symbolMap target then do
        bsReaderAdvance d.sym.bitsPerSymbol
        return true
      else rest) : Rd Bool) (d.reader pos) =
    if a = target then (.ok true, d.reader (pos + d.sym.bitsPerSymbol)) else rest (d.reader pos) := by
  obtain ⟨ha, hsymbol, _⟩ := h.cons
  have hle := h.end_le hd
  rw [trieLen_cons] at hle
  rw [Op.bind_ok (peek_byte hd hcodes ha hsymbol)]
  simp only [symbol_ne_ctrl hcodes ha]
  by_cases hat : a = target
  · subst hat
    rw [if_pos (by simp), if_pos rfl, Op.bind_ok (advance_reader hd (by omega))]
    rfl
  · have hne : d.sym.symbolMap a ≠ d.sym.symbolMap target := fun heq =>
      hat (hcodes.symbolMap_inj ha heq)
    rw [if_neg (by simp [hne]), if_neg hat]

/-- A child with siblings behind it. -/
theorem lookupChildren_cons {t u : Trie} {ts : List Trie} {vi : Nat} {target : UInt8}
    (h : KidsAt d used pos (t :: u :: ts) vi) :
    lookupChildren d.sym target (t :: u :: ts).length (d.reader pos) =
      if t.label.head? = some target then
        (.ok true, d.reader (pos + (skipBits d.sym (d.trieLen t vi)).length + d.sym.bitsPerSymbol))
      else lookupChildren d.sym target (u :: ts).length
        (d.reader (pos + (skipBits d.sym (d.trieLen t vi)).length + d.trieLen t vi)) := by
  obtain ⟨hskip, htrie, _⟩ := h.cons
  have hlen := hd.length_lt
  have hle := htrie.end_le hd
  have hlabel := h.labels t (by simp)
  obtain ⟨l, term, kids⟩ := t
  obtain ⟨a, l, rfl⟩ := List.exists_cons_of_ne_nil (show l ≠ [] from hlabel)
  have hdist := readVarint_at hd (by omega) hskip.right
  rw [length_symbolBits] at hdist
  have hpreamble : (do
      let _ ← bsReadBits d.sym.bitsPerSymbol
      bsReadVarintU : Rd Nat) (d.reader pos) =
      (.ok (d.trieLen (.node (a :: l) term kids) vi),
        d.reader (pos + (skipBits d.sym (d.trieLen (.node (a :: l) term kids) vi)).length)) := by
    rw [Op.bind_ok (read_ctrl hd hcodes hskip.left), hdist, skipBits, List.length_append,
      length_symbolBits, Nat.add_assoc]
  rw [List.length_cons, lookupChildren]
  simp only [List.length_cons, ne_eq, Nat.succ_ne_zero, not_false_eq_true, decide_true, if_true]
  rw [Op.bind_ok hpreamble, lookupChild_peek hd hcodes htrie]
  by_cases hat : a = target
  · rw [if_pos hat, if_pos (by simp [PrefixTree.label, hat])]
  · rw [if_neg hat, if_neg (by simp [PrefixTree.label, hat]), Op.bind_ok (advance_reader hd hle)]

/-- The last child. -/
theorem lookupChildren_last {t : Trie} {vi : Nat} {target : UInt8}
    (h : KidsAt d used pos [t] vi) :
    lookupChildren d.sym target 1 (d.reader pos) =
      (.ok (decide (t.label.head? = some target)),
        d.reader (pos + if t.label.head? = some target then d.sym.bitsPerSymbol else 0)) := by
  have htrie := h.last
  have hlabel := h.labels t (by simp)
  obtain ⟨l, term, kids⟩ := t
  obtain ⟨a, l, rfl⟩ := List.exists_cons_of_ne_nil (show l ≠ [] from hlabel)
  rw [lookupChildren]
  simp only [ne_eq, not_true_eq_false, decide_false, Bool.false_eq_true, if_false]
  rw [Op.bind_ok (Op.pure_apply 0 _), lookupChild_peek hd hcodes htrie]
  by_cases hat : a = target
  · simp [PrefixTree.label, hat]
  · simp [PrefixTree.label, hat, lookupChildren]
    rfl

omit hd hcodes in
/-- The label of the first child is its first letter and the rest. -/
theorem KidsAt.strip {t : Trie} {ts : List Trie} {vi : Nat} (h : KidsAt d used pos (t :: ts) vi)
    (target : UInt8) :
    (t.label.head? = some target ∧ ∃ u, t.strip? target = some u ∧
      ∀ p vi, TrieAt d used p t vi → TrieAt d used (p + d.sym.bitsPerSymbol) u vi ∧
        p + d.sym.bitsPerSymbol + d.trieLen u vi = p + d.trieLen t vi) ∨
    (t.label.head? ≠ some target ∧ t.strip? target = none) := by
  have hlabel := h.labels t (by simp)
  obtain ⟨l, term, kids⟩ := t
  obtain ⟨a, l, rfl⟩ := List.exists_cons_of_ne_nil (show l ≠ [] from hlabel)
  by_cases hat : a = target
  · subst hat
    refine .inl ⟨rfl, .node l term kids, by simp [PrefixTree.strip?], fun p vi ht => ?_⟩
    exact ⟨ht.cons.2.2, by rw [trieLen_cons]; omega⟩
  · exact .inr ⟨by simpa [PrefixTree.label] using hat, by simp [PrefixTree.strip?, hat]⟩

end Body

/-- What can follow a child in front of its sibling: neither a terminal nor a BRANCH. -/
def SiblingAt (d : Dict) (used : List UInt8) (pos : Nat) : Prop :=
  (∃ n, At (bytesBits d.buf) pos (skipBits d.sym n)) ∨
    ∃ b ∈ used, At (bytesBits d.buf) pos (symbolBits d.sym (d.sym.symbolMap b))

section Children

variable {d : Dict} (hd : d.Sound) {used : List UInt8} (hcodes : d.sym.Codes used)
  (key : List UInt8) (keyIdx : Nat) {pos : Nat}

theorem KidsAt.siblingAt {t : Trie} {ts : List Trie} {vi : Nat}
    (h : KidsAt d used pos (t :: ts) vi) : SiblingAt d used pos := by
  have hlabel := h.labels t (by simp)
  cases ts with
  | nil =>
    have hlast := h.last
    obtain ⟨l, term, kids⟩ := t
    obtain ⟨a, l, rfl⟩ := List.exists_cons_of_ne_nil (show l ≠ [] from hlabel)
    exact .inr ⟨a, hlast.cons.1, hlast.cons.2.1⟩
  | cons u ts => exact .inl ⟨_, h.cons.1⟩

include hd hcodes

theorem lookupBody_sibling (h : SiblingAt d used pos) :
    lookupBody d.sym key (keyIdx, true) (d.reader pos) =
      (.error (.rc .notFound), d.reader (pos + d.sym.bitsPerSymbol)) := by
  obtain ⟨n, hskip⟩ | ⟨b, hb, hsymbol⟩ := h
  · exact lookupBody_skip hd hcodes key keyIdx hskip
  · rw [lookupBody_symbol hd hcodes key keyIdx true hb hsymbol, if_neg (by simp)]

/-- The loop over the children arrives behind the first letter of the child that starts with
`target`. What follows that child is a sibling, unless it is the last. -/
theorem lookupChildren_spec (target : UInt8) {kids : List Trie} {vi : Nat}
    (h : KidsAt d used pos kids vi) (hne : kids ≠ []) :
    match PrefixTree.findKid target kids with
    | none => ∃ r, lookupChildren d.sym target kids.length (d.reader pos) = (.ok false, r)
    | some (i, u) => ∃ p, lookupChildren d.sym target kids.length (d.reader pos) =
        (.ok true, d.reader p) ∧ TrieAt d used p u (vi + i) ∧
        (SiblingAt d used (p + d.trieLen u (vi + i)) ∨
          p + d.trieLen u (vi + i) = pos + d.kidsLen kids vi ∧
          ∃ pre, kids.flatMap PrefixTree.entries =
            pre ++ u.entries.map (PrefixTree.under [target])) := by
  induction kids generalizing pos vi with
  | nil => exact absurd rfl hne
  | cons t ts ih =>
    rw [PrefixTree.findKid]
    cases ts with
    | nil =>
      rw [List.length_singleton, lookupChildren_last hd hcodes h]
      obtain ⟨hhead, u, hstrip, hu⟩ | ⟨hhead, hstrip⟩ := h.strip target
      · obtain ⟨hat, hlen⟩ := hu pos vi h.last
        simp only [hstrip, hhead, decide_true, if_true]
        refine ⟨_, rfl, hat, .inr ⟨?_, [], ?_⟩⟩
        · rw [Nat.add_zero, hlen, kidsLen_cons]
          simp [Dict.kidsLen, kidsBits]
        · simp [(PrefixTree.strip?_eq_some hstrip).2.1]
      · simp only [hstrip, hhead, decide_false, if_false, PrefixTree.findKid, Option.map_none]
        exact ⟨_, rfl⟩
    | cons t' ts =>
      obtain ⟨_, htrie, hrest⟩ := h.cons
      rw [lookupChildren_cons hd hcodes h]
      obtain ⟨hhead, u, hstrip, hu⟩ | ⟨hhead, hstrip⟩ := h.strip target
      · obtain ⟨hat, hlen⟩ := hu _ vi htrie
        simp only [hstrip, hhead, if_true]
        exact ⟨_, rfl, hat, .inl (by rw [Nat.add_zero, hlen]; exact hrest.siblingAt)⟩
      · simp only [hstrip, hhead, if_false]
        have hfind := ih hrest (by simp)
        cases hk : PrefixTree.findKid target (t' :: ts) with
        | none =>
          rw [hk] at hfind
          exact hfind
        | some r =>
          obtain ⟨i, u⟩ := r
          rw [hk] at hfind
          simp only [Option.map_some, ← Nat.add_assoc] at hfind ⊢
          obtain ⟨p, hrun, hat, hsib | ⟨hend, pre, hpre⟩⟩ := hfind
          · exact ⟨p, hrun, hat, .inl hsib⟩
          · refine ⟨p, hrun, hat, .inr ⟨?_, t.entries ++ pre, ?_⟩⟩
            · rw [hend, kidsLen_cons (t := t), if_neg (by simp)]
              omega
            · rw [List.flatMap_cons, hpre, List.append_assoc]

end Children

/-! ## The walk -/

/-- Where the walk of `tp_dict_lookup_n` ends when it enters a subtree with `k` left of the key:
with the value index of `k`, with `TP_ERR_NOT_FOUND`, or behind the subtree, looking for the
BRANCH that would follow the last key `g`. -/
inductive LookupOutcome (d : Dict) (key : List UInt8) (keyIdx pos : Nat) (t : Trie) (vi : Nat)
    (k : List UInt8) : Prop where
  | found (i : Nat) (v : Value (List UInt8)) (p : Nat) (entry : t.entries[i]? = some (k, v))
      (returns : Returns (Op.loopStep (lookupBody d.sym key)) ((keyIdx, false), d.reader pos)
        (.ok (if d.info.hasValues ∧ v.tag ≠ 0 then some (u32 (vi + i)) else none), d.reader p))
  | missing (r : Reader) (absent : ∀ e ∈ t.entries, e.1 ≠ k)
      (returns : Returns (Op.loopStep (lookupBody d.sym key)) ((keyIdx, false), d.reader pos)
        (.error (.rc .notFound), r))
  | beyond (pre : List (List UInt8 × Value (List UInt8))) (g : List UInt8)
      (v : Value (List UInt8)) (last : t.entries = pre ++ [(g, v)]) (isPrefix : g <+: k)
      (absent : ∀ e ∈ t.entries, e.1 ≠ k)
      (reaches : Reaches (Op.loopStep (lookupBody d.sym key)) ((keyIdx, false), d.reader pos)
        ((keyIdx + g.length, true), d.reader (pos + d.trieLen t vi)))

section Walk

variable {d : Dict} (hd : d.Sound) {used : List UInt8} (hcodes : d.sym.Codes used)
  {key : List UInt8} {keyIdx pos vi : Nat}

include hd hcodes

/-- A key that ends where a subtree starts: the terminal answers, and there is one if the
subtree has the empty key. -/
theorem lookup_end {t : Trie} (h : TrieAt d used pos t vi) (hend : keyIdx = key.length) :
    LookupOutcome d key keyIdx pos t vi [] := by
  have hget : key[keyIdx]? = none := by simp [hend]
  obtain ⟨l, term, kids⟩ := t
  cases l with
  | cons a l =>
    obtain ⟨ha, hsymbol, _⟩ := h.cons
    have hbody := lookupBody_symbol hd hcodes key keyIdx false ha hsymbol
    rw [hget, if_neg (by simp)] at hbody
    refine .missing _ (fun e he hnil => ?_) (.of_inr (Op.loopStep_error hbody))
    have hhead := PrefixTree.head?_of_mem_entries (a := a) rfl he
    simp [hnil] at hhead
  | nil =>
    cases term with
    | some v =>
      have hbody := lookupBody_term hd hcodes key keyIdx false h.term
      rw [if_pos hend] at hbody
      exact .found 0 v _ (by simp [PrefixTree.entries_node, PrefixTree.termEntry])
        (.of_inr (Op.loopStep_done hbody))
    | none =>
      cases h.compact with
      | intro compact labels _ two =>
        have hne : kids ≠ [] := List.ne_nil_of_length_pos (by have := two rfl; omega)
        obtain ⟨hbranch, hkids⟩ := h.branch hne
        have hlen := hkids.length_lt hd
        have hbody := lookupBody_branch hd hcodes key keyIdx false (by omega) hbranch
        rw [hget] at hbody
        refine .missing _ (fun e he => ?_) (.of_inr (Op.loopStep_error hbody))
        obtain ⟨u, hu, heu⟩ : ∃ u ∈ kids, e ∈ u.entries := by
          simpa [PrefixTree.entries_node, PrefixTree.termEntry] using he
        exact PrefixTree.ne_nil_of_mem_entries (labels u hu) heu

/-- One letter of the key. Only where a leaf is passed does the walk leave the subtree. -/
theorem lookup_step {t : Trie} (h : TrieAt d used pos t vi) {b : UInt8}
    (hb : key[keyIdx]? = some b) :
    match t.step b with
    | none => (∃ r, Returns (Op.loopStep (lookupBody d.sym key)) ((keyIdx, false), d.reader pos)
          (.error (.rc .notFound), r)) ∨
        (∃ v, t = .node [] (some v) []) ∧
          Reaches (Op.loopStep (lookupBody d.sym key)) ((keyIdx, false), d.reader pos)
            ((keyIdx, true), d.reader (pos + d.trieLen t vi))
    | some (i, u) => ∃ p, Reaches (Op.loopStep (lookupBody d.sym key))
          ((keyIdx, false), d.reader pos) ((keyIdx + 1, false), d.reader p) ∧
        TrieAt d used p u (vi + i) ∧
        (SiblingAt d used (p + d.trieLen u (vi + i)) ∨
          p + d.trieLen u (vi + i) = pos + d.trieLen t vi ∧
          ∃ pre, t.entries = pre ++ u.entries.map (PrefixTree.under [b])) := by
  obtain ⟨l, term, kids⟩ := t
  cases l with
  | cons a l =>
    obtain ⟨ha, hsymbol, hrest⟩ := h.cons
    have hbody := lookupBody_symbol hd hcodes key keyIdx false ha hsymbol
    rw [PrefixTree.step]
    by_cases hab : a = b
    · subst hab
      rw [if_pos ⟨rfl, hb⟩] at hbody
      rw [if_pos rfl]
      refine ⟨_, .single (Op.loopStep_next hbody), hrest, .inr ⟨?_, [], ?_⟩⟩
      · rw [trieLen_cons, Nat.add_zero]
        omega
      · exact PrefixTree.entries_cons _ _ _ _
    · rw [hb, if_neg (by simpa using Ne.symm hab)] at hbody
      rw [if_neg hab]
      exact .inl ⟨_, .of_inr (Op.loopStep_error hbody)⟩
  | nil =>
    have hlt : keyIdx ≠ key.length := (List.getElem?_eq_some_iff.mp hb).1.ne
    -- behind the terminal, if there is one
    obtain ⟨expectBranch, hterm⟩ : ∃ expectBranch,
        Reaches (Op.loopStep (lookupBody d.sym key)) ((keyIdx, false), d.reader pos)
          ((keyIdx, expectBranch),
            d.reader (pos + (termBits d.sym d.info.hasValues vi term).length)) ∧
        (term ≠ none → expectBranch = true) := by
      cases term with
      | none => exact ⟨false, .refl _, by simp⟩
      | some v =>
        have hbody := lookupBody_term hd hcodes key keyIdx false h.term
        rw [if_neg hlt] at hbody
        exact ⟨true, .single (Op.loopStep_next hbody), by simp⟩
    rw [PrefixTree.step]
    by_cases hkids : kids = []
    · subst hkids
      obtain ⟨v, rfl⟩ : ∃ v, term = some v := by
        cases h.compact with
        | intro _ _ _ two =>
          exact Option.ne_none_iff_exists'.mp fun hnone => absurd (two hnone) (by simp)
      rw [hterm.2 (by simp)] at hterm
      simp only [PrefixTree.findKid, Option.map_none]
      refine .inr ⟨⟨v, rfl⟩, ?_⟩
      rw [trieLen_node_nil]
      exact hterm.1
    · obtain ⟨hbranch, hat⟩ := h.branch hkids
      have hlen := hat.length_lt hd
      have hbody := lookupBody_branch hd hcodes key keyIdx expectBranch (by omega) hbranch
      simp only [hb] at hbody
      have hfind := lookupChildren_spec hd hcodes b hat hkids
      cases hk : PrefixTree.findKid b kids with
      | none =>
        rw [hk] at hfind
        obtain ⟨r, hrun⟩ := hfind
        rw [Op.bind_ok hrun] at hbody
        exact .inl ⟨_, hterm.1.returns (.of_inr (Op.loopStep_error hbody))⟩
      | some x =>
        obtain ⟨i, u⟩ := x
        rw [hk] at hfind
        obtain ⟨p, hrun, hu, hend⟩ := hfind
        rw [Op.bind_ok hrun] at hbody
        simp only [Option.map_some, ← Nat.add_assoc]
        refine ⟨p, hterm.1.trans (.single (Op.loopStep_next hbody)), hu, ?_⟩
        obtain hsib | ⟨hpos, pre, hpre⟩ := hend
        · exact .inl hsib
        · refine .inr ⟨?_, PrefixTree.termEntry term ++ pre, ?_⟩
          · rw [hpos, trieLen_node_nil, if_neg (by simpa using hkids)]
            omega
          · rw [PrefixTree.entries_node, hpre, PrefixTree.map_under_nil, List.append_assoc]

/-- The whole walk through a subtree. -/
theorem lookup_walk {t : Trie} (h : TrieAt d used pos t vi) {k : List UInt8}
    (hk : key.drop keyIdx = k) (hle : keyIdx ≤ key.length) :
    LookupOutcome d key keyIdx pos t vi k := by
  induction k generalizing keyIdx pos t vi with
  | nil => exact lookup_end hd hcodes h (by have := List.drop_eq_nil_iff.mp hk; omega)
  | cons b k ih =>
    have hb : key[keyIdx]? = some b := by
      rw [← List.head?_drop, hk]
      rfl
    have hdrop : key.drop (keyIdx + 1) = k := by rw [← List.tail_drop, hk]; rfl
    have hlt := (List.getElem?_eq_some_iff.mp hb).1
    have hstep := lookup_step hd hcodes h hb
    cases hs : t.step b with
    | none =>
      rw [hs] at hstep
      have habsent : ∀ e ∈ t.entries, e.1 ≠ b :: k := fun e he heq =>
        PrefixTree.step_eq_none h.compact hs he (by rw [heq]; rfl)
      obtain ⟨r, hret⟩ | ⟨⟨v, rfl⟩, hreach⟩ := hstep
      · exact .missing r habsent hret
      · exact .beyond [] [] v (by simp [PrefixTree.entries_node, PrefixTree.termEntry])
          List.nil_prefix habsent hreach
    | some x =>
      obtain ⟨i, u⟩ := x
      rw [hs] at hstep
      obtain ⟨p, hreach, hu, hend⟩ := hstep
      obtain ⟨_, pre, post, hent, hlen, hother⟩ := PrefixTree.step_eq_some h.compact hs
      have habsent : (∀ e ∈ u.entries, e.1 ≠ k) → ∀ e ∈ t.entries, e.1 ≠ b :: k := by
        intro hu e he heq
        rw [hent, List.mem_append, List.mem_append, List.mem_map] at he
        have hprefix : [b] <+: e.1 := by rw [heq]; exact PrefixTree.prefix_singleton_iff.mpr rfl
        rcases he with (he | ⟨e', he', rfl⟩) | he
        · exact hother e (by simp [he]) hprefix
        · exact hu e' he' (by simpa [PrefixTree.under] using heq)
        · exact hother e (by simp [he]) hprefix
      cases ih hu hdrop hlt with
      | found j v q entry returns =>
        refine .found (i + j) v q ?_ (by rw [← Nat.add_assoc]; exact hreach.returns returns)
        rw [hent, List.append_assoc, ← hlen, List.getElem?_append_right (by omega),
          Nat.add_sub_cancel_left, List.getElem?_append_left]
        · simp [entry, PrefixTree.under]
        · rw [List.length_map]
          exact (List.getElem?_eq_some_iff.mp entry).1
      | missing r absent returns => exact .missing r (habsent absent) (hreach.returns returns)
      | beyond pre' g v last isPrefix absent reaches =>
        obtain hsib | ⟨hpos, before, hbefore⟩ := hend
        · have hbody := lookupBody_sibling hd hcodes key (keyIdx + 1 + g.length) hsib
          exact .missing _ (habsent absent)
            (hreach.returns (reaches.returns (.of_inr (Op.loopStep_error hbody))))
        · rw [hpos] at reaches
          refine .beyond (before ++ pre'.map (PrefixTree.under [b])) (b :: g) v ?_
            (List.cons_prefix_cons.mpr ⟨rfl, isPrefix⟩) (habsent absent) ?_
          · rw [hbefore, last, List.map_append, List.append_assoc]
            rfl
          · rw [List.length_cons, Nat.add_comm g.length, ← Nat.add_assoc]
            exact hreach.trans reaches

end Walk

end Triepack
