import Triepack.Core.IterRun
import Triepack.Json.WalkBounds
import Triepack.Library.PrefixFree

/-!
# The walk over a laid-out trie

`extract_entries` reads the bits of the trie in a row. Behind every terminal it goes on with the
next child of the innermost frame that has one left, which is right unless the terminal has a
BRANCH of its own. With no child left in any frame nothing is taken and the BRANCH is read as it
should be. So keys may lie below others only on the way to the last key.
-/

namespace Triepack

open BitString WhileLoop

/-- The frame of the walk over subtrees that are still to come. -/
def PendingFrame.walkFrame (p : PendingFrame) : WalkFrame := ⟨p.path.length, p.kids.length⟩

/-- The subtrees of the frames stand behind one another. -/
def PendingAt (d : Dict) (used : List UInt8) : Nat → List PendingFrame → Prop
  | _, [] => True
  | pos, p :: ps =>
    (p.kids ≠ [] → KidsAt d used pos p.kids p.vi) ∧ PendingAt d used (pos + d.kidsLen p.kids p.vi) ps

/-- The entry that is recorded for a key. -/
def foundEntry (d : Dict) (key : List UInt8) : FlatEntry where
  key := key
  val := match foundValue d key with
    | .ok val => val
    | .error _ => .null

section Step

variable {d : Dict} (hd : d.Sound) {used : List UInt8} (hcodes : d.sym.Codes used) {w : Walk}
  {pos vi : Nat}

theorem kidsLen_nil (vi : Nat) : d.kidsLen [] vi = 0 := rfl

/-- Frames without subtrees stand anywhere. -/
theorem pendingAt_of_empty {ps : List PendingFrame} (h : ∀ p ∈ ps, p.kids = []) (pos : Nat) :
    PendingAt d used pos ps := by
  induction ps generalizing pos with
  | nil => trivial
  | cons p ps ih =>
    have hp := h p (by simp)
    exact ⟨fun hne => absurd hp hne, ih (fun q hq => h q (by simp [hq])) _⟩

theorem pendingAt_dropWhile {ps : List PendingFrame} {pos : Nat} (h : PendingAt d used pos ps) :
    PendingAt d used pos (ps.dropWhile fun p => p.kids.isEmpty) := by
  induction ps with
  | nil => exact h
  | cons p ps ih =>
    rw [List.dropWhile_cons]
    split_ifs with hempty
    · have hps := h.2
      rw [List.isEmpty_iff.mp hempty, kidsLen_nil, Nat.add_zero] at hps
      exact ih hps
    · exact h

include hd

theorem recordEntry_eq (h : w.entries.length < dictCount d) :
    recordEntry d w = .ok { w with entries := w.entries ++ [foundEntry d w.key] } := by
  obtain ⟨val, hval⟩ := foundValue_ok hd w.key
  rw [recordEntry, if_pos h, hval, foundEntry, hval]
  simp only [bind, Except.bind, putAt, if_pos h]

include hcodes

/-- SKIP in front of a child. -/
theorem readSkip_at {dist : Nat} (hdist : dist < 2 ^ 64)
    (h : At (bytesBits d.buf) pos (skipBits d.sym dist)) :
    readSkip d.sym (d.reader pos) = (.ok (), d.reader (pos + (skipBits d.sym dist).length)) := by
  have hvarint := h.right
  rw [length_symbolBits] at hvarint
  have hread := readVarint_at hd hdist hvarint
  rw [readSkip, Op.bind_ok (read_ctrl hd hcodes h.left), Op.bind_ok hread, skipBits,
    List.length_append, length_symbolBits, ← Nat.add_assoc]
  rfl

/-- The next child is entered, whose preamble has been read, and its siblings are pending. -/
theorem enter_kid {k : Trie} {ks : List Trie} {ps : List PendingFrame} (q : List UInt8)
    (hkids : KidsAt d used pos (k :: ks) vi)
    (hps : PendingAt d used (pos + d.kidsLen (k :: ks) vi) ps) :
    ∃ p, TrieAt d used p k vi ∧
      PendingAt d used (p + d.trieLen k vi) (⟨q, ks, vi + k.size⟩ :: ps) ∧
      if ks = [] then p = pos else readSkip d.sym (d.reader pos) = (.ok (), d.reader p) := by
  rw [kidsLen_cons] at hps
  cases ks with
  | nil =>
    refine ⟨pos, hkids.last, ⟨fun hne => absurd rfl hne, ?_⟩, by simp⟩
    simpa [kidsLen_nil, Nat.add_assoc] using hps
  | cons u us =>
    obtain ⟨hskip, htrie, hnext⟩ := hkids.cons
    have hlen := hd.length_lt
    have hend := htrie.end_le hd
    refine ⟨_, htrie, ⟨fun _ => hnext, ?_⟩, ?_⟩
    · simp only [List.isEmpty_cons, Bool.false_eq_true, if_false] at hps
      simpa only [Nat.add_assoc] using hps
    · rw [if_neg (by simp)]
      exact readSkip_at hd hcodes (by omega) hskip

omit hd in
/-- One iteration, once its symbol is read. -/
theorem extractBody_of_read {code : Nat} {r r' : Reader} (hcount : w.entries.length < dictCount d)
    (h : bsReadBits d.sym.bitsPerSymbol r = (.ok code, r')) :
    extractBody d w r = (if code = 0 then do
        let w ← Rd.lift (recordEntry d w)
        popFrames d.sym w
      else if code = 1 then do
        let _ ← bsReadVarintU
        let w ← Rd.lift (recordEntry d w)
        popFrames d.sym w
      else if code = 5 then do
        let w ← pushFrame d.sym w
        pure (.inl w)
      else if code = 2 then do
        let _ ← bsReadVarintU
        pure (.inl w)
      else do
        let w ← Rd.lift (appendSymbol d.sym code w)
        pure (.inl w) : Rd (Walk ⊕ Walk)) r' := by
  have h0 : d.sym.ctrlCodes .end_ = 0 := hcodes.ctrl _
  have h1 : d.sym.ctrlCodes .endVal = 1 := hcodes.ctrl _
  have h2 : d.sym.ctrlCodes .skip = 2 := hcodes.ctrl _
  have h5 : d.sym.ctrlCodes .branch = 5 := hcodes.ctrl _
  rw [extractBody, if_neg (not_not.mpr hcount), Op.bind_ok h, h0, h1, h2, h5]

/-- A byte of a label. -/
theorem extractBody_byte {b : UInt8} (hb : b ∈ used) (hcount : w.entries.length < dictCount d)
    (hlen : w.key.length + 1 < keyBufSize)
    (h : At (bytesBits d.buf) pos (symbolBits d.sym (d.sym.symbolMap b))) :
    extractBody d w (d.reader pos) =
      (.ok (.inl { w with key := w.key ++ [b] }), d.reader (pos + d.sym.bitsPerSymbol)) := by
  have hsix := hcodes.six_le b hb
  have hcode := symbol_lt_256 hcodes hb
  have happend : appendSymbol d.sym (d.sym.symbolMap b) w = .ok { w with key := w.key ++ [b] } := by
    rw [appendSymbol, if_pos hcode, hcodes.is_ctrl, if_pos (by simpa using hsix), if_pos (by omega),
      if_pos hcode, hcodes.reverse b hb, putAt, if_pos (by omega)]
    rfl
  rw [extractBody_of_read hcodes hcount (read_byte hd hcodes hb h), if_neg (by omega),
    if_neg (by omega), if_neg (by omega), if_neg (by omega), happend]
  rfl

/-- A terminal. -/
theorem extractBody_term {v : Value (List UInt8)} (hcount : w.entries.length < dictCount d)
    (h : At (bytesBits d.buf) pos (termBits d.sym d.info.hasValues vi (some v))) :
    extractBody d w (d.reader pos) =
      popFrames d.sym { w with entries := w.entries ++ [foundEntry d w.key] }
        (d.reader (pos + (termBits d.sym d.info.hasValues vi (some v)).length)) := by
  have hrecord := recordEntry_eq hd hcount
  rw [termBits] at h ⊢
  split_ifs at h ⊢
  · have hvarint := h.right
    rw [length_symbolBits] at hvarint
    have hread := readVarint_at hd ((u32_lt vi).trans (by decide)) hvarint
    rw [extractBody_of_read hcodes hcount (read_ctrl hd hcodes h.left), if_neg (by decide),
      if_pos (by decide), Op.bind_ok hread, hrecord, List.length_append, length_symbolBits,
      ← Nat.add_assoc]
    rfl
  · rw [extractBody_of_read hcodes hcount (read_ctrl hd hcodes h), if_pos (by decide), hrecord,
      length_symbolBits]
    rfl

/-- A BRANCH, whose first child is entered. -/
theorem extractBody_branch {k : Trie} {ks : List Trie} {ps : List PendingFrame}
    (hcount : w.entries.length < dictCount d) (hdepth : w.stack.length < walkDepth)
    (hfew : ks.length + 1 < 2 ^ 32)
    (h : At (bytesBits d.buf) pos (branchBits d.sym (ks.length + 1)))
    (hkids : KidsAt d used (pos + (branchBits d.sym (ks.length + 1)).length) (k :: ks) vi)
    (hps : PendingAt d used
      (pos + (branchBits d.sym (ks.length + 1)).length + d.kidsLen (k :: ks) vi) ps) :
    ∃ p, extractBody d w (d.reader pos) =
        (.ok (.inl { w with stack := ⟨w.key.length, ks.length⟩ :: w.stack }), d.reader p) ∧
      TrieAt d used p k vi ∧
      PendingAt d used (p + d.trieLen k vi) (⟨w.key, ks, vi + k.size⟩ :: ps) := by
  obtain ⟨p, htrie, hpending, henter⟩ := enter_kid hd hcodes w.key hkids hps
  have hvarint := h.right
  rw [length_symbolBits] at hvarint
  have hread := readVarint_at hd (by omega) hvarint
  have hpush : ∀ f, pushAt walkDepth w.stack f = .ok (f :: w.stack) := fun f => if_pos hdepth
  have hpos : pos + d.sym.bitsPerSymbol + (Leb128.bits (ks.length + 1)).length =
      pos + (branchBits d.sym (ks.length + 1)).length := by
    rw [branchBits, List.length_append, length_symbolBits, Nat.add_assoc]
  refine ⟨p, ?_, htrie, hpending⟩
  rw [extractBody_of_read hcodes hcount (read_ctrl hd hcodes h.left), if_neg (by decide),
    if_neg (by decide), if_pos (by decide)]
  refine Op.bind_ok ?_
  rw [pushFrame, Op.bind_ok hread, if_neg (by omega), hpos]
  by_cases hks : ks = []
  · rw [if_pos hks] at henter
    subst hks henter
    rw [if_neg (by simp), hpush]
    rfl
  · rw [if_neg hks] at henter
    have hpos := List.length_pos_of_ne_nil hks
    have hremaining : u32 (u32 (ks.length + 1) + (2 ^ 32 - 1)) = ks.length := by
      rw [u32_of_lt hfew, u32]
      omega
    rw [if_pos (by omega), hremaining, hpush]
    exact Op.bind_ok henter

omit hd hcodes in
/-- Without subtrees in any frame nothing is taken. -/
theorem popFrames_empty {ps : List PendingFrame} (h : ∀ p ∈ ps, p.kids = [])
    (hstack : w.stack = ps.map PendingFrame.walkFrame) (r : Reader) :
    popFrames d.sym w r = (.ok (.inl { w with stack := [] }), r) := by
  have hdrop : (w.stack.dropWhile fun f => f.remaining == 0) = [] := by
    rw [hstack, List.dropWhile_eq_nil_iff]
    intro f hf
    obtain ⟨p, hp, rfl⟩ := List.mem_map.mp hf
    simp [PendingFrame.walkFrame, h p hp]
  rw [popFrames, hdrop]

/-- The next subtree of the innermost frame that has one is taken. -/
theorem popFrames_next {ps rest : List PendingFrame} {q : List UInt8} {k : Trie} {ks : List Trie}
    {x : Nat} (hnext : (ps.dropWhile fun p => p.kids.isEmpty) = ⟨q, k :: ks, x⟩ :: rest)
    (hstack : w.stack = ps.map PendingFrame.walkFrame) (hpath : q <+: w.key)
    (hps : PendingAt d used pos ps) :
    ∃ p, popFrames d.sym w (d.reader pos) =
        (.ok (.inl { w with
          key := q
          stack := (⟨q, ks, x + k.size⟩ :: rest).map PendingFrame.walkFrame }), d.reader p) ∧
      TrieAt d used p k x ∧ PendingAt d used (p + d.trieLen k x) (⟨q, ks, x + k.size⟩ :: rest) := by
  have hpending := pendingAt_dropWhile hps
  rw [hnext] at hpending
  obtain ⟨hkids, hrest⟩ := hpending
  obtain ⟨p, htrie, hpending, henter⟩ := enter_kid hd hcodes q (hkids (by simp)) hrest
  have hdrop : (w.stack.dropWhile fun f => f.remaining == 0) =
      ⟨q.length, ks.length + 1⟩ :: rest.map PendingFrame.walkFrame := by
    have hempty : ((fun f : WalkFrame => f.remaining == 0) ∘ PendingFrame.walkFrame) =
        fun p => p.kids.isEmpty := by
      funext p
      cases hp : p.kids <;> simp [PendingFrame.walkFrame, hp]
    rw [hstack, List.dropWhile_map, hempty, hnext]
    rfl
  have hkey : w.key.take q.length = q := by
    obtain ⟨tl, htl⟩ := hpath
    rw [← htl, List.take_left]
  refine ⟨p, ?_, htrie, hpending⟩
  rw [popFrames, hdrop]
  simp only [Nat.add_sub_cancel, hkey]
  by_cases hks : ks = []
  · rw [if_pos hks] at henter
    subst hks henter
    rfl
  · rw [if_neg hks] at henter
    rw [if_neg (by simpa using hks), henter]
    rfl

end Step

/-! ## Subtrees -/

/-- The walk is in front of a subtree, which it has the room for, with the path `q`. -/
structure Walking (d : Dict) (used : List UInt8) (t : Trie) (pos vi : Nat) (q : List UInt8)
    (ps : List PendingFrame) (es : List FlatEntry) : Prop where
  stands : TrieAt d used pos t vi
  pending : PendingAt d used (pos + d.trieLen t vi) ps
  paths : ∀ p ∈ ps, p.path <+: q
  depth : ∀ y ∈ t.nested, ps.length + y.2 ≤ walkDepth
  lengths : ∀ key ∈ t.keys, (q ++ key).length < keyBufSize
  count : es.length + t.size ≤ dictCount d

/-- The same of the children of a branch, inside of which there are `n` frames below. -/
structure WalkingKids (d : Dict) (kids : List Trie) (q : List UInt8) (n : Nat)
    (es : List FlatEntry) : Prop where
  depth : ∀ k ∈ kids, ∀ y ∈ k.nested, n + 1 + y.2 ≤ walkDepth
  lengths : ∀ k ∈ kids, ∀ key ∈ k.keys, (q ++ key).length < keyBufSize
  count : es.length + (kids.map PrefixTree.size).sum ≤ dictCount d

/-- Where the walk stands. -/
def walkState (d : Dict) (q : List UInt8) (ps : List PendingFrame) (es : List FlatEntry) (pos : Nat) :
    Walk × Reader := (⟨q, ps.map PendingFrame.walkFrame, es⟩, d.reader pos)

section Subtree

variable {d : Dict} (hd : d.Sound) {used : List UInt8} (hcodes : d.sym.Codes used) {pos vi : Nat}
  {q : List UInt8} {ps : List PendingFrame} {es : List FlatEntry}

theorem Walking.count_lt {t : Trie} (h : Walking d used t pos vi q ps es) :
    es.length < dictCount d := by
  have hcount := h.count
  have hpos := List.length_pos_of_ne_nil h.stands.compact.entries_ne_nil
  rw [PrefixTree.size] at hcount
  omega

/-- The first child of a node, and its siblings. -/
theorem WalkingKids.head {k : Trie} {ks : List Trie} {x : Nat}
    (h : WalkingKids d (k :: ks) q ps.length es) (hpaths : ∀ p ∈ ps, p.path <+: q)
    (hstands : TrieAt d used pos k x)
    (hpending : PendingAt d used (pos + d.trieLen k x) (⟨q, ks, x + k.size⟩ :: ps)) :
    Walking d used k pos x q (⟨q, ks, x + k.size⟩ :: ps) es where
  stands := hstands
  pending := hpending
  paths := by
    intro p hp
    obtain rfl | hp := List.mem_cons.mp hp
    · exact List.prefix_rfl
    · exact hpaths p hp
  depth y hy := h.depth k (by simp) y hy
  lengths := h.lengths k (by simp)
  count := by
    have hcount := h.count
    rw [List.map_cons, List.sum_cons] at hcount
    omega

theorem WalkingKids.tail {k : Trie} {ks : List Trie} {n : Nat} (h : WalkingKids d (k :: ks) q n es) :
    WalkingKids d ks q n (es ++ k.keys.map fun key => foundEntry d (q ++ key)) where
  depth u hu := h.depth u (by simp [hu])
  lengths u hu := h.lengths u (by simp [hu])
  count := by
    have hcount := h.count
    have hsize : k.keys.length = k.size := List.length_map _
    rw [List.map_cons, List.sum_cons] at hcount
    rw [List.length_append, List.length_map, hsize]
    omega

/-- A node without its terminal. -/
theorem Walking.kids {term : Option (Value (List UInt8))} {kids : List Trie}
    (h : Walking d used (.node [] term kids) pos vi q ps es) {n : Nat} (hn : n ≤ ps.length)
    {es' : List FlatEntry} (hes : es'.length = es.length + term.toList.length) :
    WalkingKids d kids q n es' where
  depth k hk y hy := by
    have hdepth := h.depth (PrefixTree.Nested.under [] y.deeper) (by
      rw [PrefixTree.nested_node]
      exact List.mem_map_of_mem (List.mem_append_right _
        (List.mem_flatMap.mpr ⟨k, hk, List.mem_map_of_mem hy⟩)))
    have hdeep : (PrefixTree.Nested.under [] y.deeper).2 = y.2 + 1 := rfl
    omega
  lengths k hk key hkey := h.lengths key (PrefixTree.mem_keys_of_kid hk hkey)
  count := by
    have hcount := h.count
    rw [PrefixTree.size_node] at hcount
    omega

include hd hcodes

theorem Walking.byte {b : UInt8} {l : List UInt8} {term : Option (Value (List UInt8))}
    {kids : List Trie} (h : Walking d used (.node (b :: l) term kids) pos vi q ps es) :
    Op.loopStep (extractBody d) (walkState d q ps es pos) =
        .inl (walkState d (q ++ [b]) ps es (pos + d.sym.bitsPerSymbol)) ∧
      Walking d used (.node l term kids) (pos + d.sym.bitsPerSymbol) vi (q ++ [b]) ps es := by
  obtain ⟨hb, hbits, hstands⟩ := h.stands.cons
  have hkeys := h.lengths
  rw [PrefixTree.keys_cons] at hkeys
  have hlengths : ∀ key ∈ (PrefixTree.node l term kids).keys,
      ((q ++ [b]) ++ key).length < keyBufSize := by
    intro key hkey
    have hlt := hkeys (b :: key) (List.mem_map_of_mem hkey)
    simpa using hlt
  obtain ⟨key, hkey⟩ := List.exists_mem_of_ne_nil _ hstands.compact.keys_ne_nil
  have hroom : q.length + 1 < keyBufSize := by
    have hlt := hlengths key hkey
    simp only [List.length_append, List.length_singleton] at hlt
    omega
  refine ⟨Op.loopStep_next (extractBody_byte hd hcodes hb h.count_lt hroom hbits), hstands, ?_, ?_, ?_,
    hlengths, ?_⟩
  · have hpending := h.pending
    rwa [trieLen_cons, ← Nat.add_assoc] at hpending
  · intro p hp
    exact (h.paths p hp).trans (List.prefix_append _ _)
  · intro y hy
    have hdepth := h.depth (PrefixTree.Nested.under [b] y) (by
      rw [PrefixTree.nested_cons]
      exact List.mem_map_of_mem hy)
    exact hdepth
  · have hcount := h.count
    rw [PrefixTree.size, PrefixTree.entries_cons, List.length_map] at hcount
    exact hcount

/-- A node with children: its BRANCH is read, whatever frames are left. -/
theorem Walking.branch {term : Option (Value (List UInt8))} {k : Trie} {ks : List Trie}
    (h : Walking d used (.node [] term (k :: ks)) pos vi q ps es) {ps' : List PendingFrame}
    (hle : ps'.length ≤ ps.length)
    (hpending : PendingAt d used (pos + d.trieLen (.node [] term (k :: ks)) vi) ps')
    {es' : List FlatEntry} (hes : es'.length = es.length + term.toList.length)
    (hlt : dictCount d < 2 ^ 32) :
    ∃ p x, Op.loopStep (extractBody d) (walkState d q ps' es'
          (pos + (termBits d.sym d.info.hasValues vi term).length)) =
        .inl (walkState d q (⟨q, ks, x + k.size⟩ :: ps') es' p) ∧
      TrieAt d used p k x ∧ PendingAt d used (p + d.trieLen k x) (⟨q, ks, x + k.size⟩ :: ps') := by
  obtain ⟨hbranch, hkids⟩ := h.stands.branch (by simp)
  have hcount := h.count
  rw [PrefixTree.size_node, List.map_cons, List.sum_cons] at hcount
  -- each child has a key
  have hcompact : ∀ t ∈ k :: ks, t.Compact := hkids.compact
  have hfew : ks.length + 1 ≤ k.size + (ks.map PrefixTree.size).sum := by
    have hsizes : ∀ n ∈ (k :: ks).map PrefixTree.size, 1 ≤ n := by
      intro n hn
      obtain ⟨t, ht, rfl⟩ := List.mem_map.mp hn
      exact List.length_pos_of_ne_nil (hcompact t ht).entries_ne_nil
    simpa using List.length_le_sum_of_one_le _ hsizes
  have hdepth : ps'.length < walkDepth := by
    have hnested : k.nested ≠ [] := by
      intro hnil
      have hentries := PrefixTree.map_fst_nested k
      rw [hnil] at hentries
      exact (hcompact k (by simp)).entries_ne_nil hentries.symm
    obtain ⟨y, hy⟩ := List.exists_mem_of_ne_nil _ hnested
    have hdeep := (h.kids hle hes).depth k (by simp) y hy
    omega
  have hpending' : PendingAt d used (pos + (termBits d.sym d.info.hasValues vi term).length +
      (branchBits d.sym (ks.length + 1)).length + d.kidsLen (k :: ks) (vi + term.toList.length)) ps' := by
    rw [trieLen_node_nil, if_neg (by simp)] at hpending
    simpa only [Nat.add_assoc, List.length_cons] using hpending
  have hroom : es'.length < dictCount d := by omega
  obtain ⟨p, hbody, htrie, hnext⟩ := extractBody_branch hd hcodes
    (w := ⟨q, ps'.map PendingFrame.walkFrame, es'⟩) hroom (by simpa using hdepth) (by omega)
    hbranch hkids hpending'
  exact ⟨p, _, Op.loopStep_next hbody, htrie, hnext⟩

end Subtree

/-! ## Passing a subtree -/

/-- The walk is behind what it has recorded and in front of the next subtree of the frames. -/
def Taken (d : Dict) (used : List UInt8) (ps : List PendingFrame) (es : List FlatEntry)
    (s : Walk × Reader) : Prop :=
  ∃ q k ks x rest p, (ps.dropWhile fun f => f.kids.isEmpty) = ⟨q, k :: ks, x⟩ :: rest ∧
    s = walkState d q (⟨q, ks, x + k.size⟩ :: rest) es p ∧ TrieAt d used p k x ∧
    PendingAt d used (p + d.trieLen k x) (⟨q, ks, x + k.size⟩ :: rest)

/-- The walk records the keys of the subtree and takes the next one, if there is one. -/
def Passes (d : Dict) (used : List UInt8) (t : Trie) : Prop :=
  ∀ {pos vi : Nat} {q : List UInt8} {ps : List PendingFrame} {es : List FlatEntry},
    Walking d used t pos vi q ps es → (∃ p ∈ ps, p.kids ≠ []) →
    ∃ s, Reaches (Op.loopStep (extractBody d)) (walkState d q ps es pos) s ∧
      Taken d used ps (es ++ t.keys.map fun key => foundEntry d (q ++ key)) s

theorem exists_dropWhile_kids {ps : List PendingFrame} (h : ∃ p ∈ ps, p.kids ≠ []) :
    ∃ q k ks x rest, (ps.dropWhile fun f => f.kids.isEmpty) = ⟨q, k :: ks, x⟩ :: rest ∧
      ⟨q, k :: ks, x⟩ ∈ ps := by
  obtain ⟨p, hp, hkids⟩ := h
  cases hdrop : ps.dropWhile fun f => f.kids.isEmpty with
  | nil =>
    have hempty := List.dropWhile_eq_nil_iff.mp hdrop p hp
    exact absurd (List.isEmpty_iff.mp hempty) hkids
  | cons f rest =>
    have hmem : f ∈ ps := (List.dropWhile_suffix _).subset (by rw [hdrop]; simp)
    have hhead := List.head?_dropWhile_not (fun f : PendingFrame => f.kids.isEmpty) ps
    rw [hdrop] at hhead
    obtain ⟨q, kids, x⟩ := f
    cases kids with
    | nil => simp at hhead
    | cons k ks => exact ⟨q, k, ks, x, rest, rfl, hmem⟩

section Passes

variable {d : Dict} (hd : d.Sound) {used : List UInt8} (hcodes : d.sym.Codes used)
  (hlt : dictCount d < 2 ^ 32) {pos vi : Nat} {q : List UInt8} {ps : List PendingFrame}
  {es : List FlatEntry}

/-- The children of a branch are passed one after another. -/
theorem passes_kids {k : Trie} {ks : List Trie} {x : Nat} (ih : ∀ t ∈ k :: ks, Passes d used t)
    (h : WalkingKids d (k :: ks) q ps.length es) (hpaths : ∀ p ∈ ps, p.path <+: q)
    (hstands : TrieAt d used pos k x)
    (hpending : PendingAt d used (pos + d.trieLen k x) (⟨q, ks, x + k.size⟩ :: ps))
    (hmore : ∃ p ∈ ps, p.kids ≠ []) :
    ∃ s, Reaches (Op.loopStep (extractBody d)) (walkState d q (⟨q, ks, x + k.size⟩ :: ps) es pos) s ∧
      Taken d used ps
        (es ++ ((k :: ks).flatMap PrefixTree.keys).map fun key => foundEntry d (q ++ key)) s := by
  induction ks generalizing k pos x es with
  | nil =>
    obtain ⟨f, hf, hkids⟩ := hmore
    obtain ⟨s, hreaches, htaken⟩ := ih k (by simp) (h.head hpaths hstands hpending) ⟨f, by simp [hf], hkids⟩
    refine ⟨s, hreaches, ?_⟩
    simpa [Taken] using htaken
  | cons u us ihu =>
    obtain ⟨s, hreaches, htaken⟩ := ih k (by simp) (h.head hpaths hstands hpending)
      ⟨⟨q, u :: us, x + k.size⟩, by simp, by simp⟩
    -- the next child is that of the same branch
    obtain ⟨q', k', ks', x', rest, p, hdrop, rfl, htrie, hnext⟩ := htaken
    rw [List.dropWhile_cons_of_neg (by simp)] at hdrop
    obtain ⟨hframe, rfl⟩ := List.cons.inj hdrop
    obtain ⟨rfl, hkids, rfl⟩ := PendingFrame.mk.inj hframe
    obtain ⟨rfl, rfl⟩ := List.cons.inj hkids
    obtain ⟨s, hreaches', htaken⟩ := ihu (fun t ht => ih t (by simp [ht])) h.tail htrie hnext
    refine ⟨s, hreaches.trans hreaches', ?_⟩
    simpa [List.append_assoc] using htaken

include hd hcodes hlt

/-- A subtree in which no key lies below another is passed. -/
theorem passes_of_prefixFree (t : Trie) (hfree : t.PrefixFree) : Passes d used t := by
  induction t using PrefixTree.induction_on with
  | h l term kids ih =>
    induction l with
    | nil =>
      intro pos vi q ps es h hmore
      cases term with
      | some v =>
        obtain rfl := hfree.kids_eq_nil h.stands.compact
        obtain ⟨q', k, ks, x, rest, hdrop, hmem⟩ := exists_dropWhile_kids hmore
        have hbody := extractBody_term hd hcodes (w := ⟨q, ps.map PendingFrame.walkFrame, es⟩) h.count_lt
          h.stands.term
        have hpending := h.pending
        rw [trieLen_node_nil, if_pos (by simp), Nat.add_zero] at hpending
        obtain ⟨p, hpop, htrie, hnext⟩ := popFrames_next hd hcodes
          (w := ⟨q, ps.map PendingFrame.walkFrame, es ++ [foundEntry d q]⟩) hdrop rfl (h.paths _ hmem)
          hpending
        refine ⟨_, .single (Op.loopStep_next (hbody.trans hpop)), q', k, ks, x, rest, p, hdrop, ?_, htrie,
          hnext⟩
        simp [walkState, PrefixTree.keys_node_nil]
      | none =>
        obtain ⟨k, ks, rfl⟩ : ∃ k ks, kids = k :: ks := by
          cases h.stands.compact with
          | intro _ _ _ two => exact List.exists_cons_of_length_pos (by have := two rfl; omega)
        have hes : es.length = es.length + (none : Option (Value (List UInt8))).toList.length := rfl
        obtain ⟨p, x, hstep, htrie, hpending⟩ := h.branch hd hcodes (Nat.le_refl _) h.pending hes hlt
        obtain ⟨s, hreaches, htaken⟩ := passes_kids (fun t ht => ih t ht (hfree.kid ht))
          (h.kids (Nat.le_refl _) hes) h.paths htrie hpending hmore
        refine ⟨s, .head hstep hreaches, ?_⟩
        simpa [PrefixTree.keys_node_nil] using htaken
    | cons b l ihl =>
      intro pos vi q ps es h hmore
      obtain ⟨hstep, hrest⟩ := h.byte hd hcodes
      obtain ⟨s, hreaches, htaken⟩ := ihl hfree.cons hrest hmore
      refine ⟨s, .head hstep hreaches, ?_⟩
      rw [PrefixTree.keys_cons, List.map_map]
      simpa [Function.comp_def] using htaken

end Passes

/-! ## The last subtree -/

/-- With nothing pending the walk records the keys of the subtree and is over. -/
def Finishes (d : Dict) (used : List UInt8) (t : Trie) : Prop :=
  ∀ {pos vi : Nat} {q : List UInt8} {ps : List PendingFrame} {es : List FlatEntry},
    Walking d used t pos vi q ps es → (∀ p ∈ ps, p.kids = []) → es.length + t.size = dictCount d →
    ∃ w r, Returns (Op.loopStep (extractBody d)) (walkState d q ps es pos) (.ok w, r) ∧
      w.entries = es ++ t.keys.map fun key => foundEntry d (q ++ key)

section Finishes

variable {d : Dict} (hd : d.Sound) {used : List UInt8} (hcodes : d.sym.Codes used)
  (hlt : dictCount d < 2 ^ 32) {pos vi : Nat} {q : List UInt8} {ps : List PendingFrame}
  {es : List FlatEntry}

/-- The children of a branch are passed, and the last one is the last subtree. -/
theorem finishes_kids {k : Trie} {ks : List Trie} {x : Nat}
    (hpasses : ∀ init t, k :: ks = init ++ [t] → (∀ u ∈ init, Passes d used u) ∧ Finishes d used t)
    (h : WalkingKids d (k :: ks) q ps.length es) (hpaths : ∀ p ∈ ps, p.path <+: q)
    (hstands : TrieAt d used pos k x)
    (hpending : PendingAt d used (pos + d.trieLen k x) (⟨q, ks, x + k.size⟩ :: ps))
    (hempty : ∀ p ∈ ps, p.kids = [])
    (hcount : es.length + ((k :: ks).map PrefixTree.size).sum = dictCount d) :
    ∃ w r, Returns (Op.loopStep (extractBody d)) (walkState d q (⟨q, ks, x + k.size⟩ :: ps) es pos)
        (.ok w, r) ∧
      w.entries = es ++ ((k :: ks).flatMap PrefixTree.keys).map fun key => foundEntry d (q ++ key) := by
  induction ks generalizing k pos x es with
  | nil =>
    obtain ⟨_, hlast⟩ := hpasses [] k rfl
    have hframes : ∀ p ∈ ⟨q, [], x + k.size⟩ :: ps, p.kids = [] := by
      intro p hp
      obtain rfl | hp := List.mem_cons.mp hp
      · rfl
      · exact hempty p hp
    obtain ⟨w, r, hreturns, hentries⟩ := hlast (h.head hpaths hstands hpending) hframes
      (by simpa using hcount)
    exact ⟨w, r, hreturns, by simpa using hentries⟩
  | cons u us ihu =>
    obtain ⟨init, t, hinit⟩ : ∃ init t, u :: us = init ++ [t] :=
      ⟨_, _, (List.dropLast_append_getLast (List.cons_ne_nil u us)).symm⟩
    obtain ⟨hpassed, _⟩ := hpasses (k :: init) t (by rw [hinit]; rfl)
    obtain ⟨s, hreaches, htaken⟩ := hpassed k (by simp) (h.head hpaths hstands hpending)
      ⟨⟨q, u :: us, x + k.size⟩, by simp, by simp⟩
    obtain ⟨q', k', ks', x', rest, p, hdrop, rfl, htrie, hnext⟩ := htaken
    rw [List.dropWhile_cons_of_neg (by simp)] at hdrop
    obtain ⟨hframe, rfl⟩ := List.cons.inj hdrop
    obtain ⟨rfl, hkids, rfl⟩ := PendingFrame.mk.inj hframe
    obtain ⟨rfl, rfl⟩ := List.cons.inj hkids
    have hsize : k.keys.length = k.size := List.length_map _
    obtain ⟨w, r, hreturns, hentries⟩ := ihu (fun init t hsplit => by
        obtain ⟨hall, hfinish⟩ := hpasses (k :: init) t (by rw [hsplit]; rfl)
        exact ⟨fun v hv => hall v (by simp [hv]), hfinish⟩) h.tail htrie hnext (by
        rw [List.map_cons, List.sum_cons] at hcount
        rw [List.length_append, List.length_map, hsize]
        omega)
    refine ⟨w, r, hreaches.returns hreturns, ?_⟩
    rw [hentries]
    simp [List.append_assoc]

include hd hcodes

/-- The terminal of a node, if it has one, which takes nothing. -/
theorem Walking.terminal {term : Option (Value (List UInt8))} {kids : List Trie}
    (h : Walking d used (.node [] term kids) pos vi q ps es) (hempty : ∀ p ∈ ps, p.kids = []) :
    ∃ ps', ps'.length ≤ ps.length ∧ (∀ p ∈ ps', p.kids = []) ∧ (∀ p ∈ ps', p.path <+: q) ∧
      Reaches (Op.loopStep (extractBody d)) (walkState d q ps es pos)
        (walkState d q ps' (es ++ term.toList.map fun _ => foundEntry d q)
          (pos + (termBits d.sym d.info.hasValues vi term).length)) := by
  cases term with
  | none =>
    refine ⟨ps, Nat.le_refl _, hempty, h.paths, ?_⟩
    simpa [termBits] using Reaches.refl (walkState d q ps es pos)
  | some v =>
    have hbody := extractBody_term hd hcodes (w := ⟨q, ps.map PendingFrame.walkFrame, es⟩) h.count_lt
      h.stands.term
    have hpop := popFrames_empty (d := d)
      (w := ⟨q, ps.map PendingFrame.walkFrame, es ++ [foundEntry d q]⟩) hempty rfl
      (d.reader (pos + (termBits d.sym d.info.hasValues vi (some v)).length))
    exact ⟨[], Nat.zero_le _, by simp, by simp, .single (Op.loopStep_next (hbody.trans hpop))⟩

include hlt

/-- A subtree in which keys lie below others on the way to the last one only is walked to its end:
behind a terminal with no child left in any frame its own BRANCH is read next. -/
theorem finishes_of_butLast (t : Trie) (hfree : t.PrefixFreeButLast) : Finishes d used t := by
  induction t using PrefixTree.induction_on with
  | h l term kids ih =>
    induction l with
    | nil =>
      intro pos vi q ps es h hempty hcount
      obtain ⟨ps', hle, hempty', hpaths', hreaches⟩ := h.terminal hd hcodes hempty
      have hes : (es ++ term.toList.map fun _ => foundEntry d q).length =
          es.length + term.toList.length := by simp
      rw [PrefixTree.size_node, ← Nat.add_assoc, ← hes] at hcount
      cases kids with
      | nil =>
        have hfull : ¬ (es ++ term.toList.map fun _ => foundEntry d q).length < dictCount d := by
          simp only [List.map_nil, List.sum_nil] at hcount
          omega
        have hbody : extractBody d ⟨q, ps'.map PendingFrame.walkFrame,
            es ++ term.toList.map fun _ => foundEntry d q⟩
            (d.reader (pos + (termBits d.sym d.info.hasValues vi term).length)) =
            (.ok (.inr ⟨q, ps'.map PendingFrame.walkFrame,
              es ++ term.toList.map fun _ => foundEntry d q⟩),
              d.reader (pos + (termBits d.sym d.info.hasValues vi term).length)) := by
          rw [extractBody, if_pos hfull]
          rfl
        exact ⟨_, _, hreaches.returns (.of_inr (Op.loopStep_done hbody)),
          by simp [PrefixTree.keys_node_nil]⟩
      | cons k ks =>
        obtain ⟨p, x, hstep, htrie, hpending⟩ := h.branch hd hcodes hle
          (pendingAt_of_empty hempty' _) hes hlt
        have hpasses : ∀ init t, k :: ks = init ++ [t] →
            (∀ u ∈ init, Passes d used u) ∧ Finishes d used t := by
          intro init t hsplit
          have hcompact := h.stands.compact
          rw [hsplit] at hcompact hfree ih
          have ht : t.Compact := by
            cases hcompact with
            | intro compact _ _ _ => exact compact t (by simp)
          exact ⟨fun u hu => passes_of_prefixFree hd hcodes hlt u (hfree.kid hcompact hu),
            ih t (by simp) (hfree.last ht)⟩
        obtain ⟨w, r, hreturns, hentries⟩ := finishes_kids hpasses (h.kids hle hes) hpaths' htrie hpending
          hempty' hcount
        refine ⟨w, r, hreaches.returns (.of_inl hstep hreturns), ?_⟩
        rw [hentries, PrefixTree.keys_node_nil]
        simp
    | cons b l ihl =>
      intro pos vi q ps es h hempty hcount
      obtain ⟨hstep, hrest⟩ := h.byte hd hcodes
      have hsize : (PrefixTree.node (b :: l) term kids).size = (PrefixTree.node l term kids).size := by
        rw [PrefixTree.size, PrefixTree.entries_cons, List.length_map, PrefixTree.size]
      obtain ⟨w, r, hreturns, hentries⟩ := ihl hfree.cons hrest hempty (by rwa [hsize] at hcount)
      refine ⟨w, r, .of_inl hstep hreturns, ?_⟩
      rw [PrefixTree.keys_cons, List.map_map, hentries]
      simp

end Finishes

end Triepack
