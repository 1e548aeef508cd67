import Triepack.Core.Lookup

/-!
# Reading a laid-out trie

`TrieAt` and `KidsAt` say that a subtree, or what is left of the children of a branch, stands at
a position of a dictionary's buffer. Their lemmas take such a place apart in the order in which
the walks read it, and `valueAt_spec` reads the value store.
-/

namespace Triepack

open BitString

/-- A reader over the buffer of the dictionary. -/
def Dict.reader (d : Dict) (pos : Nat) : Reader := { bsReaderCreate d.buf with pos := pos }

section Reader

variable {d : Dict} {pos : Nat}

@[simp] theorem Dict.reader_pos : (d.reader pos).pos = pos := rfl

@[simp] theorem Dict.reader_buf : (d.reader pos).buf = d.buf := rfl

theorem Dict.Sound.bitLen (hd : d.Sound) (pos : Nat) : (d.reader pos).bitLen = 8 * d.buf.length := by
  have := hd.length_lt
  simp only [Dict.reader, bsReaderCreate]
  rw [u64_of_lt (by omega), Nat.mul_comm]

theorem Dict.Sound.reader (hd : d.Sound) (h : pos ≤ 8 * d.buf.length) : (d.reader pos).Sound :=
  (Reader.Sound.create hd.length_lt).move (by
    rw [← hd.bitLen 0] at h
    exact h)

theorem Dict.Sound.reader_of_at (hd : d.Sound) {bs : List Bool}
    (h : At (bytesBits d.buf) pos bs) (hne : bs ≠ []) : (d.reader pos).Sound :=
  hd.reader (by
    have hle := h.le hne
    rw [length_bytesBits] at hle
    omega)

/-- A reader over the dictionary's buffer is known from its position. -/
theorem reader_eq {d : Dict} (hd : d.Sound) {r : Reader} (hr : r.Sound) (hbuf : r.buf = d.buf) :
    r = d.reader r.pos := by
  have hlen := hr.bitLen_eq
  have hlen' := hd.bitLen r.pos
  rw [hbuf] at hlen
  obtain ⟨buf, bitLen, pos⟩ := r
  obtain rfl : buf = d.buf := hbuf
  have hbit : bitLen = (d.reader pos).bitLen := hlen.trans hlen'.symm
  rw [hbit]
  rfl

/-- What stands at the cursor is read. -/
theorem Rd.Reads.at_reader {α : Type} {m : Rd α} {bs : List Bool} {a : α} (hm : Rd.Reads m bs a)
    (hd : d.Sound) (h : At (bytesBits d.buf) pos bs) (hne : bs ≠ []) :
    m (d.reader pos) = (.ok a, d.reader (pos + bs.length)) :=
  hm (d.reader pos) (hd.reader_of_at h hne) h

theorem bits_ne_nil (v : Nat) : Leb128.bits v ≠ [] := by
  have := Leb128.length_bits_pos v
  exact List.ne_nil_of_length_pos (by omega)

theorem symbolBits_ne_nil (hd : d.Sound) (code : Nat) : symbolBits d.sym code ≠ [] := by
  have := hd.one_le
  exact List.ne_nil_of_length_pos (by rw [length_symbolBits]; omega)

theorem readSymbol_at (hd : d.Sound) {code : Nat} (hcode : code < 2 ^ d.sym.bitsPerSymbol)
    (h : At (bytesBits d.buf) pos (symbolBits d.sym code)) :
    bsReadBits d.sym.bitsPerSymbol (d.reader pos) =
      (.ok code, d.reader (pos + d.sym.bitsPerSymbol)) := by
  have hlow := hd.one_le
  have hhigh := hd.le_eight
  have hread := (bsReadBits_reads hlow (by omega) hcode).at_reader hd h (symbolBits_ne_nil hd code)
  rwa [length_natBits] at hread

theorem readVarint_at (hd : d.Sound) {v : Nat} (hv : v < 2 ^ 64)
    (h : At (bytesBits d.buf) pos (Leb128.bits v)) :
    bsReadVarintU (d.reader pos) = (.ok v, d.reader (pos + (Leb128.bits v).length)) :=
  (bsReadVarintU_reads hv).at_reader hd h (bits_ne_nil v)

theorem seek_reader (hd : d.Sound) {p : Nat} (h : p ≤ 8 * d.buf.length) :
    bsReaderSeek p (d.reader pos) = (.ok (), d.reader p) :=
  bsReaderSeek_of_le (by rw [hd.bitLen]; exact h)

theorem advance_reader (hd : d.Sound) {n : Nat} (h : pos + n ≤ 8 * d.buf.length) :
    bsReaderAdvance n (d.reader pos) = (.ok (), d.reader (pos + n)) := by
  have hlen := hd.length_lt
  have hbit := hd.bitLen pos
  rw [bsReaderAdvance, Dict.reader_pos, u64_of_lt (by omega), if_neg (by omega)]
  rfl

end Reader

/-! ## Subtrees in the stream -/

/-- The subtree stands at `pos`, and its first key has value index `vi`. -/
structure TrieAt (d : Dict) (used : List UInt8) (pos : Nat) (t : Trie) (vi : Nat) : Prop where
  stands : At (bytesBits d.buf) pos (trieBits d.sym d.info.hasValues t vi)
  compact : t.Compact
  used : ∀ e ∈ t.entries, e.1 ⊆ used

/-- The last children of a branch stand at `pos`. -/
structure KidsAt (d : Dict) (used : List UInt8) (pos : Nat) (kids : List Trie) (vi : Nat) : Prop where
  stands : At (bytesBits d.buf) pos (kidsBits d.sym d.info.hasValues kids vi)
  compact : ∀ t ∈ kids, t.Compact
  labels : ∀ t ∈ kids, t.label ≠ []
  heads : kids.Pairwise fun t u => t.label.head? ≠ u.label.head?
  used : ∀ e ∈ kids.flatMap PrefixTree.entries, e.1 ⊆ used

section TrieAt

variable {d : Dict} {used : List UInt8} {pos vi : Nat}

/-- The number of bits of a subtree. -/
def Dict.trieLen (d : Dict) (t : Trie) (vi : Nat) : Nat :=
  (trieBits d.sym d.info.hasValues t vi).length

def Dict.kidsLen (d : Dict) (kids : List Trie) (vi : Nat) : Nat :=
  (kidsBits d.sym d.info.hasValues kids vi).length

theorem kidsLen_cons (t : Trie) (ts : List Trie) : d.kidsLen (t :: ts) vi =
    (if ts.isEmpty then 0 else (skipBits d.sym (d.trieLen t vi)).length) +
      (d.trieLen t vi + d.kidsLen ts (vi + t.size)) := by
  rw [Dict.kidsLen, kidsBits, List.length_append, List.length_append]
  cases ts.isEmpty <;> rfl

theorem trieLen_cons (b : UInt8) (l : List UInt8) (term : Option (Value (List UInt8)))
    (kids : List Trie) :
    d.trieLen (.node (b :: l) term kids) vi =
      d.sym.bitsPerSymbol + d.trieLen (.node l term kids) vi := by
  simp only [Dict.trieLen, trieBits, List.length_append, length_labelBits, List.length_cons,
    Nat.add_one_mul]
  omega

/-- The first symbol of a label. -/
theorem TrieAt.cons {b : UInt8} {l : List UInt8} {term : Option (Value (List UInt8))}
    {kids : List Trie} (h : TrieAt d used pos (.node (b :: l) term kids) vi) :
    b ∈ used ∧ At (bytesBits d.buf) pos (symbolBits d.sym (d.sym.symbolMap b)) ∧
      TrieAt d used (pos + d.sym.bitsPerSymbol) (.node l term kids) vi := by
  have hstands := h.stands
  rw [trieBits, labelBits, List.flatMap_cons, List.append_assoc, ← labelBits] at hstands
  obtain ⟨e, he⟩ := List.exists_mem_of_ne_nil _ h.compact.entries_ne_nil
  rw [PrefixTree.entries_cons, List.mem_map] at he
  obtain ⟨e', he', rfl⟩ := he
  refine ⟨?_, hstands.left, ?_, h.compact.relabel, fun x hx => ?_⟩
  · have hmem := h.used (PrefixTree.under [b] e')
      (by rw [PrefixTree.entries_cons]; exact List.mem_map_of_mem he')
    exact hmem (by simp [PrefixTree.under])
  · have hright := hstands.right
    rw [length_symbolBits] at hright
    rwa [trieBits]
  · have hmem := h.used (PrefixTree.under [b] x)
      (by rw [PrefixTree.entries_cons]; exact List.mem_map_of_mem hx)
    exact fun y hy => hmem (by simp [PrefixTree.under, hy])

/-- The terminal of a node. -/
theorem TrieAt.term {term : Option (Value (List UInt8))} {kids : List Trie}
    (h : TrieAt d used pos (.node [] term kids) vi) :
    At (bytesBits d.buf) pos (termBits d.sym d.info.hasValues vi term) := by
  have hstands := h.stands
  rw [trieBits, labelBits, List.flatMap_nil, List.nil_append] at hstands
  exact hstands.left

/-- The branch of a node and its children. -/
theorem TrieAt.branch {term : Option (Value (List UInt8))} {kids : List Trie}
    (h : TrieAt d used pos (.node [] term kids) vi) (hne : kids ≠ []) :
    At (bytesBits d.buf) (pos + (termBits d.sym d.info.hasValues vi term).length)
      (branchBits d.sym kids.length) ∧
    KidsAt d used (pos + (termBits d.sym d.info.hasValues vi term).length +
      (branchBits d.sym kids.length).length) kids (vi + term.toList.length) := by
  have hstands := h.stands
  rw [trieBits, labelBits, List.flatMap_nil, List.nil_append,
    if_neg (by simpa using hne)] at hstands
  refine ⟨hstands.right.left, ?_⟩
  cases h.compact with
  | intro compact labels heads _ =>
    refine ⟨hstands.right.right, compact, labels, heads, fun e he => h.used e ?_⟩
    rw [PrefixTree.entries_node]
    simp [he]

theorem trieLen_node_nil {term : Option (Value (List UInt8))} {kids : List Trie} :
    d.trieLen (.node [] term kids) vi = (termBits d.sym d.info.hasValues vi term).length +
      if kids.isEmpty then 0
      else (branchBits d.sym kids.length).length + d.kidsLen kids (vi + term.toList.length) := by
  rw [Dict.trieLen, trieBits, labelBits, List.flatMap_nil, List.nil_append, List.length_append]
  cases kids.isEmpty
  · simp [Dict.kidsLen]
  · rfl

/-- A child with siblings behind it. -/
theorem KidsAt.cons {t u : Trie} {ts : List Trie} (h : KidsAt d used pos (t :: u :: ts) vi) :
    At (bytesBits d.buf) pos (skipBits d.sym (d.trieLen t vi)) ∧
    TrieAt d used (pos + (skipBits d.sym (d.trieLen t vi)).length) t vi ∧
    KidsAt d used (pos + (skipBits d.sym (d.trieLen t vi)).length + d.trieLen t vi) (u :: ts)
      (vi + t.size) := by
  have hstands := h.stands
  rw [kidsBits, if_neg (by simp)] at hstands
  refine ⟨hstands.left, ⟨hstands.right.left, h.compact t (by simp), fun e he => h.used e ?_⟩,
    hstands.right.right, fun x hx => h.compact x (List.mem_cons_of_mem t hx),
    fun x hx => h.labels x (List.mem_cons_of_mem t hx), h.heads.of_cons, fun e he => h.used e ?_⟩
  · simp [he]
  · rw [List.flatMap_cons]
    exact List.mem_append_right _ he

/-- The last child. -/
theorem KidsAt.last {t : Trie} (h : KidsAt d used pos [t] vi) : TrieAt d used pos t vi := by
  have hstands := h.stands
  rw [kidsBits, if_pos (by simp), List.nil_append] at hstands
  exact ⟨hstands.left, h.compact t (by simp), fun e he => h.used e (by simp [he])⟩

theorem length_termBits_pos (hd : d.Sound) (vi : Nat) (v : Value (List UInt8)) :
    0 < (termBits d.sym d.info.hasValues vi (some v)).length := by
  have := hd.one_le
  simp only [termBits]
  split <;> simp only [List.length_append, length_symbolBits] <;> omega

theorem length_branchBits_pos (hd : d.Sound) (n : Nat) : 0 < (branchBits d.sym n).length := by
  have := hd.one_le
  rw [branchBits, List.length_append, length_symbolBits]
  omega

/-- No subtree is empty. -/
theorem trieLen_pos (hd : d.Sound) (vi : Nat) {t : Trie} (h : t.Compact) : 0 < d.trieLen t vi := by
  obtain ⟨l, term, kids⟩ := t
  cases h with
  | intro _ _ _ two =>
    rw [Dict.trieLen, trieBits, List.length_append, List.length_append]
    cases term with
    | some v =>
      have := length_termBits_pos hd vi v
      omega
    | none =>
      have hne : kids.isEmpty = false := by
        have := two rfl
        cases kids <;> simp_all
      have := length_branchBits_pos hd kids.length
      rw [hne, if_neg (by simp), List.length_append]
      omega

theorem TrieAt.end_le (hd : d.Sound) {t : Trie} (h : TrieAt d used pos t vi) :
    pos + d.trieLen t vi ≤ 8 * d.buf.length := by
  have hle := h.stands.le (List.ne_nil_of_length_pos (trieLen_pos hd _ h.compact))
  rwa [length_bytesBits] at hle

theorem length_le_kidsLen (hd : d.Sound) (vi : Nat) {kids : List Trie} (h : ∀ t ∈ kids, t.Compact) :
    kids.length ≤ d.kidsLen kids vi := by
  induction kids generalizing vi with
  | nil => simp
  | cons t ts ih =>
    have ht := trieLen_pos hd vi (h t (by simp))
    have hts := ih (vi + t.size) fun u hu => h u (by simp [hu])
    rw [kidsLen_cons, List.length_cons]
    omega

/-- A branch has fewer children than the buffer has bits. -/
theorem KidsAt.length_lt (hd : d.Sound) {kids : List Trie} (h : KidsAt d used pos kids vi) :
    kids.length < 2 ^ 63 := by
  have hlen := hd.length_lt
  rcases eq_or_ne kids [] with rfl | hne
  · simp
  · have hkids := length_le_kidsLen hd vi h.compact
    have hpos := List.length_pos_of_ne_nil hne
    have hle := h.stands.le (List.ne_nil_of_length_pos (by
      change 0 < d.kidsLen kids vi
      omega))
    rw [length_bytesBits] at hle
    change pos + d.kidsLen kids vi ≤ _ at hle
    omega

end TrieAt

/-! ## The value store -/

/-- Where the value of index `i` starts in a store that starts at bit `p`. -/
def valuePos (p : Nat) (vs : List (Value (List UInt8))) (i : Nat) : Nat :=
  p + (valuesBits p (vs.take i)).length

theorem valuePos_cons_succ (p : Nat) (v : Value (List UInt8)) (vs : List (Value (List UInt8)))
    (i : Nat) : valuePos p (v :: vs) (i + 1) = valuePos (p + (valueBits p v).length) vs i := by
  simp [valuePos, valuesBits, Nat.add_assoc]

/-- The values of a store are skipped and read one after another. -/
theorem values_of_at {r : Reader} (hr : r.Sound) {vs : List (Value (List UInt8))}
    (hvs : ∀ v ∈ vs, v.Encodable) (h : At (bytesBits r.buf) r.pos (valuesBits r.pos vs)) {i : Nat}
    (hi : i < vs.length) :
    skipValues i r = (.ok (), { r with pos := valuePos r.pos vs i }) ∧
    ({ r with pos := valuePos r.pos vs i } : Reader).Sound ∧
    ∃ v, valueDecode { r with pos := valuePos r.pos vs i } =
        (.ok v, { r with pos := valuePos r.pos vs (i + 1) }) ∧
      v.map (Slice.read r.buf) = vs[i] := by
  induction vs generalizing r i with
  | nil => simp at hi
  | cons val vs ih =>
    obtain ⟨v, hdec, hread⟩ := valueDecode_of_at hr (hvs val (by simp)) h.left
    cases i with
    | zero =>
      refine ⟨rfl, hr, v, ?_, hread⟩
      rw [valuePos_cons_succ]
      exact hdec
    | succ i =>
      obtain ⟨hskip, hsound, w, hw, hwread⟩ := ih (r := { r with pos := r.pos + (valueBits r.pos val).length })
        (hr.pass h.left) (fun x hx => hvs x (by simp [hx])) h.right (by simpa using hi)
      rw [valuePos_cons_succ, valuePos_cons_succ]
      refine ⟨?_, hsound, w, hw, hwread⟩
      rw [skipValues, Op.bind_ok hdec]
      exact hskip

end Triepack
