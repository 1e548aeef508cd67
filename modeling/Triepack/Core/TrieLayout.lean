import Triepack.Core.TrieWrite
import Triepack.Library.PrefixTree

/-!
# The trie as a prefix tree

`trieBits` is the layout of a compact prefix tree in the stream. Every range that `trie_write`
is called on is such a tree: it appends that tree's bits, `trie_subtree_size` computes their
number ahead of time, and both leave the value index behind the tree's keys.
-/

namespace Triepack

open BitString

/-! ## The bits of a prefix tree -/

/-- The keys and values of a dictionary as a prefix tree. -/
abbrev Trie : Type := PrefixTree UInt8 (Value (List UInt8))

section TrieBits

variable (sym : SymbolInfo) (hasValues : Bool)

def symbolBits (code : Nat) : List Bool := natBits sym.bitsPerSymbol code

def labelBits (l : List UInt8) : List Bool := l.flatMap fun b => symbolBits sym (sym.symbolMap b)

/-- The terminal of the key that has value index `vi`. -/
def termBits (vi : Nat) : Option (Value (List UInt8)) → List Bool
  | none => []
  | some val =>
    if hasValues ∧ val.tag ≠ 0 then symbolBits sym (sym.ctrlCodes .endVal) ++ Leb128.bits (u32 vi)
    else symbolBits sym (sym.ctrlCodes .end_)

/-- The preamble of a child that is not the last. -/
def skipBits (dist : Nat) : List Bool :=
  symbolBits sym (sym.ctrlCodes .skip) ++ Leb128.bits dist

def branchBits (count : Nat) : List Bool :=
  symbolBits sym (sym.ctrlCodes .branch) ++ Leb128.bits count

mutual

/-- The bits of a tree whose first key has value index `vi`. -/
def trieBits : Trie → (vi : Nat) → List Bool
  | .node l term kids, vi =>
    labelBits sym l ++ (termBits sym hasValues vi term ++
      if kids.isEmpty then []
      else branchBits sym kids.length ++ kidsBits kids (vi + term.toList.length))

def kidsBits : List Trie → (vi : Nat) → List Bool
  | [], _ => []
  | t :: ts, vi =>
    (if ts.isEmpty then [] else skipBits sym (trieBits t vi).length) ++
      (trieBits t vi ++ kidsBits ts (vi + t.size))

end

end TrieBits

theorem kidsBits_congr {sym sym' : SymbolInfo} (hbps : sym.bitsPerSymbol = sym'.bitsPerSymbol)
    (hctrl : sym.ctrlCodes = sym'.ctrlCodes) {hasValues : Bool} {ts : List Trie}
    (h : ∀ t ∈ ts, ∀ vi, trieBits sym hasValues t vi = trieBits sym' hasValues t vi) (vi : Nat) :
    kidsBits sym hasValues ts vi = kidsBits sym' hasValues ts vi := by
  induction ts generalizing vi with
  | nil => rfl
  | cons t ts ih =>
    rw [kidsBits, kidsBits, h t (by simp), ih (fun u hu => h u (by simp [hu]))]
    simp only [skipBits, symbolBits, hbps, hctrl]

/-- The layout depends on the width of the symbols and on the codes only. -/
theorem trieBits_congr {sym sym' : SymbolInfo} (hbps : sym.bitsPerSymbol = sym'.bitsPerSymbol)
    (hctrl : sym.ctrlCodes = sym'.ctrlCodes) (hmap : sym.symbolMap = sym'.symbolMap)
    (hasValues : Bool) (t : Trie) (vi : Nat) :
    trieBits sym hasValues t vi = trieBits sym' hasValues t vi := by
  induction t using PrefixTree.induction_on generalizing vi with
  | h l term kids ih =>
    rw [trieBits, trieBits, kidsBits_congr hbps hctrl ih]
    cases term <;> simp only [labelBits, termBits, branchBits, symbolBits, hbps, hctrl, hmap]

/-- An entry without the first bytes of its key. -/
def suffixEntry (n : Nat) (e : Entry) : List UInt8 × Value (List UInt8) := (e.key.drop n, e.val)

/-- The range is the tree, and `trie_write` and `trie_subtree_size` treat it as such. -/
structure LaidOut (sym : SymbolInfo) (hasValues : Bool) (fuel : Nat) (es : List Entry)
    (prefixLen : Nat) (t : Trie) : Prop where
  compact : t.Compact
  entries_eq : t.entries = es.map (suffixEntry prefixLen)
  size_eq : ∀ vi, trieSubtreeSize sym hasValues fuel es prefixLen (u32 vi) =
    .ok ((trieBits sym hasValues t vi).length, u32 (vi + t.size))
  appends : ∀ vi p, Wr.Appends p (trieWrite sym hasValues fuel es prefixLen (u32 vi))
    (trieBits sym hasValues t vi) (u32 (vi + t.size))

theorem u32_u32_add (a b : Nat) : u32 (u32 a + b) = u32 (a + b) := by simp [u32]

theorem varintBits_eq (val : Nat) : varintBits val = (Leb128.bits val).length := by
  induction val using Nat.strongRecOn with
  | ind val ih =>
    rw [varintBits]
    simp only [Nat.shiftRight_eq_div_pow]
    split_ifs with h
    · rw [ih _ (by omega), Leb128.length_bits_of_le (v := val) (by omega)]
    · rw [Leb128.length_bits_of_lt (by omega)]

section Layout

variable {sym : SymbolInfo} {hasValues : Bool} (hbps : 0 < sym.bitsPerSymbol)
  (hbps' : sym.bitsPerSymbol ≤ 64)

include hbps hbps'

theorem writeSymbol_appends (p code : Nat) :
    Wr.Appends p (bsWriteBits code sym.bitsPerSymbol) (symbolBits sym code) () :=
  bsWriteBits_appends p hbps hbps'

theorem writeSymbols_appends (p : Nat) (key : List UInt8) :
    Wr.Appends p (writeSymbols sym key) (labelBits sym key) () := by
  induction key generalizing p with
  | nil => exact .pure p ()
  | cons ch key ih => exact (writeSymbol_appends hbps hbps' p _).bind (ih _)

theorem writeTerminal_appends (p vi : Nat) (e : Entry) :
    Wr.Appends p (writeTerminal sym hasValues e (u32 vi)) (termBits sym hasValues vi (some e.val))
      () := by
  unfold writeTerminal
  simp only [termBits]
  split_ifs
  · exact (writeSymbol_appends hbps hbps' p _).bind (bsWriteVarintU_appends _ _)
  · exact writeSymbol_appends hbps hbps' p _

end Layout

theorem length_symbolBits (sym : SymbolInfo) (code : Nat) :
    (symbolBits sym code).length = sym.bitsPerSymbol := by simp [symbolBits]

theorem length_labelBits (sym : SymbolInfo) (l : List UInt8) :
    (labelBits sym l).length = l.length * sym.bitsPerSymbol := by
  simp [labelBits, List.length_flatMap, length_symbolBits]

/-- The children of a branch, given what holds of each of them. -/
theorem childrenSize_eq {sym : SymbolInfo} {hasValues : Bool} {fuel common : Nat}
    {runs : List (List Entry)} {ts : List Trie}
    (h : List.Forall₂ (fun run t => LaidOut sym hasValues fuel run common t) runs ts) (vi : Nat) :
    childrenSize sym.bitsPerSymbol
        (fun run => trieSubtreeSize sym hasValues fuel run common) runs (u32 vi) =
      .ok ((kidsBits sym hasValues ts vi).length, u32 (vi + (ts.map PrefixTree.size).sum)) := by
  induction h generalizing vi with
  | nil => rfl
  | @cons run t runs ts hrun hruns ih =>
    have hempty : runs.isEmpty = ts.isEmpty := by cases hruns <;> rfl
    simp only [childrenSize, hrun.size_eq, ih, bind, Except.bind, hempty, kidsBits, List.map_cons,
      List.sum_cons, Nat.add_assoc]
    split_ifs
    · simp
    · simp only [skipBits, List.length_append, length_symbolBits, varintBits_eq, Except.ok.injEq,
        Prod.mk.injEq, and_true]
      omega

theorem Wr.Appends.lift_ok {α β : Type} {p : Nat} {x : Except Stop α} {a : α} (hx : x = .ok a)
    {f : α → Wr β} {bs : List Bool} {b : β} (hf : Wr.Appends p (f a) bs b) :
    Wr.Appends p (Wr.lift x >>= f) bs b := by
  subst hx
  exact hf

theorem writeChildren_appends {sym : SymbolInfo} {hasValues : Bool} (hbps : 0 < sym.bitsPerSymbol)
    (hbps' : sym.bitsPerSymbol ≤ 64) {fuel common : Nat} {runs : List (List Entry)}
    {ts : List Trie}
    (h : List.Forall₂ (fun run t => LaidOut sym hasValues fuel run common t) runs ts)
    (vi p : Nat) :
    Wr.Appends p
      (writeChildren sym (fun run => trieSubtreeSize sym hasValues fuel run common)
        (fun run => trieWrite sym hasValues fuel run common) runs (u32 vi))
      (kidsBits sym hasValues ts vi) (u32 (vi + (ts.map PrefixTree.size).sum)) := by
  induction h generalizing vi p with
  | nil => exact .pure p _
  | @cons run t runs ts hrun hruns ih =>
    have hempty : runs.isEmpty = ts.isEmpty := by cases hruns <;> rfl
    rw [writeChildren, kidsBits, hempty, List.map_cons, List.sum_cons, ← Nat.add_assoc]
    split_ifs
    · exact (hrun.appends vi p).bind (ih _ _)
    · rw [skipBits, List.append_assoc]
      refine Wr.Appends.lift_ok (hrun.size_eq vi) ?_
      exact (writeSymbol_appends hbps hbps' p _).bind
        ((bsWriteVarintU_appends _ _).bind ((hrun.appends vi _).bind (ih _ _)))

theorem LaidOut.size_eq_length {sym : SymbolInfo} {hasValues : Bool} {fuel : Nat}
    {es : List Entry} {prefixLen : Nat} {t : Trie} (h : LaidOut sym hasValues fuel es prefixLen t) :
    t.size = es.length := by rw [PrefixTree.size, h.entries_eq, List.length_map]

/-- The subtrees of a branch whose runs are laid out. -/
theorem kids_of_laidOut {sym : SymbolInfo} {hasValues : Bool} {fuel common : Nat}
    {runs : List (List Entry)} {ts : List Trie}
    (h : List.Forall₂ (fun run t => LaidOut sym hasValues fuel run common t) runs ts)
    (hruns : ∀ run ∈ runs, run ≠ [] ∧ ∃ b, ∀ e ∈ run, (e.key.drop common).head? = some b)
    (hpair : runs.Pairwise fun r s =>
      ∀ a ∈ r, ∀ b ∈ s, (a.key.drop common).head? ≠ (b.key.drop common).head?) :
    (∀ t ∈ ts, t.Compact ∧ t.label ≠ [] ∧
      ∃ run ∈ runs, ∃ e ∈ run, t.label.head? = (e.key.drop common).head?) ∧
    (ts.Pairwise fun t u => t.label.head? ≠ u.label.head?) ∧
    ts.flatMap PrefixTree.entries = runs.flatten.map (suffixEntry common) := by
  induction h with
  | nil => exact ⟨by simp, .nil, rfl⟩
  | @cons run t runs ts hrun _ ih =>
    obtain ⟨hhead, htail⟩ := List.pairwise_cons.mp hpair
    obtain ⟨hts, htspair, hflat⟩ := ih (fun r hr => hruns r (by simp [hr])) htail
    obtain ⟨hne, b, hb⟩ := hruns run (by simp)
    have hlabel : t.label.head? = some b := hrun.compact.head?_label fun x hx => by
      rw [hrun.entries_eq, List.mem_map] at hx
      obtain ⟨e, he, rfl⟩ := hx
      exact hb e he
    obtain ⟨e, he⟩ := List.exists_mem_of_ne_nil _ hne
    refine ⟨fun u hu => ?_, List.pairwise_cons.mpr ⟨fun u hu => ?_, htspair⟩, ?_⟩
    · rcases List.mem_cons.mp hu with rfl | hu
      · refine ⟨hrun.compact, fun hnil => ?_, run, by simp, e, he, by rw [hlabel, hb e he]⟩
        simp [hnil] at hlabel
      · obtain ⟨hc, hl, r, hr, hre⟩ := hts u hu
        exact ⟨hc, hl, r, by simp [hr], hre⟩
    · obtain ⟨_, _, r, hr, e', he', hlabel'⟩ := hts u hu
      rw [hlabel, hlabel', ← hb e he]
      exact hhead r hr e he e' he'
    · rw [List.flatMap_cons, hflat, hrun.entries_eq, List.flatten_cons, List.map_append]

/-- The keys of a range split behind its common prefix. -/
theorem drop_eq_label_append {q key : List UInt8} {n : Nat} (h : q <+: key) (hn : n ≤ q.length) :
    key.drop n = q.drop n ++ key.drop q.length := by
  obtain ⟨tl, rfl⟩ := h
  rw [List.drop_left, List.drop_append_of_le_length hn]

/-- A range with what follows its common prefix laid out is laid out as one node. -/
theorem laidOut_node {sym : SymbolInfo} {hasValues : Bool} (hbps : 0 < sym.bitsPerSymbol)
    (hbps' : sym.bitsPerSymbol ≤ 64) {fuel prefixLen common : Nat} {first : Entry}
    {rest : List Entry} (hrange : TrieRange (first :: rest) prefixLen)
    (hcommon : commonEnd first rest prefixLen = common) {ts : List Trie}
    (hts : List.Forall₂ (fun run t => LaidOut sym hasValues fuel run common t)
      (childRuns common (childEntries first rest common)) ts) :
    LaidOut sym hasValues (fuel + 1) (first :: rest) prefixLen
      (.node ((first.key.take common).drop prefixLen)
        (if first.key.length = common then some first.val else none) ts) := by
  obtain ⟨hlow, hle, hpre, _⟩ := hrange.commonEnd_spec
  obtain ⟨hruns, hpair, htwo⟩ := hrange.childRuns_spec hcommon
  rw [hcommon] at hlow hle hpre
  have hlen := hts.length_eq
  have hempty : (childRuns common (childEntries first rest common)).isEmpty = ts.isEmpty := by
    rw [Bool.eq_iff_iff, List.isEmpty_iff_length_eq_zero, List.isEmpty_iff_length_eq_zero, hlen]
  obtain ⟨hkids, hheads, hflat⟩ :=
    kids_of_laidOut hts (fun run hrun => ⟨(hruns run hrun).1, (hruns run hrun).2.2.2⟩) hpair
  rw [flatten_childRuns] at hflat
  have hlabel : ((first.key.take common).drop prefixLen).length = common - prefixLen := by
    rw [List.length_drop, List.length_take, Nat.min_eq_left hle]
  have hvi : ∀ vi, (if first.key.length = common then u32 (u32 vi + 1) else u32 vi) =
      u32 (vi + (if first.key.length = common then some first.val else none).toList.length) := by
    intro vi
    split_ifs <;> simp [u32_u32_add]
  have hstop : (first.key.length = common ∧
      (childRuns common (childEntries first rest common)).isEmpty) ↔ ts.isEmpty = true := by
    rw [hempty, and_iff_right_iff_imp]
    intro hts
    by_contra hterm
    have := htwo hterm
    rw [hlen, List.isEmpty_iff_length_eq_zero.mp hts] at this
    omega
  refine ⟨.intro (fun t ht => (hkids t ht).1) (fun t ht => (hkids t ht).2.1) hheads ?_, ?_,
    fun vi => ?_, fun vi p => ?_⟩
  · intro hnone
    rw [← hlen]
    exact htwo fun hterm => by simp [hterm] at hnone
  · have hsuffix : ∀ e ∈ first :: rest, PrefixTree.under ((first.key.take common).drop prefixLen)
        (suffixEntry common e) = suffixEntry prefixLen e := by
      intro e he
      have hsplit := drop_eq_label_append (n := prefixLen) (hpre e he)
        (by rw [List.length_take]; omega)
      rw [List.length_take, Nat.min_eq_left hle] at hsplit
      rw [suffixEntry, suffixEntry, hsplit]
      rfl
    rw [PrefixTree.entries_node, hflat, childEntries]
    by_cases hterm : first.key.length = common
    · have hnil : suffixEntry common first = ([], first.val) := by
        rw [suffixEntry, ← hterm, List.drop_length]
      have hfirst := hsuffix first (by simp)
      rw [hnil] at hfirst
      rw [if_pos hterm, if_pos hterm, List.map_cons, ← hfirst,
        ← List.map_congr_left fun e he => hsuffix e (List.mem_cons_of_mem first he)]
      simp [PrefixTree.termEntry]
    · rw [if_neg hterm, if_neg hterm, List.map_append, List.map_map]
      exact List.map_congr_left hsuffix
  · have hbits : ∀ bits, (if first.key.length = common then
        (if hasValues ∧ first.val.tag ≠ 0 then bits + sym.bitsPerSymbol + varintBits (u32 vi)
          else bits + sym.bitsPerSymbol) else bits) =
        bits + (termBits sym hasValues vi
          (if first.key.length = common then some first.val else none)).length := by
      intro bits
      split_ifs <;> simp [termBits, length_symbolBits, varintBits_eq, *, Nat.add_assoc]
    have hchildren := childrenSize_eq hts
      (vi + (if first.key.length = common then some first.val else none).toList.length)
    simp only [trieSubtreeSize, hcommon, decide_eq_true_eq, hbits, hvi vi, hstop, hlen]
    simp only [varintBits_eq, trieBits, PrefixTree.size_node, List.length_append, length_labelBits,
      hlabel]
    cases hts : ts.isEmpty with
    | true =>
      rw [List.isEmpty_iff] at hts
      simp [hts]
    | false =>
      rw [hchildren]
      simp [bind, Except.bind, branchBits, length_symbolBits, Nat.add_assoc]
  · have hchildren := writeChildren_appends hbps hbps' hts
      (vi + (if first.key.length = common then some first.val else none).toList.length)
    have hterminal : ∀ q, Wr.Appends q
        (if first.key.length = common then writeTerminal sym hasValues first (u32 vi) else pure ())
        (termBits sym hasValues vi (if first.key.length = common then some first.val else none))
        () := by
      intro q
      split_ifs
      · exact writeTerminal_appends hbps hbps' q vi first
      · exact .pure q ()
    simp only [trieWrite, hcommon, decide_eq_true_eq, hvi vi, hempty, hlen, trieBits,
      PrefixTree.size_node, ← Nat.add_assoc]
    refine (writeSymbols_appends hbps hbps' p _).bind ((hterminal _).bind ?_)
    cases hts : ts.isEmpty with
    | true =>
      rw [List.isEmpty_iff] at hts
      simpa [hts] using Wr.Appends.pure _ _
    | false =>
      simp only [Bool.false_eq_true, if_false, branchBits, List.append_assoc]
      exact (writeSymbol_appends hbps hbps' _ _).bind
        ((bsWriteVarintU_appends _ _).bind (hchildren _))

theorem exists_laidOut {sym : SymbolInfo} (hasValues : Bool) (hbps : 0 < sym.bitsPerSymbol)
    (hbps' : sym.bitsPerSymbol ≤ 64) {fuel : Nat} {es : List Entry} {prefixLen : Nat}
    (hne : es ≠ []) (hfuel : es.length ≤ fuel) (hrange : TrieRange es prefixLen) :
    ∃ t, LaidOut sym hasValues fuel es prefixLen t := by
  induction fuel generalizing es prefixLen with
  | zero => exact absurd (List.eq_nil_of_length_eq_zero (by omega)) hne
  | succ fuel ih =>
    obtain ⟨first, rest, rfl⟩ := List.exists_cons_of_ne_nil hne
    obtain ⟨hruns, _, _⟩ := hrange.childRuns_spec rfl
    have hall : ∀ runs : List (List Entry),
        (∀ run ∈ runs, run ∈ childRuns (commonEnd first rest prefixLen)
          (childEntries first rest (commonEnd first rest prefixLen))) →
        ∃ ts, List.Forall₂ (fun run t =>
          LaidOut sym hasValues fuel run (commonEnd first rest prefixLen) t) runs ts := by
      intro runs
      induction runs with
      | nil => exact fun _ => ⟨[], .nil⟩
      | cons run runs ihruns =>
        intro hmem
        obtain ⟨hrunne, hrunrange, hlt, _⟩ := hruns run (hmem run (by simp))
        obtain ⟨t, ht⟩ := ih hrunne (by omega) hrunrange
        obtain ⟨ts, hts⟩ := ihruns fun r hr => hmem r (by simp [hr])
        exact ⟨t :: ts, .cons ht hts⟩
    obtain ⟨ts, hts⟩ := hall _ fun _ h => h
    exact ⟨_, laidOut_node hbps hbps' hrange rfl hts⟩

/-! ## The two passes agree -/

/-- `entries[start..stop)`. -/
def entryRange (entries : List Entry) (start stop : Nat) : List Entry :=
  (entries.drop start).take (stop - start)

/-- On every range that shares its first bytes, from every value index and every writer,
`trie_subtree_size` is the number of bits that `trie_write` appends, and both end at one value
index. -/
theorem trieSubtreeSize_exact {sym : SymbolInfo} (hbps : 0 < sym.bitsPerSymbol)
    (hbps' : sym.bitsPerSymbol ≤ 64) (hasValues : Bool) {entries : List Entry}
    (hasc : StrictlyAscending entries) {start stop : Nat} (hstart : start < stop)
    (hstop : stop ≤ entries.length) {prefixLen : Nat}
    (hshared : ∃ p, p.length = prefixLen ∧ ∀ e ∈ entryRange entries start stop, p <+: e.key)
    {vi : Nat} (hvi : vi < 2 ^ 32) {w : Writer} (hw : w.Valid) {fuel : Nat}
    (hfuel : stop - start ≤ fuel) :
    ∃ size viEnd w' bits,
      trieSubtreeSize sym hasValues fuel (entryRange entries start stop) prefixLen vi =
        .ok (size, viEnd) ∧
      trieWrite sym hasValues fuel (entryRange entries start stop) prefixLen vi w =
        .ok (viEnd, w') ∧
      w'.Valid ∧ w'.bits = w.bits ++ bits ∧ bits.length = size ∧ w'.pos = w.pos + size := by
  have hlen : (entryRange entries start stop).length = stop - start := by
    rw [entryRange, List.length_take, List.length_drop]
    omega
  have hne : entryRange entries start stop ≠ [] := by
    intro hnil
    rw [hnil, List.length_nil] at hlen
    omega
  have hsub : (entryRange entries start stop).Sublist entries :=
    (List.take_sublist _ _).trans (List.drop_sublist _ _)
  obtain ⟨t, ht⟩ := exists_laidOut hasValues hbps hbps' hne (hlen.trans_le hfuel)
    ⟨hasc.sublist hsub, hshared⟩
  have hsize := ht.size_eq vi
  obtain ⟨w', hwrite, hvalid, hbits⟩ := ht.appends vi w.pos w hw rfl
  rw [u32_of_lt hvi] at hsize hwrite
  refine ⟨_, _, w', _, hsize, hwrite, hvalid, hbits, rfl, ?_⟩
  rw [← hvalid.length_bits, hbits, List.length_append, hw.length_bits]

/-- The entries below the first byte of "a", "ab", "ac" and "b", from value index 200 on. -/
theorem trieSubtreeSize_exact_three :
    ∃ size viEnd w' bits,
      trieSubtreeSize (analyzeSymbols 0 [[97], [97, 98], [97, 99], [98]]) true 3
        (entryRange [⟨[97], .int 1⟩, ⟨[97, 98], .null⟩, ⟨[97, 99], .int 2⟩, ⟨[98], .null⟩] 0 3) 1
        200 = .ok (size, viEnd) ∧
      trieWrite (analyzeSymbols 0 [[97], [97, 98], [97, 99], [98]]) true 3
        (entryRange [⟨[97], .int 1⟩, ⟨[97, 98], .null⟩, ⟨[97, 99], .int 2⟩, ⟨[98], .null⟩] 0 3) 1
        200 (bsWriterCreate 1 0) = .ok (viEnd, w') ∧
      w'.Valid ∧ w'.bits = (bsWriterCreate 1 0).bits ++ bits ∧ bits.length = size ∧
      w'.pos = (bsWriterCreate 1 0).pos + size := by
  refine trieSubtreeSize_exact (by decide +kernel) (by decide +kernel) true ?_ (by omega)
    (by decide) ⟨[97], rfl, ?_⟩ (by decide) (.create 1 0) le_rfl
  · simp only [StrictlyAscending]
    decide
  · decide

end Triepack
