import Triepack.Core.BuildSucceeds
import Triepack.Json.Inverse
import Triepack.Json.WalkAgrees

/-!
# The prefix buffers of the emitter

A prefix that `emit_json` builds for a child is as long as the part of the key it was cut from, or
one byte longer: in an object it is joined by a point, also where the key has none. The buffer
`new_prefix` is as long as that of the keys, so that only a key of exactly 4095 bytes can overrun it.
-/

namespace Triepack

open JsonText WhileLoop

/-- A computation that neither leaves an array nor goes on for ever. -/
def InBounds {α : Type} (x : Except Stop α) : Prop := ∀ e, x = .error e → ∃ code, e = .rc code

/-- A key of 4095 bytes goes on behind the prefix of an object with its last segment and without a
point in front of it. -/
structure Overruns (es : List FlatEntry) (level key : List UInt8) : Prop where
  behind : key ∈ keysBehind es level
  inner : level ≠ []
  object : isArrayLevel es level = false
  full : key.length = 4095
  joined : key = level ++ segmentOf level.length key

/-- No key overruns the buffer at any level that is reached from the root. -/
def PrefixesFit (es : List FlatEntry) : Prop :=
  ∀ level, Relation.ReflTransGen (LevelBelow es) [] level → ∀ key, ¬ Overruns es level key

/-! ## One level -/

section Level

variable {es : List FlatEntry} {level key : List UInt8}

theorem Overruns.segment_ne_nil (h : Overruns es level key) : segmentOf level.length key ≠ [] := by
  intro hnil
  obtain ⟨-, -, -, hlt⟩ := mem_keysBehind.mp h.behind
  have hkey := h.joined
  rw [hnil, List.append_nil] at hkey
  rw [hkey, segStart] at hlt
  split_ifs at hlt <;> omega

/-- A segment is cut from its key. -/
theorem length_segmentOf_le (h : key ∈ keysBehind es level) :
    segStart level.length key + (segmentOf level.length key).length ≤ key.length := by
  obtain ⟨-, -, -, hlt⟩ := mem_keysBehind.mp h
  have hle := (isPrefix_nextSegment (key.drop (segStart level.length key))).length_le
  rw [List.length_drop] at hle
  rw [segmentOf]
  omega

/-- Without a point in between a key begins with its segment behind the prefix. -/
theorem isPrefix_joined (h : key ∈ keysBehind es level) (hpoint : key[level.length]? ≠ some point) :
    level ++ segmentOf level.length key <+: key := by
  obtain ⟨-, ⟨rest, rfl⟩, -⟩ := mem_keysBehind.mp h
  rw [segmentOf, segStart, if_neg hpoint, List.drop_left]
  exact (List.prefix_append_right_inj level).mpr (isPrefix_nextSegment rest)

/-- The prefix of a child has room unless its key overruns the buffer. -/
theorem length_childPrefix_lt_iff (h : key ∈ keysBehind es level) (hkey : key.length < keyBufSize) :
    (childPrefix (isArrayLevel es level) level (segmentOf level.length key)).length < pathSize ↔
      ¬ Overruns es level key := by
  have hle := length_segmentOf_le h
  have hsizes : keyBufSize = 4096 ∧ pathSize = 4096 := ⟨rfl, rfl⟩
  by_cases hpoint : key[level.length]? = some point
  · -- the key has the point itself
    rw [segStart, if_pos hpoint] at hle
    refine iff_of_true ?_ fun hover => ?_
    · rw [childPrefix]
      split_ifs <;> simp only [List.length_append, List.length_cons] <;> omega
    · have hjoined := congrArg List.length hover.joined
      rw [List.length_append] at hjoined
      omega
  · have hbegins := isPrefix_joined h hpoint
    rw [segStart, if_neg hpoint] at hle
    rw [childPrefix]
    split_ifs with hjoin
    · refine iff_of_true (by rw [List.length_append]; omega) fun hover => ?_
      obtain harray | hroot := hjoin
      · exact Bool.false_ne_true (hover.object.symm.trans harray)
      · exact hover.inner hroot
    · rw [not_or, Bool.not_eq_true] at hjoin
      rw [List.length_append, List.length_cons]
      constructor
      · intro hlt hover
        have hjoined := congrArg List.length hover.joined
        have hfull := hover.full
        rw [List.length_append] at hjoined
        omega
      · intro hfits
        by_contra hlong
        have hlen : (level ++ segmentOf level.length key).length = key.length := by
          rw [List.length_append]
          omega
        refine hfits ⟨h, hjoin.2, hjoin.1, ?_, (hbegins.eq_of_length hlen).symm⟩
        rw [List.length_append] at hlen
        omega

end Level

/-! ## Whole trees -/

section Tree

variable {pf : PrintFloat} {buf : List UInt8} {indent : Option (List UInt8)} {es : List FlatEntry}
  (hkeys : ∀ e ∈ es, e.key.length < keyBufSize) {pre : List UInt8}

include hkeys

theorem length_lt_of_behind {level key : List UInt8} (h : key ∈ keysBehind es level) :
    key.length < keyBufSize := by
  obtain ⟨⟨e, he, rfl⟩, -⟩ := mem_keysBehind.mp h
  exact hkeys e he

omit hkeys in
/-- Nothing overruns the buffer where no key goes on. -/
theorem not_overruns_of_leaf (hnil : keysBehind es pre = []) {level : List UInt8}
    (hlevel : Relation.ReflTransGen (LevelBelow es) pre level) (key : List UInt8) :
    ¬ Overruns es level key := by
  obtain rfl | ⟨new, ⟨key, hkey, -⟩, -⟩ := Relation.ReflTransGen.cases_head hlevel
  · intro hover
    exact absurd hover.behind (by simp [hnil])
  · simp [hnil] at hkey

/-- Where a tree is emitted no key overruns the buffer. -/
theorem Emits.not_overruns {t : Emitted} (h : Emits es pre t) :
    ∀ level, Relation.ReflTransGen (LevelBelow es) pre level → ∀ key, ¬ Overruns es level key := by
  induction h with
  | value hnil => exact fun level hlevel => not_overruns_of_leaf hnil hlevel
  | null hnil => exact fun level hlevel => not_overruns_of_leaf hnil hlevel
  | @container pre cs hne hsegs hroom hchild ih =>
    intro level hlevel key
    obtain rfl | ⟨new, hnew, hlevel⟩ := Relation.ReflTransGen.cases_head hlevel
    · intro hover
      have hmem : segmentOf pre.length key ∈ cs.map Prod.fst := by
        rw [hsegs]
        exact mem_uniqueSegments.mpr ⟨hover.segment_ne_nil, key, hover.behind, rfl⟩
      obtain ⟨c, hc, hseg⟩ := List.mem_map.mp hmem
      have hlt := hroom c hc
      rw [hseg] at hlt
      exact (length_childPrefix_lt_iff hover.behind (length_lt_of_behind hkeys hover.behind)).mp hlt hover
    · obtain ⟨c, hc, rfl⟩ := (levelBelow_iff hsegs).mp hnew
      exact ih c hc level hlevel key

/-- Where no key overruns the buffer a tree is emitted. -/
theorem exists_emits (h : ∀ level, Relation.ReflTransGen (LevelBelow es) pre level →
    ∀ key, ¬ Overruns es level key) (hlen : pre.length < pathSize) : ∃ t, Emits es pre t := by
  generalize hn : pathSize - pre.length = n
  induction n using Nat.strong_induction_on generalizing pre with
  | _ n ih =>
    by_cases hnil : keysBehind es pre = []
    · cases hleaf : findLeaf es pre with
      | none => exact ⟨_, .null hnil hleaf⟩
      | some e => exact ⟨_, .value hnil hleaf⟩
    · have hsegs : ∀ seg ∈ uniqueSegments pre.length (keysBehind es pre), ∃ t : Emitted,
          (childPrefix (isArrayLevel es pre) pre seg).length < pathSize ∧
            Emits es (childPrefix (isArrayLevel es pre) pre seg) t := by
        intro seg hseg
        obtain ⟨hne, key, hkey, rfl⟩ := mem_uniqueSegments.mp hseg
        have hroom := (length_childPrefix_lt_iff hkey (length_lt_of_behind hkeys hkey)).mpr (h pre .refl key)
        have hlonger : pre.length <
            (childPrefix (isArrayLevel es pre) pre (segmentOf pre.length key)).length :=
          length_childPrefix hne
        obtain ⟨t, ht⟩ := ih _ (by omega)
          (fun level hlevel => h level (.head ⟨key, hkey, hne, rfl⟩ hlevel)) hroom rfl
        exact ⟨t, hroom, ht⟩
      obtain ⟨cs, hcs, hall⟩ := exists_children hsegs
      exact ⟨_, .container hnil hcs (fun c hc => (hall c hc).1) fun c hc => (hall c hc).2⟩

theorem exists_emits_iff : (∃ t, Emits es [] t) ↔ PrefixesFit es :=
  ⟨fun ⟨_, ht⟩ => ht.not_overruns hkeys, fun h => exists_emits hkeys h (by decide)⟩

end Tree

/-! ## Errors -/

theorem except_bind_eq_error {α β : Type} {x : Except Stop α} {f : α → Except Stop β} {e : Stop}
    (h : x >>= f = .error e) : x = .error e ∨ ∃ a, x = .ok a ∧ f a = .error e := by
  cases x with
  | error e' => exact .inl (congrArg Except.error (Except.error.inj h))
  | ok a => exact .inr ⟨a, rfl, h⟩

theorem exists_mapM_error {α β : Type} {f : α → Except Stop β} {xs : List α} {e : Stop}
    (h : xs.mapM f = .error e) : ∃ x ∈ xs, f x = .error e := by
  induction xs with
  | nil => simp [List.mapM_nil, pure, Except.pure] at h
  | cons x xs ih =>
    rw [List.mapM_cons] at h
    obtain hx | ⟨y, -, h⟩ := except_bind_eq_error h
    · exact ⟨x, by simp, hx⟩
    · obtain hxs | ⟨ys, -, h⟩ := except_bind_eq_error h
      · obtain ⟨z, hz, hfz⟩ := ih hxs
        exact ⟨z, by simp [hz], hfz⟩
      · simp [pure, Except.pure] at h

/-- The emitter itself gives no result codes. -/
theorem emitJson_ne_rc {pf : PrintFloat} {buf : List UInt8} {indent : Option (List UInt8)}
    {es : List FlatEntry} {fuel depth : Nat} {pre : List UInt8} (code : TpErr) :
    emitJson pf buf indent es fuel pre depth ≠ .error (.rc code) := by
  induction fuel generalizing pre depth with
  | zero => simp [emitJson]
  | succ fuel ih =>
    intro h
    rw [emitJson_succ] at h
    split_ifs at h with hnil
    · cases hleaf : findLeaf es pre <;> simp [hleaf] at h
    · obtain hmap | ⟨texts, -, h⟩ := except_bind_eq_error h
      · obtain ⟨seg, -, hseg⟩ := exists_mapM_error hmap
        rw [emitChild_eq] at hseg
        split_ifs at hseg
        · obtain htext | ⟨text, -, hseg⟩ := except_bind_eq_error hseg
          · split at htext
            · simp at htext
            · exact ih htext
          · simp at hseg
        · simp at hseg
      · simp at h

/-! ## Decoding -/

/-- Of any list that the walk can make, the emitter stays in its buffers when no key overruns
them. -/
theorem emitJson_inBounds_iff {pf : PrintFloat} {buf : List UInt8} {indent : Option (List UInt8)}
    {es : List FlatEntry} (hkeys : ∀ e ∈ es, e.key.length < keyBufSize) :
    InBounds (emitJson pf buf indent es (pathSize + 1) [] 0) ↔ PrefixesFit es := by
  rw [← exists_emits_iff hkeys]
  constructor
  · intro h
    cases hemit : emitJson pf buf indent es (pathSize + 1) [] 0 with
    | error e =>
      obtain ⟨code, rfl⟩ := h e hemit
      exact absurd hemit (emitJson_ne_rc code)
    | ok text =>
      obtain ⟨t, ht, -⟩ := emitJson_eq_ok_iff.mp hemit
      exact ⟨t, ht⟩
  · rintro ⟨t, ht⟩ e h
    rw [emitJson_eq_ok_iff.mpr ⟨t, ht, rfl⟩] at h
    simp at h

theorem decodeImpl_inBounds_iff {b : Buffer} {d : Dict} (hopen : dictOpen b.bytes = .ok d)
    (pf : PrintFloat) (qs : FlatQsort) (indent : Option (List UInt8)) :
    InBounds (decodeImpl pf qs indent b.bytes) ↔
      ∀ es rootType, extractEntries qs b.bytes = .ok (es, rootType) → PrefixesFit es := by
  rw [decodeImpl]
  obtain ⟨code, hextract⟩ | ⟨es, rootType, hextract, hbounds⟩ := extractEntries_bounds hopen qs
  · rw [hextract]
    refine iff_of_true (fun e h => ⟨code, (Except.error.inj h).symm⟩) (by simp)
  · rw [hextract, except_ok_bind]
    have hiff := @emitJson_inBounds_iff pf b.bytes indent es hbounds.keys_lt
    have hall : (∀ es' rootType', Except.ok (es, rootType) = (.ok (es', rootType') : Except Stop _) →
        PrefixesFit es') ↔ PrefixesFit es := by
      constructor
      · exact fun h => h es rootType rfl
      · intro h es' rootType' heq
        obtain ⟨rfl, -⟩ := Prod.mk.inj (Except.ok.inj heq)
        exact h
    rw [hall]
    by_cases hnil : es.length = 0
    · obtain rfl := List.length_eq_zero_iff.mp hnil
      refine iff_of_true ?_ fun level _ key hover => ?_
      · intro e h
        simp at h
      · simpa [keysBehind] using hover.behind
    · simpa only [if_neg hnil] using hiff

/-- Decoding comes to an end and stays in its arrays, unless a key of 4095 bytes overruns a prefix
buffer. -/
theorem jsonDecode_inBounds_iff {b : Buffer} {d : Dict} (hopen : dictOpen b.bytes = .ok d)
    (pf : PrintFloat) (qs : FlatQsort) :
    (InBounds (jsonDecode pf qs b.bytes) ↔
      ∀ es rootType, extractEntries qs b.bytes = .ok (es, rootType) → PrefixesFit es) ∧
    ∀ indent, (InBounds (jsonDecodePretty pf qs indent b.bytes) ↔
      ∀ es rootType, extractEntries qs b.bytes = .ok (es, rootType) → PrefixesFit es) :=
  ⟨decodeImpl_inBounds_iff hopen pf qs none, fun indent => decodeImpl_inBounds_iff hopen pf qs (some indent)⟩

/-- In the dictionary of one short key nothing overruns the buffer, as it is decoded. -/
theorem prefixesFit_soleFile : ∃ es rootType,
    extractEntries .byInsertion soleFile = .ok (es, rootType) ∧ PrefixesFit es := by
  have hdecode : decodeImpl .none .byInsertion none soleFile = .ok soleText := by decide +kernel
  obtain ⟨⟨es, rootType⟩, hextract, -⟩ := except_bind_eq_ok hdecode
  obtain ⟨d, hopen, -⟩ := collectsWhole_soleFile
  have hiff := @jsonDecode_inBounds_iff ⟨soleFile, by decide⟩ d hopen .none .byInsertion
  refine ⟨es, rootType, hextract, hiff.1.mp (fun e h => ?_) es rootType hextract⟩
  rw [jsonDecode, hdecode] at h
  simp at h

/-! ## A key that overruns the buffer -/

/-- `[0]yy…` with `n` letters. -/
def paddedKey (n : Nat) : List UInt8 := indexText 0 ++ List.replicate n 0x79

theorem length_paddedKey (n : Nat) : (paddedKey n).length = n + 3 := by
  have hindex : (indexText 0).length = 3 := by decide +kernel
  rw [paddedKey, List.length_append, hindex, List.length_replicate, Nat.add_comm]

theorem usedBytes_paddedKey {n : Nat} (hn : n ≠ 0) :
    usedBytes [paddedKey n] = [0x30, 0x5B, 0x5D, 0x79] := by
  have hindex : indexText 0 = [0x5B, 0x30, 0x5D] := by decide +kernel
  have hsame : usedBytes [paddedKey n] = usedBytes [[0x30, 0x5B, 0x5D, 0x79]] := by
    refine List.filter_congr fun b _ => ?_
    have hmem : b ∈ paddedKey n ↔ b ∈ [(0x30 : UInt8), 0x5B, 0x5D, 0x79] := by
      rw [paddedKey, hindex, List.mem_append, List.mem_replicate]
      simp only [List.mem_cons, List.not_mem_nil, or_false]
      tauto
    simp [hmem]
  rw [hsame]
  decide +kernel

theorem sortedEntries_paddedKey (q : Qsort) (n : Nat) :
    sortedEntries q (added [(paddedKey n, none)]).entries = [⟨paddedKey n, .null⟩] := by
  rw [entries_added, survivors_eq_self (by simp)]
  rfl

theorem exists_build_paddedKey (q : Qsort) {n : Nat} (hn : n ≠ 0) (hlen : n < 2 ^ 16) :
    ∃ buf, (encoderBuild q (added [(paddedKey n, none)])).1 = .ok buf := by
  have hused : usedBytes ([(⟨paddedKey n, .null⟩ : Entry)].map Entry.key) = [0x30, 0x5B, 0x5D, 0x79] :=
    usedBytes_paddedKey hn
  have hwidth : symbolWidth 0 [0x30, 0x5B, 0x5D, 0x79] = 4 := by decide +kernel
  have hbps : (analyzeSymbols 0 ([⟨paddedKey n, .null⟩].map Entry.key)).bitsPerSymbol = 4 := by
    rw [bitsPerSymbol_analyzeSymbols, hused, hwidth]
  obtain ⟨t, ht⟩ := @exists_laidOut (analyzeSymbols 0 ([⟨paddedKey n, .null⟩].map Entry.key))
    (entriesHaveValues [⟨paddedKey n, .null⟩]) (by omega) (by omega)
    1 [⟨paddedKey n, .null⟩] 0 (List.cons_ne_nil _ _) (Nat.le_refl 1)
    ⟨List.pairwise_singleton _ _, [], rfl, fun _ _ => List.nil_prefix⟩
  have hnone : entriesHaveValues [⟨paddedKey n, .null⟩] = false := rfl
  let l : StreamLayout 0 [⟨paddedKey n, .null⟩] :=
    { config := _
      trie := _
      config_eq := rfl
      trie_eq := by
        rw [TrieCode, if_neg (List.cons_ne_nil _ _)]
        exact ⟨t, ht.compact, ht.entries_eq, rfl⟩
      encodable := fun h => absurd h (by simp [hnone]) }
  have htrie : l.trie.length = 4 * (n + 4) := by
    have hleaf := ht.compact.eq_leaf ht.entries_eq
    simp only [l, hleaf, hnone, trieBits, List.length_append, length_labelBits, hbps, List.isEmpty_nil,
      if_true, List.length_nil, termBits]
    rw [if_neg (by simp), length_symbolBits, hbps, List.drop_zero, length_paddedKey]
    omega
  obtain ⟨bytes, -, hbuild⟩ := encoderBuild_of_layout (opts_added _)
    (sortedEntries_paddedKey q n) (by decide)
    (by rw [hused]; decide) l (ht.appends 0 _) (by
      have hstore : l.store.length = 0 := by simp [StreamLayout.store, storeBits, hnone]
      have hconfig : l.config.length = 68 := by
        simp only [l, hused, hwidth, configBits, ctrlBits, tableBits, TpCtrl.all]
        simp [Leb128.length_bits_of_lt]
      simp only [StreamLayout.offsets, htrie, hstore, hconfig, uint32Max]
      omega)
  exact ⟨_, hbuild⟩

theorem isPlain_paddedKey (n : Nat) : IsPlain (paddedKey n) := by
  have hindex : indexText 0 = [0x5B, 0x30, 0x5D] := by decide +kernel
  simp [IsPlain, paddedKey, hindex]

/-- The letters are a segment that nothing separates from the brackets. -/
theorem overruns_paddedKey {n : Nat} (hn : n + 3 = 4095) {e : FlatEntry} (he : e.key = paddedKey n) :
    Relation.ReflTransGen (LevelBelow [e]) [] (indexText 0) ∧ Overruns [e] (indexText 0) (paddedKey n) := by
  have hindex : indexText 0 <+: paddedKey n := List.prefix_append _ _
  have hplain := isPlain_paddedKey n
  have hlen : (indexText 0).length = 3 := by decide +kernel
  have hroot : segmentOf ([] : List UInt8).length (paddedKey n) = indexText 0 := segmentOf_of_index hindex
  have hget : (paddedKey n)[(indexText 0).length]? = some 0x79 := by
    rw [paddedKey, List.getElem?_append_right (Nat.le_refl _), Nat.sub_self, List.getElem?_replicate,
      if_pos (by omega)]
  have hstart : segStart (indexText 0).length (paddedKey n) = (indexText 0).length := by
    rw [segStart, hget, if_neg (by decide)]
  have hbehind : paddedKey n ∈ keysBehind [e] (indexText 0) := by
    refine mem_keysBehind.mpr ⟨⟨e, by simp, he⟩, hindex, hplain, ?_⟩
    rw [hstart, hlen, length_paddedKey]
    omega
  refine ⟨.single ⟨paddedKey n, ?_, ?_, ?_⟩, hbehind, ?_, ?_, ?_, ?_⟩
  · exact mem_keysBehind.mpr ⟨⟨e, by simp, he⟩, Filled.goesOn_of_index hplain hindex⟩
  · rw [hroot]
    decide +kernel
  · rw [hroot, childPrefix, if_pos (.inr rfl), List.nil_append]
  · decide +kernel
  · refine List.all_eq_false.mpr ⟨paddedKey n, hbehind, ?_⟩
    rw [atIndex, hstart, hget]
    decide
  · rw [length_paddedKey, hn]
  · have hletters : nextSegment (List.replicate n 0x79 ++ []) = List.replicate n 0x79 :=
      nextSegment_name (by rw [ne_eq, List.replicate_eq_nil_iff]; omega)
        (fun b hb => by rw [(List.mem_replicate.mp hb).2]; decide) (by simp)
    rw [List.append_nil] at hletters
    rw [segmentOf, hstart, paddedKey, List.drop_left, hletters]

/-- One key of 4095 bytes behind brackets makes the decoder write behind a prefix buffer. -/
theorem not_inBounds_paddedKey : ∃ b : Buffer, ∃ d, dictOpen b.bytes = .ok d ∧
    ¬ InBounds (jsonDecode .none .byInsertion b.bytes) := by
  obtain ⟨n, hn⟩ : ∃ n, n + 3 = 4095 := ⟨4092, rfl⟩
  obtain ⟨buf, h⟩ := exists_build_paddedKey (.keepingLast ⟨[], .null⟩) (n := n) (by omega) (by omega)
  obtain ⟨d, hopen, rfl, ⟨hsound, hstart⟩, -, hrep⟩ :=
    dictOpenImpl_encoderBuild true (opts_added _) (Prod.ext h rfl)
  rw [sortedEntries_paddedKey] at hrep
  obtain ⟨t, ht⟩ := hrep (List.cons_ne_nil _ _)
  -- a key on its own parts from nothing
  have hfits : WalkFits ([(⟨paddedKey n, .null⟩ : Entry)].map Entry.key) := by
    refine ⟨fun k hk => ?_, fun k hk => ?_⟩
    · rw [List.mem_singleton.mp hk, length_paddedKey, hn]
    · rw [List.mem_singleton.mp hk]
      simp [PrefixTree.branchDepth, PrefixTree.PartsAt]
  have hway : OnWayToGreatest ([(⟨paddedKey n, .null⟩ : Entry)].map Entry.key) := by
    intro k hk k' hk' _ hne
    exact absurd ((List.mem_singleton.mp hk).trans (List.mem_singleton.mp hk').symm) hne
  obtain ⟨flat, rootType, hextract, hpairs⟩ := ht.extractEntries_eq .byInsertion hopen hstart hfits hway
  refine ⟨⟨d.buf, hsound.length_lt⟩, d, hopen, fun hin => ?_⟩
  have hfit := (decodeImpl_inBounds_iff (b := ⟨d.buf, hsound.length_lt⟩) hopen .none .byInsertion none).mp hin
    flat rootType hextract
  have hflat : flat.map FlatEntry.key = [paddedKey n] := by
    have hkeys := congrArg (List.map Prod.fst) hpairs
    simpa [FlatEntry.pair, Entry.pair, Function.comp_def, isPlain_paddedKey] using hkeys
  obtain ⟨e, rfl, he⟩ := List.map_eq_singleton_iff.mp hflat
  obtain ⟨hlevel, hover⟩ := overruns_paddedKey hn he
  exact hfit _ hlevel _ hover

end Triepack
