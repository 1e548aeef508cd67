import Triepack.Python.ReadBack

/-!
# Round trips of Python dictionaries

A dictionary comes back unless it has a number of more than ten groups, so many keys that the values
begin behind what the 32 bits of an offset can address, or keys that are nested deeper than the decoder
can go.
-/

namespace Triepack.Python

open BitString CallStack

/-! ## Dictionaries and their tries -/

/-- All strings of the dictionary have an encoding. -/
def Dict.IsText (d : Dict) : Prop := ∀ e ∈ d.items, Python.IsText e.1 ∧ e.2.IsText

instance (d : Dict) : Decidable d.IsText :=
  inferInstanceAs (Decidable (∀ e ∈ d.items, Python.IsText e.1 ∧ e.2.IsText))

/-- `encode` of any strings, each given with its lone surrogates as bytes; these raise. -/
def encodeText (frames : Frames) (d : Dict) : Except Err (List UInt8) :=
  if d.IsText then encode frames d else .error .valueError

/-- The number of bits that `_trie_write` writes, by the dry run of `_trie_subtree_size`. -/
def trieSize (items : List Item) : Nat :=
  match trieSubtreeSize (context items) items.length .unbounded items 0 0 with
  | .ok (bits, _) => bits
  | .error _ => 0

/-- The bits in front of the values: the configuration and the trie. -/
def Dict.indexBits (d : Dict) : Nat :=
  (configBits (sortItems d.items)).length + trieSize (sortItems d.items)

/-- The encoder raises, or what it returns is decoded to the dictionary by the same caller. -/
def Dict.RoundTrips (frames : Frames) (d : Dict) : Prop :=
  (∃ e, encodeText frames d = .error e) ∨
    ∃ buf d', encodeText frames d = .ok buf ∧ decode frames buf = .ok d' ∧ d'.items.Perm d.items

section Trie

variable {items : List Item}

/-- The entries of the trie, as the encoder lays it out. -/
structure IsTrieOf (t : Trie) (items : List Item) : Prop where
  compact : t.Compact
  entries_eq : t.entries = (items.map entry).map (suffixEntry 0)
  size_eq : t.size = items.length
  trieSize_eq : trieSize items =
    (trieBits (analyzeSymbols 0 (keys items)) (hasValues items) t 0).length
  writes : ∀ frames, WritesTrie frames (writeCost (hasValues items) t) items
    (trieBits (analyzeSymbols 0 (keys items)) (hasValues items) t 0)

theorem exists_isTrieOf (hasc : StrictlyAscending (items.map entry)) (hne : items ≠ []) :
    ∃ t, IsTrieOf t items := by
  obtain ⟨hpos, hle⟩ := bitsPerSymbol_bounds (keys items)
  obtain ⟨t, ht⟩ := exists_laidOut (context_matches items) hpos hle hne le_rfl
    ⟨hasc, [], rfl, fun _ _ => List.nil_prefix⟩
  refine ⟨t, ht.inC.compact, ht.inC.entries_eq, by rw [ht.inC.size_eq_length, List.length_map], ?_,
    fun frames p => ⟨0 + t.size, ?_⟩⟩
  · have hsize : trieSubtreeSize (context items) items.length .unbounded items 0 0 = _ :=
      (ht.size .unbounded 0).1 (by simp)
    rw [trieSize, hsize]
    rfl
  · rw [if_pos hne]
    exact ht.appends _ (Frames.Room.mono (Frames.room_more 5) (by omega)) 0 p

theorem IsTrieOf.keysBelow_eq {t : Trie} (h : IsTrieOf t items) :
    keysBelow [] t.entries = items.map Prod.fst := by
  rw [keysBelow, h.entries_eq, List.map_map, List.map_map]
  rfl

/-- Where its bits stand, the trie is one that can be walked. -/
theorem IsTrieOf.stands {t : Trie} (h : IsTrieOf t items) {buf : List UInt8} {p : Nat} {ok : Prop}
    (htext : ∀ e ∈ items, Python.IsText e.1)
    (hat : At (bytesBits buf) p
      (trieBits (analyzeSymbols 0 (keys items)) (hasValues items) t 0))
    (hsmall : ok → trieSize items < varUintBound ∧ items.length ≤ varUintBound) :
    Stands (analyzeSymbols 0 (keys items)) (hasValues items) (usedBytes (keys items)) buf ok [] p t 0 := by
  have hentry : ∀ e ∈ t.entries, ∃ x ∈ items, x.1 = e.1 := by
    intro e he
    rw [h.entries_eq, List.map_map] at he
    obtain ⟨x, hx, rfl⟩ := List.mem_map.mp he
    exact ⟨x, hx, rfl⟩
  refine ⟨hat, h.compact, fun e he b hb => ?_, fun e he => ?_, fun hok => ?_⟩
  · obtain ⟨x, hx, hxe⟩ := hentry e he
    exact mem_usedBytes.mpr ⟨x.1, List.mem_map_of_mem (f := Entry.key) (List.mem_map_of_mem hx), hxe ▸ hb⟩
  · obtain ⟨x, hx, hxe⟩ := hentry e he
    rw [List.nil_append, ← hxe]
    exact (htext x hx).isUtf8
  · rw [← h.trieSize_eq, h.size_eq, Nat.zero_add]
    exact hsmall hok

end Trie

/-! ## The walk and the values -/

section Items

variable {frames : Frames} {items : List Item} {cfg : Config} {hv : Bool} {trieStart valueStart : Nat}
  {r : BitReader}

/-- Behind a walk the values are read. -/
theorem readItems_of_walk {s : WalkState}
    (h : dfsWalk cfg (8 * r.buf.length + 2) (frames.more 5) valueStart
        ⟨{ r with pos := trieStart }, [], .empty⟩ =
      .ok ((), s)) :
    readItems frames cfg hv trieStart valueStart r =
      if hv then
        (decodeValues ((s.result.items.map Prod.fst).insertionSort (· ≤ ·)) s.result
          { s.reader with pos := valueStart }).map Prod.fst
      else .ok s.result := by
  rw [readItems, h]
  rfl

/-- The items that come back have the keys that the walk has assigned. -/
theorem keys_readItems {s : WalkState} {d : Dict}
    (h : dfsWalk cfg (8 * r.buf.length + 2) (frames.more 5) valueStart
        ⟨{ r with pos := trieStart }, [], .empty⟩ =
      .ok ((), s)) (hd : readItems frames cfg hv trieStart valueStart r = .ok d) :
    d.items.map Prod.fst = s.result.items.map Prod.fst := by
  rw [readItems_of_walk h] at hd
  split_ifs at hd
  · rcases hvals : decodeValues ((s.result.items.map Prod.fst).insertionSort (· ≤ ·)) s.result
        { s.reader with pos := valueStart } with e | ⟨d', r'⟩
    · simp [hvals, Except.map] at hd
    · rw [hvals] at hd
      obtain rfl := Except.ok.inj hd
      exact keys_decodeValues (fun key hkey => (List.perm_insertionSort _ _).mem_iff.mp hkey) hvals
  · obtain rfl := Except.ok.inj hd
    rfl

/-- A walk that raises raises for all. -/
theorem readItems_of_error {e : ReadErr}
    (h : dfsWalk cfg (8 * r.buf.length + 2) (frames.more 5) valueStart
        ⟨{ r with pos := trieStart }, [], .empty⟩ =
      .error e) : readItems frames cfg hv trieStart valueStart r = .error e := by
  rw [readItems, h]
  rfl

theorem pairwise_keys (hasc : StrictlyAscending (items.map entry)) :
    (items.map Prod.fst).Pairwise (· < ·) := by
  rw [StrictlyAscending, List.pairwise_map] at hasc
  exact List.pairwise_map.mpr hasc

theorem nodup_keys (hasc : StrictlyAscending (items.map entry)) : (items.map Prod.fst).Nodup := by
  have hnodup := hasc.nodup_keys
  rwa [List.map_map] at hnodup

theorem insertionSort_keys (hasc : StrictlyAscending (items.map entry)) :
    (items.map Prod.fst).insertionSort (· ≤ ·) = items.map Prod.fst := by
  exact ((pairwise_keys hasc).imp List.le_of_lt).insertionSort_eq

theorem keys_assign_empty {keys : List (List UInt8)} (h : keys.Nodup) :
    (Dict.empty.assign keys).items = keys.map fun key => (key, .none) := by
  have hitems := @items_assign .empty keys (by simpa [Dict.empty] using h)
  simpa [Dict.empty] using hitems

variable {buf : List UInt8} {t : Trie} {p : Nat}

theorem trieSize_lt_fuel (ht : IsTrieOf t items) (hr : r.buf = buf)
    (hat : At (bytesBits buf) p (trieBits (analyzeSymbols 0 (keys items)) (hasValues items) t 0)) :
    trieSize items < 8 * r.buf.length + 2 := by
  rcases Nat.eq_zero_or_pos (trieSize items) with hzero | hpos
  · omega
  · rw [ht.trieSize_eq] at hpos ⊢
    have hle := hat.le (List.ne_nil_of_length_pos hpos)
    rw [length_bytesBits] at hle
    rw [hr]
    omega

section File

variable (hm : cfg.Matches (analyzeSymbols 0 (keys items)) (usedBytes (keys items)))
  (ht : IsTrieOf t items) (hasc : StrictlyAscending (items.map entry)) (hr : r.buf = buf)
  (htext : ∀ e ∈ items, Python.IsText e.1 ∧ e.2.IsText)
  (hat : At (bytesBits buf) p (trieBits (analyzeSymbols 0 (keys items)) (hasValues items) t 0))

include hm ht hasc hr htext hat

omit hasc in
/-- A walk to the end of the trie. -/
theorem walk_leads (hsmall : trieSize items < varUintBound ∧ items.length ≤ varUintBound) :
    Leads (frames.more 5) (walkCost (hasValues items) t) True
      (dfsWalk cfg (8 * r.buf.length + 2) (frames.more 5) (p + trieSize items) ⟨{ r with pos := p }, [], .empty⟩)
      (.ok ((), ⟨⟨buf, p + trieSize items⟩, [] ++ t.label, Dict.empty.assign (items.map Prod.fst)⟩)) := by
  have hkeys : ∀ e ∈ items, Python.IsText e.1 := fun e he => (htext e he).1
  have hstands := @IsTrieOf.stands _ t ht buf p True hkeys hat fun _ => hsmall
  have hfuel := trieSize_lt_fuel ht hr hat
  rw [ht.trieSize_eq] at hfuel ⊢
  have hwalk := @dfsWalk_trie (frames.more 5) _ _ _ _ _ _ hm _ _ _ .empty _ _ hstands hfuel
  rw [ht.keysBelow_eq] at hwalk
  subst hr
  exact hwalk

omit hm hasc hr htext hat in
theorem room_iff : (frames.more 5).Room (walkCost (hasValues items) t) ↔ WalkFits frames (items.map entry) := by
  rw [hasValues_eq]
  exact room_walkCost_iff ht.compact ht.entries_eq frames

/-- It assigns all keys if the stack has room for it. -/
theorem walk_whole (hsmall : trieSize items < varUintBound ∧ items.length ≤ varUintBound)
    (hfits : WalkFits frames (items.map entry)) :
    ∃ s : WalkState, dfsWalk cfg (8 * r.buf.length + 2) (frames.more 5) (p + trieSize items)
        ⟨{ r with pos := p }, [], .empty⟩ = .ok ((), s) ∧
      s.reader.buf = buf ∧ s.result.items = items.map fun e => (e.1, .none) := by
  have hwalk := (walk_leads hm ht hr htext hat hsmall).eq trivial ((room_iff ht).mpr hfits)
  refine ⟨_, hwalk, rfl, ?_⟩
  rw [keys_assign_empty (nodup_keys hasc), List.map_map]
  rfl

omit hasc in
/-- And raises if it has not. -/
theorem readItems_overruns (hsmall : trieSize items < varUintBound ∧ items.length ≤ varUintBound)
    (hfits : ¬ WalkFits frames (items.map entry)) :
    readItems frames cfg hv p (p + trieSize items) r = .error .recursionError :=
  readItems_of_error ((walk_leads hm ht hr htext hat hsmall).eq_error trivial fun h => hfits ((room_iff ht).mp h))

/-- Behind a walk to the end of the trie come the values, if they can be read back. -/
theorem readItems_whole (hsmall : trieSize items < varUintBound ∧ items.length ≤ varUintBound)
    (hwalk : WalkFits frames (items.map entry))
    (hstore : At (bytesBits buf) (p + trieSize items)
      (if hasValues items then itemsBits (p + trieSize items) items else [])) :
    ((∀ e ∈ items, e.2.Fits) →
        ∃ d, readItems frames cfg (hasValues items) p (p + trieSize items) r = .ok d ∧ d.items = items) ∧
      ((∃ e ∈ items, ¬ e.2.Fits) →
        readItems frames cfg (hasValues items) p (p + trieSize items) r = .error .overflowError) := by
  obtain ⟨⟨⟨buf', pos⟩, q, res⟩, hwalk, rfl, hitems⟩ := walk_whole hm ht hasc hr htext hat hsmall hwalk
  have hkeys : (res.items.map Prod.fst).insertionSort (· ≤ ·) = items.map Prod.fst := by
    rw [← insertionSort_keys hasc, hitems, List.map_map]
    rfl
  have hvalues : ∀ e ∈ items, e.2.IsText := fun e he => (htext e he).2
  rw [readItems_of_walk hwalk]
  simp only [hkeys]
  by_cases hhas : hasValues items = true
  · rw [if_pos hhas] at hstore
    rw [if_pos hhas]
    refine ⟨fun hfits => ⟨res.setAll items, ?_, @items_setAll res [] items hitems⟩, fun hfits => ?_⟩
    · rw [decodeValues_reads _ hfits hvalues res ⟨buf', _⟩ rfl hstore]
      rfl
    · rw [decodeValues_overflows _ hfits hvalues res ⟨buf', _⟩ rfl hstore]
      rfl
  · have hnone : ∀ e ∈ items, e.2 = .none := by simpa [hasValues] using hhas
    rw [if_neg hhas]
    refine ⟨fun _ => ⟨res, rfl, ?_⟩, fun hfits => ?_⟩
    · rw [hitems]
      conv_rhs => rw [← List.map_id items]
      refine List.map_congr_left fun e he => ?_
      rw [← hnone e he]
      rfl
    · obtain ⟨e, he, hnot⟩ := hfits
      rw [hnone e he] at hnot
      exact absurd trivial hnot

/-- The last key is lost when the values begin far behind what the offset says. -/
theorem readItems_cut {d : Dict} {end_ : Nat}
    (hend : end_ + 8 + (Leb128.bits (items.length - 1)).length ≤ p + trieSize items)
    (hne : items ≠ []) (hd : readItems frames cfg hv p end_ r = .ok d) : d.items.length < items.length := by
  have hkeys : ∀ e ∈ items, Python.IsText e.1 := fun e he => (htext e he).1
  have hstands := @IsTrieOf.stands _ t ht buf p False hkeys hat False.elim
  have hfuel := trieSize_lt_fuel ht hr hat
  have hwidth := hm.codes.le_eight
  rw [ht.trieSize_eq] at hfuel hend
  obtain ⟨n, r', q', ks, hks, hrun⟩ :=
    @dfsWalk_cut (frames.more 5) _ _ _ _ _ _ hm _ end_ _ _ .empty t _ hstands hfuel
      (by rw [ht.size_eq, Nat.zero_add]; omega)
  rw [ht.keysBelow_eq] at hks
  rw [← hr] at hrun
  rcases hrun with ⟨hwalk, hover⟩ | ⟨-, hover⟩
  · by_cases hroom : (frames.more 5).Room n
    swap
    · rw [readItems_of_error (hover hroom)] at hd
      simp at hd
    have hnodup : ks.Nodup :=
      (nodup_keys hasc).sublist (hks.sublist.trans (List.dropLast_sublist _))
    have hkeys := congrArg List.length (keys_readItems (hwalk hroom) hd)
    have hle := hks.length_le
    have hpos := List.length_pos_iff.mpr hne
    rw [List.length_dropLast, List.length_map] at hle
    rw [keys_assign_empty hnodup, List.length_map, List.length_map, List.length_map] at hkeys
    omega
  · rw [readItems_of_error hover] at hd
    simp at hd

end File

end Items

/-! ## Round trips -/

/-- The bytes are the file of the items, with the trie `t`, and this is what becomes of them. -/
structure IsFileOf (buf : List UInt8) (items : List Item) (t : Trie) (cfg : Config) (r : BitReader) :
    Prop where
  isTrieOf : IsTrieOf t items
  codes : cfg.Matches (analyzeSymbols 0 (keys items)) (usedBytes (keys items))
  buf_eq : r.buf = buf
  trie_at : At (bytesBits buf) (256 + (configBits items).length)
    (trieBits (analyzeSymbols 0 (keys items)) (hasValues items) t 0)
  store_at : At (bytesBits buf) (256 + (configBits items).length + trieSize items)
    (if hasValues items then itemsBits (256 + (configBits items).length + trieSize items) items else [])
  decode_eq : ∀ frames, decode frames buf = if items.length % 2 ^ 32 = 0 then .ok .empty
    else readItems frames cfg (hasValues items) (256 + (configBits items).length % 2 ^ 32)
      (256 + ((configBits items).length + trieSize items) % 2 ^ 32) r

/-- Keys of UTF-8 leave room for the control codes. -/
theorem length_usedBytes_le_of_text {items : List Item} (h : ∀ e ∈ items, Python.IsText e.1) :
    (usedBytes (keys items)).length ≤ 249 := by
  have hcount : allBytes.countP (fun b => decide (JsonText.InUtf8 b)) ≤ 249 := by decide +kernel
  refine (length_usedBytes_le_countP fun key hkey b hb => decide_eq_true ?_).trans hcount
  rw [keys, List.map_map] at hkey
  obtain ⟨e, he, rfl⟩ := List.mem_map.mp hkey
  exact (h e he).isUtf8.inUtf8 b hb

theorem length_configBits_lt {items : List Item} (hcount : (usedBytes (keys items)).length ≤ 249) :
    (configBits items).length < 2 ^ 32 := by
  have hcodes := (codes_analyzeSymbols hcount).le_eight
  rw [bitsPerSymbol_analyzeSymbols] at hcodes
  have htable : ∀ used : List UInt8, (tableBits used).length ≤ 16 * used.length := by
    intro used
    induction used with
    | nil => simp [tableBits]
    | cons b used ih =>
      have hb := @Leb128.length_bits_le 2 b.toNat (by omega) (b.toNat_lt.trans (by decide))
      have hsplit : tableBits (b :: used) = Leb128.bits b.toNat ++ tableBits used := rfl
      rw [hsplit, List.length_append, List.length_cons]
      omega
  have hused := htable (usedBytes (keys items))
  rw [configBits_eq items hcount, Triepack.configBits]
  simp only [List.length_append, length_natBits, ctrlBits, TpCtrl.all, List.flatMap_cons, List.flatMap_nil,
    List.length_nil]
  omega

variable {data : Dict}

theorem sortItems_isText (htext : data.IsText) :
    ∀ e ∈ sortItems data.items, Python.IsText e.1 ∧ e.2.IsText := fun e he =>
  htext e ((List.perm_insertionSort _ _).mem_iff.mp he)

theorem alphabetSize_le_of_text (htext : data.IsText) : alphabetSize data.items ≤ 249 := by
  have hcount := length_usedBytes_le_of_text fun e he => (sortItems_isText htext e he).1
  rwa [← alphabetSize_sortItems, alphabetSize_eq]

/-- A dictionary of strings with an encoding is encoded, if the stack has room for it. -/
theorem exists_isFileOf (htext : data.IsText) (hne : sortItems data.items ≠ []) :
    ∃ buf t cfg r, IsFileOf buf (sortItems data.items) t cfg r ∧ ∀ frames, encodeText frames data =
      if WriteFits frames data.items then .ok buf else .error .recursionError := by
  obtain ⟨t, ht⟩ := exists_isTrieOf (strictlyAscending_sortItems data.nodup) hne
  have hcount := length_usedBytes_le_of_text fun e he => (sortItems_isText htext e he).1
  obtain ⟨body, hbody, hencode⟩ := encode_eq (alphabetSize_le_of_text htext)
    (room_writeCost_iff ht.compact ht.entries_eq) ht.writes
  obtain ⟨cfg, r, hm, hr, hdecode⟩ := decode_file hcount hbody
  obtain ⟨_, htrie, hstore⟩ := sections_at (h := headerOf (sortItems data.items) _) hbody
  rw [storeOf, ← ht.trieSize_eq] at hstore
  rw [← ht.trieSize_eq] at hdecode
  exact ⟨_, t, cfg, r, ⟨ht, hm, hr, htrie, hstore, hdecode⟩, fun frames => by
    rw [encodeText, if_pos htext, hencode]⟩

/-- The empty dictionary comes back. -/
theorem roundTrips_of_nil (htext : data.IsText) (hnil : data.items = []) (frames : Frames) :
    data.RoundTrips frames := by
  have hcount := length_usedBytes_le_of_text fun e he => (sortItems_isText htext e he).1
  have hsorted : sortItems data.items = [] := by rw [hnil]; rfl
  obtain ⟨body, hbody, hencode⟩ := @encode_eq data (alphabetSize_le_of_text htext) [] 0
    (fun frames => by simp [WriteFits, hsorted]) fun frames p => ⟨0, by
      rw [if_neg (by simpa using hsorted)]
      exact (Appends.pure p 0).needs⟩
  obtain ⟨_, _, _, _, hdecode⟩ := decode_file hcount hbody
  refine .inr ⟨_, .empty, by rw [encodeText, if_pos htext, hencode, if_pos (by simp [WriteFits, hnil])], ?_, ?_⟩
  · rw [hdecode, if_pos (by rw [hsorted]; rfl)]
  · rw [hnil]
    exact .rfl

theorem IsTrieOf.length_le_trieSize {items : List Item} {t : Trie} (h : IsTrieOf t items) :
    items.length ≤ trieSize items := by
  rw [← h.size_eq, h.trieSize_eq]
  exact size_le_length_trieBits (bitsPerSymbol_bounds (keys items)).1 t 0

section Sorted

variable {frames : Frames} {buf : List UInt8} {items : List Item} {t : Trie} {cfg : Config} {r : BitReader}
  (h : IsFileOf buf items t cfg r) (hasc : StrictlyAscending (items.map entry)) (hne : items ≠ [])
  (htext : ∀ e ∈ items, Python.IsText e.1 ∧ e.2.IsText)

include h hne

/-- Where the offsets hold, the sections are those that were written. -/
theorem decode_eq_of_small (hindex : (configBits items).length + trieSize items < 2 ^ 32) :
    (trieSize items < varUintBound ∧ items.length ≤ varUintBound) ∧
      decode frames buf = readItems frames cfg (hasValues items) (256 + (configBits items).length)
        (256 + (configBits items).length + trieSize items) r := by
  have hle := h.isTrieOf.length_le_trieSize
  have hpos := List.length_pos_iff.mpr hne
  refine ⟨by rw [varUintBound]; omega, ?_⟩
  rw [h.decode_eq, if_neg (by rw [Nat.mod_eq_of_lt (by omega)]; omega), Nat.mod_eq_of_lt (by omega),
    Nat.mod_eq_of_lt (by omega), ← Nat.add_assoc]

include hasc htext

/-- All depends on the numbers then, if the stack has room. -/
theorem decode_of_small (hindex : (configBits items).length + trieSize items < 2 ^ 32)
    (hwalk : WalkFits frames (items.map entry)) :
    ((∀ e ∈ items, e.2.Fits) → ∃ d, decode frames buf = .ok d ∧ d.items = items) ∧
      ((∃ e ∈ items, ¬ e.2.Fits) → decode frames buf = .error .overflowError) := by
  obtain ⟨hsmall, hdecode⟩ := decode_eq_of_small h hne hindex
  rw [hdecode]
  exact readItems_whole h.codes h.isTrieOf hasc h.buf_eq htext h.trie_at hsmall hwalk h.store_at

/-- Where the values begin behind the reach of their offset, keys are lost. -/
theorem length_decode_lt (hindex : 2 ^ 32 ≤ (configBits items).length + trieSize items) {d : Dict}
    (hd : decode frames buf = .ok d) : d.items.length < items.length := by
  have hle := h.isTrieOf.length_le_trieSize
  have hpos := List.length_pos_iff.mpr hne
  have hconfig := length_configBits_lt (length_usedBytes_le_of_text fun e he => (htext e he).1)
  rw [h.decode_eq] at hd
  split_ifs at hd
  · obtain rfl := Except.ok.inj hd
    exact hpos
  rw [Nat.mod_eq_of_lt hconfig] at hd
  refine readItems_cut h.codes h.isTrieOf hasc h.buf_eq htext h.trie_at ?_ hne hd
  -- the value index of the last key takes few groups
  set total := (configBits items).length + trieSize items with htotal
  have hpow : total / 2 ^ 32 < 128 ^ (total / 2 ^ 32) := Nat.lt_pow_self (by omega)
  have hgroups : items.length - 1 < 128 ^ (total / 2 ^ 32 + 5) := by
    rw [pow_add]
    have hdiv := Nat.div_add_mod total (2 ^ 32)
    have hmod := Nat.mod_lt total (show 0 < 2 ^ 32 by omega)
    omega
  have hindices := Leb128.length_bits_le (by omega) hgroups
  have hdiv := Nat.div_add_mod total (2 ^ 32)
  have hquot : 1 ≤ total / 2 ^ 32 := (Nat.one_le_div_iff (by omega)).mpr hindex
  omega

omit hasc in
/-- A stack without room for the walk loses the file. -/
theorem decode_overruns (hindex : (configBits items).length + trieSize items < 2 ^ 32)
    (hwalk : ¬ WalkFits frames (items.map entry)) : decode frames buf = .error .recursionError := by
  obtain ⟨hsmall, hdecode⟩ := decode_eq_of_small h hne hindex
  rw [hdecode]
  exact readItems_overruns h.codes h.isTrieOf h.buf_eq htext h.trie_at hsmall hwalk

end Sorted

/-- A file that is decoded to the dictionary is the only way to come back. -/
theorem exists_decode_of_roundTrips {frames : Frames} {buf : List UInt8}
    (hencode : encodeText frames data = .ok buf) (h : data.RoundTrips frames) :
    ∃ d, decode frames buf = .ok d ∧ d.items.Perm data.items := by
  rcases h with ⟨e, herror⟩ | ⟨buf', d, hok, hdecode, hperm⟩
  · rw [hencode] at herror
    simp at herror
  · obtain rfl : buf = buf' := Except.ok.inj (hencode.symm.trans hok)
    exact ⟨d, hdecode, hperm⟩

theorem fits_of_roundTrips {frames : Frames} (htext : data.IsText) (hwrite : WriteFits frames data.items)
    (hne : data.items ≠ []) (h : data.RoundTrips frames) :
    (∀ e ∈ data.items, e.2.Fits) ∧ data.indexBits < 2 ^ 32 ∧ WalkFits frames (data.items.map entry) := by
  have hperm := sortItems_perm data.items
  have hsne : sortItems data.items ≠ [] := fun hnil => hne (List.nil_perm.mp (hnil ▸ hperm))
  have hasc := strictlyAscending_sortItems data.nodup
  have hstext := sortItems_isText htext
  obtain ⟨buf, t, cfg, r, hfile, hencode⟩ := exists_isFileOf htext hsne
  obtain ⟨d, hdecode, hback⟩ := exists_decode_of_roundTrips (by rw [hencode, if_pos hwrite]) h
  have hindex : data.indexBits < 2 ^ 32 := by
    by_contra hindex
    have hless := length_decode_lt hfile hasc hsne hstext (Nat.le_of_not_lt hindex) hdecode
    rw [hback.length_eq, hperm.length_eq] at hless
    omega
  have hwalk : WalkFits frames ((sortItems data.items).map entry) := by
    by_contra hwalk
    have herror := decode_overruns hfile hsne hstext hindex hwalk
    rw [hdecode] at herror
    simp at herror
  refine ⟨?_, hindex, (walkFits_perm (hperm.map entry) frames).mp hwalk⟩
  by_contra hfits
  push Not at hfits
  obtain ⟨e, he, hnot⟩ := hfits
  have herror := (decode_of_small hfile hasc hsne hstext hindex hwalk).2 ⟨e, hperm.mem_iff.mpr he, hnot⟩
  rw [hdecode] at herror
  simp at herror

theorem roundTrips_of_fits {frames : Frames} (htext : data.IsText) (hwrite : WriteFits frames data.items)
    (hne : data.items ≠ []) (hfits : ∀ e ∈ data.items, e.2.Fits) (hindex : data.indexBits < 2 ^ 32)
    (hwalk : WalkFits frames (data.items.map entry)) : data.RoundTrips frames := by
  have hperm := sortItems_perm data.items
  have hsne : sortItems data.items ≠ [] := fun hnil => hne (List.nil_perm.mp (hnil ▸ hperm))
  obtain ⟨buf, t, cfg, r, hfile, hencode⟩ := exists_isFileOf htext hsne
  obtain ⟨d, hdecode, hitems⟩ := (decode_of_small hfile (strictlyAscending_sortItems data.nodup) hsne
    (sortItems_isText htext) hindex ((walkFits_perm (hperm.map entry) frames).mpr hwalk)).1
      fun e he => hfits e (hperm.mem_iff.mp he)
  exact .inr ⟨buf, d, by rw [hencode, if_pos hwrite], hdecode, hitems ▸ hperm⟩

theorem indexBits_of_nil (htext : data.IsText) (hnil : data.items = []) : data.indexBits < 2 ^ 32 := by
  have hcount := length_usedBytes_le_of_text fun e he => (sortItems_isText htext e he).1
  have hconfig := length_configBits_lt hcount
  have hsorted : sortItems data.items = [] := by rw [hnil]; rfl
  have hzero : trieSize [] = 0 := rfl
  rw [hsorted] at hconfig
  rwa [Dict.indexBits, hsorted, hzero, Nat.add_zero]

/-- A stack without room for the trie keeps the encoder from returning. -/
theorem encodeText_overruns {frames : Frames} (htext : data.IsText) (hwrite : ¬ WriteFits frames data.items) :
    encodeText frames data = .error .recursionError := by
  have hne : sortItems data.items ≠ [] := by
    intro hnil
    have hitems := List.nil_perm.mp (hnil ▸ sortItems_perm data.items)
    exact hwrite (by simp [WriteFits, hitems])
  obtain ⟨_, _, _, _, _, hencode⟩ := exists_isFileOf htext hne
  rw [hencode, if_neg hwrite]

/-- Exactly the dictionaries with a long number, with too long an index, or with keys that are nested too
deep for the decoder and not for the encoder, are encoded and do not come back. -/
theorem roundTrips_iff (frames : Frames) (data : Dict) : data.RoundTrips frames ↔
    (data.IsText → WriteFits frames data.items →
      (∀ e ∈ data.items, e.2.Fits) ∧ data.indexBits < 2 ^ 32 ∧ WalkFits frames (data.items.map entry)) := by
  constructor
  · intro h htext hwrite
    by_cases hnil : data.items = []
    · refine ⟨by simp [hnil], indexBits_of_nil htext hnil, by simp [WalkFits, hnil]⟩
    · exact fits_of_roundTrips htext hwrite hnil h
  · intro h
    by_cases htext : data.IsText
    · by_cases hwrite : WriteFits frames data.items
      · by_cases hnil : data.items = []
        · exact roundTrips_of_nil htext hnil frames
        · obtain ⟨hfits, hindex, hwalk⟩ := h htext hwrite
          exact roundTrips_of_fits htext hwrite hnil hfits hindex hwalk
      · exact .inl ⟨_, encodeText_overruns htext hwrite⟩
    · exact .inl ⟨.valueError, if_neg htext⟩

/-- A key with a number that takes eleven groups. -/
def longNumber : Dict := ⟨[([0x61], .int (2 ^ 70))], by decide⟩

theorem not_roundTrips_longNumber : ¬ longNumber.RoundTrips (.atMost 992) := by
  intro h
  have htext : longNumber.IsText := by decide
  have hfits := (fits_of_roundTrips htext (by decide) (by decide) h).1 ([0x61], .int (2 ^ 70)) (by decide)
  exact absurd hfits (by decide)

end Triepack.Python
