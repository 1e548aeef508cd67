import Triepack.Json.Emit
import Triepack.Json.Decimal

/-!
# The order of elements

The elements of an array are written in the order in which their segments come first among the
keys. This is the order of their indices as long as the bytes of the keys agree with it: the
indices of ten elements do, those of eleven do not.
-/

namespace Triepack

open JsonText

/-! ## Indices -/

/-- The number in the brackets of a segment. -/
def segIndex : List UInt8 → Option Nat
  | [] => none
  | c :: rest =>
    if c = openBracket ∧ rest.getLast? = some closeBracket ∧ IsDigits rest.dropLast
      then some (NumLit.natOf rest.dropLast) else none

/-- Segments in strictly increasing order of their indices. -/
def AscendingIndices (segs : List (List UInt8)) : Prop :=
  segs.Pairwise fun s t => ∀ i j, segIndex s = some i → segIndex t = some j → i < j

namespace Emitted

mutual

/-- The elements of every array are written in the order of their indices. -/
def InIndexOrder : Emitted → Prop
  | .value _ | .null => True
  | .container isArray cs => (isArray = true → AscendingIndices (cs.map Prod.fst)) ∧ ChildrenInIndexOrder cs

def ChildrenInIndexOrder : List (List UInt8 × Emitted) → Prop
  | [] => True
  | (_, t) :: cs => InIndexOrder t ∧ ChildrenInIndexOrder cs

end

theorem childrenInIndexOrder_iff {cs : List (List UInt8 × Emitted)} :
    ChildrenInIndexOrder cs ↔ ∀ c ∈ cs, c.2.InIndexOrder := by
  induction cs with
  | nil => simp [ChildrenInIndexOrder]
  | cons c cs ih => rw [ChildrenInIndexOrder, ih, List.forall_mem_cons]

end Emitted

/-- A level and one below it. -/
def LevelBelow (es : List FlatEntry) (pre new : List UInt8) : Prop :=
  ∃ key ∈ keysBehind es pre, segmentOf pre.length key ≠ [] ∧
    new = childPrefix (isArrayLevel es pre) pre (segmentOf pre.length key)

/-- The levels below a level are the prefixes of its children. -/
theorem levelBelow_iff {es : List FlatEntry} {pre new : List UInt8} {cs : List (List UInt8 × Emitted)}
    (hsegs : cs.map Prod.fst = uniqueSegments pre.length (keysBehind es pre)) :
    LevelBelow es pre new ↔ ∃ c ∈ cs, new = childPrefix (isArrayLevel es pre) pre c.1 := by
  have hmem : ∀ seg, (∃ c ∈ cs, c.1 = seg) ↔ seg ≠ [] ∧ ∃ key ∈ keysBehind es pre,
      segmentOf pre.length key = seg := fun seg => by
    rw [← mem_uniqueSegments, ← hsegs, List.mem_map]
  constructor
  · rintro ⟨key, hkey, hne, rfl⟩
    obtain ⟨c, hc, hseg⟩ := (hmem _).mpr ⟨hne, key, hkey, rfl⟩
    exact ⟨c, hc, by rw [hseg]⟩
  · rintro ⟨c, hc, rfl⟩
    obtain ⟨hne, key, hkey, hseg⟩ := (hmem _).mp ⟨c, hc, rfl⟩
    exact ⟨key, hkey, hseg ▸ hne, by rw [hseg]⟩

/-- An index that is not above another one has a key that is below the keys of the other. -/
def KeysInIndexOrder (es : List FlatEntry) (pre : List UInt8) : Prop :=
  ∀ key ∈ keysBehind es pre, ∀ key' ∈ keysBehind es pre,
    segmentOf pre.length key ≠ segmentOf pre.length key' →
    ∀ i j, segIndex (segmentOf pre.length key) = some i →
      segIndex (segmentOf pre.length key') = some j → j ≤ i →
      ∃ k ∈ keysBehind es pre, segmentOf pre.length k = segmentOf pre.length key' ∧ k < key

theorem flatEntryCmp_nonpos_iff (a b : FlatEntry) : flatEntryCmp a b ≤ 0 ↔ a.key ≤ b.key := by
  obtain ⟨hlt, heq⟩ := entryCmp_spec ⟨a.key, .null⟩ ⟨b.key, .null⟩
  have hsame : flatEntryCmp a b = entryCmp ⟨a.key, .null⟩ ⟨b.key, .null⟩ := rfl
  rw [hsame, List.le_iff_lt_or_eq, ← hlt, ← heq]
  omega

theorem pairwise_keysBehind {es : List FlatEntry} (h : es.Pairwise fun a b => flatEntryCmp a b ≤ 0)
    (pre : List UInt8) : (keysBehind es pre).Pairwise (· ≤ ·) := by
  unfold keysBehind
  refine List.Pairwise.filter _ (List.pairwise_map.mpr (h.imp ?_))
  intro a b hab
  exact (flatEntryCmp_nonpos_iff a b).mp hab

theorem pairwise_or {α : Type} {R : α → α → Prop} {xs : List α} (h : xs.Pairwise R) {a b : α}
    (ha : a ∈ xs) (hb : b ∈ xs) (hne : a ≠ b) : R a b ∨ R b a := by
  have hsymm : Std.Symm fun x y => R x y ∨ R y x := ⟨fun _ _ => Or.symm⟩
  exact (h.imp (S := fun x y => R x y ∨ R y x) fun hxy => .inl hxy).forall ha hb hne

/-- The segments of a level ascend when its keys do. -/
theorem ascendingIndices_iff {es : List FlatEntry} (h : es.Pairwise fun a b => flatEntryCmp a b ≤ 0)
    (pre : List UInt8) :
    AscendingIndices (uniqueSegments pre.length (keysBehind es pre)) ↔ KeysInIndexOrder es pre := by
  have hfirst := pairwise_uniqueSegments (n := pre.length) (pairwise_keysBehind h pre)
  constructor
  · intro hasc key hkey key' hkey' hne i j hi hj hle
    have hmem : ∀ k ∈ keysBehind es pre, ∀ i, segIndex (segmentOf pre.length k) = some i →
        segmentOf pre.length k ∈ uniqueSegments pre.length (keysBehind es pre) := by
      intro k hk i hi
      refine mem_uniqueSegments.mpr ⟨fun hnil => ?_, k, hk, rfl⟩
      simp [hnil, segIndex] at hi
    obtain ⟨hlt, -⟩ | ⟨-, k, hk, hseg, hmin⟩ :=
      pairwise_or (hasc.and hfirst) (hmem key hkey i hi) (hmem key' hkey' j hj) hne
    · exact absurd (hlt i j hi hj) (Nat.not_lt.mpr hle)
    · obtain hlt | rfl := List.le_iff_lt_or_eq.mp (hmin key hkey rfl)
      · exact ⟨k, hk, hseg, hlt⟩
      · exact absurd hseg hne
  · intro hkeys
    refine (nodup_uniqueSegments.and hfirst).imp_of_mem ?_
    rintro s t - ht ⟨hne, key, hkey, rfl, hmin⟩ i j hi hj
    obtain ⟨-, key', hkey', rfl⟩ := mem_uniqueSegments.mp ht
    by_contra hle
    obtain ⟨k, hk, hseg, hlt⟩ := hkeys key hkey key' hkey' hne i j hi hj (Nat.not_lt.mp hle)
    exact List.not_lt.mpr (hmin k hk hseg) hlt

/-- Every array of a tree is in order when all its levels are. -/
theorem Emits.inIndexOrder_iff {es : List FlatEntry} (hsorted : es.Pairwise fun a b => flatEntryCmp a b ≤ 0)
    {pre : List UInt8} {t : Emitted} (h : Emits es pre t) :
    t.InIndexOrder ↔ ∀ level, Relation.ReflTransGen (LevelBelow es) pre level →
      isArrayLevel es level = true → KeysInIndexOrder es level := by
  have hleaf : ∀ {pre : List UInt8}, keysBehind es pre = [] → ∀ level,
      Relation.ReflTransGen (LevelBelow es) pre level →
      isArrayLevel es level = true → KeysInIndexOrder es level := by
    intro pre hkeys level hlevel _
    obtain rfl | ⟨new, ⟨key, hkey, -⟩, -⟩ := Relation.ReflTransGen.cases_head hlevel
    · intro key hkey
      simp [hkeys] at hkey
    · simp [hkeys] at hkey
  induction h with
  | value hkeys => exact iff_of_true trivial (hleaf hkeys)
  | null hkeys => exact iff_of_true trivial (hleaf hkeys)
  | @container pre cs hkeys hsegs hroom hchild ih =>
    have hnext : ∀ {new}, LevelBelow es pre new ↔ ∃ c ∈ cs, new = childPrefix (isArrayLevel es pre) pre c.1 :=
      levelBelow_iff hsegs
    rw [Emitted.InIndexOrder, Emitted.childrenInIndexOrder_iff, hsegs, ascendingIndices_iff hsorted]
    constructor
    · rintro ⟨hhere, hbelow⟩ level hlevel harray
      obtain rfl | ⟨new, hnew, hlevel⟩ := Relation.ReflTransGen.cases_head hlevel
      · exact hhere harray
      · obtain ⟨c, hc, rfl⟩ := hnext.mp hnew
        exact (ih c hc).mp (hbelow c hc) level hlevel harray
    · intro hall
      refine ⟨hall pre .refl, fun c hc => (ih c hc).mpr fun level hlevel => ?_⟩
      exact hall level (.head (hnext.mpr ⟨c, hc, rfl⟩) hlevel)

/-! ## The indices of the encoder -/

theorem segIndex_indexText (i : Nat) : segIndex (indexText i) = some i := by
  have hrest : decimal i ++ [closeBracket] ≠ [] := by simp
  rw [indexText, List.cons_append, segIndex, if_pos ⟨rfl, by simp, by simpa using isDigits_decimal i⟩]
  simp [natOf_decimal]

theorem indexText_injective : Function.Injective indexText := fun i j h =>
  Option.some.inj ((segIndex_indexText i).symm.trans (h ▸ segIndex_indexText j))

theorem closeBracket_not_mem_decimal (i : Nat) : ∀ b ∈ decimal i, (b != closeBracket) = true := by
  have hdigit : ∀ b : UInt8, isDigit b = true → (b != closeBracket) = true := forall_byte (by decide +kernel)
  exact fun b hb => hdigit b ((isDigits_decimal i).2 b hb)

theorem nextSegment_indexText (i : Nat) (rest : List UInt8) :
    nextSegment (indexText i ++ rest) = indexText i := by
  have hbody := closeBracket_not_mem_decimal i
  simp only [indexText, List.cons_append, List.append_assoc, List.nil_append, nextSegment,
    List.takeWhile_append_of_pos hbody, List.dropWhile_append_of_pos hbody]
  simp

/-- The keys of a level are those of an array of `n` elements. -/
structure HoldsElements (es : List FlatEntry) (pre : List UInt8) (n : Nat) : Prop where
  direct : ∀ key ∈ keysBehind es pre, ∃ i, pre ++ indexText i <+: key
  indices : ∀ i, (∃ key ∈ keysBehind es pre, pre ++ indexText i <+: key) ↔ i < n

section Elements

variable {es : List FlatEntry} {pre key : List UInt8} {n : Nat}

theorem segStart_of_index {i : Nat} (h : pre ++ indexText i <+: key) : segStart pre.length key = pre.length := by
  obtain ⟨rest, rfl⟩ := h
  have hget : (pre ++ indexText i ++ rest)[pre.length]? = some openBracket := by simp [indexText]
  rw [segStart, hget, if_neg (by decide)]

theorem segmentOf_of_index {i : Nat} (h : pre ++ indexText i <+: key) :
    segmentOf pre.length key = indexText i := by
  rw [segmentOf, segStart_of_index h]
  obtain ⟨rest, rfl⟩ := h
  rw [List.append_assoc, List.drop_left, nextSegment_indexText]

theorem atIndex_of_index {i : Nat} (h : pre ++ indexText i <+: key) : atIndex pre.length key = true := by
  rw [atIndex, segStart_of_index h]
  obtain ⟨rest, rfl⟩ := h
  simp [indexText]

theorem HoldsElements.isArrayLevel_eq (h : HoldsElements es pre n) : isArrayLevel es pre = true :=
  List.all_eq_true.mpr fun key hkey => atIndex_of_index (h.direct key hkey).choose_spec

theorem HoldsElements.mem_uniqueSegments_iff (h : HoldsElements es pre n) {seg : List UInt8} :
    seg ∈ uniqueSegments pre.length (keysBehind es pre) ↔ ∃ i < n, seg = indexText i := by
  rw [mem_uniqueSegments]
  constructor
  · rintro ⟨-, key, hkey, rfl⟩
    obtain ⟨i, hi⟩ := h.direct key hkey
    exact ⟨i, (h.indices i).mp ⟨key, hkey, hi⟩, segmentOf_of_index hi⟩
  · rintro ⟨i, hi, rfl⟩
    obtain ⟨key, hkey, hindex⟩ := (h.indices i).mpr hi
    exact ⟨by simp [indexText], key, hkey, segmentOf_of_index hindex⟩

theorem append_le_append_iff (pre as bs : List UInt8) : pre ++ as ≤ pre ++ bs ↔ as ≤ bs := by
  induction pre with
  | nil => rfl
  | cons b pre ih => rw [List.cons_append, List.cons_append, List.cons_le_cons_iff, ih]; simp

/-- Digits are in the order of their numbers. -/
theorem le_of_indexText_le {i j : Nat} {rest rest' : List UInt8} (hi : i < 10) (hj : j < 10)
    (h : indexText i ++ rest ≤ indexText j ++ rest') : i ≤ j := by
  have hdigit : ∀ i < 10, indexText i = [openBracket, UInt8.ofNat (0x30 + i), closeBracket] := by decide
  have hbytes : ∀ i < 10, ∀ j < 10, UInt8.ofNat (0x30 + i) < UInt8.ofNat (0x30 + j) ∨
      UInt8.ofNat (0x30 + i) = UInt8.ofNat (0x30 + j) → i ≤ j := by decide
  rw [hdigit i hi, hdigit j hj] at h
  simp only [List.cons_append, List.cons_le_cons_iff, UInt8.lt_irrefl, false_or, true_and] at h
  exact hbytes i hi j hj (h.imp_right And.left)

theorem not_indexText_two_le (rest rest' : List UInt8) : ¬ indexText 2 ++ rest ≤ indexText 10 ++ rest' := by
  have htwo : indexText 2 = [openBracket, 0x32, closeBracket] := by decide
  have hten : indexText 10 = [openBracket, 0x31, 0x30, closeBracket] := by decide
  rw [htwo, hten]
  simp [List.cons_le_cons_iff]

theorem HoldsElements.pairwise_le (h : HoldsElements es pre n)
    (hsorted : es.Pairwise fun a b => flatEntryCmp a b ≤ 0) :
    (uniqueSegments pre.length (keysBehind es pre)).Pairwise fun s t =>
      ∃ rest rest', s ++ rest ≤ t ++ rest' := by
  refine (pairwise_uniqueSegments (pairwise_keysBehind hsorted pre)).imp_of_mem ?_
  rintro s t - ht ⟨key, hkey, rfl, hmin⟩
  obtain ⟨-, key', hkey', rfl⟩ := mem_uniqueSegments.mp ht
  obtain ⟨i, hi⟩ := h.direct key hkey
  obtain ⟨j, hj⟩ := h.direct key' hkey'
  have hle := hmin key' hkey' rfl
  rw [segmentOf_of_index hi, segmentOf_of_index hj]
  obtain ⟨rest, rfl⟩ := hi
  obtain ⟨rest', rfl⟩ := hj
  rw [List.append_assoc, List.append_assoc, append_le_append_iff] at hle
  exact ⟨rest, rest', hle⟩

/-- Up to ten elements are in the order of their indices. -/
theorem HoldsElements.uniqueSegments_eq (h : HoldsElements es pre n)
    (hsorted : es.Pairwise fun a b => flatEntryCmp a b ≤ 0) (hn : n ≤ 10) :
    uniqueSegments pre.length (keysBehind es pre) = (List.range n).map indexText := by
  have hperm : (uniqueSegments pre.length (keysBehind es pre)).Perm ((List.range n).map indexText) := by
    refine (List.perm_ext_iff_of_nodup nodup_uniqueSegments
      (List.nodup_range.map indexText_injective)).mpr fun seg => ?_
    simp [h.mem_uniqueSegments_iff, eq_comm]
  have hrange : ((List.range n).map indexText).Pairwise fun s t =>
      ∃ i j, i ≤ j ∧ s = indexText i ∧ t = indexText j :=
    List.pairwise_map.mpr (List.pairwise_lt_range.imp fun {i j} hij => ⟨i, j, hij.le, rfl, rfl⟩)
  have horder : (uniqueSegments pre.length (keysBehind es pre)).Pairwise fun s t =>
      ∃ i j, i ≤ j ∧ s = indexText i ∧ t = indexText j := by
    refine (h.pairwise_le hsorted).imp_of_mem ?_
    rintro s t hs ht ⟨rest, rest', hle⟩
    obtain ⟨i, hi, rfl⟩ := h.mem_uniqueSegments_iff.mp hs
    obtain ⟨j, hj, rfl⟩ := h.mem_uniqueSegments_iff.mp ht
    exact ⟨i, j, le_of_indexText_le (by omega) (by omega) hle, rfl, rfl⟩
  refine hperm.eq_of_pairwise ?_ horder hrange
  rintro s t - - ⟨i, j, hij, rfl, rfl⟩ ⟨i', j', hij', heq, heq'⟩
  obtain rfl := indexText_injective heq
  obtain rfl := indexText_injective heq'
  rw [Nat.le_antisymm hij hij']

/-- Elements as they are stored by the encoder are in order when there are at most ten of them. -/
theorem HoldsElements.keysInIndexOrder_iff (h : HoldsElements es pre n)
    (hsorted : es.Pairwise fun a b => flatEntryCmp a b ≤ 0) : KeysInIndexOrder es pre ↔ n ≤ 10 := by
  rw [← ascendingIndices_iff hsorted]
  constructor
  · intro hasc
    by_contra hn
    have htwo := h.mem_uniqueSegments_iff.mpr ⟨2, by omega, rfl⟩
    have hten := h.mem_uniqueSegments_iff.mpr ⟨10, by omega, rfl⟩
    obtain ⟨-, rest, rest', hle⟩ | ⟨hlt, -⟩ :=
      pairwise_or (hasc.and (h.pairwise_le hsorted)) htwo hten (by decide)
    · exact not_indexText_two_le rest rest' hle
    · exact absurd (hlt 10 2 (segIndex_indexText 10) (segIndex_indexText 2)) (by decide)
  · intro hn
    rw [h.uniqueSegments_eq hsorted hn]
    refine List.pairwise_map.mpr (List.pairwise_lt_range.imp fun {i j} hij i' j' hi hj => ?_)
    rw [segIndex_indexText] at hi hj
    obtain rfl := Option.some.inj hi
    obtain rfl := Option.some.inj hj
    exact hij

end Elements

/-! ## The order of emission -/

section Order

variable {pf : PrintFloat} {buf : List UInt8} {indent : Option (List UInt8)} {es : List FlatEntry}
  {text : List UInt8}

/-- Arrays are emitted in index order when the keys of every level of an array are. -/
theorem emitJson_inIndexOrder_iff (hsorted : es.Pairwise fun a b => flatEntryCmp a b ≤ 0)
    (hemit : emitJson pf buf indent es (pathSize + 1) [] 0 = .ok text) :
    ∃ t, Emits es [] t ∧ text = t.text pf buf indent 0 ∧
      (t.InIndexOrder ↔ ∀ level, Relation.ReflTransGen (LevelBelow es) [] level →
        isArrayLevel es level = true → KeysInIndexOrder es level) := by
  obtain ⟨t, ht, rfl⟩ := emitJson_eq_ok_iff.mp hemit
  exact ⟨t, ht, rfl, ht.inIndexOrder_iff hsorted⟩

end Order

/-- The entries of an array of eleven numbers, in the order of their keys. -/
def elevenEntries : List FlatEntry :=
  [0, 10, 1, 2, 3, 4, 5, 6, 7, 8, 9].map fun i => ⟨indexText i, .uint (UInt64.ofNat i)⟩

/-- `[0,10,1,2,3,4,5,6,7,8,9]`. -/
def elevenText : List UInt8 :=
  [0x5B, 0x30, 0x2C, 0x31, 0x30, 0x2C, 0x31, 0x2C, 0x32, 0x2C, 0x33, 0x2C, 0x34, 0x2C, 0x35, 0x2C, 0x36,
    0x2C, 0x37, 0x2C, 0x38, 0x2C, 0x39, 0x5D]

theorem sorted_elevenEntries : elevenEntries.Pairwise fun a b => flatEntryCmp a b ≤ 0 := by decide +kernel

theorem emitJson_elevenEntries :
    emitJson ⟨fun _ => [], fun _ => []⟩ [] none elevenEntries (pathSize + 1) [] 0 = .ok elevenText := by
  decide +kernel

theorem emitJson_inIndexOrder_iff_eleven :
    ∃ t, Emits elevenEntries [] t ∧ elevenText = t.text ⟨fun _ => [], fun _ => []⟩ [] none 0 ∧
      (t.InIndexOrder ↔ ∀ level, Relation.ReflTransGen (LevelBelow elevenEntries) [] level →
        isArrayLevel elevenEntries level = true → KeysInIndexOrder elevenEntries level) :=
  emitJson_inIndexOrder_iff sorted_elevenEntries emitJson_elevenEntries

theorem emits_elevenEntries :
    Emits elevenEntries [] (.container true (elevenEntries.map fun e => (e.key, .value e))) := by
  have hchild : ∀ e ∈ elevenEntries, keysBehind elevenEntries e.key = [] ∧
      findLeaf elevenEntries e.key = some e := by decide +kernel
  have harray : isArrayLevel elevenEntries [] = true := by decide +kernel
  rw [← harray]
  refine .container (by decide +kernel) ?_ (fun c hc => ?_) fun c hc => ?_
  · rw [List.map_map]
    decide +kernel
  · obtain ⟨e, he, rfl⟩ := List.mem_map.mp hc
    have hroom : ∀ e ∈ elevenEntries,
        (childPrefix (isArrayLevel elevenEntries []) [] e.key).length < pathSize := by decide +kernel
    exact hroom e he
  · obtain ⟨e, he, rfl⟩ := List.mem_map.mp hc
    obtain ⟨hkeys, hleaf⟩ := hchild e he
    rw [childPrefix, if_pos (.inr rfl)]
    exact .value hkeys hleaf

/-- The eleventh element is emitted in second place. -/
theorem eleven_elements_out_of_order :
    (elevenEntries.Pairwise fun a b => flatEntryCmp a b ≤ 0) ∧
      emitJson ⟨fun _ => [], fun _ => []⟩ [] none elevenEntries (pathSize + 1) [] 0 = .ok elevenText ∧
      ∃ t, Emits elevenEntries [] t ∧ elevenText = t.text ⟨fun _ => [], fun _ => []⟩ [] none 0 ∧
        ¬ t.InIndexOrder := by
  obtain ⟨t, ht, htext⟩ := emitJson_eq_ok_iff.mp emitJson_elevenEntries
  refine ⟨sorted_elevenEntries, emitJson_elevenEntries, t, ht, htext, ?_⟩
  rw [ht.unique emits_elevenEntries, Emitted.InIndexOrder]
  rintro ⟨hasc, -⟩
  have hlt := List.pairwise_iff_getElem.mp (hasc rfl) 1 2 (by decide) (by decide) (by decide) 10 1
    (segIndex_indexText 10) (segIndex_indexText 1)
  exact absurd hlt (by decide)

end Triepack
