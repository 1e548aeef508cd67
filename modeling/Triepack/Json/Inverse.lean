import Triepack.Json.Leaves

/-!
# Emission against flattening

`emit_json` compares prefixes byte by byte, so it also groups keys that begin with a prefix without
having a segment boundary behind it. What it writes holds every entry once, at its own path, when
such keys bring no segment of their own to a level and the other keys are joined as it joins them.
-/

namespace Triepack

open JsonText Json

/-! ## Levels -/

/-- An array: the keys that go on are those of the level, and they hold up to ten elements. -/
structure ArrayLevel (es : List FlatEntry) (pre : List UInt8) (ks : List FlatEntry) (n : Nat) : Prop where
  elements : HoldsElements es pre n
  pos : 0 < n
  le : n ≤ 10
  own : ∀ e ∈ es, GoesOn pre e.key → e ∈ ks
  all : ∀ e ∈ ks, GoesOn pre e.key

/-- An object: its keys go on with names behind points, and all others that go on have the segment
of one of them. -/
structure ObjectLevel (es : List FlatEntry) (pre : List UInt8) (ks : List FlatEntry) : Prop where
  named : isArrayLevel es pre = false
  joined : ∀ e ∈ ks, segmentOf pre.length e.key ≠ [] ∧
    pushSeg pre (.key (segmentOf pre.length e.key)) <+: e.key
  known : ∀ e ∈ es, GoesOn pre e.key →
    ∃ e' ∈ ks, segmentOf pre.length e'.key = segmentOf pre.length e.key

/-- The entries of a level with a segment. -/
def groupAt (pre : List UInt8) (ks : List FlatEntry) (seg : List UInt8) : List FlatEntry :=
  ks.filter fun e => decide (segmentOf pre.length e.key = seg)

/-- Entries that make up a level: an entry behind which no key goes on, or a container whose
segments part them into such levels. -/
inductive Emittable (es : List FlatEntry) : List UInt8 → List FlatEntry → Prop
  | value {e : FlatEntry} (hkeys : keysBehind es e.key = []) : Emittable es e.key [e]
  | container {pre : List UInt8} {ks : List FlatEntry}
      (hlevel : (∃ n, ArrayLevel es pre ks n) ∨ ObjectLevel es pre ks)
      (hchild : ∀ e ∈ ks, Emittable es
        (childPrefix (isArrayLevel es pre) pre (segmentOf pre.length e.key))
        (groupAt pre ks (segmentOf pre.length e.key))) : Emittable es pre ks

theorem childPrefix_false (pre seg : List UInt8) : childPrefix false pre seg = pushSeg pre (.key seg) := by
  unfold childPrefix pushSeg
  cases pre <;> simp

theorem childPrefix_true (pre seg : List UInt8) : childPrefix true pre seg = pre ++ seg := by
  rw [childPrefix, if_pos (.inl rfl)]

/-- The segment of a key that is joined by a name. -/
theorem segmentOf_pushSeg {pre seg rest : List UInt8} (hne : seg ≠ []) (hhead : seg.head? ≠ some point) :
    segmentOf pre.length (pushSeg pre (.key seg) ++ rest) = nextSegment (seg ++ rest) := by
  by_cases hpre : pre = []
  · subst hpre
    obtain ⟨b, seg, rfl⟩ := List.exists_cons_of_ne_nil hne
    have hb : ¬ b = point := by simpa using hhead
    simp [segmentOf, segStart, pushSeg, hb]
  · rw [pushSeg, if_pos (List.length_pos_iff.mpr hpre), List.append_assoc, List.cons_append]
    have hget : (pre ++ point :: (seg ++ rest))[pre.length]? = some point := by simp
    rw [segmentOf, segStart, hget, if_pos rfl, List.drop_length_add_append, List.drop_one, List.tail_cons]

/-- A segment that is no name stands behind a separator. -/
theorem sep_of_segmentOf {pre key : List UInt8}
    (h : ∀ b ∈ (segmentOf pre.length key).head?, inSegment b = false) :
    ∀ b ∈ (key.drop pre.length).head?, inSegment b = false := by
  intro b hb
  rw [List.head?_drop] at hb
  by_cases hpoint : key[pre.length]? = some point
  · obtain rfl : point = b := Option.some.inj (hpoint.symm.trans hb)
    decide
  · by_contra hin
    have hdrop : key.drop pre.length = b :: key.drop (pre.length + 1) := by
      obtain ⟨hlt, rfl⟩ := List.getElem?_eq_some_iff.mp hb
      exact List.drop_eq_getElem_cons hlt
    have hb' : inSegment b = true := by simpa using hin
    have hbracket : b ≠ openBracket := by
      rintro rfl
      exact absurd hb' (by decide)
    have hseg : (segmentOf pre.length key).head? = some b := by
      rw [segmentOf, segStart, if_neg hpoint, hdrop, nextSegment, if_neg hbracket, List.takeWhile_cons,
        if_pos hb', List.head?_cons]
    exact absurd (h b hseg) (by simp [hb'])

theorem head_nextSegment {key : List UInt8} (h : nextSegment key ≠ []) :
    (nextSegment key).head? ≠ some point := by
  have hhead : (nextSegment key).head? = key.head? := by
    obtain ⟨rest, hrest⟩ := isPrefix_nextSegment key
    obtain ⟨b, seg, hseg⟩ := List.exists_cons_of_ne_nil h
    rw [hseg] at hrest ⊢
    rw [← hrest]
    rfl
  rw [hhead]
  exact fun hpoint => h (nextSegment_eq_nil_iff.mpr (.inr hpoint))

/-! ## From the tree to the levels -/

/-- The entries of a level are all those with its prefix in front of a segment boundary. -/
def Owns (es : List FlatEntry) (pre : List UInt8) (ks : List FlatEntry) : Prop :=
  ∀ e ∈ es, pre <+: e.key → (pre = [] ∨ ∀ b ∈ (e.key.drop pre.length).head?, inSegment b = false) → e ∈ ks

/-- A container whose leaves are the entries of a level, each at its own path. -/
structure Filled (es : List FlatEntry) (pre : List UInt8) (ks : List FlatEntry)
    (cs : List (List UInt8 × Emitted)) : Prop where
  segs : cs.map Prod.fst = uniqueSegments pre.length (keysBehind es pre)
  ne_nil : cs ≠ []
  child : ∀ c ∈ cs, Emits es (childPrefix (isArrayLevel es pre) pre c.1) c.2
  perm : (Emitted.childLeaves (isArrayLevel es pre) cs pre 0).Perm (ks.map fun e => (e.key, some e))
  owns : Owns es pre ks

namespace Filled

open Emitted

variable {es : List FlatEntry} {pre : List UInt8} {ks : List FlatEntry}
  {cs : List (List UInt8 × Emitted)}

theorem leaf_of_entry (h : Filled es pre ks cs) {e : FlatEntry} (he : e ∈ ks) : ∃ j, ∃ hj : j < cs.length,
    (e.key, some e) ∈ (cs[j]).2.leaves (pushSeg pre (childSeg (isArrayLevel es pre) (cs[j]).1 j)) := by
  have hmem := h.perm.mem_iff.mpr (List.mem_map_of_mem (f := fun e => (e.key, some e)) he)
  obtain ⟨j, hj, hl⟩ := mem_childLeaves.mp hmem
  exact ⟨j, hj, by simpa only [Nat.zero_add] using hl⟩

theorem entry_of_leaf (h : Filled es pre ks cs) {j : Nat} (hj : j < cs.length)
    {l : List UInt8 × Option FlatEntry}
    (hl : l ∈ (cs[j]).2.leaves (pushSeg pre (childSeg (isArrayLevel es pre) (cs[j]).1 j))) :
    ∃ e ∈ ks, (e.key, some e) = l := by
  have hmem : l ∈ childLeaves (isArrayLevel es pre) cs pre 0 :=
    mem_childLeaves.mpr ⟨j, hj, by simpa only [Nat.zero_add] using hl⟩
  exact List.mem_map.mp (h.perm.mem_iff.mp hmem)

/-- Every child holds an entry. -/
theorem exists_entry (h : Filled es pre ks cs) {j : Nat} (hj : j < cs.length) : ∃ e ∈ ks,
    (e.key, some e) ∈ (cs[j]).2.leaves (pushSeg pre (childSeg (isArrayLevel es pre) (cs[j]).1 j)) := by
  obtain ⟨l, hl⟩ := List.exists_mem_of_ne_nil _ (leaves_ne_nil (cs[j]).2
    (pushSeg pre (childSeg (isArrayLevel es pre) (cs[j]).1 j)))
  obtain ⟨e, he, rfl⟩ := h.entry_of_leaf hj hl
  exact ⟨e, he, hl⟩

/-- An entry is at a child whose path and prefix it begins with. -/
theorem isPrefix_of_leaf (h : Filled es pre ks cs) {e : FlatEntry} {j : Nat} (hj : j < cs.length)
    (hl : (e.key, some e) ∈ (cs[j]).2.leaves (pushSeg pre (childSeg (isArrayLevel es pre) (cs[j]).1 j))) :
    e ∈ es ∧ IsPlain e.key ∧ pushSeg pre (childSeg (isArrayLevel es pre) (cs[j]).1 j) <+: e.key ∧
      childPrefix (isArrayLevel es pre) pre (cs[j]).1 <+: e.key := by
  obtain ⟨hmem, hpre, hplain, -⟩ := (h.child _ (List.getElem_mem hj)).isPrefix_key hl rfl
  exact ⟨hmem, hplain, isPrefix_path hl, hpre⟩

theorem seg_mem (h : Filled es pre ks cs) {j : Nat} (hj : j < cs.length) :
    (cs[j]).1 ∈ uniqueSegments pre.length (keysBehind es pre) :=
  h.segs ▸ List.mem_map_of_mem (List.getElem_mem hj)

theorem seg_inj (h : Filled es pre ks cs) {i j : Nat} (hi : i < cs.length) (hj : j < cs.length)
    (heq : (cs[i]).1 = (cs[j]).1) : i = j := by
  have hnodup : (cs.map Prod.fst).Nodup := h.segs ▸ nodup_uniqueSegments
  have hi' : i < (cs.map Prod.fst).length := by simpa using hi
  have hj' : j < (cs.map Prod.fst).length := by simpa using hj
  have hget : (cs.map Prod.fst)[i] = (cs.map Prod.fst)[j] := by rwa [List.getElem_map, List.getElem_map]
  exact hnodup.getElem_inj_iff.mp hget

theorem exists_seg (h : Filled es pre ks cs) {seg : List UInt8}
    (hseg : seg ∈ uniqueSegments pre.length (keysBehind es pre)) : ∃ j, ∃ hj : j < cs.length, (cs[j]).1 = seg := by
  rw [← h.segs] at hseg
  obtain ⟨j, hj, heq⟩ := List.getElem_of_mem hseg
  exact ⟨j, by simpa using hj, by simpa using heq⟩

/-- A key that goes on with something else than a name belongs to an entry of the level. -/
theorem mem_of_goesOn (h : Filled es pre ks cs) {e : FlatEntry} (he : e ∈ es) (hgoes : GoesOn pre e.key)
    (hseg : ∀ b ∈ (segmentOf pre.length e.key).head?, inSegment b = false) : e ∈ ks :=
  h.owns e he hgoes.1 (.inr (sep_of_segmentOf hseg))

/-! ### Arrays -/

theorem goesOn_of_index {key : List UInt8} {i : Nat} (hplain : IsPlain key) (hindex : pre ++ indexText i <+: key) :
    GoesOn pre key := by
  refine ⟨(List.prefix_append _ _).trans hindex, hplain, ?_⟩
  have hle := hindex.length_le
  rw [segStart_of_index hindex]
  simp only [List.length_append, indexText, List.length_cons] at hle
  omega

theorem index_inj {key : List UInt8} {i j : Nat} (hi : pre ++ indexText i <+: key)
    (hj : pre ++ indexText j <+: key) : i = j :=
  indexText_injective ((segmentOf_of_index hi).symm.trans (segmentOf_of_index hj))

theorem index_of_entry (h : Filled es pre ks cs) (harray : isArrayLevel es pre = true) {e : FlatEntry}
    (he : e ∈ ks) : GoesOn pre e.key ∧ ∃ j < cs.length, pre ++ indexText j <+: e.key := by
  obtain ⟨j, hj, hl⟩ := h.leaf_of_entry he
  obtain ⟨-, hplain, hpath, -⟩ := h.isPrefix_of_leaf hj hl
  rw [harray] at hpath
  exact ⟨goesOn_of_index hplain hpath, j, hj, hpath⟩

theorem entry_at_index (h : Filled es pre ks cs) (harray : isArrayLevel es pre = true) {j : Nat}
    (hj : j < cs.length) : ∃ e ∈ ks, e ∈ es ∧ pre ++ indexText j <+: e.key ∧ pre ++ (cs[j]).1 <+: e.key := by
  obtain ⟨e, he, hl⟩ := h.exists_entry hj
  obtain ⟨hmem, -, hpath, hpre⟩ := h.isPrefix_of_leaf hj hl
  rw [harray] at hpath hpre
  rw [childPrefix_true] at hpre
  exact ⟨e, he, hmem, hpath, hpre⟩

theorem mem_of_array (h : Filled es pre ks cs) (harray : isArrayLevel es pre = true) {e : FlatEntry}
    (he : e ∈ es) (hgoes : GoesOn pre e.key) : e ∈ ks := by
  have hindex : atIndex pre.length e.key = true :=
    List.all_eq_true.mp harray e.key (mem_keysBehind.mpr ⟨⟨e, he, rfl⟩, hgoes⟩)
  refine h.mem_of_goesOn he hgoes fun b hb => ?_
  have hbracket : e.key[segStart pre.length e.key]? = some openBracket := by simpa [atIndex] using hindex
  obtain ⟨hlt, hget⟩ := List.getElem?_eq_some_iff.mp hbracket
  rw [segmentOf, List.drop_eq_getElem_cons hlt, hget, nextSegment, if_pos rfl] at hb
  obtain rfl : openBracket = b := Option.some.inj hb
  decide

theorem holdsElements (h : Filled es pre ks cs) (harray : isArrayLevel es pre = true) :
    HoldsElements es pre cs.length := by
  constructor
  · intro key hkey
    obtain ⟨⟨e, he, rfl⟩, hgoes⟩ := mem_keysBehind.mp hkey
    obtain ⟨-, j, -, hindex⟩ := h.index_of_entry harray (h.mem_of_array harray he hgoes)
    exact ⟨j, hindex⟩
  · intro i
    constructor
    · rintro ⟨key, hkey, hi⟩
      obtain ⟨⟨e, he, rfl⟩, hgoes⟩ := mem_keysBehind.mp hkey
      obtain ⟨-, j, hj, hindex⟩ := h.index_of_entry harray (h.mem_of_array harray he hgoes)
      rwa [index_inj hi hindex]
    · intro hi
      obtain ⟨e, he, hmem, hindex, -⟩ := h.entry_at_index harray hi
      exact ⟨e.key, mem_keysBehind.mpr ⟨⟨e, hmem, rfl⟩, (h.index_of_entry harray he).1⟩, hindex⟩

theorem seg_eq_indexText (h : Filled es pre ks cs) (harray : isArrayLevel es pre = true) {j : Nat}
    (hj : j < cs.length) : (cs[j]).1 = indexText j := by
  obtain ⟨i, -, hseg⟩ := (h.holdsElements harray).mem_uniqueSegments_iff.mp (h.seg_mem hj)
  obtain ⟨e, -, -, hindex, hpre⟩ := h.entry_at_index harray hj
  rw [hseg] at hpre
  rw [hseg, index_inj hpre hindex]

/-- The elements of an array are at their positions, so there are at most ten of them. -/
theorem arrayLevel (h : Filled es pre ks cs) (hsorted : es.Pairwise fun a b => flatEntryCmp a b ≤ 0)
    (harray : isArrayLevel es pre = true) : ArrayLevel es pre ks cs.length := by
  have helements := h.holdsElements harray
  have hasc : AscendingIndices (uniqueSegments pre.length (keysBehind es pre)) := by
    rw [← h.segs]
    refine List.pairwise_iff_getElem.mpr fun i j hi hj hij m n hm hn => ?_
    rw [List.length_map] at hi hj
    rw [List.getElem_map, h.seg_eq_indexText harray, segIndex_indexText] at hm hn
    obtain rfl := Option.some.inj hm
    obtain rfl := Option.some.inj hn
    exact hij
  exact {
    elements := helements
    pos := List.length_pos_iff.mpr h.ne_nil
    le := (helements.keysInIndexOrder_iff hsorted).mp ((ascendingIndices_iff hsorted pre).mp hasc)
    own := fun e he hgoes => h.mem_of_array harray he hgoes
    all := fun e he => (h.index_of_entry harray he).1 }

/-! ### Objects -/

theorem kind_of_mem {n : Nat} {keys : List (List UInt8)} {seg : List UInt8} (h : seg ∈ uniqueSegments n keys) :
    seg ≠ [] ∧ seg.head? ≠ some point ∧ SegKind seg := by
  obtain ⟨hne, key, -, rfl⟩ := mem_uniqueSegments.mp h
  exact ⟨hne, head_nextSegment hne, segKind_nextSegment _ hne⟩

theorem pushSeg_key_append (path as bs : List UInt8) :
    pushSeg path (.key (as ++ bs)) = pushSeg path (.key as) ++ bs := by
  unfold pushSeg
  split_ifs
  · rw [List.append_assoc, List.cons_append]
  · rfl

theorem pushSeg_key_ne_nil {path seg : List UInt8} (h : seg ≠ []) : pushSeg path (.key seg) ≠ [] := by
  unfold pushSeg
  split_ifs
  · simp
  · exact h

theorem goesOn_of_segmentOf {key : List UInt8} (hplain : IsPlain key) (hpre : pre <+: key)
    (hne : segmentOf pre.length key ≠ []) : GoesOn pre key := by
  refine ⟨hpre, hplain, ?_⟩
  by_contra hle
  rw [segmentOf, List.drop_eq_nil_of_le (Nat.not_lt.mp hle)] at hne
  exact hne rfl

/-- The leaf of an entry in an object, and what stands behind the name of the member. -/
theorem member_of_entry (h : Filled es pre ks cs) (hobj : isArrayLevel es pre = false) {e : FlatEntry}
    (he : e ∈ ks) : ∃ j, ∃ hj : j < cs.length, ∃ rest,
      (e.key, some e) ∈ (cs[j]).2.leaves (pushSeg pre (.key (cs[j]).1)) ∧
      e.key = pushSeg pre (.key (cs[j]).1) ++ rest ∧
      segmentOf pre.length e.key = nextSegment ((cs[j]).1 ++ rest) := by
  obtain ⟨j, hj, hl⟩ := h.leaf_of_entry he
  obtain ⟨-, -, hpath, -⟩ := h.isPrefix_of_leaf hj hl
  rw [hobj] at hl hpath
  obtain ⟨rest, hrest⟩ := hpath
  obtain ⟨hne, hhead, -⟩ := kind_of_mem (h.seg_mem hj)
  refine ⟨j, hj, rest, hl, hrest.symm, ?_⟩
  rw [← hrest]
  exact segmentOf_pushSeg hne hhead

theorem joined (h : Filled es pre ks cs) (hobj : isArrayLevel es pre = false) {e : FlatEntry} (he : e ∈ ks) :
    segmentOf pre.length e.key ≠ [] ∧ pushSeg pre (.key (segmentOf pre.length e.key)) <+: e.key := by
  obtain ⟨j, hj, rest, -, hkey, hseg⟩ := h.member_of_entry hobj he
  obtain ⟨hne, hhead, -⟩ := kind_of_mem (h.seg_mem hj)
  rw [hseg]
  constructor
  · intro hnil
    obtain ⟨b, seg, heq⟩ := List.exists_cons_of_ne_nil hne
    rw [nextSegment_eq_nil_iff, heq] at hnil
    rw [heq] at hhead
    obtain hnil | hnil := hnil
    · simp at hnil
    · exact hhead (by simpa using hnil)
  · obtain ⟨more, hmore⟩ := isPrefix_nextSegment ((cs[j]).1 ++ rest)
    exact ⟨more, by rw [← pushSeg_key_append, hmore, pushSeg_key_append, hkey]⟩

/-- The entry of a bracket that is not closed has nothing behind it. -/
theorem entry_of_unclosed (h : Filled es pre ks cs) (hobj : isArrayLevel es pre = false) {j : Nat}
    (hj : j < cs.length) {body : List UInt8} (hbody : ∀ b ∈ body, (b != closeBracket) = true)
    (hseg : (cs[j]).1 = openBracket :: body) : ∃ e ∈ ks, e.key = pushSeg pre (.key (cs[j]).1) := by
  obtain ⟨-, key, hkey, hkeyseg⟩ := mem_uniqueSegments.mp (h.seg_mem hj)
  obtain ⟨⟨e, he, rfl⟩, hgoes⟩ := mem_keysBehind.mp hkey
  have hmem : e ∈ ks := by
    refine h.mem_of_goesOn he hgoes fun b hb => ?_
    rw [hkeyseg, hseg] at hb
    obtain rfl : openBracket = b := Option.some.inj hb
    decide
  refine ⟨e, hmem, ?_⟩
  obtain ⟨-, rest, hrest⟩ := h.joined hobj hmem
  rw [hkeyseg] at hrest
  obtain ⟨hne, hhead, -⟩ := kind_of_mem (h.seg_mem hj)
  have hnext : segmentOf pre.length (pushSeg pre (.key (cs[j]).1) ++ rest) = nextSegment ((cs[j]).1 ++ rest) :=
    segmentOf_pushSeg hne hhead
  rw [hrest, hkeyseg, hseg, List.cons_append] at hnext
  rw [nextSegment_open hbody hnext.symm, List.append_nil] at hrest
  exact hrest.symm

theorem of_isPrefix_pushSeg {path as bs : List UInt8}
    (h : pushSeg path (.key as) <+: pushSeg path (.key bs)) : as <+: bs := by
  obtain ⟨rest, hrest⟩ := h
  rw [← pushSeg_key_append] at hrest
  refine ⟨rest, ?_⟩
  unfold pushSeg at hrest
  split_ifs at hrest
  · simpa using hrest
  · exact hrest

/-- A member whose bracket is not closed is a single entry: the shortest such segment in front of
its own would be one otherwise. -/
theorem leaves_unclosed (h : Filled es pre ks cs) (hobj : isArrayLevel es pre = false) {body : List UInt8}
    (hbody : ∀ b ∈ body, (b != closeBracket) = true) {j : Nat} (hj : j < cs.length)
    (hseg : (cs[j]).1 = openBracket :: body) :
    ∃ e, (cs[j]).2.leaves (pushSeg pre (.key (cs[j]).1)) = [(pushSeg pre (.key (cs[j]).1), some e)] := by
  induction hn : body.length using Nat.strong_induction_on generalizing body j with
  | _ n ih =>
    obtain ⟨e, he, hkey⟩ := h.entry_of_unclosed hobj hj hbody hseg
    obtain ⟨m, hm, rest, hl, hpath, -⟩ := h.member_of_entry hobj he
    have hpre : (cs[m]).1 <+: (cs[j]).1 := by
      rw [hkey] at hpath
      exact of_isPrefix_pushSeg ⟨rest, hpath.symm⟩
    by_cases heq : (cs[m]).1 = (cs[j]).1
    · obtain rfl := h.seg_inj hm hj heq
      obtain ⟨hsingle, -⟩ | ⟨s, hs⟩ := path_leaves hl
      · exact ⟨e, hsingle⟩
      · have hne : pushSeg pre (.key (cs[m]).1) ≠ [] := pushSeg_key_ne_nil (kind_of_mem (h.seg_mem hm)).1
        obtain ⟨b, more, hpush, -⟩ := exists_sep_pushSeg hne s
        have hle : _ ≤ e.key.length := hs.length_le
        rw [hpush, hkey, List.length_append, List.length_cons] at hle
        omega
    · obtain ⟨b, seg, hb⟩ := List.exists_cons_of_ne_nil (kind_of_mem (h.seg_mem hm)).1
      have hlt : (cs[m]).1.length < (cs[j]).1.length :=
        lt_of_le_of_ne hpre.length_le fun hlen => heq (hpre.eq_of_length hlen)
      rw [hb, hseg, List.cons_prefix_cons] at hpre
      obtain ⟨rfl, hsub⟩ := hpre
      rw [hb, hseg, List.length_cons, List.length_cons] at hlt
      obtain ⟨e', hsingle⟩ := ih seg.length (by omega) (fun b hb => hbody b (hsub.subset hb)) hm hb rfl
      rw [hsingle, List.mem_singleton, hkey] at hl
      have hback : pushSeg pre (.key (cs[j]).1) = pushSeg pre (.key (cs[m]).1) := congrArg Prod.fst hl
      have hsame : pushSeg pre (.key (cs[j]).1) <+: pushSeg pre (.key (cs[m]).1) := by rw [hback]
      have hle := (of_isPrefix_pushSeg hsame).length_le
      rw [hb, hseg, List.length_cons, List.length_cons] at hle
      omega

/-- The leaves of a member have its name for their segment. -/
theorem segmentOf_leaf (h : Filled es pre ks cs) (hobj : isArrayLevel es pre = false) {j : Nat}
    (hj : j < cs.length) {l : List UInt8 × Option FlatEntry}
    (hl : l ∈ (cs[j]).2.leaves (pushSeg pre (.key (cs[j]).1))) : segmentOf pre.length l.1 = (cs[j]).1 := by
  obtain ⟨hne, hhead, hkind⟩ := kind_of_mem (h.seg_mem hj)
  obtain ⟨rest, hrest, hsep⟩ := exists_path_eq hl (pushSeg_key_ne_nil hne)
  rw [hrest, segmentOf_pushSeg hne hhead]
  cases hkind with
  | name hseg => exact nextSegment_name hne hseg hsep
  | closed body hbody heq =>
    rw [heq, List.cons_append, List.append_assoc]
    exact nextSegment_closed hbody rest
  | unclosed body hbody heq =>
    obtain ⟨e, hsingle⟩ := h.leaves_unclosed hobj hbody hj heq
    rw [hsingle, List.mem_singleton] at hl
    obtain rfl : rest = [] := by simpa [hl] using hrest
    rw [heq, List.append_nil, nextSegment, if_pos rfl, List.takeWhile_eq_self_iff.mpr hbody,
      List.dropWhile_eq_nil_iff.mpr hbody]
    simp

/-- The level of an object. -/
theorem objectLevel (h : Filled es pre ks cs) (hobj : isArrayLevel es pre = false) : ObjectLevel es pre ks where
  named := hobj
  joined e he := h.joined hobj he
  known e he hgoes := by
    by_cases hsep : ∀ b ∈ (segmentOf pre.length e.key).head?, inSegment b = false
    · exact ⟨e, h.mem_of_goesOn he hgoes hsep, rfl⟩
    · have hne : segmentOf pre.length e.key ≠ [] := by
        intro hnil
        simp [hnil] at hsep
      obtain ⟨j, hj, heq⟩ := h.exists_seg (mem_uniqueSegments.mpr
        ⟨hne, e.key, mem_keysBehind.mpr ⟨⟨e, he, rfl⟩, hgoes⟩, rfl⟩)
      obtain ⟨e', he', hl⟩ := h.exists_entry hj
      rw [hobj] at hl
      exact ⟨e', he', (h.segmentOf_leaf hobj hj hl).trans heq⟩

/-! ### Children -/

theorem pushSeg_childSeg (h : Filled es pre ks cs) {j : Nat} (hj : j < cs.length) :
    pushSeg pre (childSeg (isArrayLevel es pre) (cs[j]).1 j) =
      childPrefix (isArrayLevel es pre) pre (cs[j]).1 := by
  cases harray : isArrayLevel es pre with
  | true => rw [childPrefix_true, h.seg_eq_indexText harray hj]; rfl
  | false => exact (childPrefix_false pre _).symm

theorem segmentOf_childLeaf (h : Filled es pre ks cs) {j : Nat} (hj : j < cs.length)
    {l : List UInt8 × Option FlatEntry}
    (hl : l ∈ (cs[j]).2.leaves (childPrefix (isArrayLevel es pre) pre (cs[j]).1)) :
    segmentOf pre.length l.1 = (cs[j]).1 := by
  cases harray : isArrayLevel es pre with
  | true =>
    rw [harray, childPrefix_true, h.seg_eq_indexText harray hj] at hl
    rw [h.seg_eq_indexText harray hj, segmentOf_of_index (isPrefix_path hl)]
  | false =>
    rw [harray, childPrefix_false] at hl
    exact h.segmentOf_leaf harray hj hl

theorem filter_childLeaves {isArray : Bool} {cs : List (List UInt8 × Emitted)} {path : List UInt8}
    {p : List UInt8 × Option FlatEntry → Bool} {i j : Nat} (hj : j < cs.length)
    (h : ∀ m, ∀ hm : m < cs.length, ∀ l ∈ (cs[m]).2.leaves (pushSeg path (childSeg isArray (cs[m]).1 (i + m))),
      p l = decide (m = j)) :
    (childLeaves isArray cs path i).filter p = (cs[j]).2.leaves (pushSeg path (childSeg isArray (cs[j]).1 (i + j))) := by
  induction cs generalizing i j with
  | nil => simp at hj
  | cons c cs ih =>
    rw [childLeaves, List.filter_append]
    have hhead := h 0 (by simp)
    have htail : ∀ m, ∀ hm : m < cs.length,
        ∀ l ∈ (cs[m]).2.leaves (pushSeg path (childSeg isArray (cs[m]).1 (i + 1 + m))),
          p l = decide (m + 1 = j) := by
      intro m hm l hl
      refine h (m + 1) (by simpa using hm) l ?_
      simpa [Nat.add_assoc, Nat.add_comm 1] using hl
    cases j with
    | zero =>
      have hself : (c.2.leaves (pushSeg path (childSeg isArray c.1 i))).filter p =
          c.2.leaves (pushSeg path (childSeg isArray c.1 i)) :=
        List.filter_eq_self.mpr fun l hl => by simpa using hhead l hl
      have hnone : (childLeaves isArray cs path (i + 1)).filter p = [] := by
        refine List.filter_eq_nil_iff.mpr fun l hl => ?_
        obtain ⟨m, hm, hl⟩ := mem_childLeaves.mp hl
        simp [htail m hm l hl]
      rw [hself, hnone, List.append_nil]
      rfl
    | succ j =>
      have hnone : (c.2.leaves (pushSeg path (childSeg isArray c.1 i))).filter p = [] :=
        List.filter_eq_nil_iff.mpr fun l hl => by simp [hhead l hl]
      have hrest := ih (i := i + 1) (j := j) (by simpa using hj) fun m hm l hl => by
        simpa using htail m hm l hl
      rw [hnone, List.nil_append, hrest]
      simp [Nat.add_assoc, Nat.add_comm 1]

/-- A child holds the entries with its segment. -/
theorem perm_child (h : Filled es pre ks cs) {j : Nat} (hj : j < cs.length) :
    ((cs[j]).2.leaves (childPrefix (isArrayLevel es pre) pre (cs[j]).1)).Perm
      ((groupAt pre ks (cs[j]).1).map fun e => (e.key, some e)) := by
  have hfilter := h.perm.filter fun l => decide (segmentOf pre.length l.1 = (cs[j]).1)
  rw [filter_childLeaves (j := j) hj, Nat.zero_add, h.pushSeg_childSeg hj, List.filter_map] at hfilter
  · exact hfilter
  · intro m hm l hl
    rw [Nat.zero_add, h.pushSeg_childSeg hm] at hl
    rw [h.segmentOf_childLeaf hm hl]
    exact decide_eq_decide.mpr ⟨h.seg_inj hm hj, fun heq => by subst heq; rfl⟩

/-- A child owns its entries, unless nothing goes on there. -/
theorem owns_child (h : Filled es pre ks cs) {j : Nat} (hj : j < cs.length) :
    keysBehind es (childPrefix (isArrayLevel es pre) pre (cs[j]).1) = [] ∨
      Owns es (childPrefix (isArrayLevel es pre) pre (cs[j]).1) (groupAt pre ks (cs[j]).1) := by
  have hne : childPrefix (isArrayLevel es pre) pre (cs[j]).1 ≠ [] := by
    have hlt : pre.length < (childPrefix (isArrayLevel es pre) pre (cs[j]).1).length :=
      length_childPrefix (kind_of_mem (h.seg_mem hj)).1
    exact List.ne_nil_of_length_pos (by omega)
  have hks : ∀ e ∈ es, ∀ rest, e.key = childPrefix (isArrayLevel es pre) pre (cs[j]).1 ++ rest →
      segmentOf pre.length e.key = (cs[j]).1 → e ∈ groupAt pre ks (cs[j]).1 := by
    intro e he rest hrest hseg
    refine List.mem_filter.mpr ⟨h.owns e he ?_ ?_, decide_eq_true hseg⟩
    · exact (isPrefix_childPrefix _ _ _).trans ⟨rest, hrest.symm⟩
    · by_cases hpre : pre = []
      · exact .inl hpre
      · obtain ⟨b, more, hpush, hb⟩ := exists_sep_pushSeg hpre (childSeg (isArrayLevel es pre) (cs[j]).1 j)
        rw [← h.pushSeg_childSeg hj, hpush, List.append_assoc] at hrest
        rw [hrest, List.drop_left]
        exact .inr (by simpa using hb)
  cases harray : isArrayLevel es pre with
  | true =>
    rw [harray] at hks
    refine .inr fun e he hpre _ => ?_
    obtain ⟨rest, hrest⟩ := hpre
    refine hks e he rest hrest.symm ?_
    rw [childPrefix_true, h.seg_eq_indexText harray hj] at hrest
    rw [h.seg_eq_indexText harray hj, segmentOf_of_index ⟨rest, hrest⟩]
  | false =>
    rw [harray, childPrefix_false] at hks hne
    rw [childPrefix_false]
    obtain ⟨hseg, hhead, hkind⟩ := kind_of_mem (h.seg_mem hj)
    have howns : (∀ rest : List UInt8, (∀ b ∈ rest.head?, inSegment b = false) →
        nextSegment ((cs[j]).1 ++ rest) = (cs[j]).1) →
        Owns es (pushSeg pre (.key (cs[j]).1)) (groupAt pre ks (cs[j]).1) := by
      intro hnext e he hpre hsep
      obtain ⟨rest, hrest⟩ := hpre
      refine hks e he rest hrest.symm ?_
      rw [← hrest, segmentOf_pushSeg hseg hhead]
      refine hnext rest ?_
      have hsep := hsep.resolve_left hne
      rwa [← hrest, List.drop_left] at hsep
    cases hkind with
    | name hin => exact .inr (howns fun rest hrest => nextSegment_name hseg hin hrest)
    | closed body hbody heq =>
      refine .inr (howns fun rest _ => ?_)
      rw [heq, List.cons_append, List.append_assoc]
      exact nextSegment_closed hbody rest
    | unclosed body hbody heq =>
      obtain ⟨e, hsingle⟩ := h.leaves_unclosed harray hbody hj heq
      have hemits := h.child _ (List.getElem_mem hj)
      rw [harray, childPrefix_false] at hemits
      exact .inl (hemits.keysBehind_eq_nil hne hsingle)

/-- The entries of a level are among those whose keys go on. -/
theorem seg_of_entry (h : Filled es pre ks cs) {e : FlatEntry} (he : e ∈ ks) :
    segmentOf pre.length e.key ∈ uniqueSegments pre.length (keysBehind es pre) := by
  obtain ⟨j, hj, hl⟩ := h.leaf_of_entry he
  obtain ⟨hmem, hplain, -, hpre⟩ := h.isPrefix_of_leaf hj hl
  have hkeys : ∀ hgoes : GoesOn pre e.key, e.key ∈ keysBehind es pre :=
    fun hgoes => mem_keysBehind.mpr ⟨⟨e, hmem, rfl⟩, hgoes⟩
  cases harray : isArrayLevel es pre with
  | true =>
    obtain ⟨hgoes, i, -, hindex⟩ := h.index_of_entry harray he
    exact mem_uniqueSegments.mpr ⟨by simp [segmentOf_of_index hindex, indexText], _, hkeys hgoes, rfl⟩
  | false =>
    have hne := (h.joined harray he).1
    have hgoes := goesOn_of_segmentOf hplain ((isPrefix_childPrefix _ _ _).trans hpre) hne
    exact mem_uniqueSegments.mpr ⟨hne, _, hkeys hgoes, rfl⟩

end Filled

section Exact

variable {es : List FlatEntry} {pre : List UInt8} {ks : List FlatEntry} {t : Emitted}

/-- A tree whose leaves are the entries of a level shows the level to be one that can be emitted. -/
theorem Emits.emittable (hsorted : es.Pairwise fun a b => flatEntryCmp a b ≤ 0) (h : Emits es pre t)
    (hperm : (t.leaves pre).Perm (ks.map fun e => (e.key, some e)))
    (howns : keysBehind es pre = [] ∨ Owns es pre ks) : Emittable es pre ks := by
  induction h generalizing ks with
  | @value pre e hkeys hleaf =>
    have hks := List.perm_singleton.mp hperm.symm
    obtain ⟨e', rfl, heq⟩ := List.map_eq_singleton_iff.mp hks
    obtain rfl : e'.key = pre := congrArg Prod.fst heq
    exact .value hkeys
  | null hkeys hleaf =>
    have hks := List.perm_singleton.mp hperm.symm
    obtain ⟨e', rfl, heq⟩ := List.map_eq_singleton_iff.mp hks
    simp at heq
  | @container pre cs hkeys hsegs hroom hchild ih =>
    by_cases hcs : cs = []
    · subst hcs
      have hks := List.perm_singleton.mp hperm.symm
      obtain ⟨e', rfl, heq⟩ := List.map_eq_singleton_iff.mp hks
      simp at heq
    · rw [Emitted.leaves_container hcs] at hperm
      have hfilled : Filled es pre ks cs := ⟨hsegs, hcs, hchild, hperm, howns.resolve_left hkeys⟩
      refine .container ?_ fun e he => ?_
      · cases harray : isArrayLevel es pre with
        | true => exact .inl ⟨_, hfilled.arrayLevel hsorted harray⟩
        | false => exact .inr (hfilled.objectLevel harray)
      · obtain ⟨j, hj, hseg⟩ := hfilled.exists_seg (hfilled.seg_of_entry he)
        rw [← hseg]
        exact ih _ (List.getElem_mem hj) (hfilled.perm_child hj) (hfilled.owns_child hj)

/-! ## From the levels to the tree -/

theorem perm_groupAt (pre : List UInt8) {segs : List (List UInt8)} (hsegs : segs.Nodup)
    {ks : List FlatEntry} (h : ∀ e ∈ ks, segmentOf pre.length e.key ∈ segs) :
    (segs.flatMap (groupAt pre ks)).Perm ks := by
  induction segs generalizing ks with
  | nil =>
    obtain rfl : ks = [] := List.eq_nil_iff_forall_not_mem.mpr fun e he => by simpa using h e he
    exact List.Perm.refl _
  | cons s segs ih =>
    obtain ⟨hs, hsegs⟩ := List.nodup_cons.mp hsegs
    have hothers : ∀ e ∈ ks.filter fun e => ! decide (segmentOf pre.length e.key = s),
        segmentOf pre.length e.key ∈ segs := by
      intro e he
      obtain ⟨he, hne⟩ := List.mem_filter.mp he
      exact (List.mem_cons.mp (h e he)).resolve_left (by simpa using hne)
    have hrest := ih hsegs hothers
    have hsame : segs.flatMap (groupAt pre (ks.filter fun e => ! decide (segmentOf pre.length e.key = s))) =
        segs.flatMap (groupAt pre ks) := by
      refine List.flatMap_congr fun s' hs' => ?_
      have hne : s' ≠ s := fun heq => hs (heq ▸ hs')
      rw [groupAt, List.filter_filter]
      refine List.filter_congr fun e _ => ?_
      by_cases heq : segmentOf pre.length e.key = s'
      · simp [heq, hne]
      · simp [heq]
    rw [hsame] at hrest
    rw [List.flatMap_cons]
    exact (hrest.append_left _).trans (List.filter_append_perm _ ks)

theorem exists_children {P : List UInt8 → Emitted → Prop} {segs : List (List UInt8)}
    (h : ∀ seg ∈ segs, ∃ t, P seg t) :
    ∃ cs : List (List UInt8 × Emitted), cs.map Prod.fst = segs ∧ ∀ c ∈ cs, P c.1 c.2 := by
  induction segs with
  | nil => exact ⟨[], rfl, by simp⟩
  | cons seg segs ih =>
    obtain ⟨⟨t, ht⟩, hsegs⟩ := List.forall_mem_cons.mp h
    obtain ⟨cs, rfl, hcs⟩ := ih hsegs
    exact ⟨(seg, t) :: cs, rfl, List.forall_mem_cons.mpr ⟨ht, hcs⟩⟩

theorem childLeaves_eq {isArray : Bool} {cs : List (List UInt8 × Emitted)} {path : List UInt8}
    {q : List UInt8 → List UInt8} {i : Nat} (h : ∀ j, ∀ hj : j < cs.length,
      pushSeg path (Emitted.childSeg isArray (cs[j]).1 (i + j)) = q (cs[j]).1) :
    Emitted.childLeaves isArray cs path i = cs.flatMap fun c => c.2.leaves (q c.1) := by
  induction cs generalizing i with
  | nil => rfl
  | cons c cs ih =>
    have hhead : pushSeg path (Emitted.childSeg isArray c.1 i) = q c.1 := h 0 (by simp)
    have htail := ih (i := i + 1) fun j hj => by
      rw [Nat.add_assoc, Nat.add_comm 1 j]
      exact h (j + 1) (by simpa using hj)
    rw [Emitted.childLeaves, List.flatMap_cons, hhead, htail]

theorem findLeaf_of_mem (hdistinct : (es.map FlatEntry.key).Nodup) (hplain : ∀ e ∈ es, IsPlain e.key)
    {e : FlatEntry} (he : e ∈ es) : findLeaf es e.key = some e := by
  cases hfind : findLeaf es e.key with
  | none => exact absurd (List.find?_eq_none.mp hfind e he) (by simpa using hplain e he)
  | some e' =>
    obtain ⟨he', hkey, -⟩ := findLeaf_eq_some hfind
    rw [List.inj_on_of_nodup_map hdistinct he' he hkey]

/-- The segments of a level are those of its entries. -/
theorem seg_mem_iff (hplain : ∀ e ∈ es, IsPlain e.key) (hsub : ∀ e ∈ ks, e ∈ es)
    (h : (∃ n, ArrayLevel es pre ks n) ∨ ObjectLevel es pre ks) {seg : List UInt8} :
    seg ∈ uniqueSegments pre.length (keysBehind es pre) ↔ ∃ e ∈ ks, segmentOf pre.length e.key = seg := by
  rw [mem_uniqueSegments]
  obtain ⟨n, harray⟩ | hobject := h
  · constructor
    · rintro ⟨-, key, hkey, rfl⟩
      obtain ⟨⟨e, he, rfl⟩, hgoes⟩ := mem_keysBehind.mp hkey
      exact ⟨e, harray.own e he hgoes, rfl⟩
    · rintro ⟨e, he, rfl⟩
      have hkey := mem_keysBehind.mpr ⟨⟨e, hsub e he, rfl⟩, harray.all e he⟩
      obtain ⟨i, hi⟩ := harray.elements.direct _ hkey
      exact ⟨by simp [segmentOf_of_index hi, indexText], _, hkey, rfl⟩
  · constructor
    · rintro ⟨-, key, hkey, rfl⟩
      obtain ⟨⟨e, he, rfl⟩, hgoes⟩ := mem_keysBehind.mp hkey
      exact hobject.known e he hgoes
    · rintro ⟨e, he, rfl⟩
      obtain ⟨hne, hpre⟩ := hobject.joined e he
      have hgoes := Filled.goesOn_of_segmentOf (hplain e (hsub e he)) ((isPrefix_pushSeg _ _).trans hpre) hne
      exact ⟨hne, e.key, mem_keysBehind.mpr ⟨⟨e, hsub e he, rfl⟩, hgoes⟩, rfl⟩

theorem exists_entry (h : (∃ n, ArrayLevel es pre ks n) ∨ ObjectLevel es pre ks) : ∃ e, e ∈ ks := by
  obtain ⟨n, harray⟩ | hobject := h
  · obtain ⟨key, hkey, -⟩ := (harray.elements.indices 0).mpr harray.pos
    obtain ⟨⟨e, he, rfl⟩, hgoes⟩ := mem_keysBehind.mp hkey
    exact ⟨e, harray.own e he hgoes⟩
  · obtain ⟨key, hkey, -⟩ := List.all_eq_false.mp hobject.named
    obtain ⟨⟨e, he, rfl⟩, hgoes⟩ := mem_keysBehind.mp hkey
    obtain ⟨e', he', -⟩ := hobject.known e he hgoes
    exact ⟨e', he'⟩

theorem isPrefix_key_of_level (hsub : ∀ e ∈ ks, e ∈ es) (h : (∃ n, ArrayLevel es pre ks n) ∨ ObjectLevel es pre ks)
    {e : FlatEntry} (he : e ∈ ks) :
    childPrefix (isArrayLevel es pre) pre (segmentOf pre.length e.key) <+: e.key := by
  obtain ⟨n, harray⟩ | hobject := h
  · obtain ⟨i, hi⟩ := harray.elements.direct _ (mem_keysBehind.mpr ⟨⟨e, hsub e he, rfl⟩, harray.all e he⟩)
    rw [harray.elements.isArrayLevel_eq, childPrefix_true, segmentOf_of_index hi]
    exact hi
  · rw [hobject.named, childPrefix_false]
    exact (hobject.joined e he).2

/-- The path of a child is its prefix. -/
theorem path_child (hsorted : es.Pairwise fun a b => flatEntryCmp a b ≤ 0)
    (h : (∃ n, ArrayLevel es pre ks n) ∨ ObjectLevel es pre ks) {cs : List (List UInt8 × Emitted)}
    (hsegs : cs.map Prod.fst = uniqueSegments pre.length (keysBehind es pre)) (j : Nat) (hj : j < cs.length) :
    pushSeg pre (Emitted.childSeg (isArrayLevel es pre) (cs[j]).1 (0 + j)) =
      childPrefix (isArrayLevel es pre) pre (cs[j]).1 := by
  rw [Nat.zero_add]
  obtain ⟨n, harray⟩ | hobject := h
  · rw [harray.elements.uniqueSegments_eq hsorted harray.le] at hsegs
    have hseg : (cs[j]).1 = indexText j := by
      have hget := congrArg (fun l => l[j]?) hsegs
      simp only [List.getElem?_map, List.getElem?_eq_getElem hj, Option.map_some] at hget
      obtain ⟨i, hi, heq⟩ := Option.map_eq_some_iff.mp hget.symm
      obtain ⟨hlt, hi⟩ := List.getElem?_eq_some_iff.mp hi
      rw [List.getElem_range] at hi
      rw [← heq, hi]
    rw [harray.elements.isArrayLevel_eq, childPrefix_true, hseg]
    rfl
  · rw [hobject.named]
    exact (childPrefix_false pre _).symm

/-- A level that can be emitted is emitted as a tree whose leaves are its entries. -/
theorem Emittable.emits (hsorted : es.Pairwise fun a b => flatEntryCmp a b ≤ 0)
    (hdistinct : (es.map FlatEntry.key).Nodup)
    (hes : ∀ e ∈ es, IsPlain e.key ∧ e.key.length < pathSize) (h : Emittable es pre ks)
    (hsub : ∀ e ∈ ks, e ∈ es) :
    ∃ t, Emits es pre t ∧ t.Distinct ∧ (t.leaves pre).Perm (ks.map fun e => (e.key, some e)) := by
  have hplain : ∀ e ∈ es, IsPlain e.key := fun e he => (hes e he).1
  induction h with
  | @value e hkeys =>
    have hleaf := findLeaf_of_mem hdistinct hplain (hsub e List.mem_cons_self)
    exact ⟨.value e, .value hkeys hleaf, trivial, List.Perm.refl _⟩
  | @container pre ks hlevel hchild ih =>
    have hmem : ∀ seg, seg ∈ uniqueSegments pre.length (keysBehind es pre) ↔
        ∃ e ∈ ks, segmentOf pre.length e.key = seg := fun _ => seg_mem_iff hplain hsub hlevel
    obtain ⟨e₀, he₀⟩ := exists_entry hlevel
    have hseg₀ := (hmem _).mpr ⟨e₀, he₀, rfl⟩
    have hkeys : keysBehind es pre ≠ [] := by
      intro hnil
      simp [hnil, uniqueSegments] at hseg₀
    have hchildren : ∀ seg ∈ uniqueSegments pre.length (keysBehind es pre), ∃ t,
        Emits es (childPrefix (isArrayLevel es pre) pre seg) t ∧ t.Distinct ∧
          (t.leaves (childPrefix (isArrayLevel es pre) pre seg)).Perm
            ((groupAt pre ks seg).map fun e => (e.key, some e)) := by
      intro seg hseg
      obtain ⟨e, he, rfl⟩ := (hmem seg).mp hseg
      exact ih e he fun e' he' => hsub e' (List.mem_filter.mp he').1
    obtain ⟨cs, hsegs, hcs⟩ := exists_children hchildren
    have hroom : ∀ c ∈ cs, (childPrefix (isArrayLevel es pre) pre c.1).length < pathSize := by
      intro c hc
      obtain ⟨e, he, hseg⟩ := (hmem _).mp (hsegs ▸ List.mem_map_of_mem hc)
      rw [← hseg]
      exact (isPrefix_key_of_level hsub hlevel he).length_le.trans_lt (hes e (hsub e he)).2
    have hne : cs ≠ [] := by
      rintro rfl
      simp [← hsegs] at hseg₀
    refine ⟨_, .container hkeys hsegs hroom fun c hc => (hcs c hc).1, ?_, ?_⟩
    · exact ⟨hsegs ▸ nodup_uniqueSegments, Emitted.childrenDistinct_iff.mpr fun c hc => (hcs c hc).2.1⟩
    · rw [Emitted.leaves_container hne, childLeaves_eq (path_child hsorted hlevel hsegs)]
      have hgroups := (perm_groupAt pre nodup_uniqueSegments fun e he => (hmem _).mpr ⟨e, he, rfl⟩).map
        fun e => (e.key, some e)
      rw [← hsegs, List.map_flatMap, List.flatMap_map] at hgroups
      exact (List.Perm.flatMap_left cs fun c hc => (hcs c hc).2.2).trans hgroups

/-- What is written has one child for each segment, and every entry at its own path. -/
structure Emitted.Inverts (t : Emitted) (es : List FlatEntry) : Prop where
  distinct : t.Distinct
  leaves : (t.leaves []).Perm (es.map fun e => (e.key, some e))

/-- Emission inverts flattening for the lists whose levels can be emitted. -/
theorem emitJson_inverts_iff {pf : PrintFloat} {buf : List UInt8} {indent : Option (List UInt8)}
    (hsorted : es.Pairwise fun a b => flatEntryCmp a b < 0) :
    (∃ t, emitJson pf buf indent es (pathSize + 1) [] 0 = .ok (t.text pf buf indent 0) ∧
        Emits es [] t ∧ t.Inverts es) ↔
      (∀ e ∈ es, IsPlain e.key ∧ e.key.length < pathSize) ∧ Emittable es [] es := by
  have hle : es.Pairwise fun a b => flatEntryCmp a b ≤ 0 := hsorted.imp fun hlt => hlt.le
  constructor
  · rintro ⟨t, -, ht, hinverts⟩
    refine ⟨fun e he => ?_, ht.emittable hle hinverts.leaves (.inr fun e he _ _ => he)⟩
    have hleaf := hinverts.leaves.mem_iff.mpr (List.mem_map_of_mem (f := fun e => (e.key, some e)) he)
    obtain ⟨-, -, hplain, hlen⟩ := ht.isPrefix_key hleaf rfl
    exact ⟨hplain, hlen (by decide)⟩
  · rintro ⟨hes, hlevels⟩
    have hdistinct : (es.map FlatEntry.key).Nodup := by
      refine List.pairwise_map.mpr (hsorted.imp fun {a b} hlt heq => ?_)
      have hzero := (entryCmp_spec ⟨a.key, .null⟩ ⟨b.key, .null⟩).2.mpr heq
      have hsame : flatEntryCmp a b = entryCmp ⟨a.key, .null⟩ ⟨b.key, .null⟩ := rfl
      omega
    obtain ⟨t, ht, hnames, hleaves⟩ := hlevels.emits hle hdistinct hes fun e he => he
    exact ⟨t, ht.emitJson_eq (Nat.succ_pos _) (by simp), ht, hnames, hleaves⟩

end Exact

/-! ## Siblings -/

/-- The entries of `{"a":{"x":true},"b":[false,null]}`. -/
def nestedEntries : List FlatEntry :=
  [⟨[0x61, 0x2E, 0x78], .bool true⟩, ⟨[0x62, 0x5B, 0x30, 0x5D], .bool false⟩, ⟨[0x62, 0x5B, 0x31, 0x5D], .null⟩]

theorem emitJson_inverts_iff_nested :
    (∃ t, emitJson ⟨fun _ => [], fun _ => []⟩ [] none nestedEntries (pathSize + 1) [] 0 =
          .ok (t.text ⟨fun _ => [], fun _ => []⟩ [] none 0) ∧
        Emits nestedEntries [] t ∧ t.Inverts nestedEntries) ↔
      (∀ e ∈ nestedEntries, IsPlain e.key ∧ e.key.length < pathSize) ∧ Emittable nestedEntries [] nestedEntries :=
  emitJson_inverts_iff (by decide +kernel)

/-- The entries of `{"a":true,"ab":false}`. -/
def siblingEntries : List FlatEntry := [⟨[0x61], .bool true⟩, ⟨[0x61, 0x62], .bool false⟩]

/-- `{"a":{"b":null},"ab":false}`. -/
def siblingText : List UInt8 :=
  [0x7B, 0x22, 0x61, 0x22, 0x3A, 0x7B, 0x22, 0x62, 0x22, 0x3A, 0x6E, 0x75, 0x6C, 0x6C, 0x7D, 0x2C, 0x22, 0x61,
    0x62, 0x22, 0x3A, 0x66, 0x61, 0x6C, 0x73, 0x65, 0x7D]

theorem emits_siblingEntries : Emits siblingEntries [] (.container false
    [([0x61], .container false [([0x62], .null)]), ([0x61, 0x62], .value ⟨[0x61, 0x62], .bool false⟩)]) := by
  have hinner : Emits siblingEntries [0x61] (.container false [([0x62], .null)]) := by
    have hobject : isArrayLevel siblingEntries [0x61] = false := by decide +kernel
    rw [← hobject]
    refine .container (by decide +kernel) (by decide +kernel) (by decide +kernel) fun c hc => ?_
    obtain rfl := List.mem_singleton.mp hc
    exact .null (by decide +kernel) (by decide +kernel)
  have hobject : isArrayLevel siblingEntries [] = false := by decide +kernel
  rw [← hobject]
  refine .container (by decide +kernel) (by decide +kernel) (by decide +kernel) fun c hc => ?_
  obtain rfl | hc := List.mem_cons.mp hc
  · exact hinner
  · obtain rfl := List.mem_singleton.mp hc
    exact .value (by decide +kernel) (by decide +kernel)

/-- The key `ab` begins with the key `a`, whose value is lost. -/
theorem siblings_not_inverted :
    (∃ v : Json (List UInt8) NumLit, flatten (fun _ => 0) v =
        siblingEntries.map fun e => (e.key, some (e.val.map (Slice.read [])))) ∧
      (siblingEntries.Pairwise fun a b => flatEntryCmp a b < 0) ∧
      emitJson ⟨fun _ => [], fun _ => []⟩ [] none siblingEntries (pathSize + 1) [] 0 = .ok siblingText ∧
      ∀ t, Emits siblingEntries [] t → ¬ t.Inverts siblingEntries := by
  refine ⟨⟨.obj [([0x61], .bool true), ([0x61, 0x62], .bool false)], by decide +kernel⟩, by decide +kernel,
    by decide +kernel, fun t ht hinverts => ?_⟩
  obtain rfl := ht.unique emits_siblingEntries
  have hleaf : ([0x61, 0x2E, 0x62], none) ∈ siblingEntries.map fun e => (e.key, some e) :=
    hinverts.leaves.mem_iff.mp (by simp [Emitted.leaves, Emitted.childLeaves, Emitted.childSeg, pushSeg, point])
  obtain ⟨e, -, heq⟩ := List.mem_map.mp hleaf
  exact absurd (congrArg Prod.snd heq) (by simp)

end Triepack
