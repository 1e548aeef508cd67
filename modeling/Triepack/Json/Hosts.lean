import Triepack.Json.Inverse
import Triepack.Json.TextReads
import Triepack.Library.JsonSame

/-!
# Emission of a flattened value

The entries behind a prefix are the leaves of a value, so the value is emitted there: the members
of its objects, and the elements of its arrays in the order of the bytes of their indices. A name
that begins another name of its object must not be taken for the container of the other one.
-/

namespace Triepack

open JsonText Json

/-! ## The order of decoded elements -/

/-- The indices of `n` elements in the order of their texts. -/
def indexOrder (n : Nat) : List Nat := (List.range n).insertionSort fun i j => indexText i ≤ indexText j

theorem perm_indexOrder (n : Nat) : (indexOrder n).Perm (List.range n) := List.perm_insertionSort _ _

theorem indexOrder_eq_range {n : Nat} (h : n ≤ 10) : indexOrder n = List.range n := by
  have hall : ∀ n ≤ 10, indexOrder n = List.range n := by decide +kernel
  exact hall n h

theorem le_of_append_le {as bs rest rest' : List UInt8} (hnot : ¬ bs <+: as) (h : as ++ rest ≤ bs ++ rest') :
    as ≤ bs := by
  induction as generalizing bs with
  | nil => exact List.nil_le bs
  | cons a as ih =>
    cases bs with
    | nil => exact absurd List.nil_prefix hnot
    | cons b bs =>
      rw [List.cons_append, List.cons_append, List.cons_le_cons_iff] at h
      rw [List.cons_le_cons_iff]
      refine h.imp_right fun ⟨heq, hle⟩ => ⟨heq, ih (fun hpre => hnot ?_) hle⟩
      exact List.cons_prefix_cons.mpr ⟨heq.symm, hpre⟩

/-- The segments of an array come in the order of their texts. -/
theorem HoldsElements.uniqueSegments_eq_indexOrder {es : List FlatEntry} {pre : List UInt8} {n : Nat}
    (h : HoldsElements es pre n) (hsorted : es.Pairwise fun a b => flatEntryCmp a b ≤ 0) :
    uniqueSegments pre.length (keysBehind es pre) = (indexOrder n).map indexText := by
  have hperm : (uniqueSegments pre.length (keysBehind es pre)).Perm ((indexOrder n).map indexText) := by
    refine (List.perm_ext_iff_of_nodup nodup_uniqueSegments ?_).mpr fun seg => ?_
    · exact (((perm_indexOrder n).map indexText).nodup_iff).mpr (List.nodup_range.map indexText_injective)
    · rw [((perm_indexOrder n).map indexText).mem_iff]
      simp [h.mem_uniqueSegments_iff, eq_comm]
  have hsegs : (uniqueSegments pre.length (keysBehind es pre)).Pairwise (· ≤ ·) := by
    refine (h.pairwise_le hsorted).imp_of_mem ?_
    rintro s t hs ht ⟨rest, rest', hle⟩
    obtain ⟨i, -, rfl⟩ := h.mem_uniqueSegments_iff.mp hs
    obtain ⟨j, -, rfl⟩ := h.mem_uniqueSegments_iff.mp ht
    by_cases hij : i = j
    · rw [hij]
      exact List.le_refl _
    · refine le_of_append_le (fun hpre => hij ?_) hle
      exact @Filled.index_inj [] _ _ _ (List.prefix_refl _) hpre
  have horder : ((indexOrder n).map indexText).Pairwise (· ≤ ·) := by
    refine List.pairwise_map.mpr ?_
    exact List.pairwise_insertionSort _ _
  exact hperm.eq_of_pairwise (fun s t _ _ => List.le_antisymm) hsegs horder

/-! ## Names -/

/-- An object with a member of a name. -/
def HasMember {ν : Type} (k : List UInt8) : Json (List UInt8) ν → Prop
  | .obj ms => k ∈ ms.map Prod.fst
  | _ => False

mutual

/-- A name that begins another name of its object is that of an object, which has a member with the
rest of the other name. -/
def Apart {ν : Type} : Json (List UInt8) ν → Prop
  | .arr vs => ElementsApart vs
  | .obj ms => (∀ m ∈ ms, ∀ rest ≠ [], m.1 ++ rest ∈ ms.map Prod.fst → HasMember rest m.2) ∧ MembersApart ms
  | _ => True

def ElementsApart {ν : Type} : List (Json (List UInt8) ν) → Prop
  | [] => True
  | v :: vs => Apart v ∧ ElementsApart vs

def MembersApart {ν : Type} : List (List UInt8 × Json (List UInt8) ν) → Prop
  | [] => True
  | (_, v) :: ms => Apart v ∧ MembersApart ms

end

theorem elementsApart_iff {ν : Type} {vs : List (Json (List UInt8) ν)} :
    ElementsApart vs ↔ ∀ v ∈ vs, Apart v := by
  induction vs with
  | nil => simp [ElementsApart]
  | cons v vs ih => rw [ElementsApart, ih, List.forall_mem_cons]

theorem membersApart_iff {ν : Type} {ms : List (List UInt8 × Json (List UInt8) ν)} :
    MembersApart ms ↔ ∀ m ∈ ms, Apart m.2 := by
  induction ms with
  | nil => simp [MembersApart]
  | cons m ms ih => rw [MembersApart, ih, List.forall_mem_cons]

/-- A name in front of more text is that in front of the next separator. -/
theorem name_of_append {k k' rest rest' : List UInt8} (hk : ∀ b ∈ k, inSegment b = true)
    (hk' : ∀ b ∈ k', inSegment b = true) (hrest' : ∀ b ∈ rest'.head?, inSegment b = false)
    (h : k ++ rest = k' ++ rest') : k ++ rest.takeWhile inSegment = k' := by
  have hsplit := List.takeWhile_append_dropWhile (p := inSegment) (l := rest)
  rw [← hsplit, ← List.append_assoc] at h
  have hbehind : ∀ b ∈ (rest.dropWhile inSegment).head?, inSegment b = false := by
    intro b hb
    have hstop := List.head?_dropWhile_not inSegment rest
    rwa [Option.mem_def.mp hb] at hstop
  have hfront : ∀ b ∈ k ++ rest.takeWhile inSegment, inSegment b = true :=
    fun b hb => (List.mem_append.mp hb).elim (hk b) List.mem_takeWhile_imp
  exact (append_inj_of_all hfront hk' hbehind hrest' h).1

theorem flatMap_segText_eq_nil_iff {pos : List (Seg (List UInt8))} : pos.flatMap segText = [] ↔ pos = [] := by
  cases pos with
  | nil => simp
  | cons s pos => cases s <;> simp [segText, indexText]

/-- The path of a leaf goes on from the name of its member. -/
theorem pathText_member {k : List UInt8} (hk : k ≠ []) (path : List UInt8) (pos : List (Seg (List UInt8))) :
    pathText path (.key k :: pos) = pushSeg path (.key (k ++ pos.flatMap segText)) := by
  rw [Filled.pushSeg_key_append, ← pathText_of_ne_nil (Filled.pushSeg_key_ne_nil hk)]
  rfl

/-- A leaf is not on the path of another one. -/
theorem eq_of_isPrefix_pathText {u : Json (List UInt8) Int} (hkeys : u.Keyed IsName) (hapart : Apart u)
    {path : List UInt8} {l l' : List (Seg (List UInt8)) × Json (List UInt8) Int} (hl : l ∈ u.leaves)
    (hl' : l' ∈ u.leaves) (h : pathText path l.1 <+: pathText path l'.1) : l.1 = l'.1 := by
  induction u using Json.induction_on generalizing path l l' with
  | null | bool | num | str =>
    obtain rfl := List.mem_singleton.mp hl
    obtain rfl := List.mem_singleton.mp hl'
    rfl
  | arr us ih =>
    rw [Keyed, keyedElements_iff] at hkeys
    rw [Apart, elementsApart_iff] at hapart
    obtain ⟨i, hi, l, hin, rfl⟩ := mem_elementLeaves.mp hl
    obtain ⟨j, hj, l', hin', rfl⟩ := mem_elementLeaves.mp hl'
    rw [Nat.zero_add, Nat.zero_add] at h ⊢
    have hindex : path ++ indexText i <+: pathText path (.idx j :: l'.1) := (isPrefix_pathText _ _).trans h
    have hindex' : path ++ indexText j <+: pathText path (.idx j :: l'.1) := isPrefix_pathText _ _
    obtain rfl := Filled.index_inj hindex hindex'
    have hmem := List.getElem_mem hi
    exact congrArg (List.cons _) (ih _ hmem (hkeys _ hmem) (hapart _ hmem) hin hin' h)
  | obj ms ih =>
    obtain ⟨hnames, hnodup, hms⟩ := hkeys
    rw [keyedMembers_iff] at hms
    rw [Apart, membersApart_iff] at hapart
    obtain ⟨m, hm, l, hin, rfl⟩ := mem_memberLeaves.mp hl
    obtain ⟨m', hm', l', hin', rfl⟩ := mem_memberLeaves.mp hl'
    have hname := hnames m hm
    have hname' := hnames m' hm'
    have heq : m.1 = m'.1 := by
      simp only [pathText_member hname.1, pathText_member hname'.1] at h
      obtain ⟨rest, hrest⟩ := Filled.of_isPrefix_pushSeg h
      rw [List.append_assoc] at hrest
      have hfront := name_of_append hname.2 hname'.2 (head_flatMap_segText l'.1) hrest
      by_cases hnil : (l.1.flatMap segText ++ rest).takeWhile inSegment = []
      · rwa [hnil, List.append_nil] at hfront
      · -- then nothing stands behind the name, though it is that of an object
        exfalso
        have hpos : l.1 = [] := by
          rw [← flatMap_segText_eq_nil_iff]
          by_contra hne
          obtain ⟨b, more, hmore⟩ := List.exists_cons_of_ne_nil hne
          have hb := head_flatMap_segText l.1 b (by rw [hmore]; rfl)
          rw [hmore, List.cons_append, List.takeWhile_cons, if_neg (by simp [hb])] at hnil
          exact hnil rfl
        have hmember := hapart.1 m hm _ hnil (hfront ▸ List.mem_map_of_mem hm')
        cases hvalue : m.2 with
        | obj ns =>
          rw [hvalue] at hin
          obtain ⟨n, -, l'', -, heq⟩ := mem_memberLeaves.mp hin
          rw [heq] at hpos
          simp at hpos
        | null | bool | num | str | arr =>
          rw [hvalue] at hmember
          exact hmember
    obtain rfl := List.inj_on_of_nodup_map hnodup hm hm' heq
    exact congrArg (List.cons _) (ih m hm (hms m hm) (hapart.2 m hm) hin hin' h)

/-! ## The entries of a value -/

/-- No segment is cut behind the prefix. -/
def AtBoundary (pre key : List UInt8) : Prop :=
  pre = [] ∨ ∀ b ∈ (key.drop pre.length).head?, inSegment b = false

/-- The entries behind a prefix are the leaves of a value. -/
structure Hosts (es : List FlatEntry) (buf pre : List UInt8) (u : Json (List UInt8) Int) : Prop where
  entry : ∀ l ∈ u.leaves, ∃ e ∈ es, e.key = pathText pre l.1 ∧ (e.val.map (Slice.read buf)).scalar = some l.2
  leaf : ∀ e ∈ es, pre <+: e.key → AtBoundary pre e.key → ∃ l ∈ u.leaves, e.key = pathText pre l.1

/-- The other keys with the prefix go on with the name of a member. -/
def KnowsOthers (es : List FlatEntry) (pre : List UInt8) (u : Json (List UInt8) Int) : Prop :=
  ∀ e ∈ es, pre <+: e.key → ¬ AtBoundary pre e.key → HasMember (segmentOf pre.length e.key) u

/-- A path is cut at a boundary. -/
theorem atBoundary_pathText {path : List UInt8} (h : path ≠ []) (pos : List (Seg (List UInt8))) :
    AtBoundary path (pathText path pos) := by
  rw [pathText_of_ne_nil h]
  refine .inr ?_
  rw [List.drop_left]
  exact head_flatMap_segText pos

section Hosts

variable {es : List FlatEntry} {buf pre : List UInt8}

theorem leaves_of_isScalar {u : Json (List UInt8) Int} (h : u.IsScalar) : u.leaves = [([], u)] := by
  cases u <;> first | rfl | exact h.elim

/-- A key that goes on at a boundary is that of a leaf inside of the value. -/
theorem Hosts.exists_leaf {u : Json (List UInt8) Int} (h : Hosts es buf pre u) {e : FlatEntry} (he : e ∈ es)
    (hgoes : GoesOn pre e.key) (hat : AtBoundary pre e.key) :
    ∃ s pos c, (s :: pos, c) ∈ u.leaves ∧ e.key = pathText (pushSeg pre s) pos := by
  obtain ⟨⟨pos, c⟩, hl, hkey⟩ := h.leaf e he hgoes.1 hat
  cases pos with
  | nil =>
    obtain ⟨-, -, hlt⟩ := hgoes
    rw [hkey] at hlt
    have hstart : pre.length ≤ segStart pre.length pre := by
      unfold segStart
      split_ifs <;> omega
    exact absurd hlt (Nat.not_lt.mpr hstart)
  | cons s pos => exact ⟨s, pos, c, hl, hkey⟩

/-! ### Scalars -/

theorem Hosts.keysBehind_eq_nil {u : Json (List UInt8) Int} (h : Hosts es buf pre u) (hu : u.IsScalar)
    (hothers : KnowsOthers es pre u) : keysBehind es pre = [] := by
  refine List.eq_nil_iff_forall_not_mem.mpr fun key hkey => ?_
  obtain ⟨⟨e, he, rfl⟩, hgoes⟩ := mem_keysBehind.mp hkey
  by_cases hat : AtBoundary pre e.key
  · obtain ⟨s, pos, c, hl, -⟩ := h.exists_leaf he hgoes hat
    simp [leaves_of_isScalar hu] at hl
  · have hmember := hothers e he hgoes.1 hat
    cases u <;> first | exact hmember.elim | exact hu.elim

/-! ### Arrays -/

section Array

variable {us : List (Json (List UInt8) Int)} (h : Hosts es buf pre (.arr us))

include h

/-- A key of an array, and the element that it belongs to. -/
theorem Hosts.exists_element {e : FlatEntry} (he : e ∈ es) (hgoes : GoesOn pre e.key) (hat : AtBoundary pre e.key) :
    ∃ i, ∃ hi : i < us.length, ∃ l ∈ (us[i]).leaves, e.key = pathText (pre ++ indexText i) l.1 := by
  obtain ⟨s, pos, c, hl, hkey⟩ := h.exists_leaf he hgoes hat
  obtain ⟨i, hi, l, hmem, heq⟩ := mem_elementLeaves.mp hl
  obtain ⟨hhead, rfl⟩ := Prod.mk.inj heq
  obtain ⟨rfl, rfl⟩ := List.cons.inj hhead
  rw [Nat.zero_add] at hkey
  exact ⟨i, hi, l, hmem, hkey⟩

theorem Hosts.entry_element {i : Nat} (hi : i < us.length) {l : List (Seg (List UInt8)) × Json (List UInt8) Int}
    (hl : l ∈ (us[i]).leaves) : ∃ e ∈ es, e.key = pathText (pre ++ indexText i) l.1 ∧
      (e.val.map (Slice.read buf)).scalar = some l.2 := by
  have hmem : (.idx i :: l.1, l.2) ∈ (Json.arr us).leaves :=
    mem_elementLeaves.mpr ⟨i, hi, l, hl, by rw [Nat.zero_add]⟩
  exact h.entry _ hmem

theorem Hosts.holdsElements (hothers : KnowsOthers es pre (.arr us)) (hplain : ∀ e ∈ es, IsPlain e.key)
    (hus : ∀ u ∈ us, u.NoEmpty) : HoldsElements es pre us.length := by
  have hkeys : ∀ key ∈ keysBehind es pre, ∃ i < us.length, pre ++ indexText i <+: key := by
    intro key hkey
    obtain ⟨⟨e, he, rfl⟩, hgoes⟩ := mem_keysBehind.mp hkey
    have hat : AtBoundary pre e.key := by
      by_contra hnot
      exact (hothers e he hgoes.1 hnot).elim
    obtain ⟨i, hi, l, -, hpath⟩ := h.exists_element he hgoes hat
    exact ⟨i, hi, hpath ▸ isPrefix_pathText _ _⟩
  refine ⟨fun key hkey => ?_, fun i => ⟨?_, fun hi => ?_⟩⟩
  · obtain ⟨i, -, hi⟩ := hkeys key hkey
    exact ⟨i, hi⟩
  · rintro ⟨key, hkey, hindex⟩
    obtain ⟨j, hj, hindex'⟩ := hkeys key hkey
    rwa [Filled.index_inj hindex hindex']
  · obtain ⟨l, hl⟩ := List.exists_mem_of_ne_nil _ (leaves_ne_nil (hus _ (List.getElem_mem hi)))
    obtain ⟨e, he, hkey, -⟩ := h.entry_element hi hl
    have hindex : pre ++ indexText i <+: e.key := hkey ▸ isPrefix_pathText _ _
    exact ⟨e.key, mem_keysBehind.mpr ⟨⟨e, he, rfl⟩, Filled.goesOn_of_index (hplain e he) hindex⟩, hindex⟩

theorem Hosts.leaf_of_index (hplain : ∀ e ∈ es, IsPlain e.key) {i : Nat} (hi : i < us.length) {e : FlatEntry}
    (he : e ∈ es) (hindex : pre ++ indexText i <+: e.key) :
    ∃ l ∈ (us[i]).leaves, e.key = pathText (pre ++ indexText i) l.1 := by
  have hat : AtBoundary pre e.key := by
    obtain ⟨rest, hrest⟩ := hindex
    refine .inr ?_
    rw [← hrest, List.append_assoc, List.drop_left]
    simp [indexText, inSegment]
  obtain ⟨j, hj, l, hl, hkey⟩ := h.exists_element he (Filled.goesOn_of_index (hplain e he) hindex) hat
  have hindex' : pre ++ indexText j <+: e.key := hkey ▸ isPrefix_pathText _ _
  obtain rfl := Filled.index_inj hindex hindex'
  exact ⟨l, hl, hkey⟩

/-- The entries of an element. -/
theorem Hosts.element (hplain : ∀ e ∈ es, IsPlain e.key) {i : Nat} (hi : i < us.length) :
    Hosts es buf (pre ++ indexText i) us[i] where
  entry _ hl := h.entry_element hi hl
  leaf _ he hindex _ := h.leaf_of_index hplain hi he hindex

/-- Behind an index all keys are at a boundary. -/
theorem Hosts.knowsOthers_element (hplain : ∀ e ∈ es, IsPlain e.key) {i : Nat} (hi : i < us.length) :
    KnowsOthers es (pre ++ indexText i) us[i] := by
  intro e he hindex hnot
  obtain ⟨l, -, hkey⟩ := h.leaf_of_index hplain hi he hindex
  refine absurd ?_ hnot
  rw [hkey]
  exact atBoundary_pathText (by simp [indexText]) _

end Array

/-! ### Objects -/

section Object

variable {ms : List (List UInt8 × Json (List UInt8) Int)} (h : Hosts es buf pre (.obj ms))

include h

theorem Hosts.entry_member {m : List UInt8 × Json (List UInt8) Int} (hm : m ∈ ms)
    {l : List (Seg (List UInt8)) × Json (List UInt8) Int} (hl : l ∈ m.2.leaves) :
    ∃ e ∈ es, e.key = pathText (pushSeg pre (.key m.1)) l.1 ∧
      (e.val.map (Slice.read buf)).scalar = some l.2 := by
  have hmem : (.key m.1 :: l.1, l.2) ∈ (Json.obj ms).leaves := mem_memberLeaves.mpr ⟨m, hm, l, hl, rfl⟩
  exact h.entry _ hmem

/-- A key of an object, and the member that it belongs to. -/
theorem Hosts.exists_member {e : FlatEntry} (he : e ∈ es) (hgoes : GoesOn pre e.key) (hat : AtBoundary pre e.key) :
    ∃ m ∈ ms, ∃ l ∈ m.2.leaves, e.key = pathText (pushSeg pre (.key m.1)) l.1 := by
  obtain ⟨s, pos, c, hl, hkey⟩ := h.exists_leaf he hgoes hat
  obtain ⟨m, hm, l, hmem, heq⟩ := mem_memberLeaves.mp hl
  obtain ⟨hhead, rfl⟩ := Prod.mk.inj heq
  obtain ⟨rfl, rfl⟩ := List.cons.inj hhead
  exact ⟨m, hm, l, hmem, hkey⟩

omit h in
theorem IsName.head_ne {k : List UInt8} (hk : IsName k) : k.head? ≠ some point := fun hpoint =>
  absurd (hk.2 point (List.mem_of_mem_head? hpoint)) (by decide)

omit h in
/-- The segment of a key of a member is its name. -/
theorem segmentOf_member {k : List UInt8} (hk : IsName k) (pos : List (Seg (List UInt8))) :
    segmentOf pre.length (pathText (pushSeg pre (.key k)) pos) = k := by
  rw [pathText_of_ne_nil (Filled.pushSeg_key_ne_nil hk.1), segmentOf_pushSeg hk.1 hk.head_ne]
  exact nextSegment_name hk.1 hk.2 (head_flatMap_segText pos)

omit h in
theorem atIndex_eq_false {n : Nat} {key : List UInt8} (h : IsName (segmentOf n key)) : atIndex n key = false := by
  by_contra hindex
  have hget : key[segStart n key]? = some openBracket := by simpa [atIndex] using hindex
  obtain ⟨hlt, heq⟩ := List.getElem?_eq_some_iff.mp hget
  have hseg : (segmentOf n key).head? = some openBracket := by
    rw [segmentOf, List.drop_eq_getElem_cons hlt, heq, nextSegment, if_pos rfl, List.head?_cons]
  exact absurd (h.2 openBracket (List.mem_of_mem_head? hseg)) (by decide)

/-- The segments of an object are the names of its members. -/
theorem Hosts.mem_uniqueSegments_iff (hnames : ∀ m ∈ ms, IsName m.1) (hothers : KnowsOthers es pre (.obj ms))
    (hplain : ∀ e ∈ es, IsPlain e.key) (hms : ∀ m ∈ ms, m.2.NoEmpty) {seg : List UInt8} :
    seg ∈ uniqueSegments pre.length (keysBehind es pre) ↔ seg ∈ ms.map Prod.fst := by
  rw [mem_uniqueSegments]
  constructor
  · rintro ⟨-, key, hkey, rfl⟩
    obtain ⟨⟨e, he, rfl⟩, hgoes⟩ := mem_keysBehind.mp hkey
    by_cases hat : AtBoundary pre e.key
    · obtain ⟨m, hm, l, -, hpath⟩ := h.exists_member he hgoes hat
      rw [hpath, segmentOf_member (hnames m hm)]
      exact List.mem_map_of_mem hm
    · exact hothers e he hgoes.1 hat
  · intro hseg
    obtain ⟨m, hm, rfl⟩ := List.mem_map.mp hseg
    obtain ⟨l, hl⟩ := List.exists_mem_of_ne_nil _ (leaves_ne_nil (hms m hm))
    obtain ⟨e, he, hpath, -⟩ := h.entry_member hm hl
    have hname := hnames m hm
    have hsegment : segmentOf pre.length e.key = m.1 := by rw [hpath, segmentOf_member hname]
    have hpre : pre <+: e.key := hpath ▸ (isPrefix_pushSeg pre _).trans (isPrefix_pathText _ _)
    have hgoes := Filled.goesOn_of_segmentOf (hplain e he) hpre (hsegment ▸ hname.1)
    exact ⟨hname.1, e.key, mem_keysBehind.mpr ⟨⟨e, he, rfl⟩, hgoes⟩, hsegment⟩

theorem Hosts.isArrayLevel_eq_false (hnames : ∀ m ∈ ms, IsName m.1) (hothers : KnowsOthers es pre (.obj ms))
    (hplain : ∀ e ∈ es, IsPlain e.key) (hms : ∀ m ∈ ms, m.2.NoEmpty) (hne : ms ≠ []) :
    isArrayLevel es pre = false := by
  obtain ⟨m, hm⟩ := List.exists_mem_of_ne_nil _ hne
  have hseg := (h.mem_uniqueSegments_iff hnames hothers hplain hms).mpr (List.mem_map_of_mem hm)
  obtain ⟨-, key, hkey, hkeyseg⟩ := mem_uniqueSegments.mp hseg
  refine List.all_eq_false.mpr ⟨key, hkey, ?_⟩
  rw [atIndex_eq_false (hkeyseg ▸ hnames m hm)]
  exact Bool.false_ne_true

/-- A key behind a name is that of a leaf of some member. -/
theorem Hosts.leaf_of_name (hplain : ∀ e ∈ es, IsPlain e.key) {k : List UInt8} (hk : IsName k) {e : FlatEntry}
    (he : e ∈ es) (hpre : pushSeg pre (.key k) <+: e.key) :
    ∃ m ∈ ms, ∃ l ∈ m.2.leaves, e.key = pathText (pushSeg pre (.key m.1)) l.1 := by
  obtain ⟨rest, hrest⟩ := hpre
  have hseg : segmentOf pre.length e.key ≠ [] := by
    rw [← hrest, segmentOf_pushSeg hk.1 hk.head_ne]
    have hhead := hk.head_ne
    obtain ⟨b, k, rfl⟩ := List.exists_cons_of_ne_nil hk.1
    have hb : b ≠ point := by simpa using hhead
    simp [nextSegment_eq_nil_iff, hb]
  have hat : AtBoundary pre e.key := by
    by_cases hnil : pre = []
    · exact .inl hnil
    · refine .inr ?_
      rw [← hrest, pushSeg, if_pos (List.length_pos_iff.mpr hnil), List.append_assoc, List.drop_left]
      simp [inSegment]
  have hstart : pre <+: e.key := (isPrefix_pushSeg pre _).trans ⟨rest, hrest⟩
  exact h.exists_member he (Filled.goesOn_of_segmentOf (hplain e he) hstart hseg) hat

/-- The entries of a member. -/
theorem Hosts.member (hplain : ∀ e ∈ es, IsPlain e.key) (hnames : ∀ m ∈ ms, IsName m.1)
    (hnodup : (ms.map Prod.fst).Nodup) {m : List UInt8 × Json (List UInt8) Int} (hm : m ∈ ms) :
    Hosts es buf (pushSeg pre (.key m.1)) m.2 where
  entry _ hl := h.entry_member hm hl
  leaf e he hpre hat := by
    obtain ⟨m', hm', l, hl, hpath⟩ := h.leaf_of_name hplain (hnames m hm) he hpre
    have hname := hnames m hm
    have hsegment : segmentOf pre.length e.key = m'.1 := by rw [hpath, segmentOf_member (hnames m' hm')]
    -- the name is the segment of the key, too
    have heq : m'.1 = m.1 := by
      rw [← hsegment]
      obtain ⟨rest, hrest⟩ := hpre
      have hsep := hat.resolve_left (Filled.pushSeg_key_ne_nil hname.1)
      rw [← hrest, List.drop_left] at hsep
      rw [← hrest, segmentOf_pushSeg hname.1 hname.head_ne, nextSegment_name hname.1 hname.2 hsep]
    obtain rfl := List.inj_on_of_nodup_map hnodup hm' hm heq
    exact ⟨l, hl, hpath⟩

/-- Behind a name that begins other names, the keys go on with members of its object. -/
theorem Hosts.knowsOthers_member (hplain : ∀ e ∈ es, IsPlain e.key) (hnames : ∀ m ∈ ms, IsName m.1)
    {m : List UInt8 × Json (List UInt8) Int} (hm : m ∈ ms)
    (hapart : ∀ rest ≠ [], m.1 ++ rest ∈ ms.map Prod.fst → HasMember rest m.2) :
    KnowsOthers es (pushSeg pre (.key m.1)) m.2 := by
  intro e he hpre hnot
  obtain ⟨m', hm', l, hl, hpath⟩ := h.leaf_of_name hplain (hnames m hm) he hpre
  obtain ⟨rest, hrest⟩ := hpre
  have hne : pushSeg pre (.key m.1) ≠ [] := Filled.pushSeg_key_ne_nil (hnames m hm).1
  obtain ⟨b, more, rfl, hb⟩ : ∃ b more, rest = b :: more ∧ inSegment b = true := by
    by_contra hcon
    refine hnot (.inr fun b hb => ?_)
    rw [← hrest, List.drop_left] at hb
    obtain ⟨more, rfl⟩ := List.head?_eq_some_iff.mp hb
    by_contra hin
    exact hcon ⟨b, more, rfl, by simpa using hin⟩
  -- what stands behind the prefix up to the next separator is its segment
  have hsegment : segmentOf (pushSeg pre (.key m.1)).length e.key = (b :: more).takeWhile inSegment := by
    have hpoint : b ≠ point := by
      rintro rfl
      exact absurd hb (by decide)
    have hbracket : b ≠ openBracket := by
      rintro rfl
      exact absurd hb (by decide)
    have hstart : segStart (pushSeg pre (.key m.1)).length e.key = (pushSeg pre (.key m.1)).length := by
      rw [segStart, ← hrest]
      simp [hpoint]
    rw [segmentOf, hstart, ← hrest, List.drop_left, nextSegment, if_neg hbracket]
  rw [hsegment]
  refine hapart _ (by simp [hb]) ?_
  -- with it the name is that of the other member
  rw [pathText_of_ne_nil (Filled.pushSeg_key_ne_nil (hnames m' hm').1), ← hrest, ← Filled.pushSeg_key_append,
    ← Filled.pushSeg_key_append] at hpath
  have hnamed : m.1 ++ b :: more = m'.1 ++ l.1.flatMap segText := by
    have hlen := congrArg List.length hpath
    have hsub : m.1 ++ b :: more <+: m'.1 ++ l.1.flatMap segText :=
      @Filled.of_isPrefix_pushSeg pre _ _ (by rw [hpath])
    refine hsub.eq_of_length ?_
    unfold pushSeg at hlen
    split_ifs at hlen <;> simpa using hlen
  rw [name_of_append (hnames m hm).2 (hnames m' hm').2 (head_flatMap_segText l.1) hnamed]
  exact List.mem_map_of_mem hm'

end Object

/-! ### Trees -/

/-- A tree behind a prefix that denotes a value, its arrays in the order of the texts of their indices. -/
def EmitsAs (es : List FlatEntry) (buf pre : List UInt8) (u : Json (List UInt8) Int) (t : Emitted) : Prop :=
  Emits es pre t ∧ (t.doc buf).Same (u.reorder indexOrder)

theorem same_reorder_of_isScalar {u : Json (List UInt8) Int} (h : u.IsScalar) (order : Nat → List Nat) :
    u.Same (u.reorder order) := by
  cases u with
  | null => exact .null
  | bool b => exact .bool b
  | num n => exact .num n
  | str s => exact .str s
  | arr | obj => exact h.elim

theorem Hosts.emits_scalar {u : Json (List UInt8) Int} (h : Hosts es buf pre u) (hu : u.IsScalar)
    (hothers : KnowsOthers es pre u) (hdistinct : (es.map FlatEntry.key).Nodup)
    (hplain : ∀ e ∈ es, IsPlain e.key) : ∃ t, EmitsAs es buf pre u t := by
  obtain ⟨e, he, hkey, hval⟩ := h.entry ([], u) (by simp [leaves_of_isScalar hu])
  obtain rfl : e.key = pre := hkey
  have hdoc : (Emitted.value e).doc buf = u := by
    rw [Emitted.doc, hval]
    rfl
  exact ⟨.value e, .value (h.keysBehind_eq_nil hu hothers) (findLeaf_of_mem hdistinct hplain he),
    hdoc ▸ same_reorder_of_isScalar hu indexOrder⟩

theorem Hosts.length_lt {u : Json (List UInt8) Int} (h : Hosts es buf pre u) (hfull : u.NoEmpty)
    (hlen : ∀ e ∈ es, e.key.length < pathSize) : pre.length < pathSize := by
  obtain ⟨l, hl⟩ := List.exists_mem_of_ne_nil _ (leaves_ne_nil hfull)
  obtain ⟨e, he, hkey, -⟩ := h.entry l hl
  have hpre : pre <+: e.key := hkey ▸ isPrefix_pathText _ _
  exact hpre.length_le.trans_lt (hlen e he)

theorem Hosts.emits_array {us : List (Json (List UInt8) Int)} (h : Hosts es buf pre (.arr us))
    (hothers : KnowsOthers es pre (.arr us)) (hsorted : es.Pairwise fun a b => flatEntryCmp a b ≤ 0)
    (hes : ∀ e ∈ es, IsPlain e.key ∧ e.key.length < pathSize) (hfull : (Json.arr us).NoEmpty)
    (ih : ∀ i, ∀ hi : i < us.length, ∃ t, EmitsAs es buf (pre ++ indexText i) us[i] t) :
    ∃ t, EmitsAs es buf pre (.arr us) t := by
  obtain ⟨hne, hus⟩ := hfull
  rw [noEmptyElements_iff] at hus
  have hplain : ∀ e ∈ es, IsPlain e.key := fun e he => (hes e he).1
  have hlen : ∀ e ∈ es, e.key.length < pathSize := fun e he => (hes e he).2
  have hholds := h.holdsElements hothers hplain hus
  have hsegs := hholds.uniqueSegments_eq_indexOrder hsorted
  have hchildren : ∀ seg ∈ uniqueSegments pre.length (keysBehind es pre), ∃ t, ∃ i, ∃ hi : i < us.length,
      seg = indexText i ∧ EmitsAs es buf (pre ++ indexText i) us[i] t := by
    intro seg hseg
    obtain ⟨i, hi, rfl⟩ := hholds.mem_uniqueSegments_iff.mp hseg
    obtain ⟨t, ht⟩ := ih i hi
    exact ⟨t, i, hi, rfl, ht⟩
  obtain ⟨cs, hfst, hcs⟩ := exists_children hchildren
  have harray := hholds.isArrayLevel_eq
  have hkeys : keysBehind es pre ≠ [] := by
    obtain ⟨key, hkey, -⟩ := (hholds.indices 0).mpr (List.length_pos_iff.mpr hne)
    exact List.ne_nil_of_mem hkey
  refine ⟨.container (isArrayLevel es pre) cs, .container hkeys hfst (fun c hc => ?_) (fun c hc => ?_), ?_⟩
  · obtain ⟨i, hi, hseg, -⟩ := hcs c hc
    rw [harray, childPrefix_true, hseg]
    exact (h.element hplain hi).length_lt (hus _ (List.getElem_mem hi)) hlen
  · obtain ⟨i, hi, hseg, ht, -⟩ := hcs c hc
    rw [harray, childPrefix_true, hseg]
    exact ht
  · rw [harray, Emitted.doc, Emitted.elementDocs_eq, reorder, reorderElements_eq]
    have hcount : cs.length = (indexOrder us.length).length := by
      simpa using congrArg List.length (hfst.trans hsegs)
    refine .arr (by simpa using hcount) fun j hj hj' => ?_
    simp only [List.length_map] at hj hj'
    obtain ⟨i, hi, hseg, -, hsame⟩ := hcs _ (List.getElem_mem hj)
    -- the child is that of the index that the order has here
    have hindex : (indexOrder us.length)[j] = i := by
      have hget := congrArg (fun segs => segs[j]?) (hfst.trans hsegs)
      simp only [List.getElem?_map, List.getElem?_eq_getElem hj, List.getElem?_eq_getElem hj', Option.map_some,
        Option.some.injEq] at hget
      exact indexText_injective (hget.symm.trans hseg)
    simpa [hindex, hi] using hsame

theorem Hosts.emits_object {ms : List (List UInt8 × Json (List UInt8) Int)} (h : Hosts es buf pre (.obj ms))
    (hothers : KnowsOthers es pre (.obj ms)) (hes : ∀ e ∈ es, IsPlain e.key ∧ e.key.length < pathSize)
    (hnames : ∀ m ∈ ms, IsName m.1) (hnodup : (ms.map Prod.fst).Nodup) (hfull : (Json.obj ms).NoEmpty)
    (ih : ∀ m ∈ ms, ∃ t, EmitsAs es buf (pushSeg pre (.key m.1)) m.2 t) :
    ∃ t, EmitsAs es buf pre (.obj ms) t := by
  obtain ⟨hne, hms⟩ := hfull
  rw [noEmptyMembers_iff] at hms
  have hplain : ∀ e ∈ es, IsPlain e.key := fun e he => (hes e he).1
  have hlen : ∀ e ∈ es, e.key.length < pathSize := fun e he => (hes e he).2
  have hmem : ∀ {seg}, seg ∈ uniqueSegments pre.length (keysBehind es pre) ↔ seg ∈ ms.map Prod.fst :=
    h.mem_uniqueSegments_iff hnames hothers hplain hms
  have hchildren : ∀ seg ∈ uniqueSegments pre.length (keysBehind es pre), ∃ t, ∃ m ∈ ms, seg = m.1 ∧
      EmitsAs es buf (pushSeg pre (.key m.1)) m.2 t := by
    intro seg hseg
    obtain ⟨m, hm, rfl⟩ := List.mem_map.mp (hmem.mp hseg)
    obtain ⟨t, ht⟩ := ih m hm
    exact ⟨t, m, hm, rfl, ht⟩
  obtain ⟨cs, hfst, hcs⟩ := exists_children hchildren
  have hobject := h.isArrayLevel_eq_false hnames hothers hplain hms hne
  have hkeys : keysBehind es pre ≠ [] := by
    obtain ⟨m, hm⟩ := List.exists_mem_of_ne_nil _ hne
    obtain ⟨-, key, hkey, -⟩ := mem_uniqueSegments.mp (hmem.mpr (List.mem_map_of_mem hm))
    exact List.ne_nil_of_mem hkey
  refine ⟨.container (isArrayLevel es pre) cs, .container hkeys hfst (fun c hc => ?_) (fun c hc => ?_), ?_⟩
  · obtain ⟨m, hm, hseg, -⟩ := hcs c hc
    rw [hobject, childPrefix_false, hseg]
    exact (h.member hplain hnames hnodup hm).length_lt (hms m hm) hlen
  · obtain ⟨m, hm, hseg, ht, -⟩ := hcs c hc
    rw [hobject, childPrefix_false, hseg]
    exact ht
  · rw [hobject, Emitted.doc, Emitted.memberDocs_eq, reorder, reorderMembers_eq]
    refine .obj ?_ fun k v w hv hw => ?_
    · rw [List.map_map, List.map_map]
      refine (List.perm_ext_iff_of_nodup ?_ hnodup).mpr fun seg => ?_
      · exact hfst ▸ nodup_uniqueSegments
      · exact hfst ▸ hmem
    · obtain ⟨c, hc, heq⟩ := List.mem_map.mp hv
      obtain ⟨rfl, rfl⟩ := Prod.mk.inj heq
      obtain ⟨m, hm, heq'⟩ := List.mem_map.mp hw
      obtain ⟨hname, rfl⟩ := Prod.mk.inj heq'
      obtain ⟨m', hm', hseg, -, hsame⟩ := hcs c hc
      obtain rfl := List.inj_on_of_nodup_map hnodup hm' hm (hseg.symm.trans hname.symm)
      exact hsame

/-- What is hosted behind a prefix is emitted there. -/
theorem Hosts.emits (hsorted : es.Pairwise fun a b => flatEntryCmp a b ≤ 0)
    (hdistinct : (es.map FlatEntry.key).Nodup) (hes : ∀ e ∈ es, IsPlain e.key ∧ e.key.length < pathSize)
    {u : Json (List UInt8) Int} (hkeys : u.Keyed IsName) (hfull : u.NoEmpty) (hapart : Apart u)
    (h : Hosts es buf pre u) (hothers : KnowsOthers es pre u) : ∃ t, EmitsAs es buf pre u t := by
  have hplain : ∀ e ∈ es, IsPlain e.key := fun e he => (hes e he).1
  induction u using Json.induction_on generalizing pre with
  | null | bool | num | str => exact h.emits_scalar trivial hothers hdistinct hplain
  | arr us ih =>
    rw [Keyed, keyedElements_iff] at hkeys
    rw [Apart, elementsApart_iff] at hapart
    refine h.emits_array hothers hsorted hes hfull fun i hi => ?_
    have hmem := List.getElem_mem hi
    exact ih _ hmem (hkeys _ hmem) (noEmptyElements_iff.mp hfull.2 _ hmem) (hapart _ hmem)
      (h.element hplain hi) (h.knowsOthers_element hplain hi)
  | obj ms ih =>
    obtain ⟨hnames, hnodup, hms⟩ := hkeys
    rw [keyedMembers_iff] at hms
    rw [Apart, membersApart_iff] at hapart
    refine h.emits_object hothers hes hnames hnodup hfull fun m hm => ?_
    exact ih m hm (hms m hm) (noEmptyMembers_iff.mp hfull.2 m hm) (hapart.2 m hm)
      (h.member hplain hnames hnodup hm) (h.knowsOthers_member hplain hnames hm (hapart.1 m hm))

end Hosts

end Triepack
