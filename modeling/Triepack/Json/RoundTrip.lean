import Triepack.Json.DecodedText
import Triepack.Json.Hosts
import Triepack.Json.WalkAgrees

/-!
# The JSON round trip

A document that was encoded is decoded to its own value, except that the elements of every array
come in the order of the bytes of their indices. So the value itself comes back exactly when it
does not depend on that order.
-/

namespace Triepack

open JsonText Json

/-! ## Documents -/

/-- The keys that a document is stored under. -/
def storedKeys (v : Tree) : List (List UInt8) := v.denote.leaves.map (fun l => pathText [] l.1) ++ [jsonMetaRoot]

/-- A document with integers, with names that no path is ambiguous about, and without empty
containers, within the limits of the encoder and of the walk. -/
structure Storable (v : Tree) : Prop where
  names : v.value.Keyed fun k => IsName k ∧ IsPlain k
  full : v.value.NoEmpty
  numbers : v.All (fun _ => True) IsStored
  room : HasRoom v
  walk : WalkFits (storedKeys v)
  count : v.denote.leaves.length + 1 < 2 ^ 32

/-- What is decoded is a text of RFC 8259 that denotes a value. -/
def DecodesTo (pf : PrintFloat) (qs : FlatQsort) (indent : Option (List UInt8)) (buf : List UInt8)
    (u : Json (List UInt8) Int) : Prop :=
  ∃ out w u', decodeImpl pf qs indent buf = .ok out ∧ ReadsDoc rfc8259 w out [] ∧ w.Denotes u' ∧ u'.Same u

theorem DecodesTo.congr {pf : PrintFloat} {qs : FlatQsort} {indent : Option (List UInt8)} {buf : List UInt8}
    {u u' : Json (List UInt8) Int} (h : DecodesTo pf qs indent buf u) : DecodesTo pf qs indent buf u' ↔ u.Same u' := by
  obtain ⟨out, w, u₁, hout, hread, ⟨hint, rfl⟩, hsame⟩ := h
  constructor
  · rintro ⟨out', w', u₂, hout', hread', ⟨-, rfl⟩, hsame'⟩
    obtain rfl := Except.ok.inj (hout.symm.trans hout')
    obtain ⟨rfl, -⟩ := hread.unique hread'
    exact hsame.symm.trans hsame'
  · exact fun hsame' => ⟨out, w, _, hout, hread, ⟨hint, rfl⟩, hsame.trans hsame'⟩

section Documents

variable {strtod : List UInt8 → UInt64} {q : Qsort} {v : Tree} {text rest buf : List UInt8}

theorem keys_documentAdditions (strtod : List UInt8 → UInt64) (v : Tree) :
    (documentAdditions strtod v).map Prod.fst = storedKeys v := by
  rw [documentAdditions, List.map_append, flatten, List.map_map]
  rfl

theorem Storable.denote_names (h : Storable v) : v.denote.Keyed fun k => IsName k ∧ IsPlain k := by
  have hnames := h.names
  rwa [value_eq, keyed_map] at hnames

theorem not_isScalar_of_readsDoc {L : Lexicon} (h : ReadsDoc L v text rest) : ¬ v.value.IsScalar := by
  obtain ⟨_, _, _, _, _, hroot⟩ := h
  cases v <;> first | exact hroot.elim | exact id

theorem readsDoc_of_reads {L : Lexicon} (h : Reads L (.value v) text rest) (hroot : ¬ v.value.IsScalar) :
    ReadsDoc L v text rest := by
  refine ⟨[], text, rfl, by simp [IsSpaces], h, ?_⟩
  cases v with
  | arr | obj => trivial
  | null | bool | num | str => exact hroot trivial

theorem isScalar_of_same {u u' : Json (List UInt8) Int} (h : u.Same u') (hu : u.IsScalar) : u'.IsScalar := by
  cases h <;> trivial

theorem isScalar_of_reorder {u : Json (List UInt8) Int} {order : Nat → List Nat} (h : (u.reorder order).IsScalar) :
    u.IsScalar := by
  cases u <;> trivial

theorem same_self {P : List UInt8 → Prop} {u : Json (List UInt8) Int} (h : u.Keyed P) : u.Same u := by
  induction u using Json.induction_on with
  | null => exact .null
  | bool b => exact .bool b
  | num n => exact .num n
  | str s => exact .str s
  | arr us ih =>
    rw [Keyed, keyedElements_iff] at h
    exact .arr rfl fun i hi _ => ih _ (List.getElem_mem hi) (h _ (List.getElem_mem hi))
  | obj ms ih =>
    obtain ⟨-, hnodup, hms⟩ := h
    rw [keyedMembers_iff] at hms
    refine .obj (.refl _) fun k v w hv hw => ?_
    obtain rfl := congrArg Prod.snd (List.inj_on_of_nodup_map hnodup hv hw rfl)
    exact ih _ hv (hms _ hv)

theorem position_ne_nil {u : Json (List UInt8) Int} (h : ¬ u.IsScalar)
    {l : List (Seg (List UInt8)) × Json (List UInt8) Int} (hl : l ∈ u.leaves) : l.1 ≠ [] := by
  cases u with
  | arr us =>
    obtain ⟨i, hi, l', -, rfl⟩ := mem_elementLeaves.mp hl
    simp
  | obj ms =>
    obtain ⟨m, -, l', -, rfl⟩ := mem_memberLeaves.mp hl
    simp
  | null | bool | num | str => exact absurd trivial h

theorem pathText_ne_nil {pos : List (Seg (List UInt8))} (h : KeysIn IsName pos) (hne : pos ≠ []) :
    pathText [] pos ≠ [] := by
  obtain ⟨s, pos, rfl⟩ := List.exists_cons_of_ne_nil hne
  have hpush : pushSeg [] s ≠ [] := by
    cases s with
    | key k => exact (h k List.mem_cons_self).1
    | idx i => simp [pushSeg, indexText]
  have hpre : pushSeg [] s <+: pathText [] (s :: pos) := isPrefix_pathText (pushSeg [] s) pos
  intro hnil
  rw [hnil] at hpre
  exact hpush (List.prefix_nil.mp hpre)

/-- The leaves of the value, as they are stored. -/
theorem mem_leaves_value {l : List (Seg (List UInt8)) × Json (List UInt8) Int} :
    l ∈ v.value.leaves ↔ ∃ l' ∈ v.denote.leaves, (l'.1, l'.2.map id NumLit.toInt) = l := by
  rw [value_eq, leaves_map, List.mem_map]

/-- The path of a leaf is not empty, and does not begin like the name of the root type. -/
theorem Storable.path (h : Storable v) (hroot : ¬ v.value.IsScalar)
    {l : List (Seg (List UInt8)) × Json (List UInt8) NumLit} (hl : l ∈ v.denote.leaves) :
    pathText [] l.1 ≠ [] ∧ IsPlain (pathText [] l.1) := by
  have hkeys := keysIn_leaves h.denote_names l hl
  have hpos : l.1 ≠ [] := position_ne_nil hroot (mem_leaves_value.mpr ⟨l, hl, rfl⟩)
  exact ⟨pathText_ne_nil (fun k hk => (hkeys k hk).1) hpos, head_path hkeys⟩

/-- No stored key lies below another one. -/
theorem Storable.onWayToGreatest (h : Storable v) (hroot : ¬ v.value.IsScalar) (hapart : Apart v.value) :
    OnWayToGreatest (storedKeys v) := by
  intro k hk k' hk' hpre hne
  exfalso
  have hmeta : jsonMetaRoot.head? = some 1 := rfl
  -- a prefix that is not empty has the same first byte
  have hhead : k ≠ [] → k.head? = k'.head? := by
    intro hnil
    obtain ⟨more, rfl⟩ := hpre
    rw [List.head?_append_of_ne_nil _ hnil]
  rcases List.mem_append.mp hk with hk | hk
  · obtain ⟨l, hl, rfl⟩ := List.mem_map.mp hk
    obtain ⟨hnil, hplain⟩ := h.path hroot hl
    rcases List.mem_append.mp hk' with hk' | hk'
    · obtain ⟨l', hl', rfl⟩ := List.mem_map.mp hk'
      have heq := eq_of_isPrefix_pathText (h.names.imp fun _ => And.left) hapart
        (mem_leaves_value.mpr ⟨l, hl, rfl⟩) (mem_leaves_value.mpr ⟨l', hl', rfl⟩) hpre
      exact hne (congrArg (pathText []) heq)
    · obtain rfl := List.mem_singleton.mp hk'
      exact hplain ((hhead hnil).trans hmeta)
  · obtain rfl := List.mem_singleton.mp hk
    rcases List.mem_append.mp hk' with hk' | hk'
    · obtain ⟨l', hl', rfl⟩ := List.mem_map.mp hk'
      exact (h.path hroot hl').2 ((hhead (by decide)).symm.trans hmeta)
    · exact hne (List.mem_singleton.mp hk').symm

/-- Where the leaves are stored as their scalars. -/
theorem Storable.scalar_eq (h : Storable v) (hread : ReadsDoc tolerant v text rest)
    {l : List (Seg (List UInt8)) × Json (List UInt8) NumLit} (hl : l ∈ v.denote.leaves) :
    (scalarValue strtod l.2).scalar = some (l.2.map id NumLit.toInt) := by
  have hallowed := (readsDoc_iff_allowed hread).mp hread
  have hall := all_and.mpr ⟨h.numbers, hallowed.imp (fun _ _ => trivial) fun _ => id⟩
  exact scalar_scalarValue (hall.imp (fun _ _ => trivial) fun _ => id) hl

/-! ## Extraction -/

/-- What is extracted from the bytes of a document are its leaves. -/
structure Extracted (v : Tree) (buf : List UInt8) (es : List FlatEntry) : Prop where
  ascending : es.Pairwise fun a b => a.key < b.key
  keys : ∀ e ∈ es, IsPlain e.key ∧ e.key.length < pathSize
  hosts : Hosts es buf [] v.value

/-- The pairs that are extracted are the plain ones of those added. -/
theorem exists_extractEntries (qs : FlatQsort) (hread : ReadsDoc tolerant v text rest)
    (hencode : jsonEncode strtod q text = .ok buf) (hdoc : Storable v) (hapart : Apart v.value) :
    ∃ es rootType, extractEntries qs buf = .ok (es, rootType) ∧ (es.Pairwise fun a b => a.key < b.key) ∧
      ∀ pair, pair ∈ es.map (FlatEntry.pair buf) ↔
        IsPlain pair.1 ∧ ∃ a ∈ documentAdditions strtod v, (a.1, a.2.getD .null) = pair := by
  have hbuild := encoderBuild_of_encode hread hencode hdoc.room
  have hlength : (documentAdditions strtod v).length < 2 ^ 32 := by
    rw [length_documentAdditions]
    exact hdoc.count
  have hnodup := nodup_additions_of_head strtod hdoc.denote_names
  have hentries : (added (documentAdditions strtod v)).entries = (documentAdditions strtod v).map Addition.entry := by
    rw [entries_added, survivors_eq_self hlength]
  have hperm := (sortedEntries_perm q (nodup_keys_added hnodup)).trans (.of_eq hentries)
  have hkeys : ∀ k, k ∈ (sortedEntries q (added (documentAdditions strtod v)).entries).map Entry.key ↔
      k ∈ storedKeys v := by
    intro k
    rw [(hperm.map _).mem_iff, List.map_map, ← keys_documentAdditions strtod]
    rfl
  obtain ⟨d, hopen, rfl, ⟨-, hstart⟩, -, hrep⟩ :=
    dictOpenImpl_encoderBuild true (opts_added _) (Prod.ext hbuild rfl)
  have hnil : sortedEntries q (added (documentAdditions strtod v)).entries ≠ [] := by
    intro hnil
    have hmem := (hkeys jsonMetaRoot).mpr (by simp [storedKeys])
    simp [hnil] at hmem
  obtain ⟨t, ht⟩ := hrep hnil
  obtain ⟨es, rootType, hextract, hpairs⟩ := ht.extractEntries_eq qs hopen hstart
    (hdoc.walk.congr hkeys) ((hdoc.onWayToGreatest (not_isScalar_of_readsDoc hread) hapart).congr hkeys)
  refine ⟨es, rootType, hextract, ?_, fun pair => ?_⟩
  · have hasc : (es.map (FlatEntry.pair d.buf)).Pairwise fun a b => a.1 < b.1 := by
      have hbuilt : ((sortedEntries q (added (documentAdditions strtod v)).entries).map Entry.pair).Pairwise
          fun a b => a.1 < b.1 := List.pairwise_map.mpr ht.ascending
      rw [hpairs]
      exact hbuilt.filter _
    have hpaired := List.pairwise_map.mp hasc
    exact hpaired
  · rw [hpairs, List.mem_filter, (hperm.map _).mem_iff, List.map_map, List.mem_map, decide_eq_true_eq, and_comm]
    rfl

theorem exists_extracted (qs : FlatQsort) (hread : ReadsDoc tolerant v text rest)
    (hencode : jsonEncode strtod q text = .ok buf) (hdoc : Storable v) (hapart : Apart v.value) :
    ∃ es rootType, extractEntries qs buf = .ok (es, rootType) ∧ Extracted v buf es := by
  obtain ⟨es, rootType, hextract, hasc, hpairs⟩ := exists_extractEntries qs hread hencode hdoc hapart
  have hleaf : ∀ e ∈ es, IsPlain e.key ∧ ∃ l ∈ v.denote.leaves, e.key = pathText [] l.1 := by
    intro e he
    obtain ⟨hplain, a, ha, heq⟩ := (hpairs (e.pair buf)).mp (List.mem_map_of_mem he)
    obtain ⟨hkey, -⟩ := Prod.mk.inj heq
    refine ⟨hplain, ?_⟩
    rcases List.mem_append.mp ha with ha | ha
    · obtain ⟨l, hl, rfl⟩ := List.mem_map.mp ha
      exact ⟨l, hl, hkey.symm⟩
    · obtain rfl := List.mem_singleton.mp ha
      exact absurd (congrArg List.head? hkey.symm) hplain
  refine ⟨es, rootType, hextract, hasc, fun e he => ⟨(hleaf e he).1, ?_⟩, fun l hl => ?_, fun e he _ _ => ?_⟩
  · obtain ⟨-, l, hl, hkey⟩ := hleaf e he
    have hstored : pathText [] l.1 ∈ storedKeys v := List.mem_append_left _ (List.mem_map_of_mem hl)
    exact Nat.lt_succ_of_le (hkey ▸ hdoc.walk.lengths _ hstored)
  · obtain ⟨l, hin, rfl⟩ := mem_leaves_value.mp hl
    have hplain := (hdoc.path (not_isScalar_of_readsDoc hread) hin).2
    have hmem := (hpairs (pathText [] l.1, scalarValue strtod l.2)).mpr
      ⟨hplain, leafAddition strtod [] l, List.mem_append_left _ (List.mem_map_of_mem hin), rfl⟩
    obtain ⟨e, he, heq⟩ := List.mem_map.mp hmem
    obtain ⟨hkey, hval⟩ := Prod.mk.inj heq
    exact ⟨e, he, hkey, hval ▸ hdoc.scalar_eq hread hin⟩
  · obtain ⟨-, l, hl, hkey⟩ := hleaf e he
    exact ⟨_, mem_leaves_value.mpr ⟨l, hl, rfl⟩, hkey⟩

/-! ## Decoding -/

/-- The decoded text denotes the value of the document, its arrays in the order of the bytes of their
indices. -/
theorem decodesTo_reorder (pf : PrintFloat) (qs : FlatQsort) {indent : Option (List UInt8)}
    (hindent : ∀ ind ∈ indent, IsSpaces ind) (hread : ReadsDoc tolerant v text rest)
    (hencode : jsonEncode strtod q text = .ok buf) (hdoc : Storable v) (hapart : Apart v.value) :
    DecodesTo pf qs indent buf (v.value.reorder indexOrder) := by
  have hroot := not_isScalar_of_readsDoc hread
  obtain ⟨es, rootType, hextract, hes⟩ := exists_extracted qs hread hencode hdoc hapart
  have hsorted : es.Pairwise fun a b => flatEntryCmp a b ≤ 0 :=
    hes.ascending.imp fun hlt => (flatEntryCmp_nonpos_iff _ _).mpr (List.le_of_lt hlt)
  have hdistinct : (es.map FlatEntry.key).Nodup :=
    List.pairwise_map.mpr (hes.ascending.imp fun {a b} hlt (heq : a.key = b.key) =>
      List.lt_irrefl b.key (heq ▸ hlt))
  have hothers : KnowsOthers es [] v.value := fun e _ _ hnot => absurd (.inl rfl) hnot
  obtain ⟨t, ht, hsame⟩ := hes.hosts.emits hsorted hdistinct hes.keys (hdoc.names.imp fun _ => And.left)
    hdoc.full hapart hothers
  obtain ⟨l, hl⟩ := List.exists_mem_of_ne_nil _ (leaves_ne_nil hdoc.full)
  obtain ⟨e, he, -, -⟩ := hes.hosts.entry l hl
  have hout := decodeImpl_of_emits pf indent hextract (List.ne_nil_of_mem he) ht
  have hscalar : ∀ e ∈ es, ((e.val.map (Slice.read buf)).scalar).isSome = true := by
    intro e he
    obtain ⟨l, hl, hkey⟩ := hes.hosts.leaf e he List.nil_prefix (.inl rfl)
    obtain ⟨e', he', hkey', hval⟩ := hes.hosts.entry l hl
    obtain rfl := List.inj_on_of_nodup_map hdistinct he he' (hkey.trans hkey'.symm)
    rw [hval, Option.isSome_some]
  have hprinted : ∀ e ∈ es, ∃ w, Printed pf (e.val.map (Slice.read buf)) w := by
    intro e he
    obtain ⟨s, hs⟩ := Option.isSome_iff_exists.mp (hscalar e he)
    obtain ⟨w, hw, -⟩ := exists_printed_scalar pf hs
    exact ⟨w, hw⟩
  obtain ⟨w, hspells, hdenotes⟩ := ht.exists_spells hprinted
  obtain ⟨hint, hvalue⟩ := hdenotes hscalar
  have hw := hspells indent hindent 0 []
  rw [List.append_nil] at hw
  refine ⟨_, w, t.doc buf, hout, readsDoc_of_reads hw fun hcontra => hroot ?_, ⟨hint, hvalue⟩, hsame⟩
  exact isScalar_of_reorder (isScalar_of_same hsame (hvalue ▸ hcontra))

/-- So it denotes a value when this is the one that has its arrays in that order. -/
theorem decodesTo_iff (pf : PrintFloat) (qs : FlatQsort) {indent : Option (List UInt8)}
    (hindent : ∀ ind ∈ indent, IsSpaces ind) (hread : ReadsDoc tolerant v text rest)
    (hencode : jsonEncode strtod q text = .ok buf) (hdoc : Storable v) (hapart : Apart v.value)
    (u : Json (List UInt8) Int) : DecodesTo pf qs indent buf u ↔ (v.value.reorder indexOrder).Same u :=
  (decodesTo_reorder pf qs hindent hread hencode hdoc hapart).congr

/-- With ten elements or less in its arrays a document comes back as it was. -/
theorem decodesTo_of_short (pf : PrintFloat) (qs : FlatQsort) {indent : Option (List UInt8)}
    (hindent : ∀ ind ∈ indent, IsSpaces ind) (hread : ReadsDoc tolerant v text rest)
    (hencode : jsonEncode strtod q text = .ok buf) (hdoc : Storable v) (hapart : Apart v.value)
    (hshort : v.value.Short 10) : DecodesTo pf qs indent buf v.value := by
  have hdecodes := decodesTo_reorder pf qs hindent hread hencode hdoc hapart
  rwa [reorder_eq_self (fun n hn => indexOrder_eq_range hn) hshort] at hdecodes

end Documents

/-- `{"a":[7,true]}`, with the digits of the number as they are written. -/
def namedPair (ds : List UInt8) : Tree := .obj [([.raw 0x61], .arr [.num ⟨false, ds, none, none⟩, .bool true])]

def namedPairText (ds : List UInt8) : List UInt8 :=
  [0x7B, 0x22, 0x61, 0x22, 0x3A, 0x5B] ++ (ds ++ [0x2C, 0x74, 0x72, 0x75, 0x65, 0x5D, 0x7D])

section Pair

variable {ds : List UInt8}

theorem readsDoc_namedPair (hds : IsDigits ds) : ReadsDoc tolerant (namedPair ds) (namedPairText ds) [] := by
  have hnone : IsSpaces [] := by simp [IsSpaces]
  have hnum : tolerant.number ⟨false, ds, none, none⟩ := ⟨hds, by simp, by simp⟩
  have hkey : ∀ c ∈ [StrChar.raw 0x61], tolerant.char c := by
    intro c hc
    obtain rfl := List.mem_singleton.mp hc
    exact ⟨by decide, by decide⟩
  have hlast := Reads.lastElement hnone hnone
    (Reads.boolTrue (L := tolerant) ([] ++ closeBracket :: ([] ++ closeBrace :: [])))
  have hseven := Reads.num hnum ([] ++ comma :: ([] ++ (trueWord ++ ([] ++ closeBracket :: ([] ++ closeBrace :: [])))))
  have htext : NumLit.text ⟨false, ds, none, none⟩ = ds := by simp [NumLit.text, NumLit.fracText, NumLit.expText]
  rw [htext] at hseven
  have hmember := Reads.lastMember hnone hkey hnone hnone hnone (Reads.arr (Reads.element hnone hnone hseven hlast))
  exact ⟨[], _, rfl, hnone, .obj hmember, trivial⟩

theorem value_namedPair (hds : NumLit.natOf ds = 7) :
    (namedPair ds).value = .obj [([0x61], .arr [.num 7, .bool true])] := by
  simp [namedPair, Json.value, Json.map, mapMembers, mapElements, strBytes, StrChar.bytes, NumLit.toInt, hds]

theorem stored_namedPair (hds : NumLit.natOf ds = 7) (hlen : ds.length ≤ 63) :
    (namedPair ds).All (fun _ => True) IsStored := by
  have hint : (⟨false, ds, none, none⟩ : NumLit).toInt = 7 := by simp [NumLit.toInt, hds]
  have hstored : IsStored ⟨false, ds, none, none⟩ :=
    ⟨⟨⟨rfl, rfl⟩, by omega, by omega⟩, fun _ => by simpa [NumLit.text, NumLit.fracText, NumLit.expText]⟩
  exact ⟨trivial, ⟨hstored, trivial, trivial⟩, trivial⟩

theorem hasRoom_namedPair (ds : List UInt8) : HasRoom (namedPair ds) := by
  refine ⟨?_, fun _ l hl => ?_⟩
  · simp [namedPair, Fits, MembersFit, ElementsFit, strBytes, StrChar.bytes, keySize, pathSize]
  · have hall : LeavesFit [] (namedPair ds).denote.leaves := by
      simp only [LeavesFit, namedPair, denote, Json.map, mapMembers, mapElements, leaves, memberLeaves, elementLeaves]
      simp [pathText, pushSeg, strBytes, StrChar.bytes, pathSize]
      decide
    exact hall l hl

theorem keyed_namedPair (ds : List UInt8) : (namedPair ds).value.Keyed fun k => IsName k ∧ IsPlain k := by
  have hname : IsName [0x61] ∧ IsPlain [0x61] := ⟨⟨by decide, by decide +kernel⟩, by decide⟩
  exact ⟨List.forall_mem_singleton.mpr hname, List.nodup_singleton _, ⟨trivial, trivial, trivial⟩, trivial⟩

theorem storable_namedPair : Storable (namedPair [0x37]) where
  names := keyed_namedPair _
  full := by
    rw [value_namedPair rfl]
    simp [NoEmpty, NoEmptyMembers, NoEmptyElements]
  numbers := stored_namedPair rfl (by decide)
  room := hasRoom_namedPair _
  walk := ⟨by decide, by decide⟩
  count := by decide

theorem apart_namedPair (hds : NumLit.natOf ds = 7) : Apart (namedPair ds).value := by
  rw [value_namedPair hds]
  refine ⟨fun m hm rest hrest hmem => ?_, ⟨trivial, trivial, trivial⟩, trivial⟩
  obtain rfl := List.mem_singleton.mp hm
  simp [hrest] at hmem

theorem exists_encode_namedPair : ∃ buf,
    jsonEncode (fun _ => 0) (.keepingLast ⟨[], .null⟩) (namedPairText [0x37]) = .ok buf := by
  have hrun : (jsonEncode (fun _ => 0) (.keepingLast ⟨[], .null⟩) (namedPairText [0x37])).toBool = true := by
    decide +kernel
  rcases hencode : jsonEncode (fun _ => 0) (.keepingLast ⟨[], .null⟩) (namedPairText [0x37]) with e | buf
  · simp [hencode, Except.toBool] at hrun
  · exact ⟨buf, rfl⟩

theorem reorder_namedPair : (namedPair [0x37]).value.reorder indexOrder = (namedPair [0x37]).value := by
  have hshort : (namedPair [0x37]).value.Short 10 := ⟨⟨by decide, trivial, trivial, trivial⟩, trivial⟩
  exact reorder_eq_self (fun n hn => indexOrder_eq_range hn) hshort

theorem isSpaces_two : ∀ ind ∈ some [0x20, 0x20], IsSpaces ind := by
  intro ind hind
  obtain rfl := Option.some.inj hind
  simp [IsSpaces, isSpace]

end Pair

/-- A small document comes back, with two spaces of indent. -/
theorem decodesTo_iff_pair : ∃ buf,
    jsonEncode (fun _ => 0) (.keepingLast ⟨[], .null⟩) (namedPairText [0x37]) = .ok buf ∧
      DecodesTo .none .byInsertion (some [0x20, 0x20]) buf (namedPair [0x37]).value := by
  obtain ⟨buf, hencode⟩ := exists_encode_namedPair
  have hread : ReadsDoc tolerant (namedPair [0x37]) (namedPairText [0x37]) [] :=
    readsDoc_namedPair ⟨by simp, by simp [isDigit]⟩
  refine ⟨buf, hencode, ?_⟩
  rw [decodesTo_iff _ _ isSpaces_two hread hencode storable_namedPair (apart_namedPair rfl), reorder_namedPair]
  exact same_self storable_namedPair.names

end Triepack
