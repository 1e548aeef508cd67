import Triepack.Dictionary.Canonical
import Triepack.Json.RoundTrip

/-!
# Encoding again

The bytes of a document depend on its value only, and on the members of its objects as a set. So
a document that is decoded to its own value is encoded to the same bytes again.
-/

namespace JsonText.Json

variable {σ ν : Type}

theorem elementNesting_le_iff {vs : List (Json σ ν)} {n : Nat} :
    elementNesting vs ≤ n ↔ ∀ v ∈ vs, v.nesting ≤ n := by
  induction vs with
  | nil => simp [elementNesting]
  | cons v vs ih => rw [elementNesting, max_le_iff, ih, List.forall_mem_cons]

theorem memberNesting_le_iff {ms : List (σ × Json σ ν)} {n : Nat} :
    memberNesting ms ≤ n ↔ ∀ m ∈ ms, m.2.nesting ≤ n := by
  induction ms with
  | nil => simp [memberNesting]
  | cons m ms ih => rw [memberNesting, max_le_iff, ih, List.forall_mem_cons]

namespace Same

variable {u u' : Json σ ν}

/-- A member of one object has the same value in the other. -/
theorem exists_member {ms ns : List (σ × Json σ ν)} (hkeys : (ms.map Prod.fst).Perm (ns.map Prod.fst))
    {n : σ × Json σ ν} (hn : n ∈ ns) : ∃ m ∈ ms, m.1 = n.1 :=
  List.mem_map.mp (hkeys.mem_iff.mpr (List.mem_map_of_mem (f := Prod.fst) hn))

theorem all {S : σ → Prop} {N : ν → Prop} (h : u.Same u') (hu : u.All S N) : u'.All S N := by
  induction h with
  | null | bool | num | str => exact hu
  | arr hlen _ ih =>
    rw [All, allElements_iff] at hu ⊢
    intro w hw
    obtain ⟨i, hi, rfl⟩ := List.mem_iff_getElem.mp hw
    exact ih i (hlen ▸ hi) hi (hu _ (List.getElem_mem _))
  | obj hkeys _ ih =>
    rw [All, allMembers_iff] at hu ⊢
    intro n hn
    obtain ⟨m, hm, hname⟩ := exists_member hkeys hn
    obtain ⟨hS, hall⟩ := hu m hm
    exact ⟨hname ▸ hS, ih n.1 m.2 n.2 (hname ▸ hm) hn hall⟩

theorem keyed {P : σ → Prop} (h : u.Same u') (hu : u.Keyed P) : u'.Keyed P := by
  induction h with
  | null | bool | num | str => exact hu
  | arr hlen _ ih =>
    rw [Keyed, keyedElements_iff] at hu ⊢
    intro w hw
    obtain ⟨i, hi, rfl⟩ := List.mem_iff_getElem.mp hw
    exact ih i (hlen ▸ hi) hi (hu _ (List.getElem_mem _))
  | obj hkeys _ ih =>
    obtain ⟨hnames, hnodup, hms⟩ := hu
    rw [keyedMembers_iff] at hms
    refine ⟨fun n hn => ?_, hkeys.nodup_iff.mp hnodup, keyedMembers_iff.mpr fun n hn => ?_⟩
    · obtain ⟨m, hm, hname⟩ := exists_member hkeys hn
      exact hname ▸ hnames m hm
    · obtain ⟨m, hm, hname⟩ := exists_member hkeys hn
      exact ih n.1 m.2 n.2 (hname ▸ hm) hn (hms m hm)

theorem noEmpty (h : u.Same u') (hu : u.NoEmpty) : u'.NoEmpty := by
  induction h with
  | null | bool | num | str => exact hu
  | @arr vs ws hlen _ ih =>
    obtain ⟨hne, hvs⟩ := hu
    rw [noEmptyElements_iff] at hvs
    refine ⟨?_, noEmptyElements_iff.mpr fun w hw => ?_⟩
    · rintro rfl
      exact hne (List.length_eq_zero_iff.mp hlen)
    · obtain ⟨i, hi, rfl⟩ := List.mem_iff_getElem.mp hw
      exact ih i (hlen ▸ hi) hi (hvs _ (List.getElem_mem _))
  | @obj ms ns hkeys _ ih =>
    obtain ⟨hne, hms⟩ := hu
    rw [noEmptyMembers_iff] at hms
    refine ⟨?_, noEmptyMembers_iff.mpr fun n hn => ?_⟩
    · rintro rfl
      exact hne (List.map_eq_nil_iff.mp hkeys.eq_nil)
    · obtain ⟨m, hm, hname⟩ := exists_member hkeys hn
      exact ih n.1 m.2 n.2 (hname ▸ hm) hn (hms m hm)

theorem mem_leaves (h : u.Same u') {l : List (Seg σ) × Json σ ν} (hl : l ∈ u.leaves) : l ∈ u'.leaves := by
  induction h generalizing l with
  | null | bool | num | str => exact hl
  | arr hlen _ ih =>
    obtain ⟨i, hi, l, hin, rfl⟩ := mem_elementLeaves.mp hl
    exact mem_elementLeaves.mpr ⟨i, hlen ▸ hi, l, ih i hi (hlen ▸ hi) hin, rfl⟩
  | obj hkeys _ ih =>
    obtain ⟨m, hm, l, hin, rfl⟩ := mem_memberLeaves.mp hl
    obtain ⟨n, hn, hname⟩ := exists_member hkeys.symm hm
    refine mem_memberLeaves.mpr ⟨n, hn, l, ih m.1 m.2 n.2 hm (hname ▸ hn) hin, ?_⟩
    rw [hname]

/-- The same leaves are at the same positions. -/
theorem perm_leaves {P : σ → Prop} (h : u.Same u') (hu : u.Keyed P) : u.leaves.Perm u'.leaves := by
  have hnodup := List.Nodup.of_map _ (nodup_positions hu)
  have hnodup' := List.Nodup.of_map _ (nodup_positions (h.keyed hu))
  exact (List.perm_ext_iff_of_nodup hnodup hnodup').mpr fun l => ⟨h.mem_leaves, h.symm.mem_leaves⟩

theorem nesting_le (h : u.Same u') : u.nesting ≤ u'.nesting := by
  induction h with
  | null | bool | num | str => exact le_rfl
  | arr hlen _ ih =>
    refine Nat.succ_le_succ (elementNesting_le_iff.mpr fun v hv => ?_)
    obtain ⟨i, hi, rfl⟩ := List.mem_iff_getElem.mp hv
    exact (ih i hi (hlen ▸ hi)).trans (elementNesting_le_iff.mp le_rfl _ (List.getElem_mem _))
  | obj hkeys _ ih =>
    refine Nat.succ_le_succ (memberNesting_le_iff.mpr fun m hm => ?_)
    obtain ⟨n, hn, hname⟩ := exists_member hkeys.symm hm
    exact (ih m.1 m.2 n.2 hm (hname ▸ hn)).trans (memberNesting_le_iff.mp le_rfl n hn)

theorem nesting_eq (h : u.Same u') : u.nesting = u'.nesting := h.nesting_le.antisymm h.symm.nesting_le

end Same

theorem nesting_map {σ' ν' : Type} (f : σ → σ') (g : ν → ν') (v : Json σ ν) : (v.map f g).nesting = v.nesting := by
  induction v using induction_on with
  | null | bool | num | str => rfl
  | arr vs ih =>
    rw [Json.map, mapElements_eq, nesting, nesting]
    refine congrArg (· + 1) (le_antisymm (elementNesting_le_iff.mpr ?_) (elementNesting_le_iff.mpr fun v hv => ?_))
    · refine List.forall_mem_map.mpr fun v hv => ?_
      rw [ih v hv]
      exact elementNesting_le_iff.mp le_rfl v hv
    · rw [← ih v hv]
      exact elementNesting_le_iff.mp le_rfl _ (List.mem_map_of_mem hv)
  | obj ms ih =>
    rw [Json.map, mapMembers_eq, nesting, nesting]
    refine congrArg (· + 1) (le_antisymm (memberNesting_le_iff.mpr ?_) (memberNesting_le_iff.mpr fun m hm => ?_))
    · refine List.forall_mem_map.mpr fun m hm => ?_
      rw [ih m hm]
      exact memberNesting_le_iff.mp le_rfl m hm
    · rw [← ih m hm]
      exact memberNesting_le_iff.mp le_rfl _ (List.mem_map_of_mem (f := fun m => (f m.1, m.2.map f g)) hm)

end JsonText.Json

namespace Triepack

open JsonText Json

/-! ## Room -/

theorem ElementsFit.exists_fits {depth idx : Nat} {path : List UInt8} {vs : List Tree}
    (h : ElementsFit depth path idx vs) (hdeep : ∀ v ∈ vs, depth + v.nesting ≤ maxNestingDepth) :
    ∀ v ∈ vs, ∃ path, Fits depth path v := by
  induction vs generalizing idx with
  | nil => simp
  | cons v vs ih =>
    obtain ⟨hv, hvs⟩ := List.forall_mem_cons.mp hdeep
    exact List.forall_mem_cons.mpr ⟨⟨_, h.1⟩, ih (h.2 hv) hvs⟩

theorem MembersFit.exists_fits {depth : Nat} {path : List UInt8} {ms : List (List StrChar × Tree)}
    (h : MembersFit depth path ms) (hdeep : ∀ m ∈ ms, depth + m.2.nesting ≤ maxNestingDepth) :
    ∀ m ∈ ms, (strBytes m.1).length < keySize ∧ ∃ path, Fits depth path m.2 := by
  induction ms with
  | nil => simp
  | cons m ms ih =>
    obtain ⟨hm, hms⟩ := List.forall_mem_cons.mp hdeep
    exact List.forall_mem_cons.mpr ⟨⟨h.1, _, h.2.2.1⟩, ih (h.2.2.2 hm) hms⟩

/-- What fits has short names and short strings. -/
theorem Fits.short {P : List UInt8 → Prop} {v : Tree} {depth : Nat} {path : List UInt8} (h : Fits depth path v)
    (hdeep : depth + v.nesting ≤ maxNestingDepth) (hkeys : v.value.Keyed P) :
    (v.value.Keyed fun k => P k ∧ k.length < keySize) ∧
      v.value.All (fun s => s.length < strSize) fun _ => True := by
  induction v using Json.induction_on generalizing depth path with
  | null | bool | num => exact ⟨trivial, trivial⟩
  | str s => exact ⟨trivial, h⟩
  | arr vs ih =>
    rw [nesting] at hdeep
    have hnested : ∀ v ∈ vs, depth + 1 + v.nesting ≤ maxNestingDepth := fun v hv => by
      have hle := elementNesting_le_iff.mp le_rfl v hv
      omega
    have hvs := ElementsFit.exists_fits (h (by omega)) hnested
    rw [Json.value, Json.map, mapElements_eq] at hkeys ⊢
    rw [Keyed, keyedElements_iff, List.forall_mem_map] at hkeys
    rw [Keyed, keyedElements_iff, List.forall_mem_map, All, allElements_iff, List.forall_mem_map]
    refine ⟨fun v hv => ?_, fun v hv => ?_⟩ <;> obtain ⟨path', hv'⟩ := hvs v hv
    · exact (ih v hv hv' (hnested v hv) (hkeys v hv)).1
    · exact (ih v hv hv' (hnested v hv) (hkeys v hv)).2
  | obj ms ih =>
    rw [nesting] at hdeep
    have hnested : ∀ m ∈ ms, depth + 1 + m.2.nesting ≤ maxNestingDepth := fun m hm => by
      have hle := memberNesting_le_iff.mp le_rfl m hm
      omega
    have hms := MembersFit.exists_fits (h (by omega)) hnested
    rw [Json.value, Json.map, mapMembers_eq] at hkeys ⊢
    obtain ⟨hnames, hnodup, hin⟩ := hkeys
    rw [keyedMembers_iff, List.forall_mem_map] at hin
    rw [List.forall_mem_map] at hnames
    rw [Keyed, keyedMembers_iff, List.forall_mem_map, List.forall_mem_map, All, allMembers_iff,
      List.forall_mem_map]
    refine ⟨⟨fun m hm => ⟨hnames m hm, (hms m hm).1⟩, hnodup, fun m hm => ?_⟩, fun m hm => ?_⟩ <;>
      obtain ⟨hkey, path', hm'⟩ := hms m hm
    · exact (ih m hm hm' (hnested m hm) (hin m hm)).1
    · exact ⟨hkey.trans (by decide), (ih m hm hm' (hnested m hm) (hin m hm)).2⟩

section Leaves

variable {depth : Nat} {path : List UInt8}

/-- A segment in front of leaves that fit has been stored. -/
theorem LeavesFit.pushSeg {s : Seg (List UInt8)}
    {ls : List (List (Seg (List UInt8)) × Json (List UInt8) NumLit)} (hne : ls ≠ [])
    (h : LeavesFit path (ls.map fun l => (s :: l.1, l.2))) :
    (Triepack.pushSeg path s).length < pathSize ∧ (∀ i, s = .idx i → i < 2 ^ 32) ∧
      LeavesFit (Triepack.pushSeg path s) ls := by
  have hls := List.forall_mem_map.mp h
  obtain ⟨l, hl⟩ := List.exists_mem_of_ne_nil _ hne
  refine ⟨((isPrefix_pathText _ l.1).length_le).trans_lt (hls l hl).1, ?_, fun l hl => ?_⟩
  · exact fun i hi => (hls l hl).2 i (by rw [hi]; exact List.mem_cons_self)
  · exact ⟨(hls l hl).1, fun i hi => (hls l hl).2 i (List.mem_cons_of_mem _ hi)⟩

theorem elementsFit_of_leaves {vs : List Tree} {i : Nat}
    (ih : ∀ v ∈ vs, ∀ {path : List UInt8}, LeavesFit path v.denote.leaves → Fits depth path v)
    (hfull : ∀ v ∈ vs, v.denote.NoEmpty) (h : LeavesFit path (elementLeaves (mapElements strBytes id vs) i)) :
    ElementsFit depth path (u32 i) vs := by
  induction vs generalizing i with
  | nil => trivial
  | cons v vs ihvs =>
    obtain ⟨hv, hvs⟩ := List.forall_mem_append.mp h
    obtain ⟨hshort, hi, hfits⟩ := LeavesFit.pushSeg (leaves_ne_nil (hfull v (by simp))) hv
    have hnext : u32 (u32 i + 1) = u32 (i + 1) := by simp only [u32, Nat.mod_add_mod]
    refine ⟨?_, fun _ => ?_⟩
    · rw [u32_of_lt (hi i rfl), pushIndex_eq hshort]
      exact ih v (by simp) hfits
    · rw [hnext]
      exact ihvs (fun v hv => ih v (by simp [hv])) (fun v hv => hfull v (by simp [hv])) hvs

theorem membersFit_of_leaves {ms : List (List StrChar × Tree)}
    (ih : ∀ m ∈ ms, ∀ {path : List UInt8}, LeavesFit path m.2.denote.leaves → Fits depth path m.2)
    (hkeys : ∀ m ∈ ms, strBytes m.1 ≠ [] ∧ (strBytes m.1).length < keySize)
    (hfull : ∀ m ∈ ms, m.2.denote.NoEmpty) (h : LeavesFit path (memberLeaves (mapMembers strBytes id ms))) :
    MembersFit depth path ms := by
  induction ms with
  | nil => trivial
  | cons m ms ihms =>
    obtain ⟨k, v⟩ := m
    obtain ⟨hv, hvs⟩ := List.forall_mem_append.mp h
    obtain ⟨hshort, -, hfits⟩ := LeavesFit.pushSeg (leaves_ne_nil (hfull (k, v) (by simp))) hv
    obtain ⟨hne, hkey⟩ := hkeys (k, v) (by simp)
    refine ⟨hkey, ?_, ?_, fun _ => ?_⟩
    · have hpos := List.length_pos_iff.mpr hne
      by_cases hpath : path = []
      · rw [hpath]
        decide
      · rw [Triepack.pushSeg, if_pos (List.length_pos_iff.mpr hpath), List.length_append, List.length_cons] at hshort
        omega
    · rw [pushKey_eq hshort]
      exact ih (k, v) (by simp) hfits
    · exact ihms (fun m hm => ih m (by simp [hm])) (fun m hm => hkeys m (by simp [hm]))
        (fun m hm => hfull m (by simp [hm])) hvs

/-- Where the leaves fit, and the names and strings are short, everything does. -/
theorem fits_of_leaves {v : Tree} (hkeys : v.denote.Keyed fun k => k ≠ [] ∧ k.length < keySize)
    (hstrs : v.denote.All (fun s => s.length < strSize) fun _ => True) (hfull : v.denote.NoEmpty)
    (h : LeavesFit path v.denote.leaves) : Fits depth path v := by
  induction v using Json.induction_on generalizing depth path with
  | null | bool | num => trivial
  | str s => exact hstrs
  | arr vs ih =>
    rw [denote, Json.map] at hkeys hstrs hfull h
    rw [Keyed, mapElements_eq, keyedElements_iff, List.forall_mem_map] at hkeys
    rw [All, mapElements_eq, allElements_iff, List.forall_mem_map] at hstrs
    have hvs := noEmptyElements_iff.mp hfull.2
    rw [mapElements_eq, List.forall_mem_map] at hvs
    intro _
    exact elementsFit_of_leaves (i := 0) (fun v hv => ih v hv (hkeys v hv) (hstrs v hv) (hvs v hv)) hvs h
  | obj ms ih =>
    rw [denote, Json.map] at hkeys hstrs hfull h
    obtain ⟨hnames, -, hin⟩ := hkeys
    rw [mapMembers_eq, keyedMembers_iff, List.forall_mem_map] at hin
    rw [mapMembers_eq, List.forall_mem_map] at hnames
    rw [All, mapMembers_eq, allMembers_iff, List.forall_mem_map] at hstrs
    have hms := noEmptyMembers_iff.mp hfull.2
    rw [mapMembers_eq, List.forall_mem_map] at hms
    intro _
    exact membersFit_of_leaves (fun m hm => ih m hm (hin m hm) (hstrs m hm).2 (hms m hm)) hnames hms h

end Leaves

/-! ## Canonical bytes -/

/-- What is stored for a scalar. -/
def storedScalar : Json (List UInt8) Int → Value (List UInt8)
  | .bool b => .bool b
  | .num i => if 2 ^ 63 ≤ i then .uint (UInt64.ofNat i.toNat) else .int (Int64.ofInt i)
  | .str s => .string s
  | _ => .null

theorem numLitValue_eq (strtod : List UInt8 → UInt64) {n : NumLit} (h : IsInt64 n) (hlen : n.text.length ≤ 63) :
    numLitValue strtod n = storedScalar (.num n.toInt) := by
  have hscalar := scalar_numLitValue strtod h hlen
  have hisInt : (n.frac.isSome || n.exp.isSome) = false := by
    rw [h.isInt.1, h.isInt.2]
    rfl
  rw [numLitValue, hisInt, numberValue, if_neg Bool.false_ne_true] at hscalar ⊢
  split_ifs at hscalar ⊢ with hneg hbig
  · have hint : (strtoll (n.text.take 63)).toInt = n.toInt := Json.num.inj (Option.some.inj hscalar)
    have hlt := (strtoll (n.text.take 63)).toInt_lt
    rw [storedScalar, if_neg (by omega), ← hint, Int64.ofInt_toInt]
  · have hlt : strtoull (n.text.take 63) < 2 ^ 64 := by
      rw [strtoull]
      omega
    have hint : ((UInt64.ofNat (strtoull (n.text.take 63))).toNat : Int) = n.toInt :=
      Json.num.inj (Option.some.inj hscalar)
    rw [UInt64.toNat_ofNat_of_lt' hlt] at hint
    rw [storedScalar, if_pos (by omega), ← hint, Int.toNat_natCast]
  · have hint : (Int64.ofNat (strtoull (n.text.take 63))).toInt = n.toInt :=
      Json.num.inj (Option.some.inj hscalar)
    have hlt := (Int64.ofNat (strtoull (n.text.take 63))).toInt_lt
    rw [storedScalar, if_neg (by omega), ← hint, Int64.ofInt_toInt]

theorem IsStored.length_le {n : NumLit} (h : IsStored n) (hspelled : n.Spelled) : n.text.length ≤ 63 := by
  by_cases hzero : n.LeadingZero
  · exact h.short hzero
  · exact h.int64.length_text_le hspelled hzero

section Documents

variable {strtod : List UInt8 → UInt64} {q q' : Qsort} {v w : Tree} {text text' rest rest' buf : List UInt8}

theorem scalarValue_eq (hread : ReadsDoc tolerant v text rest) (hnumbers : v.All (fun _ => True) IsStored)
    {l : List (Seg (List UInt8)) × Json (List UInt8) NumLit} (hl : l ∈ v.denote.leaves) :
    scalarValue strtod l.2 = storedScalar (l.2.map id NumLit.toInt) := by
  have hallowed := (readsDoc_iff_allowed hread).mp hread
  have hall := all_and.mpr ⟨hnumbers, hallowed.imp (fun _ _ => trivial) fun _ => id⟩
  have hdenote : v.denote.All (fun _ => True) fun n => IsStored n ∧ n.Spelled :=
    all_map.mpr (hall.imp (fun _ _ => trivial) fun _ => id)
  obtain ⟨hscalar, hleaf⟩ := scalar_leaves hdenote l hl
  generalize l.2 = s at hscalar hleaf
  cases s with
  | null | bool | str => rfl
  | num n => exact numLitValue_eq strtod hleaf.1.int64 (hleaf.1.length_le hleaf.2)
  | arr | obj => exact hscalar.elim

/-- The additions of a document depend on its value. -/
theorem documentAdditions_eq (hread : ReadsDoc tolerant v text rest) (hnumbers : v.All (fun _ => True) IsStored) :
    documentAdditions strtod v = (v.value.leaves.map fun l => (pathText [] l.1, some (storedScalar l.2))) ++
      [(jsonMetaRoot, some (.uint (rootType v)))] := by
  rw [documentAdditions, flatten, value_eq, leaves_map, List.map_map]
  refine congrArg (· ++ _) (List.map_congr_left fun l hl => ?_)
  rw [leafAddition, scalarValue_eq hread hnumbers hl]
  rfl

theorem rootType_eq_of_same (h : v.value.Same w.value) : rootType v = rootType w := by
  cases v <;> cases w <;> first | rfl | exact nomatch h

theorem jsonEncode_of_hasRoom {L : Lexicon} (hread : ReadsDoc L v text rest) (hroom : HasRoom v) :
    jsonEncode strtod q text = if v.nesting ≤ maxNestingDepth then
      (encoderBuild q (added (documentAdditions strtod v))).1 else .error (.rc .jsonDepth) := by
  have hends := @valueAdds_endsAs strtod v 0 [] (by decide) (by decide)
  rw [jsonEncode_of_reads hread]
  split_ifs with hdeep
  · obtain ⟨adds, hadds⟩ := hends.ok hroom.1 (by omega)
    rw [documentAdds_ok hadds, (valueAdds_leaves hadds).eq_of_fit (hroom.2 hdeep)]
    rfl
  · rw [documentAdds_error (hends.deep hroom.1 (by omega))]

/-- Documents of the same value have the same entries, for every order that `qsort` may give. -/
theorem encoderBuild_documentAdditions (hread : ReadsDoc tolerant v text rest)
    (hread' : ReadsDoc tolerant w text' rest') (hnumbers : v.All (fun _ => True) IsStored)
    (hnumbers' : w.All (fun _ => True) IsStored) (hkeys : v.value.Keyed fun k => IsName k ∧ IsPlain k)
    (hcount : v.denote.leaves.length + 1 < 2 ^ 32) (hsame : v.value.Same w.value) :
    (encoderBuild q (added (documentAdditions strtod v))).1 =
      (encoderBuild q' (added (documentAdditions strtod w))).1 := by
  have hdenote : v.denote.Keyed fun k => IsName k ∧ IsPlain k := by
    rwa [value_eq, keyed_map] at hkeys
  have hlength : (documentAdditions strtod v).length < 2 ^ 32 := by
    rw [length_documentAdditions]
    exact hcount
  -- the additions are the same up to their order
  have hadds : (documentAdditions strtod v).Perm (documentAdditions strtod w) := by
    rw [documentAdditions_eq hread hnumbers, documentAdditions_eq hread' hnumbers', rootType_eq_of_same hsame]
    exact ((hsame.perm_leaves hkeys).map _).append_right _
  have hentries : ((documentAdditions strtod v).map Addition.entry).Perm
      ((documentAdditions strtod w).map Addition.entry) := hadds.map _
  have hnodup := nodup_additions_of_head strtod hdenote
  rw [← map_key_entry] at hnodup
  have hsorted : sortedEntries q (added (documentAdditions strtod v)).entries =
      sortedEntries q' (added (documentAdditions strtod w)).entries := by
    rw [entries_added, entries_added, survivors_eq_self hlength, survivors_eq_self (hadds.length_eq ▸ hlength)]
    exact sortedEntries_eq_of_perm hentries hnodup
  simp only [encoderBuild, added, opts_addAll] at hsorted ⊢
  rw [hsorted]

theorem nesting_eq_of_same (hsame : v.value.Same w.value) : v.nesting = w.nesting := by
  rw [← nesting_map strBytes NumLit.toInt v, ← nesting_map strBytes NumLit.toInt w]
  exact hsame.nesting_eq

/-- Documents of the same value are encoded to the same bytes, or to the same error. -/
theorem jsonEncode_eq_of_same (hread : ReadsDoc tolerant v text rest) (hread' : ReadsDoc tolerant w text' rest')
    (hnumbers : v.All (fun _ => True) IsStored) (hnumbers' : w.All (fun _ => True) IsStored) (hroom : HasRoom v)
    (hroom' : HasRoom w) (hkeys : v.value.Keyed fun k => IsName k ∧ IsPlain k)
    (hcount : v.denote.leaves.length + 1 < 2 ^ 32) (hsame : v.value.Same w.value) :
    jsonEncode strtod q text = jsonEncode strtod q' text' := by
  have hbuild := @encoderBuild_documentAdditions strtod q q' v w text text' rest rest' hread hread' hnumbers
    hnumbers' hkeys hcount hsame
  rw [jsonEncode_of_hasRoom hread hroom, jsonEncode_of_hasRoom hread' hroom', nesting_eq_of_same hsame, hbuild]

/-! ## The decoded text -/

/-- A text that denotes the value of a document fits where the document does. -/
theorem HasRoom.of_same (hroom : HasRoom v) (hdeep : v.nesting ≤ maxNestingDepth)
    (hkeys : v.value.Keyed IsName) (hfull : v.value.NoEmpty) (hsame : v.value.Same w.value) : HasRoom w := by
  obtain ⟨hshort, hstrs⟩ := hroom.1.short (by omega) hkeys
  have hkeysw : w.denote.Keyed fun k => k ≠ [] ∧ k.length < keySize := by
    have hkeyed := hsame.keyed hshort
    rw [value_eq, keyed_map] at hkeyed
    exact hkeyed.imp fun k hk => ⟨hk.1.1, hk.2⟩
  have hstrsw : w.denote.All (fun s => s.length < strSize) fun _ => True := by
    have hall := hsame.all hstrs
    rw [value_eq] at hall
    exact all_map.mp hall
  have hfullw : w.denote.NoEmpty := by
    have hne := hsame.noEmpty hfull
    rwa [value_eq, noEmpty_map] at hne
  have hleaves : LeavesFit [] w.denote.leaves := by
    intro l hl
    obtain ⟨l', hl', heq⟩ := mem_leaves_value.mp (hsame.symm.mem_leaves (mem_leaves_value.mpr ⟨l, hl, rfl⟩))
    obtain ⟨hpos, -⟩ := Prod.mk.inj heq
    rw [← hpos]
    exact hroom.2 hdeep l' hl'
  exact ⟨fits_of_leaves hkeysw hstrsw hfullw hleaves, fun _ => hleaves⟩

/-- The integers of a text of the standard that denotes the value of a document are stored. -/
theorem stored_of_same (hread : ReadsDoc rfc8259 w text rest) (hint : w.All (fun _ => True) NumLit.IsInt)
    (hnumbers : v.All (fun _ => True) IsStored) (hsame : v.value.Same w.value) :
    w.All (fun _ => True) IsStored := by
  have hbounds : v.value.All (fun _ => True) fun i => -2 ^ 63 ≤ i ∧ i < 2 ^ 64 :=
    all_map.mpr (hnumbers.imp (fun _ _ => trivial) fun n hn => ⟨hn.int64.lower, hn.int64.upper⟩)
  have hboundsw : w.All (fun _ => True) fun n => -2 ^ 63 ≤ n.toInt ∧ n.toInt < 2 ^ 64 :=
    all_map.mp (hsame.all hbounds)
  have hallowed := (readsDoc_iff_allowed hread).mp hread
  have hall := all_and.mpr ⟨all_and.mpr ⟨hint, hboundsw⟩, hallowed⟩
  refine hall.imp (fun _ _ => trivial) fun n hn => ⟨⟨hn.1.1, hn.1.2.1, hn.1.2.2⟩, fun hzero => ?_⟩
  exact absurd hzero hn.2.2

/-- Where a document is decoded to its own value, the decoded text is encoded to the same bytes. -/
theorem jsonEncode_decoded (pf : PrintFloat) (qs : FlatQsort) {indent : Option (List UInt8)}
    (hindent : ∀ ind ∈ indent, IsSpaces ind) (hread : ReadsDoc tolerant v text rest)
    (hencode : jsonEncode strtod q text = .ok buf) (hdoc : Storable v) (hapart : Apart v.value)
    (horder : (v.value.reorder indexOrder).Same v.value) :
    ∃ out, decodeImpl pf qs indent buf = .ok out ∧ jsonEncode strtod q' out = .ok buf := by
  obtain ⟨out, w, u, hout, hreadw, ⟨hint, rfl⟩, hdecoded⟩ :=
    decodesTo_reorder pf qs hindent hread hencode hdoc hapart
  have hsame : v.value.Same w.value := (hdecoded.trans horder).symm
  have hdeep : v.nesting ≤ maxNestingDepth := by
    by_contra hnot
    rw [jsonEncode_of_hasRoom hread hdoc.room, if_neg hnot] at hencode
    simp at hencode
  have hnumbersw := stored_of_same hreadw hint hdoc.numbers hsame
  have hroomw := hdoc.room.of_same hdeep (hdoc.names.imp fun _ => And.left) hdoc.full hsame
  have hbuild := @encoderBuild_documentAdditions strtod q q' v w text out rest [] hread hreadw.tolerant
    hdoc.numbers hnumbersw hdoc.names hdoc.count hsame
  refine ⟨out, hout, ?_⟩
  rw [jsonEncode_of_hasRoom hread hdoc.room, hbuild] at hencode
  rw [jsonEncode_of_hasRoom hreadw.tolerant hroomw, ← nesting_eq_of_same hsame]
  exact hencode

end Documents

/-- Leading zeros leave no trace. -/
theorem jsonEncode_eq_of_same_pair :
    jsonEncode (fun _ => 0) (.keepingLast ⟨[], .null⟩) (namedPairText [0x37]) =
      jsonEncode (fun _ => 0) (.keepingLast ⟨[0x61], .null⟩) (namedPairText [0x30, 0x30, 0x37]) := by
  have hsame : (namedPair [0x37]).value.Same (namedPair [0x30, 0x30, 0x37]).value := by
    have hseven : NumLit.natOf [0x37] = 7 := rfl
    have hzeros : NumLit.natOf [0x30, 0x30, 0x37] = 7 := rfl
    rw [value_namedPair hzeros, ← value_namedPair hseven]
    exact same_self (keyed_namedPair _)
  have hread : ReadsDoc tolerant (namedPair [0x37]) (namedPairText [0x37]) [] :=
    readsDoc_namedPair ⟨by simp, by simp [isDigit]⟩
  have hread' : ReadsDoc tolerant (namedPair [0x30, 0x30, 0x37]) (namedPairText [0x30, 0x30, 0x37]) [] :=
    readsDoc_namedPair ⟨by simp, by simp [isDigit]⟩
  exact jsonEncode_eq_of_same hread hread' (stored_namedPair rfl (by decide)) (stored_namedPair rfl (by decide))
    (hasRoom_namedPair _) (hasRoom_namedPair _) (keyed_namedPair _) (by decide) hsame

theorem jsonEncode_decoded_pair : ∃ buf,
    jsonEncode (fun _ => 0) (.keepingLast ⟨[], .null⟩) (namedPairText [0x37]) = .ok buf ∧
      ∃ out, decodeImpl .none .byInsertion (some [0x20, 0x20]) buf = .ok out ∧
        jsonEncode (fun _ => 0) (.keepingLast ⟨[], .null⟩) out = .ok buf := by
  obtain ⟨buf, hencode⟩ := exists_encode_namedPair
  have horder : ((namedPair [0x37]).value.reorder indexOrder).Same (namedPair [0x37]).value := by
    rw [reorder_namedPair]
    exact same_self storable_namedPair.names
  have hread : ReadsDoc tolerant (namedPair [0x37]) (namedPairText [0x37]) [] :=
    readsDoc_namedPair ⟨by simp, by simp [isDigit]⟩
  exact ⟨buf, hencode, jsonEncode_decoded .none .byInsertion isSpaces_two hread hencode storable_namedPair
    (apart_namedPair rfl) horder⟩

end Triepack
