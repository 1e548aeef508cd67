import Triepack.Json.Buffers
import Triepack.Json.Paths

/-!
# Looking up paths

The flattened keys of a document are its paths, so a path is looked up as it is given.
-/

namespace Triepack

open JsonText Json

/-! ## The handle -/

/-- `tp_dict_lookup`; the key is a C string. -/
def dictLookup (d : Dict) (key : List UInt8) : Except Stop (Value Slice) :=
  dictLookupN d (key.takeWhile fun b => b != 0)

/-- The root type of a handle, `TP_ARRAY` or `TP_DICT`. -/
inductive JsonRoot where
  | array
  | dict
  deriving DecidableEq, Repr

/-- `tp_json`. -/
structure JsonDom where
  dict : Dict
  root : JsonRoot
  count : Nat

/-- The root type that a stored value stands for. -/
def rootOf (rootVal : Value Slice) : JsonRoot :=
  let rt := match rootVal with
    | .uint val => u32 val.toNat
    | .int val => u32 val.toUInt64.toNat
    | _ => 0
  if rt = jsonRootArray.toNat then .array else .dict

/-- The root type that is stored in a dictionary; the default is an object. -/
def storedRoot (d : Dict) : Except Stop JsonRoot :=
  match dictLookup d jsonMetaRoot with
  | .ok rootVal => .ok (rootOf rootVal)
  | .error (.rc _) => .ok .dict
  | .error e => .error e

/-- `tp_json_open`. -/
def jsonOpen (buf : List UInt8) : Except Stop JsonDom := do
  let d ← dictOpen buf
  let root ← storedRoot d
  .ok { dict := d, root := root, count := if dictCount d > 0 then dictCount d - 1 else dictCount d }

/-- `tp_json_lookup_path`. -/
def jsonLookupPath (j : JsonDom) (path : List UInt8) : Except Stop (Value Slice) :=
  dictLookup j.dict path

/-! ## Scalars -/

/-- The scalar that a stored value stands for. -/
def Value.scalar : Value (List UInt8) → Option (Json (List UInt8) Int)
  | .null => some .null
  | .bool b => some (.bool b)
  | .int i => some (.num i.toInt)
  | .uint u => some (.num u.toNat)
  | .string s => some (.str s)
  | _ => none

/-- A 64-bit integer, signed or unsigned. -/
structure IsInt64 (n : NumLit) : Prop where
  isInt : n.IsInt
  lower : -2 ^ 63 ≤ n.toInt
  upper : n.toInt < 2 ^ 64

theorem foldl_digits_ge (ds : List UInt8) (m : Nat) :
    10 ^ ds.length * m ≤ ds.foldl (fun n d => 10 * n + (d.toNat - 0x30)) m := by
  induction ds generalizing m with
  | nil => simp
  | cons d ds ih =>
    have hstep := ih (10 * m + (d.toNat - 0x30))
    rw [List.foldl_cons, List.length_cons, Nat.pow_succ, Nat.mul_assoc]
    exact (Nat.mul_le_mul_left _ (Nat.le_add_right _ _)).trans hstep

theorem IsInt64.text_eq {n : NumLit} (h : IsInt64 n) :
    n.text = (if n.neg then [minus] else []) ++ n.int := by
  rw [NumLit.text, NumLit.fracText, NumLit.expText, h.isInt.1, h.isInt.2]
  simp

theorem IsInt64.natOf_lt {n : NumLit} (h : IsInt64 n) : NumLit.natOf n.int < 2 ^ 64 := by
  have hlower := h.lower
  have hupper := h.upper
  rw [NumLit.toInt] at hlower hupper
  split_ifs at hlower hupper <;> omega

/-- An integer without leading zeros is short. -/
theorem IsInt64.length_text_le {n : NumLit} (h : IsInt64 n) (hn : n.Spelled) (hzero : ¬ n.LeadingZero) :
    n.text.length ≤ 63 := by
  have hint : n.int.length ≤ 20 := by
    by_contra hlong
    obtain ⟨d, ds, hds⟩ := List.exists_cons_of_ne_nil hn.int.1
    have hd := hn.int.2 d (by simp [hds])
    have hne : d ≠ 0x30 := fun heq => hzero ⟨by omega, by simp [hds, heq]⟩
    have hpos : 1 ≤ d.toNat - 0x30 := by
      have hle : 0x30 ≤ d.toNat := by
        simp only [isDigit, Bool.and_eq_true, decide_eq_true_eq, UInt8.le_iff_toNat_le] at hd
        exact hd.1
      have hnat : d.toNat ≠ 0x30 := fun heq => hne (UInt8.toNat_inj.mp heq)
      omega
    have hge : 10 ^ ds.length * (d.toNat - 0x30) ≤ NumLit.natOf n.int := by
      rw [hds]
      exact (foldl_digits_ge ds _).trans_eq (by simp [NumLit.natOf])
    have hlt := h.natOf_lt
    have hlen : 20 ≤ ds.length := by
      rw [hds, List.length_cons] at hlong
      omega
    have hpow : 10 ^ 20 ≤ 10 ^ ds.length := Nat.pow_le_pow_right (by decide) hlen
    have hmul : 10 ^ ds.length * 1 ≤ 10 ^ ds.length * (d.toNat - 0x30) := Nat.mul_le_mul_left _ hpos
    omega
  rw [h.text_eq, List.length_append]
  split_ifs <;> simp only [List.length_cons, List.length_nil] <;> omega

/-- What is stored for digits that a word holds. -/
theorem scalar_digits {strtod : List UInt8 → UInt64} {neg : Bool} {ds : List UInt8}
    (hneg : neg = true → NumLit.natOf ds ≤ 2 ^ 63) (hlt : NumLit.natOf ds < 2 ^ 64) :
    (numberValue strtod false neg ((if neg then [minus] else []) ++ ds)).scalar =
      some (.num (if neg then -NumLit.natOf ds else NumLit.natOf ds)) := by
  rw [numberValue, if_neg (by simp)]
  cases neg with
  | true =>
    have hle := hneg rfl
    simp only [if_true, Value.scalar, strtoll, List.singleton_append, List.tail_cons]
    rw [max_eq_left (by omega), Int64.toInt_ofInt_of_le (by omega) (by omega)]
  | false =>
    have hull : strtoull ([] ++ ds) = NumLit.natOf ds := by
      rw [strtoull, List.nil_append]
      omega
    simp only [Bool.false_eq_true, if_false]
    rw [hull]
    split_ifs with hbig
    · rw [Value.scalar, UInt64.toNat_ofNat_of_lt' hlt]
    · rw [Value.scalar, Int64.toInt_ofNat_of_lt (by omega)]

/-- What is stored for an integer whose text is in the buffer is the integer. -/
theorem scalar_numLitValue (strtod : List UInt8 → UInt64) {n : NumLit} (h : IsInt64 n)
    (hlen : n.text.length ≤ 63) : (numLitValue strtod n).scalar = some (.num n.toInt) := by
  have hlower := h.lower
  rw [NumLit.toInt] at hlower
  rw [numLitValue, List.take_of_length_le hlen, h.text_eq, h.isInt.1, h.isInt.2]
  refine scalar_digits (fun hneg => ?_) h.natOf_lt
  rw [if_pos hneg] at hlower
  omega

/-! ## Documents -/

/-- A key of a document whose paths can be looked up. -/
structure IsPathKey (k : List UInt8) : Prop where
  name : IsName k
  noNul : 0 ∉ k
  noMeta : 1 ∉ k

theorem IsPathKey.isName_head {k : List UInt8} (h : IsPathKey k) : IsName k ∧ k.head? ≠ some 1 :=
  ⟨h.name, fun hhead => h.noMeta (List.mem_of_mem_head? hhead)⟩

/-- A number that is stored as the integer it is: with leading zeros, which are tolerated, it may
be too long for the buffer of its digits. -/
structure IsStored (n : NumLit) : Prop where
  int64 : IsInt64 n
  short : n.LeadingZero → n.text.length ≤ 63

/-- The paths of the leaves are distinct, and every one of them leads to the scalar of its leaf. -/
structure FindsLeaves (v : Tree) (buf : List UInt8) : Prop where
  injective : ∀ l ∈ v.denote.leaves, ∀ l' ∈ v.denote.leaves,
    pathText [] l.1 = pathText [] l'.1 → l.1 = l'.1
  nodup : (v.denote.leaves.map Prod.fst).Nodup
  found : ∃ j, jsonOpen buf = .ok j ∧ ∀ l ∈ v.denote.leaves, ∃ val,
    jsonLookupPath j (pathText [] l.1) = .ok val ∧
      (val.map (Slice.read buf)).scalar = some (l.2.map id NumLit.toInt)

section Documents

variable {strtod : List UInt8 → UInt64} {q : Qsort} {v : Tree} {text rest buf : List UInt8}

theorem not_mem_path {b : UInt8} (hb : b = 0 ∨ b = 1) {pos : List (Seg (List UInt8))}
    (h : KeysIn IsPathKey pos) : b ∉ pathText [] pos := by
  have hdigit : ∀ b : UInt8, isDigit b = true → b ≠ 0 ∧ b ≠ 1 := forall_byte (by decide +kernel)
  intro hmem
  obtain hnil | rfl | ⟨k, hk, hbk⟩ | ⟨i, hi⟩ := mem_pathText hmem
  · simp at hnil
  · exact absurd hb (by decide)
  · obtain rfl | rfl := hb
    · exact (h k hk).noNul hbk
    · exact (h k hk).noMeta hbk
  · rw [indexText] at hi
    have hdecimal := (isDigits_decimal i).2
    grind

/-- What is stored for a leaf stands for its scalar. -/
theorem scalar_scalarValue (hv : v.All (fun _ => True) fun n => IsStored n ∧ n.Spelled)
    {l : List (Seg (List UInt8)) × Json (List UInt8) NumLit} (hl : l ∈ v.denote.leaves) :
    (scalarValue strtod l.2).scalar = some (l.2.map id NumLit.toInt) := by
  have hdenote : v.denote.All (fun _ => True) fun n => IsStored n ∧ n.Spelled := all_map.mpr hv
  obtain ⟨hscalar, hall⟩ := scalar_leaves hdenote l hl
  generalize l.2 = s at hscalar hall
  cases s with
  | null | bool | str => rfl
  | num n =>
    obtain ⟨⟨hint, hshort⟩, hspelled⟩ := hall
    have hlen : n.text.length ≤ 63 := by
      by_cases hzero : n.LeadingZero
      · exact hshort hzero
      · exact hint.length_text_le hspelled hzero
    exact scalar_numLitValue strtod hint hlen
  | arr | obj => exact hscalar.elim

theorem length_documentAdditions (strtod : List UInt8 → UInt64) (v : Tree) :
    (documentAdditions strtod v).length = v.denote.leaves.length + 1 := by
  rw [documentAdditions, List.length_append, flatten, List.length_map, List.length_singleton]

/-- A path does not begin like the name of the root type. -/
theorem head_path {pos : List (Seg (List UInt8))} (h : KeysIn (fun k => IsName k ∧ k.head? ≠ some 1) pos) :
    (pathText [] pos).head? ≠ some 1 := by
  cases pos with
  | nil => simp [pathText]
  | cons s pos =>
    cases s with
    | key k =>
      obtain ⟨⟨hne, -⟩, hhead⟩ := h k List.mem_cons_self
      change (pathText k pos).head? ≠ some 1
      rwa [pathText_of_ne_nil hne, List.head?_append_of_ne_nil _ hne]
    | idx i =>
      have hne : indexText i ≠ [] := by simp [indexText]
      change (pathText (indexText i) pos).head? ≠ some 1
      rw [pathText_of_ne_nil hne, List.head?_append_of_ne_nil _ hne]
      change some openBracket ≠ some 1
      decide

/-- Paths of names that do not begin like the name of the root type are distinct from one another
and from it. -/
theorem nodup_additions_of_head (strtod : List UInt8 → UInt64)
    (hkeys : v.denote.Keyed fun k => IsName k ∧ k.head? ≠ some 1) :
    ((documentAdditions strtod v).map Prod.fst).Nodup := by
  have hpaths : (flatten strtod v.denote).map Prod.fst = v.denote.leaves.map fun l => pathText [] l.1 := by
    rw [flatten, List.map_map]
    rfl
  rw [documentAdditions, List.map_append, hpaths, List.nodup_append]
  refine ⟨nodup_paths (hkeys.imp fun _ => And.left), List.nodup_singleton _, fun path hpath root hroot heq => ?_⟩
  obtain ⟨l, hl, rfl⟩ := List.mem_map.mp hpath
  obtain rfl := List.mem_singleton.mp hroot
  have hhead := head_path (keysIn_leaves hkeys l hl)
  rw [heq] at hhead
  exact hhead rfl

/-- The paths are distinct from one another and from the name of the root type. -/
theorem nodup_documentAdditions (strtod : List UInt8 → UInt64) (hkeys : v.denote.Keyed IsPathKey) :
    ((documentAdditions strtod v).map Prod.fst).Nodup :=
  nodup_additions_of_head strtod (hkeys.imp fun _ => IsPathKey.isName_head)

/-- Every leaf of an accepted document is found under its path. -/
theorem findsLeaves_of_encode (hread : ReadsDoc tolerant v text rest)
    (hencode : jsonEncode strtod q text = .ok buf) (hkeys : v.denote.Keyed IsPathKey)
    (hnumbers : v.All (fun _ => True) IsStored) (hroom : HasRoom v)
    (hcount : v.denote.leaves.length + 1 < 2 ^ 32) : FindsLeaves v buf := by
  have hnames : v.denote.Keyed IsName := hkeys.imp fun _ => IsPathKey.name
  have hbuild := encoderBuild_of_encode hread hencode hroom
  have hlength : (documentAdditions strtod v).length < 2 ^ 32 := by
    rwa [length_documentAdditions]
  obtain ⟨d, hopen, _, hlookup⟩ := RoundTrip.of_length_lt (nodup_documentAdditions strtod hkeys) hbuild hlength
  have hall := all_and.mpr ⟨hnumbers, (readsDoc_iff_allowed hread).mp hread |>.imp (fun _ _ => trivial) fun _ => id⟩
  refine ⟨fun l hl l' hl' heq => pathText_inj (keysIn_leaves hnames l hl) (keysIn_leaves hnames l' hl') heq,
    nodup_positions hkeys, ?_⟩
  obtain ⟨root, hroot⟩ : ∃ root, jsonOpen buf = .ok ⟨d, root,
      if dictCount d > 0 then dictCount d - 1 else dictCount d⟩ := by
    obtain ⟨rootVal, hrootVal, -⟩ := hlookup (jsonMetaRoot, some (.uint (rootType v))) (by simp [documentAdditions])
    have hmeta : jsonMetaRoot.takeWhile (fun b => b != 0) = jsonMetaRoot := by decide
    have hstored : storedRoot d = .ok (rootOf rootVal) := by
      rw [storedRoot, dictLookup, hmeta, hrootVal]
    refine ⟨rootOf rootVal, ?_⟩
    rw [jsonOpen, hopen, except_ok_bind, hstored, except_ok_bind]
  refine ⟨_, hroot, fun l hl => ?_⟩
  obtain ⟨val, hval, hmap⟩ := hlookup (leafAddition strtod [] l)
    (List.mem_append_left _ (List.mem_map_of_mem hl))
  have hnul : (pathText [] l.1).takeWhile (fun b => b != 0) = pathText [] l.1 := by
    refine List.takeWhile_eq_self_iff.mpr fun b hb => ?_
    have hne : b ≠ 0 := fun heq =>
      not_mem_path (b := 0) (.inl rfl) (keysIn_leaves hkeys l hl) (heq ▸ hb)
    simpa using hne
  refine ⟨val, ?_, ?_⟩
  · rw [jsonLookupPath, dictLookup, hnul]
    exact hval
  · rw [hmap]
    exact scalar_scalarValue (hall.imp (fun _ _ => trivial) fun _ => id) hl

end Documents

theorem findsLeaves_oneKey : ∃ buf,
    jsonEncode (fun _ => 0) (.keepingLast ⟨[], .null⟩) (oneKeyText 1) = .ok buf ∧
      FindsLeaves (oneKeyTree 1) buf := by
  have hrun : (jsonEncode (fun _ => 0) (.keepingLast ⟨[], .null⟩) (oneKeyText 1)).toBool = true := by
    decide +kernel
  rcases hencode : jsonEncode (fun _ => 0) (.keepingLast ⟨[], .null⟩) (oneKeyText 1) with e | buf
  · simp [hencode, Except.toBool] at hrun
  have hread : ReadsDoc tolerant (oneKeyTree 1) (oneKeyText 1) [] :=
    readsDoc_oneKey (show tolerant.char (.raw 0x61) from ⟨by decide, by decide⟩) 1
  have hkey : IsPathKey [0x61] := ⟨⟨by decide, by decide +kernel⟩, by decide, by decide⟩
  have hkeys : (oneKeyTree 1).denote.Keyed IsPathKey :=
    ⟨by simpa [mapMembers, strBytes, StrChar.bytes] using hkey, by simp [mapMembers],
      trivial, trivial⟩
  exact ⟨buf, rfl, findsLeaves_of_encode hread hencode hkeys ⟨trivial, trivial, trivial⟩
    ((hasRoom_oneKey_iff 1).mpr (by decide)) (by decide)⟩

end Triepack
