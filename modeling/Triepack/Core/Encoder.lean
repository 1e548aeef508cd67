import Mathlib.Data.List.Sort
import Triepack.Core.Value

/-!
# The encoder: accumulated entries, their order and their duplicates

Adding copies an entry behind the others. `enc->count` is a 32-bit number, so `Encoder` holds
fewer than 2^32 entries: the addition that would make it 2^32 sets the count to zero and every
entry is lost. Of `qsort` only what the C standard promises is assumed.
-/

namespace Triepack

/-- `tp_entry`. -/
structure Entry where
  key : List UInt8
  val : Value (List UInt8)
  deriving DecidableEq, Repr

/-- `tp_addr_mode`. -/
inductive AddrMode where
  | bit | byte | symbolFixed | symbolUtf8
  deriving DecidableEq, Repr

/-- `tp_checksum_type`. -/
inductive ChecksumType where
  | crc32 | sha256 | xxhash64
  deriving DecidableEq, Repr

/-- `tp_encoder_options`. -/
structure EncoderOptions where
  trieMode : AddrMode
  valueMode : AddrMode
  checksum : ChecksumType
  enableSuffix : Bool
  compactMode : Bool
  bitsPerSymbol : Nat
  deriving DecidableEq, Repr

/-- `tp_encoder_defaults`. -/
def encoderDefaults : EncoderOptions where
  trieMode := .bit
  valueMode := .byte
  checksum := .crc32
  enableSuffix := false
  compactMode := false
  bitsPerSymbol := 0

/-- `tp_encoder`: its options and the first `count` elements of its entry array. -/
structure Encoder where
  opts : EncoderOptions
  entries : List Entry
  count_lt : entries.length < 2 ^ 32

/-- `tp_encoder_create_ex`. -/
def encoderCreateEx (opts : EncoderOptions) : Except TpErr Encoder :=
  if opts.trieMode ≠ .bit then .error .unsupported
  else if opts.valueMode ≠ .byte then .error .unsupported
  else if opts.checksum ≠ .crc32 then .error .unsupported
  else if opts.enableSuffix then .error .unsupported
  else if opts.compactMode then .error .unsupported
  else if opts.bitsPerSymbol > 15 then .error .invalidParam
  else .ok ⟨opts, [], by simp⟩

/-- `tp_encoder_create`. -/
def encoderCreate : Except TpErr Encoder := encoderCreateEx encoderDefaults

/-- `tp_encoder_add_n`; an absent value is stored as null. -/
def encoderAddN (enc : Encoder) (key : List UInt8) (val : Option (Value (List UInt8))) : Encoder where
  opts := enc.opts
  entries := (enc.entries ++ [(⟨key, val.getD .null⟩ : Entry)]).take (u32 (enc.entries.length + 1))
  count_lt := by
    have hwrap : u32 (enc.entries.length + 1) < 2 ^ 32 := Nat.mod_lt _ (by decide)
    rw [List.length_take]
    omega

/-- `tp_encoder_count`. -/
def encoderCount (enc : Encoder) : Nat := enc.entries.length

/-- `tp_encoder_reset`. -/
def encoderReset (enc : Encoder) : Encoder := ⟨enc.opts, [], by simp⟩

/-! ## Sequences of additions -/

/-- One call of `tp_encoder_add_n`: a key and, unless the pointer is NULL, a value. -/
abbrev Addition : Type := List UInt8 × Option (Value (List UInt8))

def Addition.entry (a : Addition) : Entry := ⟨a.1, a.2.getD .null⟩

def encoderAddAll (enc : Encoder) (adds : List Addition) : Encoder :=
  adds.foldl (fun enc a => encoderAddN enc a.1 a.2) enc

/-- The encoder that `tp_encoder_create` hands out. -/
def freshEncoder : Encoder := ⟨encoderDefaults, [], by simp⟩

theorem encoderCreate_eq : encoderCreate = .ok freshEncoder := rfl

/-- The additions that are still there: all of them, until the count wraps around. -/
def survivors (adds : List Addition) : List Addition :=
  adds.drop (adds.length / 2 ^ 32 * 2 ^ 32)

theorem survivors_eq_self {adds : List Addition} (h : adds.length < 2 ^ 32) :
    survivors adds = adds := by
  rw [survivors, Nat.div_eq_of_lt h, Nat.zero_mul, List.drop_zero]

theorem length_survivors (adds : List Addition) :
    (survivors adds).length = adds.length % 2 ^ 32 := by
  rw [survivors, List.length_drop]
  omega

theorem survivors_suffix (adds : List Addition) : survivors adds <:+ adds := List.drop_suffix _ _

theorem opts_addAll (enc : Encoder) (adds : List Addition) : (encoderAddAll enc adds).opts = enc.opts := by
  induction adds using List.reverseRecOn with
  | nil => rfl
  | append_singleton adds a ih =>
    rw [encoderAddAll, List.foldl_append]
    exact ih

theorem entries_addAll {enc : Encoder} (hempty : enc.entries = []) (adds : List Addition) :
    (encoderAddAll enc adds).entries = (survivors adds).map Addition.entry := by
  induction adds using List.reverseRecOn with
  | nil => simpa [encoderAddAll, survivors] using hempty
  | append_singleton adds a ih =>
    have hlast : encoderAddAll enc (adds ++ [a]) =
        encoderAddN (encoderAddAll enc adds) a.1 a.2 := by
      rw [encoderAddAll, List.foldl_append]
      rfl
    have hadd : (encoderAddAll enc (adds ++ [a])).entries =
        ((survivors adds ++ [a]).map Addition.entry).take (u32 (adds.length % 2 ^ 32 + 1)) := by
      rw [hlast]
      simp only [encoderAddN, ih, List.length_map, length_survivors, List.map_append]
      rfl
    rw [hadd, u32, Nat.mod_add_mod]
    by_cases hwrap : (adds.length + 1) % 2 ^ 32 = 0
    · have hnil : survivors (adds ++ [a]) = [] := by
        rw [← List.length_eq_zero_iff, length_survivors]
        simpa using hwrap
      rw [hwrap, hnil, List.take_zero, List.map_nil]
    · have hdrop : survivors (adds ++ [a]) = survivors adds ++ [a] := by
        have hdiv : (adds.length + 1) / 2 ^ 32 = adds.length / 2 ^ 32 := by omega
        rw [survivors, survivors, List.length_append, List.length_singleton, hdiv,
          List.drop_append_of_le_length (by omega)]
      rw [hdrop, List.take_of_length_le]
      rw [List.length_map, List.length_append, length_survivors, List.length_singleton]
      omega

/-! ## Sorting -/

/-- `memcmp`; only the sign of its result matters. -/
def memcmp : (n : Nat) → List UInt8 → List UInt8 → Int
  | n + 1, a :: as, b :: bs => if a = b then memcmp n as bs else if a < b then -1 else 1
  | _, _, _ => 0

theorem memcmp_eq_zero_iff {n : Nat} {as bs : List UInt8} (ha : n ≤ as.length) (hb : n ≤ bs.length) :
    memcmp n as bs = 0 ↔ as.take n = bs.take n := by
  induction n generalizing as bs with
  | zero => simp [memcmp]
  | succ n ih =>
    cases as with
    | nil => simp at ha
    | cons a as =>
      cases bs with
      | nil => simp at hb
      | cons b bs =>
        rw [memcmp, List.take_succ_cons, List.take_succ_cons, List.cons.injEq]
        by_cases hab : a = b
        · rw [if_pos hab, ih (by simpa using ha) (by simpa using hb)]
          simp [hab]
        · rw [if_neg hab]
          split_ifs <;> simp [hab]

/-- `entry_cmp`. -/
def entryCmp (a b : Entry) : Int :=
  let minLen := if a.key.length < b.key.length then a.key.length else b.key.length
  let cmp := memcmp minLen a.key b.key
  if cmp ≠ 0 then cmp
  else if a.key.length < b.key.length then -1
  else if a.key.length > b.key.length then 1
  else 0

/-- What the C standard says of `qsort` with `entry_cmp`: some order of the elements that the
comparison finds ascending. -/
structure Qsort where
  sort : List Entry → List Entry
  perm : ∀ es, (sort es).Perm es
  ascending : ∀ es, (sort es).Pairwise fun a b => entryCmp a b ≤ 0

/-- `sort_entries`. -/
def sortEntries (q : Qsort) (es : List Entry) : List Entry :=
  if es.length > 1 then q.sort es else es

/-- The test of `dedup_entries` for equal keys. -/
def sameKey (a b : Entry) : Bool :=
  a.key.length == b.key.length && memcmp a.key.length a.key b.key == 0

/-- `dedup_entries`: an entry is dropped when the next one has its key. -/
def dedupEntries : List Entry → List Entry
  | [] => []
  | [e] => [e]
  | e :: e' :: es => if sameKey e e' then dedupEntries (e' :: es) else e :: dedupEntries (e' :: es)

/-- Keys compare as byte strings, a key before its extensions. -/
theorem entryCmp_spec (a b : Entry) :
    (entryCmp a b < 0 ↔ a.key < b.key) ∧ (entryCmp a b = 0 ↔ a.key = b.key) := by
  obtain ⟨as, va⟩ := a
  obtain ⟨bs, vb⟩ := b
  simp only [entryCmp]
  induction as generalizing bs with
  | nil => cases bs <;> simp [memcmp]
  | cons a as ih =>
    cases bs with
    | nil => simp [memcmp]
    | cons b bs =>
      have hmin : (if (a :: as).length < (b :: bs).length then (a :: as).length
          else (b :: bs).length) = (if as.length < bs.length then as.length else bs.length) + 1 := by
        simp only [List.length_cons]
        split_ifs <;> omega
      rw [hmin, memcmp, List.cons_lt_cons_iff]
      by_cases hab : a = b
      · subst hab
        simpa [UInt8.lt_irrefl] using ih bs
      · rcases lt_or_gt_of_ne (fun h => hab (UInt8.toNat_inj.mp h)) with hlt | hlt
        · have hlt' : a < b := hlt
          simp [hab, hlt']
        · have hlt' : ¬ a < b := fun h => absurd h (Nat.lt_asymm hlt)
          simp [hab, hlt']

theorem sameKey_iff (a b : Entry) : sameKey a b = true ↔ a.key = b.key := by
  have hcmp := (entryCmp_spec a b).2
  constructor
  · intro h
    obtain ⟨hlen, hmem⟩ : a.key.length = b.key.length ∧ memcmp a.key.length a.key b.key = 0 := by
      simpa [sameKey] using h
    rw [← hcmp]
    simp [entryCmp, hlen, ← hlen ▸ hmem]
  · intro h
    have hzero : entryCmp a b = 0 := hcmp.mpr h
    simp only [sameKey, h, BEq.rfl, Bool.true_and, beq_iff_eq]
    simp only [entryCmp, h, lt_self_iff_false, if_false] at hzero
    simpa using hzero

theorem key_trichotomy (as bs : List UInt8) : as < bs ∨ as = bs ∨ bs < as := by
  by_cases hlt : as < bs
  · exact .inl hlt
  · by_cases hgt : bs < as
    · exact .inr (.inr hgt)
    · exact .inr (.inl (List.le_antisymm (List.not_lt.mp hgt) (List.not_lt.mp hlt)))

/-- Ascending keys, with `last` behind the other entries that have its key. -/
def KeepsLast (last a b : Entry) : Prop := a.key < b.key ∨ a.key = b.key ∧ (a = last → b = last)

instance (last : Entry) : DecidableRel (KeepsLast last) := fun a b => by
  unfold KeepsLast
  infer_instance

instance (last : Entry) : Std.Total (KeepsLast last) where
  total a b := by
    unfold KeepsLast
    rcases key_trichotomy a.key b.key with hlt | heq | hgt
    · exact .inl (.inl hlt)
    · by_cases hb : b = last
      · exact .inl (.inr ⟨heq, fun _ => hb⟩)
      · exact .inr (.inr ⟨heq.symm, fun h => absurd h hb⟩)
    · exact .inr (.inl hgt)

instance (last : Entry) : IsTrans Entry (KeepsLast last) where
  trans a b c := by
    rintro (hab | ⟨hab, himp⟩) (hbc | ⟨hbc, himp'⟩)
    · exact .inl (List.lt_trans hab hbc)
    · exact .inl (hbc ▸ hab)
    · exact .inl (hab ▸ hbc)
    · exact .inr ⟨hab.trans hbc, fun h => himp' (himp h)⟩

/-- A `qsort` that puts one entry behind the others that compare equal. -/
def Qsort.keepingLast (last : Entry) : Qsort where
  sort := List.insertionSort (KeepsLast last)
  perm := List.perm_insertionSort _
  ascending es := by
    refine (List.pairwise_insertionSort (KeepsLast last) es).imp fun {a b} hab => ?_
    obtain ⟨hlt, heq⟩ := entryCmp_spec a b
    rcases hab with hab | ⟨hab, _⟩
    · have := hlt.mpr hab
      omega
    · have := heq.mpr hab
      omega

/-! ## The sorted entries without duplicates -/

/-- Ascending keys, equal ones side by side. -/
def Ascending (es : List Entry) : Prop := es.Pairwise fun a b => a.key < b.key ∨ a.key = b.key

/-- Strictly ascending keys. -/
def StrictlyAscending (es : List Entry) : Prop := es.Pairwise fun a b => a.key < b.key

theorem StrictlyAscending.nodup_keys {es : List Entry} (h : StrictlyAscending es) :
    (es.map Entry.key).Nodup := by
  refine List.pairwise_map.mpr (h.imp ?_)
  intro a b hab heq
  exact List.lt_irrefl _ (heq ▸ hab)

theorem StrictlyAscending.eq_of_key {es : List Entry} (h : StrictlyAscending es) {a b : Entry}
    (ha : a ∈ es) (hb : b ∈ es) (hkey : a.key = b.key) : a = b :=
  List.inj_on_of_nodup_map h.nodup_keys ha hb hkey

theorem perm_sortEntries (q : Qsort) (es : List Entry) : (sortEntries q es).Perm es := by
  rw [sortEntries]
  split
  · exact q.perm es
  · exact .refl es

theorem pairwise_of_length_le_one {R : Entry → Entry → Prop} {es : List Entry}
    (h : es.length ≤ 1) : es.Pairwise R := by
  match es, h with
  | [], _ => exact .nil
  | [e], _ => exact List.pairwise_singleton R e

theorem ascending_sortEntries (q : Qsort) (es : List Entry) : Ascending (sortEntries q es) := by
  rw [sortEntries]
  split
  · refine (q.ascending es).imp fun {a b} hab => ?_
    have hcmp := entryCmp_spec a b
    rw [← hcmp.1, ← hcmp.2]
    omega
  · exact pairwise_of_length_le_one (by omega)

theorem pairwise_keepingLast (last : Entry) (es : List Entry) :
    (sortEntries (.keepingLast last) es).Pairwise (KeepsLast last) := by
  rw [sortEntries]
  split
  · exact List.pairwise_insertionSort (KeepsLast last) es
  · exact pairwise_of_length_le_one (by omega)

theorem dedupEntries_sublist (es : List Entry) : (dedupEntries es).Sublist es := by
  fun_induction dedupEntries es with
  | case1 => exact .refl _
  | case2 e => exact .refl _
  | case3 e e' es hsame ih => exact ih.cons e
  | case4 e e' es hsame ih => exact ih.cons_cons e

theorem exists_mem_dedupEntries {es : List Entry} {e : Entry} (h : e ∈ es) :
    ∃ d ∈ dedupEntries es, d.key = e.key := by
  fun_induction dedupEntries es generalizing e with
  | case1 => simp at h
  | case2 d => exact ⟨e, h, rfl⟩
  | case3 a b es hsame ih =>
    rcases List.mem_cons.mp h with rfl | h
    · rw [(sameKey_iff e b).mp hsame]
      exact ih (List.mem_cons_self ..)
    · exact ih h
  | case4 a b es hsame ih =>
    rcases List.mem_cons.mp h with rfl | h
    · exact ⟨e, by simp, rfl⟩
    · obtain ⟨d, hd, hkey⟩ := ih h
      exact ⟨d, by simp [hd], hkey⟩

theorem strictlyAscending_dedupEntries {es : List Entry} (h : Ascending es) :
    StrictlyAscending (dedupEntries es) := by
  fun_induction dedupEntries es with
  | case1 => exact .nil
  | case2 e => exact List.pairwise_singleton _ e
  | case3 a b es hsame ih => exact ih h.of_cons
  | case4 a b es hsame ih =>
    obtain ⟨ha, htail⟩ := List.pairwise_cons.mp h
    obtain ⟨hb, _⟩ := List.pairwise_cons.mp htail
    have hab : a.key < b.key := (ha b (by simp)).resolve_right fun heq =>
      hsame ((sameKey_iff a b).mpr heq)
    refine List.pairwise_cons.mpr ⟨fun d hd => ?_, ih htail⟩
    rcases List.mem_cons.mp ((dedupEntries_sublist _).subset hd) with rfl | hd
    · exact hab
    · rcases hb d hd with hlt | heq
      · exact List.lt_trans hab hlt
      · exact heq ▸ hab

/-- Of a run of equal keys the last entry is kept. -/
theorem dedupEntries_last {es : List Entry} (h : Ascending es) {d : Entry}
    (hd : d ∈ dedupEntries es) :
    ∃ pre post, es = pre ++ d :: post ∧ ∀ e ∈ post, e.key ≠ d.key := by
  fun_induction dedupEntries es with
  | case1 => simp at hd
  | case2 e =>
    obtain rfl : d = e := by simpa using hd
    exact ⟨[], [], rfl, by simp⟩
  | case3 a b es hsame ih =>
    obtain ⟨pre, post, heq, hpost⟩ := ih h.of_cons hd
    exact ⟨a :: pre, post, by rw [heq]; rfl, hpost⟩
  | case4 a b es hsame ih =>
    rcases List.mem_cons.mp hd with rfl | hd
    · refine ⟨[], b :: es, rfl, fun e he heq => ?_⟩
      obtain ⟨ha, htail⟩ := List.pairwise_cons.mp h
      obtain ⟨hb, _⟩ := List.pairwise_cons.mp htail
      have hab : d.key < b.key := (ha b (by simp)).resolve_right fun heq =>
        hsame ((sameKey_iff d b).mpr heq)
      rcases List.mem_cons.mp he with rfl | he
      · exact List.lt_irrefl _ (heq ▸ hab)
      · rcases hb e he with hlt | heq'
        · exact List.lt_irrefl _ (heq ▸ List.lt_trans hab hlt)
        · exact List.lt_irrefl _ (heq ▸ heq' ▸ hab)
    · obtain ⟨pre, post, heq, hpost⟩ := ih h.of_cons hd
      exact ⟨a :: pre, post, by rw [heq]; rfl, hpost⟩

theorem dedupEntries_eq_self {es : List Entry} (h : StrictlyAscending es) :
    dedupEntries es = es := by
  fun_induction dedupEntries es with
  | case1 => rfl
  | case2 e => rfl
  | case3 a b es hsame ih =>
    have hab := (List.pairwise_cons.mp h).1 b (by simp)
    rw [(sameKey_iff a b).mp hsame] at hab
    exact absurd hab (List.lt_irrefl _)
  | case4 a b es hsame ih => rw [ih h.of_cons]

/-- What `tp_encoder_build` encodes. -/
def sortedEntries (q : Qsort) (es : List Entry) : List Entry := dedupEntries (sortEntries q es)

theorem strictlyAscending_sortedEntries (q : Qsort) (es : List Entry) :
    StrictlyAscending (sortedEntries q es) :=
  strictlyAscending_dedupEntries (ascending_sortEntries q es)

theorem mem_of_mem_sortedEntries {q : Qsort} {es : List Entry} {e : Entry}
    (h : e ∈ sortedEntries q es) : e ∈ es :=
  (perm_sortEntries q es).mem_iff.mp ((dedupEntries_sublist _).subset h)

theorem exists_mem_sortedEntries (q : Qsort) {es : List Entry} {e : Entry} (h : e ∈ es) :
    ∃ d ∈ sortedEntries q es, d.key = e.key :=
  exists_mem_dedupEntries ((perm_sortEntries q es).mem_iff.mpr h)

theorem length_sortedEntries_le (q : Qsort) (es : List Entry) :
    (sortedEntries q es).length ≤ es.length :=
  (dedupEntries_sublist _).length_le.trans (perm_sortEntries q es).length_eq.le

/-- Without repeated keys every entry is encoded. -/
theorem sortedEntries_perm (q : Qsort) {es : List Entry} (h : (es.map Entry.key).Nodup) :
    (sortedEntries q es).Perm es := by
  have hperm := perm_sortEntries q es
  have hnd : ((sortEntries q es).map Entry.key).Nodup := (hperm.map _).nodup_iff.mpr h
  have hstrict : StrictlyAscending (sortEntries q es) := by
    have hne : (sortEntries q es).Pairwise fun a b => a.key ≠ b.key := List.pairwise_map.mp hnd
    exact (List.Pairwise.and hne (ascending_sortEntries q es)).imp fun hab => hab.2.resolve_right hab.1
  rw [sortedEntries, dedupEntries_eq_self hstrict]
  exact hperm

end Triepack
