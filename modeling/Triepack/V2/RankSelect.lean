import Triepack.Library.RankSelect
import Triepack.V2.Bitvec

/-!
# Rank and select of the second format

`tp2_bv_create` copies the bits, clears what stands behind them in the last byte and counts them. The
rank of every index and the place of every bit by its number are then exact.
-/

namespace Triepack.V2

open BitString RankSelect

/-- The copy that `tp2_bv_create` makes of the bits, with spare bytes behind it. -/
def copyBits (bits : List UInt8) (nbits : Nat) : List UInt8 :=
  let nbytes := (nbits + 7) / 8
  let copy := bits.take nbytes ++ List.replicate 8 0
  if nbits % 8 ≠ 0 then
    copy.modify (nbytes - 1) fun byte => byte &&& ((0xFF : UInt8) <<< UInt8.ofNat (8 - nbits % 8))
  else copy

/-- `tp2_bv_create`; its loop is the one of `bv_build_index`. -/
def tp2BvCreate (bits : List UInt8) (nbits : Nat) : Bitvec :=
  bvBuildIndex ⟨copyBits bits nbits, nbits, [], []⟩

/-- `tp2_bv_size`. -/
def tp2BvSize (bv : Bitvec) : Nat := bv.nbits

/-- `tp2_bv_rank1`; its loops are those of `bv_rank1`. -/
def tp2BvRank1 (bv : Bitvec) (i : Nat) : Nat :=
  if i = 0 then 0 else bvRank1 bv (if i > bv.nbits then bv.nbits else i)

/-- `tp2_bv_rank0`. -/
def tp2BvRank0 (bv : Bitvec) (i : Nat) : Nat :=
  let i := if i > bv.nbits then bv.nbits else i
  i - tp2BvRank1 bv i

/-- The rank that `bv_select` counts with. -/
def tp2BvSeen (bv : Bitvec) (wantOne : Bool) (i : Nat) : Nat :=
  if wantOne then tp2BvRank1 bv i else tp2BvRank0 bv i

/-- `bv_select`. -/
def bvSelect (bv : Bitvec) (k : Nat) (wantOne : Bool) : Nat :=
  if bv.nbits = 0 then 0
  else
    let available := tp2BvSeen bv wantOne bv.nbits
    if k ≥ available then bv.nbits
    else BinarySearch.lowerBound (fun mid => decide (tp2BvSeen bv wantOne (mid + 1) ≤ k)) 0 bv.nbits

/-- `tp2_bv_select1`. -/
def tp2BvSelect1 (bv : Bitvec) (k : Nat) : Nat := bvSelect bv k true

/-- `tp2_bv_select0`. -/
def tp2BvSelect0 (bv : Bitvec) (k : Nat) : Nat := bvSelect bv k false

/-! ## The copy -/

/-- The mask keeps the first bits of a byte. -/
theorem byteBits_and_mask (byte : UInt8) {r : Nat} (hr : 0 < r) (hr' : r < 8) :
    byteBits (byte &&& ((0xFF : UInt8) <<< UInt8.ofNat (8 - r))) =
      (byteBits byte).take r ++ List.replicate (8 - r) false := by
  have hmask : ∀ r i : Fin 8,
      ((0xFF : UInt8) <<< UInt8.ofNat (8 - r.val)).toNat.testBit (7 - i.val) = decide (i < r) ∨ r.val = 0 := by
    decide
  apply List.ext_getElem?
  intro i
  by_cases hi : i < 8
  · have hbit := (hmask ⟨r, hr'⟩ ⟨i, hi⟩).resolve_right (by simp only; omega)
    simp only [Fin.mk_lt_mk] at hbit
    rw [byteBits, byteBits, getElem?_natBits _ _ _ hi, UInt8.toNat_and, Nat.testBit_and, hbit]
    by_cases hir : i < r
    · rw [List.getElem?_append_left (by simp; omega), List.getElem?_take_of_lt hir,
        getElem?_natBits _ _ _ hi, decide_eq_true hir, Bool.and_true]
    · rw [List.getElem?_append_right (by simp; omega), List.getElem?_replicate_of_lt (by simp; omega),
        decide_eq_false hir, Bool.and_false]
  · rw [List.getElem?_eq_none (by rw [length_byteBits]; omega), List.getElem?_eq_none (by simp; omega)]

section Create

variable {bits : List UInt8} {nbits : Nat} (hbits : nbits ≤ 8 * bits.length)

include hbits

/-- Whatever stood behind the bits is zero in the copy. -/
theorem bytesBits_copyBits : ∃ zeros,
    bytesBits (copyBits bits nbits) = (bytesBits bits).take nbits ++ List.replicate zeros false := by
  have hdiv := Nat.div_add_mod nbits 8
  by_cases hr : nbits % 8 = 0
  · have hlen : (nbits + 7) / 8 = nbits / 8 := by omega
    refine ⟨64, ?_⟩
    rw [copyBits, hlen]
    simp only [hr, ne_eq, not_true_eq_false, if_false]
    rw [bytesBits_append, bytesBits_replicate_zero, ← take_bytesBits]
    congr 2
    omega
  · have hlt : nbits / 8 < bits.length := by omega
    have hlen : (nbits + 7) / 8 = nbits / 8 + 1 := by omega
    have hfront : (bits.take (nbits / 8)).length = nbits / 8 := by
      rw [List.length_take]
      omega
    have hsplit : (bytesBits bits).take nbits =
        bytesBits (bits.take (nbits / 8)) ++ (byteBits bits[nbits / 8]).take (nbits % 8) := by
      conv_lhs => rw [← hdiv, List.take_add, take_bytesBits, drop_bytesBits, List.drop_eq_getElem_cons hlt,
        bytesBits_cons]
      rw [List.take_append_of_le_length (by rw [length_byteBits]; omega)]
    refine ⟨8 - nbits % 8 + 64, ?_⟩
    rw [copyBits, hlen]
    simp only [ne_eq, hr, not_false_eq_true, if_true, Nat.add_sub_cancel]
    have hcopy : bits.take (nbits / 8 + 1) ++ List.replicate 8 0 =
        bits.take (nbits / 8) ++ bits[nbits / 8] :: List.replicate 8 0 := by
      rw [List.take_succ_eq_append_getElem hlt, List.append_assoc]
      rfl
    have hmodify : ∀ f : UInt8 → UInt8, (bits.take (nbits / 8 + 1) ++ List.replicate 8 0).modify (nbits / 8) f =
        bits.take (nbits / 8) ++ f bits[nbits / 8] :: List.replicate 8 0 := by
      intro f
      rw [hcopy, List.modify_eq_take_drop, List.take_left' hfront, List.drop_left' hfront,
        List.modifyHead_cons]
    rw [hmodify, bytesBits_append, bytesBits_cons, byteBits_and_mask _ (by omega) (by omega),
      bytesBits_replicate_zero, hsplit]
    simp only [List.append_assoc, List.replicate_append_replicate]

theorem tp2BvCreate_indexed : (tp2BvCreate bits nbits).Indexed ((bytesBits bits).take nbits) := by
  obtain ⟨zeros, hzeros⟩ := bytesBits_copyBits hbits
  refine bvBuildIndex_indexed ⟨?_, zeros, hzeros⟩
  rw [List.length_take, length_bytesBits, Nat.min_eq_left hbits]

end Create

/-! ## Rank -/

section Indexed

variable {bv : Bitvec} {bs : List Bool} (h : bv.Indexed bs)

include h

/-- An index behind the end stands for the end. -/
theorem clamp_eq (i : Nat) : (if i > bv.nbits then bv.nbits else i) = min i bs.length := by
  rw [h.holds.nbits_eq]
  split_ifs <;> omega

theorem tp2BvRank1_eq (i : Nat) : tp2BvRank1 bv i = rank true bs (min i bs.length) := by
  rw [tp2BvRank1, clamp_eq h]
  split_ifs with hi
  · rw [hi, Nat.zero_min, rank_zero]
  · exact bvRank1_eq h (Nat.min_le_right _ _)

theorem tp2BvRank0_eq (i : Nat) : tp2BvRank0 bv i = rank false bs (min i bs.length) := by
  have hsum := List.count_true_add_count_false (bs.take (min i bs.length))
  rw [List.length_take] at hsum
  simp only [tp2BvRank0, clamp_eq h, tp2BvRank1_eq h, rank]
  rw [show min (min i bs.length) bs.length = min i bs.length by omega]
  omega

theorem tp2BvSeen_eq (bit : Bool) (i : Nat) : tp2BvSeen bv bit i = rank bit bs (min i bs.length) := by
  rw [tp2BvSeen]
  cases bit with
  | true => exact tp2BvRank1_eq h i
  | false => exact tp2BvRank0_eq h i

/-! ## Select -/

theorem bvSelect_of_selects {bit : Bool} {k p : Nat} (hp : Selects bit bs k p) : bvSelect bv k bit = p := by
  have hlt := hp.lt_length
  have hcount := hp.lt_count
  have hnbits := h.holds.nbits_eq
  rw [bvSelect, if_neg (by omega)]
  simp only [tp2BvSeen_eq h, hnbits, Nat.min_self, rank_of_length_le le_rfl]
  rw [if_neg (by omega)]
  exact @lowerBound_rank _ _ bit bs k p hp (fun i => rank bit bs (min i bs.length)) fun i hi => by
    simp only [Nat.min_eq_left hi]

theorem bvSelect_of_count_le {bit : Bool} {k : Nat} (hk : bs.count bit ≤ k) : bvSelect bv k bit = bs.length := by
  have hnbits := h.holds.nbits_eq
  rw [bvSelect]
  simp only [tp2BvSeen_eq h, hnbits, Nat.min_self, rank_of_length_le le_rfl]
  split_ifs with hzero
  · exact hzero.symm
  · rfl

end Indexed

/-! ## Rank and select are exact -/

/-- What the documentation says of a vector that holds `bs`. -/
structure Bitvec.RanksSelects (bv : Bitvec) (bs : List Bool) : Prop where
  size : tp2BvSize bv = bs.length
  rank1 : ∀ i, tp2BvRank1 bv i = (bs.take (min i bs.length)).count true
  rank0 : ∀ i, tp2BvRank0 bv i = (bs.take (min i bs.length)).count false
  select1 : ∀ k < bs.count true,
    bs[tp2BvSelect1 bv k]? = some true ∧ (bs.take (tp2BvSelect1 bv k)).count true = k
  select0 : ∀ k < bs.count false,
    bs[tp2BvSelect0 bv k]? = some false ∧ (bs.take (tp2BvSelect0 bv k)).count false = k
  select1_none : ∀ k, bs.count true ≤ k → tp2BvSelect1 bv k = tp2BvSize bv
  select0_none : ∀ k, bs.count false ≤ k → tp2BvSelect0 bv k = tp2BvSize bv
  rank1_select1 : ∀ k < bs.count true, tp2BvRank1 bv (tp2BvSelect1 bv k) = k
  rank0_select0 : ∀ k < bs.count false, tp2BvRank0 bv (tp2BvSelect0 bv k) = k
  select1_rank1 : ∀ p, bs[p]? = some true → tp2BvSelect1 bv (tp2BvRank1 bv p) = p
  select0_rank0 : ∀ p, bs[p]? = some false → tp2BvSelect0 bv (tp2BvRank0 bv p) = p

/-- A vector of any bits has exact ranks and places, whatever stands behind its last bit. -/
theorem tp2BvCreate_ranksSelects {bits : List UInt8} {nbits : Nat} (hbits : nbits ≤ 8 * bits.length) :
    (tp2BvCreate bits nbits).RanksSelects ((bytesBits bits).take nbits) := by
  have h := tp2BvCreate_indexed hbits
  generalize tp2BvCreate bits nbits = bv at h
  generalize (bytesBits bits).take nbits = bs at h
  have hselect : ∀ bit, ∀ k < bs.count bit, Selects bit bs k (bvSelect bv k bit) := by
    intro bit k hk
    obtain ⟨p, hp⟩ := exists_selects hk
    rwa [bvSelect_of_selects h hp]
  have hseen : ∀ bit, ∀ k < bs.count bit, tp2BvSeen bv bit (bvSelect bv k bit) = k := by
    intro bit k hk
    have hp := hselect bit k hk
    rw [tp2BvSeen_eq h, Nat.min_eq_left hp.lt_length.le, hp.2]
  have hinverse : ∀ bit p, bs[p]? = some bit → bvSelect bv (tp2BvSeen bv bit p) bit = p := by
    intro bit p hp
    obtain ⟨hlt, _⟩ := List.getElem?_eq_some_iff.mp hp
    rw [tp2BvSeen_eq h, Nat.min_eq_left hlt.le]
    exact bvSelect_of_selects h ⟨hp, rfl⟩
  have hnone : ∀ bit k, bs.count bit ≤ k → bvSelect bv k bit = tp2BvSize bv := by
    intro bit k hk
    rw [tp2BvSize, h.holds.nbits_eq]
    exact bvSelect_of_count_le h hk
  exact
    { size := h.holds.nbits_eq
      rank1 := tp2BvRank1_eq h
      rank0 := tp2BvRank0_eq h
      select1 := hselect true
      select0 := hselect false
      select1_none := hnone true
      select0_none := hnone false
      rank1_select1 := hseen true
      rank0_select0 := hseen false
      select1_rank1 := hinverse true
      select0_rank0 := hinverse false }

/-- Thirteen bits of two bytes, with ones behind them. -/
theorem tp2BvCreate_ranksSelects_thirteen :
    (tp2BvCreate [0xD1, 0xAF] 13).RanksSelects ((bytesBits [0xD1, 0xAF]).take 13) :=
  tp2BvCreate_ranksSelects (by decide)

end Triepack.V2
