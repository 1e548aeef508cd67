import Mathlib.Data.Bool.Count
import Triepack.Bitstream.Write
import Triepack.Library.BinarySearch

/-!
# The ranked bit vector of the second format

Bits are pushed into bytes. An index of counts makes the number of ones in front of a bit cheap to
compute, and a zero is found by binary search over these numbers.
-/

namespace Triepack.V2

open BitString

/-- `bitvec`; the capacity is that of `bits`. -/
structure Bitvec where
  bits : List UInt8
  nbits : Nat
  super : List Nat
  block : List Nat
  deriving DecidableEq, Repr

def Bitvec.empty : Bitvec := ⟨[], 0, [], []⟩

/-- `bv_push`. -/
def bvPush (b : Bitvec) (bit : Bool) : Bitvec :=
  let grown := if b.nbits = 8 * b.bits.length then
      b.bits ++ List.replicate (if b.bits.length ≠ 0 then b.bits.length else 512) 0
    else b.bits
  { b with
    bits := if bit then
        grown.modify (b.nbits >>> 3) fun byte => byte ||| ((0x80 : UInt8) >>> UInt8.ofNat (b.nbits &&& 7))
      else grown
    nbits := b.nbits + 1 }

/-- `bv_get`. -/
def bvGet (b : Bitvec) (i : Nat) : Nat := ((b.bits.getD (i >>> 3) 0).toNat >>> (7 - (i &&& 7))) &&& 1

/-- The counts and the arrays in the loop of `bv_build_index`. -/
structure IndexState where
  total : Nat
  within : Nat
  super : List Nat
  block : List Nat

/-- One round of the loop of `bv_build_index`. -/
def indexStep (b : Bitvec) (s : IndexState) (i : Nat) : IndexState :=
  let within := if i % 2048 = 0 then 0 else s.within
  let one := decide (i < b.nbits) && decide (bvGet b i ≠ 0)
  { total := if one then s.total + 1 else s.total
    within := if one then within + 1 else within
    super := if i % 2048 = 0 then s.super.set (i / 2048) s.total else s.super
    block := if i % 256 = 0 then s.block.set (i / 256) (within % 2 ^ 16) else s.block }

/-- `bv_build_index`. -/
def bvBuildIndex (b : Bitvec) : Bitvec :=
  let nsuper := (b.nbits + 2047) / 2048 + 1
  let nblock := (b.nbits + 255) / 256 + 1
  let s := (List.range (b.nbits + 1)).foldl (indexStep b)
    ⟨0, 0, List.replicate nsuper 0, List.replicate nblock 0⟩
  { b with super := s.super, block := s.block }

/-- `popcount64`. -/
def popcount64 (x : Nat) : Nat := (natBits 64 x).count true

/-- A 64-bit word from eight bytes. -/
def word (bytes : List UInt8) : Nat := bytes.foldl (fun w byte => (w <<< 8) ||| byte.toNat) 0

/-- A loop of `bv_rank1`: it adds counts of `step` bits each while they stand in front of `i`. -/
def rankLoop (step : Nat) (ones : Nat → Nat) (i : Nat) : (fuel : Nat) → (j c : Nat) → Nat × Nat
  | 0, j, c => (j, c)
  | fuel + 1, j, c => if j + step ≤ i then rankLoop step ones i fuel (j + step) (c + ones j) else (j, c)

/-- `bv_rank1`. -/
def bvRank1 (b : Bitvec) (i : Nat) : Nat :=
  let c := b.super.getD (i / 2048) 0 + b.block.getD (i / 256) 0
  let j := i / 256 * 256
  -- whole 64-bit words, whole bytes, trailing bits
  let words := rankLoop 64 (fun j => popcount64 (word ((b.bits.drop (j >>> 3)).take 8))) i i j c
  let bytes := rankLoop 8 (fun j => popcount64 (b.bits.getD (j >>> 3) 0).toNat) i i words.1 words.2
  (rankLoop 1 (bvGet b) i i bytes.1 bytes.2).2

/-- `bv_select0`. -/
def bvSelect0 (b : Bitvec) (k : Nat) : Nat :=
  BinarySearch.lowerBound (fun mid => decide (mid + 1 - bvRank1 b (mid + 1) ≤ k)) 0 b.nbits

/-! ## What a bit vector holds -/

/-- The bits of the vector; behind them all is zero. -/
structure Bitvec.Holds (b : Bitvec) (bs : List Bool) : Prop where
  nbits_eq : b.nbits = bs.length
  bits_eq : ∃ zeros, bytesBits b.bits = bs ++ List.replicate zeros false

theorem holds_empty : Bitvec.empty.Holds [] := ⟨rfl, 0, rfl⟩

theorem or_mask (byte : UInt8) {k : Nat} (hk : k < 8) :
    byte ||| ((0x80 : UInt8) >>> UInt8.ofNat k) = setBit byte (7 - k) 1 := by
  have hmask : ∀ k : Fin 8, (0x80 : UInt8) >>> UInt8.ofNat k = (1 : UInt8) <<< UInt8.ofNat (7 - k) := by
    decide
  rw [setBit, if_pos (by omega), hmask ⟨k, hk⟩]

theorem bvPush_holds {b : Bitvec} {bs : List Bool} (h : b.Holds bs) (bit : Bool) :
    (bvPush b bit).Holds (bs ++ [bit]) := by
  obtain ⟨hnbits, zeros, hbits⟩ := h
  have hlen := congrArg List.length hbits
  rw [length_bytesBits, List.length_append, List.length_replicate] at hlen
  -- behind the bits there is room for one more
  obtain ⟨grown, zeros', hgrown, hroom⟩ : ∃ grown zeros', (if b.nbits = 8 * b.bits.length then
      b.bits ++ List.replicate (if b.bits.length ≠ 0 then b.bits.length else 512) 0 else b.bits) = grown ∧
      bytesBits grown = bs ++ List.replicate (zeros' + 1) false := by
    split_ifs with hfull hsome
    · refine ⟨_, zeros + 8 * b.bits.length - 1, rfl, ?_⟩
      rw [bytesBits_append, hbits, bytesBits_replicate_zero, List.append_assoc, ← List.replicate_add]
      congr 2
      omega
    · refine ⟨_, zeros + 8 * 512 - 1, rfl, ?_⟩
      rw [bytesBits_append, hbits, bytesBits_replicate_zero, List.append_assoc, ← List.replicate_add]
      rfl
    · refine ⟨_, zeros - 1, rfl, ?_⟩
      rw [hbits]
      congr 2
      omega
  refine ⟨by simp [bvPush, hnbits], zeros', ?_⟩
  simp only [bvPush, hgrown]
  split_ifs with hbit
  · subst hbit
    have hmod : (fun byte : UInt8 => byte ||| ((0x80 : UInt8) >>> UInt8.ofNat (b.nbits &&& 7))) =
        fun byte => setBit byte (7 - b.nbits % 8) 1 := by
      funext byte
      have hmask : b.nbits &&& 7 = b.nbits % 8 := Nat.and_two_pow_sub_one_eq_mod _ 3
      rw [hmask, or_mask byte (Nat.mod_lt _ (by omega))]
    have hwrite := bytesBits_writeBitMsb grown b.nbits 1
    rw [writeBitMsb] at hwrite
    rw [hmod, Nat.shiftRight_eq_div_pow, hwrite, hroom, hnbits, List.replicate_succ,
      List.set_append_right _ _ (Nat.le_refl _), Nat.sub_self, List.set_cons_zero]
    simp
  · obtain rfl : bit = false := by simpa using hbit
    rw [hroom, List.append_assoc, List.replicate_succ]
    rfl

theorem Bitvec.Holds.getElem? {b : Bitvec} {bs : List Bool} (h : b.Holds bs) {i : Nat}
    (hi : i < bs.length) : (bytesBits b.bits)[i]? = bs[i]? := by
  obtain ⟨_, zeros, hbits⟩ := h
  rw [hbits, List.getElem?_append_left hi]

theorem bvGet_eq {b : Bitvec} {bs : List Bool} (h : b.Holds bs) {i : Nat} {bit : Bool}
    (hi : bs[i]? = some bit) : bvGet b i = bit.toNat := by
  obtain ⟨hlt, _⟩ := List.getElem?_eq_some_iff.mp hi
  exact getD_testBit ((h.getElem? hlt).trans hi)

/-- The bits that are set are among those of the vector. -/
theorem bvGet_ne_zero_iff {b : Bitvec} {bs : List Bool} (h : b.Holds bs) {i : Nat} :
    bvGet b i ≠ 0 ↔ bs[i]? = some true := by
  rcases hi : bs[i]? with _ | bit
  · have hzero : bvGet b i = 0 := by
      obtain ⟨_, zeros, hbits⟩ := h
      rcases hbyte : (bytesBits b.bits)[i]? with _ | bit
      · have hle : b.bits.length ≤ i >>> 3 := by
          rw [List.getElem?_eq_none_iff, length_bytesBits] at hbyte
          rw [Nat.shiftRight_eq_div_pow]
          omega
        rw [bvGet, List.getD_eq_default _ _ hle]
        simp
      · have hrest := hbyte
        rw [hbits, List.getElem?_append_right (List.getElem?_eq_none_iff.mp hi)] at hrest
        obtain rfl := List.eq_of_mem_replicate (List.mem_of_getElem? hrest)
        exact getD_testBit hbyte
    simp [hzero]
  · rw [bvGet_eq h hi]
    cases bit <;> simp

/-! ## Counts -/

/-- The number of ones in front of bit `i`. -/
def ones (bs : List Bool) (i : Nat) : Nat := (bs.take i).count true

theorem ones_add (bs : List Bool) (i n : Nat) :
    ones bs (i + n) = ones bs i + ((bs.drop i).take n).count true := by
  rw [ones, List.take_add, List.count_append, ones]

theorem ones_succ {bs : List Bool} {i : Nat} {bit : Bool} (h : bs[i]? = some bit) :
    ones bs (i + 1) = ones bs i + bit.toNat := by
  rw [ones, ones, List.take_add_one, h, List.count_append]
  cases bit <;> rfl

theorem ones_add_le (bs : List Bool) (i n : Nat) : ones bs (i + n) ≤ ones bs i + n := by
  rw [ones_add]
  have hcount := List.count_le_length (a := true) (l := (bs.drop i).take n)
  have hlen := List.length_take_le n (bs.drop i)
  omega

/-- The ones of a word are those of its bytes. -/
theorem natBits_word (bytes : List UInt8) : natBits (8 * bytes.length) (word bytes) = bytesBits bytes := by
  induction bytes using List.reverseRecOn with
  | nil => rfl
  | append_singleton bytes b ih =>
    have hb := b.toNat_lt
    have hword : word (bytes ++ [b]) = word bytes * 2 ^ 8 + b.toNat := by
      rw [word, List.foldl_append, ← word, List.foldl_cons, List.foldl_nil,
        ← Nat.shiftLeft_add_eq_or_of_lt hb, Nat.shiftLeft_eq]
    have hdiv : (word bytes * 2 ^ 8 + b.toNat) / 2 ^ 8 = word bytes := by omega
    have hmod : natBits 8 (word bytes * 2 ^ 8 + b.toNat) = byteBits b := by
      rw [← natBits_mod, Nat.mul_add_mod_self_right, natBits_mod]
      rfl
    rw [List.length_append, List.length_singleton, Nat.mul_add, Nat.mul_one, natBits_add, hword, hdiv, ih,
      hmod, bytesBits_append, bytesBits_cons, bytesBits_nil, List.append_nil]

theorem popcount64_byte (b : UInt8) : popcount64 b.toNat = (byteBits b).count true := by
  have hdiv : b.toNat / 2 ^ 8 = 0 := Nat.div_eq_of_lt b.toNat_lt
  rw [popcount64, natBits_add 56 8, hdiv, natBits_zero, List.count_append]
  simp [byteBits]

section Holds

variable {b : Bitvec} {bs : List Bool} (h : b.Holds bs) {i j : Nat}

include h

/-- Whole bytes at a byte boundary. -/
theorem count_bytes {n : Nat} (hj : j % 8 = 0) (hle : j + 8 * n ≤ bs.length) :
    (bytesBits ((b.bits.drop (j >>> 3)).take n)).count true + ones bs j = ones bs (j + 8 * n) := by
  obtain ⟨_, zeros, hbits⟩ := h
  have hdrop : 8 * (j >>> 3) = j := by
    rw [Nat.shiftRight_eq_div_pow]
    omega
  rw [← take_bytesBits, ← drop_bytesBits, hdrop, hbits, List.drop_append_of_le_length (by omega),
    List.take_append_of_le_length (by rw [List.length_drop]; omega), ones_add, Nat.add_comm]

theorem popcount64_word (hj : j % 8 = 0) (hle : j + 64 ≤ bs.length) :
    popcount64 (word ((b.bits.drop (j >>> 3)).take 8)) + ones bs j = ones bs (j + 64) := by
  have hcount := @count_bytes b bs h j 8 hj (by omega)
  have hlen : ((b.bits.drop (j >>> 3)).take 8).length = 8 := by
    obtain ⟨_, zeros, hbits⟩ := h
    have hall := congrArg List.length hbits
    rw [length_bytesBits, List.length_append, List.length_replicate] at hall
    rw [List.length_take, List.length_drop, Nat.shiftRight_eq_div_pow]
    omega
  have hbits := natBits_word ((b.bits.drop (j >>> 3)).take 8)
  rw [hlen] at hbits
  rw [popcount64, hbits]
  exact hcount

theorem popcount64_getD (hj : j % 8 = 0) (hle : j + 8 ≤ bs.length) :
    popcount64 (b.bits.getD (j >>> 3) 0).toNat + ones bs j = ones bs (j + 8) := by
  have hcount := @count_bytes b bs h j 1 hj (by omega)
  obtain ⟨_, zeros, hbits⟩ := h
  have hall := congrArg List.length hbits
  rw [length_bytesBits, List.length_append, List.length_replicate] at hall
  have hlt : j >>> 3 < b.bits.length := by
    rw [Nat.shiftRight_eq_div_pow]
    omega
  rw [List.take_one, List.head?_drop, List.getElem?_eq_getElem hlt, Option.toList_some, bytesBits_cons,
    bytesBits_nil, List.append_nil] at hcount
  rw [List.getD_eq_getElem?_getD, List.getElem?_eq_getElem hlt, Option.getD_some, popcount64_byte]
  exact hcount

theorem bvGet_add (hle : j + 1 ≤ bs.length) : bvGet b j + ones bs j = ones bs (j + 1) := by
  have hget := List.getElem?_eq_getElem (show j < bs.length by omega)
  rw [bvGet_eq h hget, ones_succ hget, Nat.add_comm]

end Holds

/-- A loop that adds what stands between two places keeps the count. -/
theorem rankLoop_spec {bs : List Bool} {step : Nat} {pop : Nat → Nat} {i fuel j : Nat}
    (hpop : ∀ j, j % step = 0 → j + step ≤ i → pop j + ones bs j = ones bs (j + step))
    (hj : j % step = 0) (hle : j ≤ i) (hfuel : i < j + fuel * step + step) :
    ∃ j', rankLoop step pop i fuel j (ones bs j) = (j', ones bs j') ∧ j' ≤ i ∧ i < j' + step ∧
      j' % step = 0 := by
  induction fuel generalizing j with
  | zero => exact ⟨j, rfl, hle, by omega, hj⟩
  | succ fuel ih =>
    rw [rankLoop]
    split_ifs with hmore
    · rw [Nat.add_comm (ones bs j), hpop j hj hmore]
      exact ih (by rw [Nat.add_mod_right]; exact hj) hmore (by rw [Nat.add_one_mul] at hfuel; omega)
    · exact ⟨j, rfl, hle, by omega, hj⟩

/-! ## The index -/

/-- The counts that the index has in front of bit `i`. -/
structure IndexState.At (s : IndexState) (bs : List Bool) (i : Nat) : Prop where
  total : s.total = ones bs i
  within : i % 2048 ≠ 0 → s.within + ones bs (i / 2048 * 2048) = ones bs i
  super : ∀ a, a * 2048 < i → s.super[a]? = some (ones bs (a * 2048))
  block : ∀ a, a * 256 < i →
    ∃ n, s.block[a]? = some n ∧ n + ones bs (a * 256 / 2048 * 2048) = ones bs (a * 256)
  length_super : s.super.length = (bs.length + 2047) / 2048 + 1
  length_block : s.block.length = (bs.length + 255) / 256 + 1

theorem indexStep_at {b : Bitvec} {bs : List Bool} (h : b.Holds bs) {s : IndexState} {i : Nat}
    (hi : i ≤ bs.length) (hs : s.At bs i) : (indexStep b s i).At bs (i + 1) := by
  -- the count within the superblock once it is reset
  obtain ⟨within, hwithin, hsum⟩ : ∃ within, (if i % 2048 = 0 then 0 else s.within) = within ∧
      within + ones bs (i / 2048 * 2048) = ones bs i := by
    refine ⟨_, rfl, ?_⟩
    split_ifs with hreset
    · rw [Nat.zero_add, show i / 2048 * 2048 = i by omega]
    · exact hs.within hreset
  obtain ⟨one, hone, hnext⟩ : ∃ one : Bool,
      (decide (i < b.nbits) && decide (bvGet b i ≠ 0)) = one ∧ ones bs (i + 1) = ones bs i + one.toNat := by
    refine ⟨_, rfl, ?_⟩
    rcases hbit : bs[i]? with _ | bit
    · have hle : bs.length ≤ i := List.getElem?_eq_none_iff.mp hbit
      have hout : ¬ i < b.nbits := by rw [h.nbits_eq]; omega
      rw [decide_eq_false hout, ones, ones, List.take_of_length_le hle, List.take_of_length_le (by omega)]
      rfl
    · obtain ⟨hlt, _⟩ := List.getElem?_eq_some_iff.mp hbit
      rw [decide_eq_true (show i < b.nbits by rwa [h.nbits_eq]), bvGet_eq h hbit, ones_succ hbit]
      cases bit <;> rfl
  have hbound := ones_add_le bs (i / 2048 * 2048) (i % 2048)
  rw [show i / 2048 * 2048 + i % 2048 = i by omega] at hbound
  have hcast : within % 2 ^ 16 = within := Nat.mod_eq_of_lt (by omega)
  refine ⟨?_, fun hmod => ?_, fun a ha => ?_, fun a ha => ?_, ?_, ?_⟩
  · simp only [indexStep, hone, hs.total, hnext]
    cases one <;> rfl
  · simp only [indexStep, hone, hwithin]
    have hsame : (i + 1) / 2048 * 2048 = i / 2048 * 2048 := by omega
    rw [hsame, hnext]
    cases one <;> simp only [Bool.false_eq_true, if_false, if_true, Bool.toNat_false, Bool.toNat_true] <;> omega
  · simp only [indexStep]
    by_cases hnew : a * 2048 = i
    · rw [if_pos (by omega), List.getElem?_set, if_pos (by omega), if_pos (by rw [hs.length_super]; omega),
        hs.total, hnew]
    · split_ifs
      · rw [List.getElem?_set_ne (by omega)]
        exact hs.super a (by omega)
      · exact hs.super a (by omega)
  · simp only [indexStep, hwithin, hcast]
    by_cases hnew : a * 256 = i
    · refine ⟨within, ?_, by rw [hnew]; exact hsum⟩
      rw [if_pos (by omega), List.getElem?_set, if_pos (by omega), if_pos (by rw [hs.length_block]; omega)]
    · split_ifs
      · rw [List.getElem?_set_ne (by omega)]
        exact hs.block a (by omega)
      · exact hs.block a (by omega)
  · simp only [indexStep]
    split_ifs <;> simp only [List.length_set, hs.length_super]
  · simp only [indexStep]
    split_ifs <;> simp only [List.length_set, hs.length_block]

/-- A vector with its index. -/
structure Bitvec.Indexed (b : Bitvec) (bs : List Bool) : Prop where
  holds : b.Holds bs
  index : ∀ i ≤ bs.length,
    b.super.getD (i / 2048) 0 + b.block.getD (i / 256) 0 = ones bs (i / 256 * 256)

theorem bvBuildIndex_indexed {b : Bitvec} {bs : List Bool} (h : b.Holds bs) :
    (bvBuildIndex b).Indexed bs := by
  have hloop : ∀ n ≤ bs.length + 1, IndexState.At ((List.range n).foldl (indexStep b)
      ⟨0, 0, List.replicate ((b.nbits + 2047) / 2048 + 1) 0,
        List.replicate ((b.nbits + 255) / 256 + 1) 0⟩) bs n := by
    intro n hn
    induction n with
    | zero =>
      refine ⟨rfl, fun h0 => absurd rfl h0, fun a ha => by omega, fun a ha => by omega, ?_, ?_⟩
      · simp [h.nbits_eq]
      · simp [h.nbits_eq]
    | succ n ih =>
      rw [List.range_succ, List.foldl_append]
      exact indexStep_at h (by omega) (ih (by omega))
  have hall := hloop (bs.length + 1) le_rfl
  rw [← h.nbits_eq] at hall
  refine ⟨⟨h.nbits_eq, h.bits_eq⟩, fun i hi => ?_⟩
  have hsuper := hall.super (i / 2048) (by rw [h.nbits_eq]; omega)
  obtain ⟨n, hblock, hsum⟩ := hall.block (i / 256) (by rw [h.nbits_eq]; omega)
  have hsame : i / 256 * 256 / 2048 * 2048 = i / 2048 * 2048 := by omega
  rw [hsame] at hsum
  simp only [bvBuildIndex, List.getD_eq_getElem?_getD, hsuper, hblock, Option.getD_some]
  omega

/-! ## Rank and select -/

section Indexed

variable {b : Bitvec} {bs : List Bool} (h : b.Indexed bs)

include h

/-- The rank of a bit is the number of ones in front of it. -/
theorem bvRank1_eq {i : Nat} (hi : i ≤ bs.length) : bvRank1 b i = ones bs i := by
  obtain ⟨j, hwords, hj, hj', hmod⟩ := @rankLoop_spec bs 64
    (fun j => popcount64 (word ((b.bits.drop (j >>> 3)).take 8))) i i (i / 256 * 256)
    (fun j hj hle => popcount64_word h.holds (by omega) (by omega)) (by omega) (by omega) (by omega)
  obtain ⟨k, hbytes, hk, hk', _⟩ := @rankLoop_spec bs 8
    (fun j => popcount64 (b.bits.getD (j >>> 3) 0).toNat) i i j
    (fun j hj hle => popcount64_getD h.holds hj (by omega)) (by omega) hj (by omega)
  obtain ⟨l, hbits, hl, hl', _⟩ := @rankLoop_spec bs 1 (bvGet b) i i k
    (fun j _ hle => bvGet_add h.holds (by omega)) (by omega) hk (by omega)
  obtain rfl : l = i := by omega
  rw [bvRank1, h.index l hi]
  simp only [hwords, hbytes, hbits]

/-- The search finds the zero that has `k` zeros in front of it. -/
theorem bvSelect0_eq {k p : Nat} (hp : bs[p]? = some false) (hk : (bs.take p).count false = k) :
    bvSelect0 b k = p := by
  obtain ⟨hlt, _⟩ := List.getElem?_eq_some_iff.mp hp
  have hzeros : ones bs p + k = p := by
    have hsum := List.count_true_add_count_false (bs.take p)
    rwa [hk, List.length_take, Nat.min_eq_left hlt.le] at hsum
  have hnext := ones_succ hp
  rw [Bool.toNat_false, Nat.add_zero] at hnext
  refine BinarySearch.lowerBound_eq (Nat.zero_le p) (by rw [h.holds.nbits_eq]; exact hlt.le)
    (fun i _ hi => ?_) fun i hi hi' => ?_
  · have hone := ones_add_le bs (i + 1) (p - (i + 1))
    rw [Nat.add_sub_cancel' hi] at hone
    rw [bvRank1_eq h (by omega), decide_eq_true_eq]
    omega
  · rw [h.holds.nbits_eq] at hi'
    have hone := ones_add_le bs (p + 1) (i - p)
    rw [show p + 1 + (i - p) = i + 1 by omega] at hone
    rw [bvRank1_eq h (by omega), decide_eq_false_iff_not]
    omega

end Indexed

end Triepack.V2
