import Triepack.Core.Encoder
import Triepack.Library.BinarySearch

/-!
# The tail pool of the second format

The tails of all edges are sorted by their last bytes, each is kept once, and one that ends the tail
placed before it lies inside that tail. Every tail can be read off the pool at its offset.
-/

namespace Triepack.V2

/-- `tail`; its `len` is the length of `bytes`. -/
structure Tail where
  bytes : List UInt8
  off : Nat
  deriving DecidableEq, Repr, Inhabited

def Tail.len (t : Tail) : Nat := t.bytes.length

/-- The loop of `tail_cmp_reversed` over two tails, last byte first. -/
def cmpBytes : List UInt8 → List UInt8 → Int
  | x :: xs, y :: ys => if x ≠ y then (if x < y then -1 else 1) else cmpBytes xs ys
  | [], _ :: _ => -1
  | _ :: _, [] => 1
  | [], [] => 0

/-- `tail_cmp_reversed`. -/
def tailCmpReversed (a b : Tail) : Int := cmpBytes a.bytes.reverse b.bytes.reverse

/-- `is_suffix_of`. -/
def isSuffixOf (s big : Tail) : Bool :=
  decide (s.len < big.len) && memcmp s.len (big.bytes.drop (big.len - s.len)) s.bytes == 0

/-- What the C standard says of `qsort` with `tail_cmp_reversed`. -/
structure TailQsort where
  sort : List Tail → List Tail
  perm : ∀ ts, (sort ts).Perm ts
  ascending : ∀ ts, (sort ts).Pairwise fun a b => tailCmpReversed a b ≤ 0

/-- The loop that drops duplicates behind `prev`. -/
def dropBehind : (prev : Tail) → List Tail → List Tail
  | _, [] => []
  | prev, t :: ts =>
    if t.len = prev.len ∧ memcmp t.len t.bytes prev.bytes = 0 then dropBehind t ts
    else t :: dropBehind t ts

def dropDuplicates : List Tail → List Tail
  | [] => []
  | t :: ts => t :: dropBehind t ts

/-- The pool, the tail that was placed last, and the tails that have their offsets. -/
structure PoolState where
  pool : List UInt8
  prev : Option Tail
  placed : List Tail

/-- One round of the loop that fills the pool. -/
def placeTail (t : Tail) (s : PoolState) : PoolState :=
  match s.prev.filter fun big => isSuffixOf t big with
  | some big =>
    { s with placed := { t with off := (big.off + big.len - t.len) % 2 ^ 32 } :: s.placed }
  | none =>
    let t := { t with off := s.pool.length % 2 ^ 32 }
    { pool := s.pool ++ t.bytes, prev := some t, placed := t :: s.placed }

/-- The tail pool; the loop runs from the last tail down. -/
def tailPool (q : TailQsort) (tl : List Tail) : PoolState :=
  (dropDuplicates (q.sort tl)).foldr placeTail ⟨[], none, []⟩

/-- The search for a tail among the placed ones. -/
def findTail (distinct : List Tail) (probe : Tail) : Nat :=
  BinarySearch.lowerBound (fun mid => distinct[mid]?.any fun t => decide (tailCmpReversed t probe < 0)) 0
    distinct.length

/-! ## The order -/

/-- Tails compare by their bytes from the last one on. -/
theorem cmpBytes_spec (as bs : List UInt8) :
    (cmpBytes as bs < 0 ↔ as < bs) ∧ (cmpBytes as bs = 0 ↔ as = bs) := by
  induction as generalizing bs with
  | nil => cases bs <;> simp [cmpBytes]
  | cons a as ih =>
    cases bs with
    | nil => simp [cmpBytes]
    | cons b bs =>
      rw [cmpBytes, List.cons_lt_cons_iff]
      by_cases hab : a = b
      · subst hab
        simpa [UInt8.lt_irrefl] using ih bs
      · rw [if_pos hab]
        split_ifs with hlt
        · simp [hab, hlt]
        · simp [hab, hlt]

theorem tailCmp_lt_iff (a b : Tail) : tailCmpReversed a b < 0 ↔ a.bytes.reverse < b.bytes.reverse :=
  (cmpBytes_spec _ _).1

theorem tailCmp_le_iff (a b : Tail) :
    tailCmpReversed a b ≤ 0 ↔ a.bytes.reverse < b.bytes.reverse ∨ a.bytes = b.bytes := by
  have hlt := tailCmp_lt_iff a b
  have heq : tailCmpReversed a b = 0 ↔ a.bytes = b.bytes := by
    rw [tailCmpReversed, (cmpBytes_spec _ _).2, List.reverse_inj]
  rw [← hlt, ← heq]
  omega

/-- A `qsort` that sorts by insertion. -/
def TailQsort.byInsertion : TailQsort where
  sort := List.insertionSort fun a b => a.bytes.reverse ≤ b.bytes.reverse
  perm := List.perm_insertionSort _
  ascending ts := by
    have htotal : Std.Total fun a b : Tail => a.bytes.reverse ≤ b.bytes.reverse :=
      ⟨fun a b => List.le_total a.bytes.reverse b.bytes.reverse⟩
    have htrans : IsTrans Tail fun a b => a.bytes.reverse ≤ b.bytes.reverse := ⟨fun _ _ _ => List.le_trans⟩
    refine (List.pairwise_insertionSort (fun a b : Tail => a.bytes.reverse ≤ b.bytes.reverse) ts).imp
      fun {a b} hab => ?_
    rw [tailCmp_le_iff, ← List.reverse_inj]
    exact List.le_iff_lt_or_eq.mp hab

theorem isSuffixOf_iff (s big : Tail) :
    isSuffixOf s big = true ↔ s.bytes.length < big.bytes.length ∧ s.bytes <:+ big.bytes := by
  rw [isSuffixOf, Bool.and_eq_true, decide_eq_true_eq, beq_iff_eq]
  refine and_congr_right fun hlt => ?_
  rw [Tail.len, Tail.len] at *
  rw [memcmp_eq_zero_iff (by rw [List.length_drop]; omega) le_rfl, List.take_length,
    List.take_of_length_le (by rw [List.length_drop]; omega), List.suffix_iff_eq_drop, eq_comm]

/-- Tails with ascending bytes from the last one on, each once. -/
def Distinct (ts : List Tail) : Prop := ts.Pairwise fun a b => a.bytes.reverse < b.bytes.reverse

theorem sameTail_iff (a b : Tail) :
    (a.len = b.len ∧ memcmp a.len a.bytes b.bytes = 0) ↔ a.bytes = b.bytes := by
  constructor
  · rintro ⟨hlen, hcmp⟩
    rw [Tail.len, Tail.len] at hlen
    rwa [Tail.len, memcmp_eq_zero_iff le_rfl (by omega), List.take_length, hlen, List.take_length] at hcmp
  · intro h
    rw [Tail.len, Tail.len, h]
    exact ⟨rfl, (memcmp_eq_zero_iff le_rfl le_rfl).mpr rfl⟩

theorem dropBehind_spec {prev : Tail} {ts : List Tail}
    (h : (prev :: ts).Pairwise fun a b => tailCmpReversed a b ≤ 0) :
    Distinct (prev :: dropBehind prev ts) ∧ (dropBehind prev ts).Sublist ts ∧
      ∀ t ∈ ts, ∃ d ∈ prev :: dropBehind prev ts, d.bytes = t.bytes := by
  induction ts generalizing prev with
  | nil => exact ⟨List.pairwise_singleton _ _, List.Sublist.slnil, by simp⟩
  | cons t ts ih =>
    obtain ⟨hprev, hrest⟩ := List.pairwise_cons.mp h
    obtain ⟨hdist, hsub, hmem⟩ := ih hrest
    obtain ⟨hfront, hback⟩ := List.pairwise_cons.mp hdist
    have ht := (tailCmp_le_iff prev t).mp (hprev t (by simp))
    rw [dropBehind]
    by_cases hsame : t.bytes = prev.bytes
    · rw [if_pos ((sameTail_iff t prev).mpr hsame)]
      refine ⟨List.pairwise_cons.mpr ⟨fun d hd => ?_, hback⟩, hsub.cons t, fun x hx => ?_⟩
      · rw [← hsame]
        exact hfront d hd
      · rcases List.mem_cons.mp hx with rfl | hx
        · exact ⟨prev, by simp, hsame.symm⟩
        · obtain ⟨d, hd, hbytes⟩ := hmem x hx
          rcases List.mem_cons.mp hd with rfl | hd
          · exact ⟨prev, by simp, hsame.symm.trans hbytes⟩
          · exact ⟨d, List.mem_cons_of_mem _ hd, hbytes⟩
    · rw [if_neg fun hcmp => hsame ((sameTail_iff t prev).mp hcmp)]
      have hlt := ht.resolve_right fun heq => hsame heq.symm
      refine ⟨List.pairwise_cons.mpr ⟨fun d hd => ?_, hdist⟩, hsub.cons_cons t, fun x hx => ?_⟩
      · rcases List.mem_cons.mp hd with rfl | hd
        · exact hlt
        · exact List.lt_trans hlt (hfront d hd)
      · rcases List.mem_cons.mp hx with rfl | hx
        · exact ⟨x, by simp, rfl⟩
        · obtain ⟨d, hd, hbytes⟩ := hmem x hx
          exact ⟨d, List.mem_cons_of_mem _ hd, hbytes⟩

/-- Every tail is kept once. -/
theorem dropDuplicates_spec (q : TailQsort) (tl : List Tail) :
    Distinct (dropDuplicates (q.sort tl)) ∧ (dropDuplicates (q.sort tl)).Sublist (q.sort tl) ∧
      ∀ t ∈ tl, ∃ d ∈ dropDuplicates (q.sort tl), d.bytes = t.bytes := by
  have hperm := q.perm tl
  have hasc := q.ascending tl
  rcases hsort : q.sort tl with _ | ⟨t, ts⟩
  · rw [hsort] at hperm
    refine ⟨List.Pairwise.nil, List.Sublist.slnil, fun t ht => ?_⟩
    exact absurd (hperm.mem_iff.mpr ht) (by simp)
  · rw [hsort] at hperm hasc
    obtain ⟨hdist, hsub, hmem⟩ := dropBehind_spec hasc
    refine ⟨hdist, hsub.cons_cons t, fun x hx => ?_⟩
    rcases List.mem_cons.mp (hperm.mem_iff.mpr hx) with rfl | hx
    · exact ⟨x, by simp [dropDuplicates], rfl⟩
    · exact hmem x hx

/-! ## The pool -/

/-- The bytes of the tail stand in the pool at its offset. -/
def Spelled (pool : List UInt8) (t : Tail) : Prop := (pool.drop t.off).take t.len = t.bytes

theorem Spelled.le {pool : List UInt8} {t : Tail} (h : Spelled pool t) (hne : t.bytes ≠ []) :
    t.off + t.len ≤ pool.length := by
  have hlen := congrArg List.length h
  have hpos := List.length_pos_iff.mpr hne
  rw [List.length_take, List.length_drop] at hlen
  rw [Tail.len] at *
  omega

theorem Spelled.append {pool : List UInt8} {t : Tail} (h : Spelled pool t) (bytes : List UInt8) :
    Spelled (pool ++ bytes) t := by
  rcases eq_or_ne t.bytes [] with hnil | hne
  · rw [Spelled, Tail.len, hnil]
    simp
  · have hle := h.le hne
    rw [Spelled, List.drop_append_of_le_length (by omega),
      List.take_append_of_le_length (by rw [List.length_drop]; omega)]
    exact h

/-- The tails that were placed can be read off the pool, the one placed last among them. -/
structure PoolState.Valid (s : PoolState) (ts : List Tail) : Prop where
  placed : s.placed.map Tail.bytes = ts.map Tail.bytes
  spelled : ∀ t ∈ s.placed, Spelled s.pool t
  prev : ∀ t, s.prev = some t → t ∈ s.placed
  length_le : s.pool.length ≤ (ts.map Tail.len).sum

theorem placeTail_valid {s : PoolState} {ts : List Tail} (h : s.Valid ts) (t : Tail)
    (hsmall : ((t :: ts).map Tail.len).sum < 2 ^ 32) : (placeTail t s).Valid (t :: ts) := by
  rw [List.map_cons, List.sum_cons] at hsmall
  have hpool := h.length_le
  rw [placeTail]
  rcases hprev : s.prev.filter (fun big => isSuffixOf t big) with _ | big
  · have hoff : s.pool.length % 2 ^ 32 = s.pool.length := Nat.mod_eq_of_lt (by omega)
    refine ⟨by simp [h.placed], fun x hx => ?_, fun x hx => ?_, ?_⟩
    · rcases List.mem_cons.mp hx with rfl | hx
      · rw [Spelled, hoff, List.drop_left]
        exact List.take_length
      · exact (h.spelled x hx).append t.bytes
    · obtain rfl := Option.some.inj hx
      exact List.mem_cons_self
    · have hgrown : (s.pool ++ t.bytes).length ≤ ((t :: ts).map Tail.len).sum := by
        rw [List.map_cons, List.sum_cons, List.length_append, Nat.add_comm, Tail.len]
        omega
      exact hgrown
  · obtain ⟨hbig, hsuffix⟩ := Option.filter_eq_some_iff.mp hprev
    obtain ⟨hlt, hend⟩ := (isSuffixOf_iff t big).mp hsuffix
    have hspelled := h.spelled big (h.prev big hbig)
    have hle := hspelled.le (List.ne_nil_of_length_pos (by omega))
    have hoff : (big.off + big.len - t.len) % 2 ^ 32 = big.off + (big.len - t.len) := by
      rw [Tail.len, Tail.len] at *
      rw [Nat.mod_eq_of_lt (by omega)]
      omega
    refine ⟨by simp [h.placed], fun x hx => ?_, fun x hx => List.mem_cons_of_mem _ (h.prev x hx), ?_⟩
    · rcases List.mem_cons.mp hx with rfl | hx
      · rw [Spelled, hoff]
        have hread : (s.pool.drop (big.off + (big.len - t.len))).take t.len =
            ((s.pool.drop big.off).take big.len).drop (big.len - t.len) := by
          rw [List.drop_take, List.drop_drop]
          congr 1
          rw [Tail.len, Tail.len]
          omega
        rw [Spelled] at hspelled
        refine hread.trans ?_
        rw [hspelled]
        exact (List.suffix_iff_eq_drop.mp hend).symm
      · exact h.spelled x hx
    · rw [List.map_cons, List.sum_cons]
      exact hpool.trans (Nat.le_add_left _ _)

theorem foldr_placeTail_valid {ts : List Tail} (hsmall : (ts.map Tail.len).sum < 2 ^ 32) :
    PoolState.Valid (ts.foldr placeTail ⟨[], none, []⟩) ts := by
  induction ts with
  | nil => exact ⟨rfl, by simp, by simp, by simp⟩
  | cons t ts ih =>
    refine placeTail_valid (ih ?_) t hsmall
    rw [List.map_cons, List.sum_cons] at hsmall
    omega

/-- Every tail is among the placed ones, which are in order, and can be read off the pool. -/
theorem tailPool_spec (q : TailQsort) {tl : List Tail} (hsmall : (tl.map Tail.len).sum < 2 ^ 32) :
    Distinct (tailPool q tl).placed ∧ (∀ t ∈ (tailPool q tl).placed, Spelled (tailPool q tl).pool t) ∧
      ∀ t ∈ tl, ∃ d ∈ (tailPool q tl).placed, d.bytes = t.bytes := by
  obtain ⟨hdist, hsub, hmem⟩ := dropDuplicates_spec q tl
  have hsum : ((dropDuplicates (q.sort tl)).map Tail.len).sum < 2 ^ 32 := by
    refine Nat.lt_of_le_of_lt ?_ hsmall
    rw [← ((q.perm tl).map Tail.len).sum_eq]
    exact (hsub.map Tail.len).sum_le_sum fun _ _ => Nat.zero_le _
  have hvalid := foldr_placeTail_valid hsum
  rw [← tailPool] at hvalid
  refine ⟨?_, hvalid.spelled, fun t ht => ?_⟩
  · have hpair : ((dropDuplicates (q.sort tl)).map Tail.bytes).Pairwise fun a b => a.reverse < b.reverse :=
      List.pairwise_map.mpr hdist
    rw [← hvalid.placed, List.pairwise_map] at hpair
    exact hpair
  · obtain ⟨d, hd, hbytes⟩ := hmem t ht
    have hkept := List.mem_map_of_mem (f := Tail.bytes) hd
    rw [← hvalid.placed] at hkept
    obtain ⟨d', hd', hbytes'⟩ := List.mem_map.mp hkept
    exact ⟨d', hd', hbytes'.trans hbytes⟩

/-- A tail that is among the placed ones is found. -/
theorem findTail_eq {distinct : List Tail} (hdist : Distinct distinct) {probe d : Tail}
    (hd : d ∈ distinct) (hbytes : d.bytes = probe.bytes) : distinct[findTail distinct probe]? = some d := by
  obtain ⟨m, hm, rfl⟩ := List.getElem_of_mem hd
  have hpair := List.pairwise_iff_getElem.mp hdist
  have hfind : findTail distinct probe = m := by
    refine BinarySearch.lowerBound_eq (Nat.zero_le m) hm.le (fun i _ hi => ?_) fun i hi hi' => ?_
    · rw [List.getElem?_eq_getElem (show i < distinct.length by omega), Option.any_some, decide_eq_true_eq,
        tailCmp_lt_iff, ← hbytes]
      exact hpair i m (by omega) hm hi
    · rw [List.getElem?_eq_getElem hi', Option.any_some, decide_eq_false_iff_not, tailCmp_lt_iff, ← hbytes]
      rcases Nat.lt_or_eq_of_le hi with hlt | rfl
      · exact List.not_lt.mpr (List.le_of_lt (hpair m i hm hi' hlt))
      · exact List.lt_irrefl _
  rw [hfind, List.getElem?_eq_getElem hm]

end Triepack.V2
