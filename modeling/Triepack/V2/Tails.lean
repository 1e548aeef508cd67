import Triepack.Library.SuffixPool
import Triepack.V2.TailPool

/-!
# The suffix-merged tail pool

The tails are sorted by their reversals, each is kept once, and the kept ones are placed from the last
one down. The pool and the place of a tail depend only on which tails there are.
-/

namespace Triepack.V2

/-- `entry`; its `len` is the length of `bytes`. -/
structure TailEntry where
  bytes : List UInt8
  offset : Nat
  seq : Nat
  distinctOf : Nat
  deriving DecidableEq, Repr, Inhabited

def TailEntry.len (e : TailEntry) : Nat := e.bytes.length

/-- `cmp_reversed`; its loop is the one of `tail_cmp_reversed`. -/
def cmpReversed (x y : TailEntry) : Int :=
  let c := cmpBytes x.bytes.reverse y.bytes.reverse
  if c ≠ 0 then c else if x.seq < y.seq then -1 else if x.seq > y.seq then 1 else 0

/-- `same_tail`. -/
def sameTail (a b : TailEntry) : Bool := a.len == b.len && memcmp a.len a.bytes b.bytes == 0

/-- `is_proper_suffix`. -/
def isProperSuffix (s big : TailEntry) : Bool :=
  decide (s.len < big.len) && memcmp s.len (big.bytes.drop (big.len - s.len)) s.bytes == 0

/-- What the C standard says of `qsort` with `cmp_reversed`. -/
structure EntryQsort where
  sort : List TailEntry → List TailEntry
  perm : ∀ es, (sort es).Perm es
  ascending : ∀ es, (sort es).Pairwise fun a b => cmpReversed a b ≤ 0

/-- The loop that collapses equal tails behind `prev`: the entries with the numbers of their tails, and how
many tails there are. -/
def markDistinct : (prev : Option TailEntry) → (ndistinct : Nat) → List TailEntry → List TailEntry × Nat
  | _, ndistinct, [] => ([], ndistinct)
  | prev, ndistinct, e :: es =>
    if prev.any fun p => sameTail e p then
      let rest := markDistinct (some e) ndistinct es
      ({ e with distinctOf := ndistinct - 1 } :: rest.1, rest.2)
    else
      let rest := markDistinct (some e) (ndistinct + 1) es
      ({ e with distinctOf := ndistinct } :: rest.1, rest.2)

/-- The pool, the tail emitted last, and the tails that have their offsets. -/
structure EmitState where
  pool : List UInt8
  prev : Option TailEntry
  distinct : List TailEntry

/-- One round of the loop that emits the tails. -/
def emitTail (e : TailEntry) (s : EmitState) : EmitState :=
  match s.prev.filter fun p => isProperSuffix e p with
  | some p => { s with distinct := { e with offset := p.offset + p.len - e.len } :: s.distinct }
  | none =>
    let e := { e with offset := s.pool.length }
    ⟨s.pool ++ e.bytes, some e, e :: s.distinct⟩

/-- `tp2_tail_ref`. -/
structure TailRef where
  offset : Nat
  length : Nat
  deriving DecidableEq, Repr

/-- `tp2_tailpool`. -/
structure Tailpool where
  pool : List UInt8
  distinct : Nat
  refs : List TailRef
  count : Nat

/-- The reference that an entry gets. -/
def refOf (distinct : List TailEntry) (e : TailEntry) : TailRef :=
  let d := distinct.getD e.distinctOf default
  ⟨d.offset, d.len⟩

/-- `tp2_tailpool_build`. -/
def tp2TailpoolBuild (q : EntryQsort) (tails : List (List UInt8)) : Tailpool :=
  if tails.length = 0 then ⟨[], 0, [], 0⟩
  else
    let marked := markDistinct none 0 (q.sort (tails.mapIdx fun i bytes => ⟨bytes, 0, i, 0⟩))
    let distinct := marked.1.foldl (fun d e => d.set e.distinctOf e) (List.replicate marked.2 default)
    let s := distinct.foldr emitTail ⟨[], none, []⟩
    { pool := s.pool
      distinct := marked.2
      refs := marked.1.foldl (fun refs e => refs.set e.seq (refOf s.distinct e))
        (List.replicate tails.length ⟨0, 0⟩)
      count := tails.length }

/-- `tp2_tailpool_ref`. -/
def tp2TailpoolRef (tp : Tailpool) (i : Nat) : TailRef :=
  if i ≥ tp.count then ⟨0, 0⟩ else tp.refs.getD i ⟨0, 0⟩

/-! ## Comparisons -/

theorem cmpReversed_le {a b : TailEntry} (h : cmpReversed a b ≤ 0) :
    a.bytes.reverse < b.bytes.reverse ∨ a.bytes = b.bytes := by
  obtain ⟨hlt, heq⟩ := cmpBytes_spec a.bytes.reverse b.bytes.reverse
  rw [List.reverse_inj] at heq
  rw [cmpReversed] at h
  by_cases hzero : cmpBytes a.bytes.reverse b.bytes.reverse = 0
  · exact .inr (heq.mp hzero)
  · rw [if_pos hzero] at h
    exact .inl (hlt.mp (by omega))

/-- A `qsort` that sorts by insertion. -/
def EntryQsort.byInsertion : EntryQsort where
  sort := List.insertionSort fun a b => cmpReversed a b ≤ 0
  perm := List.perm_insertionSort _
  ascending := by
    have hle : ∀ a b, cmpReversed a b ≤ 0 ↔
        a.bytes.reverse < b.bytes.reverse ∨ a.bytes = b.bytes ∧ a.seq ≤ b.seq := by
      intro a b
      obtain ⟨hlt, heq⟩ := cmpBytes_spec a.bytes.reverse b.bytes.reverse
      rw [List.reverse_inj] at heq
      rw [cmpReversed]
      simp only [← hlt, ← heq]
      split_ifs <;> omega
    have htotal : Std.Total fun a b : TailEntry => cmpReversed a b ≤ 0 := by
      refine ⟨fun a b => ?_⟩
      rw [hle, hle]
      rcases key_trichotomy a.bytes.reverse b.bytes.reverse with hlt | heq | hgt
      · exact .inl (.inl hlt)
      · rw [List.reverse_inj] at heq
        rcases Nat.le_total a.seq b.seq with hseq | hseq
        · exact .inl (.inr ⟨heq, hseq⟩)
        · exact .inr (.inr ⟨heq.symm, hseq⟩)
      · exact .inr (.inl hgt)
    have htrans : IsTrans TailEntry fun a b => cmpReversed a b ≤ 0 := by
      refine ⟨fun a b c => ?_⟩
      rw [hle, hle, hle]
      rintro (hab | ⟨hab, hseq⟩) (hbc | ⟨hbc, hseq'⟩)
      · exact .inl (List.lt_trans hab hbc)
      · exact .inl (hbc ▸ hab)
      · exact .inl (hab ▸ hbc)
      · exact .inr ⟨hab.trans hbc, hseq.trans hseq'⟩
    exact List.pairwise_insertionSort _

theorem sameTail_eq (a b : TailEntry) : sameTail a b = decide (a.bytes = b.bytes) := by
  rw [Bool.eq_iff_iff, sameTail, Bool.and_eq_true, beq_iff_eq, beq_iff_eq, decide_eq_true_eq]
  exact sameTail_iff ⟨a.bytes, 0⟩ ⟨b.bytes, 0⟩

theorem isProperSuffix_eq (s big : TailEntry) :
    isProperSuffix s big = decide (SuffixPool.ProperSuffix s.bytes big.bytes) := by
  rw [Bool.eq_iff_iff, decide_eq_true_eq]
  exact isSuffixOf_iff ⟨s.bytes, 0⟩ ⟨big.bytes, 0⟩

/-! ## The distinct tails -/

/-- The entries are numbered by the places that their tails have in `ds`. -/
structure Marks (prev : Option TailEntry) (ndistinct : Nat) (es : List TailEntry)
    (marked : List TailEntry × Nat) (ds : List (List UInt8)) : Prop where
  seqs : (marked.1.map fun e => (e.bytes, e.seq)) = es.map fun e => (e.bytes, e.seq)
  count : marked.2 = ndistinct + ds.length
  ascending : SuffixPool.Ascending ds
  behind : ∀ p, prev = some p → ∀ t ∈ ds, p.bytes.reverse < t.reverse
  numbers : ∀ e ∈ marked.1, (∃ p, prev = some p ∧ p.bytes = e.bytes ∧ e.distinctOf = ndistinct - 1) ∨
    ∃ j, ds[j]? = some e.bytes ∧ e.distinctOf = ndistinct + j
  used : ∀ j < ds.length, ∃ e ∈ marked.1, e.distinctOf = ndistinct + j

theorem markDistinct_spec {prev : Option TailEntry} {ndistinct : Nat} {es : List TailEntry}
    (hasc : (prev.toList ++ es).Pairwise fun a b => cmpReversed a b ≤ 0) :
    ∃ ds, Marks prev ndistinct es (markDistinct prev ndistinct es) ds := by
  induction es generalizing prev ndistinct with
  | nil => exact ⟨[], rfl, rfl, .nil, by simp, by simp [markDistinct], by simp⟩
  | cons e es ih =>
    obtain ⟨_, hrest, hprev⟩ := List.pairwise_append.mp hasc
    rw [markDistinct]
    by_cases hsame : prev.any (fun p => sameTail e p) = true
    · rw [if_pos hsame]
      obtain ⟨p, rfl, hp⟩ : ∃ p, prev = some p ∧ p.bytes = e.bytes := by
        rw [Option.any_eq_true] at hsame
        obtain ⟨p, rfl, hp⟩ := hsame
        rw [sameTail_eq, decide_eq_true_eq] at hp
        exact ⟨p, rfl, hp.symm⟩
      obtain ⟨ds, h⟩ := @ih (some e) ndistinct hrest
      refine ⟨ds, ?_, h.count, h.ascending, fun p' hp' t ht => ?_, fun x hx => ?_, fun j hj => ?_⟩
      · rw [List.map_cons, List.map_cons, h.seqs]
      · obtain rfl := Option.some.inj hp'
        rw [hp]
        exact h.behind e rfl t ht
      · rcases List.mem_cons.mp hx with rfl | hx
        · exact .inl ⟨p, rfl, hp, rfl⟩
        · rcases h.numbers x hx with ⟨p', hp', hbytes, hof⟩ | hnew
          · obtain rfl := Option.some.inj hp'
            exact .inl ⟨p, rfl, hp.trans hbytes, hof⟩
          · exact .inr hnew
      · obtain ⟨x, hx, hof⟩ := h.used j hj
        exact ⟨x, List.mem_cons_of_mem _ hx, hof⟩
    · rw [if_neg hsame]
      obtain ⟨ds, h⟩ := @ih (some e) (ndistinct + 1) hrest
      have hbehind : ∀ p, prev = some p → p.bytes.reverse < e.bytes.reverse := by
        rintro p rfl
        refine (cmpReversed_le (hprev p (by simp) e (by simp))).resolve_right fun heq => hsame ?_
        rw [Option.any_some, sameTail_eq, decide_eq_true_eq, heq]
      refine ⟨e.bytes :: ds, ?_, ?_, ?_, fun p hp t ht => ?_, fun x hx => ?_, fun j hj => ?_⟩
      · rw [List.map_cons, List.map_cons, h.seqs]
      · rw [h.count, List.length_cons]
        omega
      · exact List.pairwise_cons.mpr ⟨h.behind e rfl, h.ascending⟩
      · rcases List.mem_cons.mp ht with rfl | ht
        · exact hbehind p hp
        · exact List.lt_trans (hbehind p hp) (h.behind e rfl t ht)
      · rcases List.mem_cons.mp hx with rfl | hx
        · exact .inr ⟨0, rfl, rfl⟩
        · rcases h.numbers x hx with ⟨p', hp', hbytes, hof⟩ | ⟨j, hj, hof⟩
          · obtain rfl := Option.some.inj hp'
            exact .inr ⟨0, by rw [← hbytes]; rfl, hof⟩
          · exact .inr ⟨j + 1, hj, by omega⟩
      · cases j with
        | zero => exact ⟨_, List.mem_cons_self, rfl⟩
        | succ j =>
          obtain ⟨x, hx, hof⟩ := h.used j (by simpa using hj)
          exact ⟨x, List.mem_cons_of_mem _ hx, by omega⟩

theorem Marks.number_of_mem {es : List TailEntry} {marked : List TailEntry × Nat} {ds : List (List UInt8)}
    (h : Marks none 0 es marked ds) {e : TailEntry} (he : e ∈ marked.1) :
    ds[e.distinctOf]? = some e.bytes := by
  rcases h.numbers e he with ⟨p, hp, _⟩ | ⟨j, hj, hof⟩
  · simp at hp
  · rw [hof, Nat.zero_add, hj]

section Sorted

variable {q : EntryQsort} {tails : List (List UInt8)} {marked : List TailEntry × Nat}
  {ds : List (List UInt8)}
  (h : Marks none 0 (q.sort (tails.mapIdx fun i bytes => ⟨bytes, 0, i, 0⟩)) marked ds)

include h

/-- The entries keep their tails and places. -/
theorem Marks.tail_of_mem {e : TailEntry} (he : e ∈ marked.1) : tails[e.seq]? = some e.bytes := by
  have hpair : (e.bytes, e.seq) ∈ marked.1.map fun e => (e.bytes, e.seq) := List.mem_map_of_mem he
  rw [h.seqs] at hpair
  obtain ⟨x, hx, heq⟩ := List.mem_map.mp hpair
  obtain ⟨hbytes, hseq⟩ := Prod.mk.inj heq
  obtain ⟨i, hi, rfl⟩ := List.mem_mapIdx.mp ((q.perm _).mem_iff.mp hx)
  rw [← hbytes, ← hseq]
  exact List.getElem?_eq_getElem hi

/-- Every tail has an entry. -/
theorem Marks.exists_of_tail {i : Nat} {t : List UInt8} (ht : tails[i]? = some t) :
    ∃ e ∈ marked.1, e.seq = i ∧ e.bytes = t := by
  obtain ⟨hi, rfl⟩ := List.getElem?_eq_some_iff.mp ht
  have he : (⟨tails[i], 0, i, 0⟩ : TailEntry) ∈ q.sort (tails.mapIdx fun i bytes => ⟨bytes, 0, i, 0⟩) :=
    (q.perm _).mem_iff.mpr (List.mem_mapIdx.mpr ⟨i, hi, rfl⟩)
  have hpair : (tails[i], i) ∈ marked.1.map fun e => (e.bytes, e.seq) := by
    rw [h.seqs]
    exact List.mem_map.mpr ⟨_, he, rfl⟩
  obtain ⟨x, hx, heq⟩ := List.mem_map.mp hpair
  obtain ⟨hbytes, hseq⟩ := Prod.mk.inj heq
  exact ⟨x, hx, hseq, hbytes⟩

theorem Marks.mem_iff {t : List UInt8} : t ∈ ds ↔ t ∈ tails := by
  constructor
  · intro ht
    obtain ⟨j, hj⟩ := List.mem_iff_getElem?.mp ht
    obtain ⟨hlt, _⟩ := List.getElem?_eq_some_iff.mp hj
    obtain ⟨e, he, hof⟩ := h.used j hlt
    have hget := h.number_of_mem he
    rw [hof, Nat.zero_add, hj] at hget
    rw [Option.some.inj hget]
    exact List.mem_of_getElem? (h.tail_of_mem he)
  · intro ht
    obtain ⟨i, hi⟩ := List.mem_iff_getElem?.mp ht
    obtain ⟨e, he, _, rfl⟩ := h.exists_of_tail hi
    exact List.mem_of_getElem? (h.number_of_mem he)

end Sorted

/-! ## The tables -/

/-- In a table that is filled through keys every key that comes has one of its values. -/
theorem foldl_set_spec {ε β : Type} (key : ε → Nat) (val : ε → β) (es : List ε) (d : List β) :
    (es.foldl (fun d e => d.set (key e) (val e)) d).length = d.length ∧
      ∀ e ∈ es, key e < d.length → ∃ x ∈ es, key x = key e ∧
        (es.foldl (fun d e => d.set (key e) (val e)) d)[key e]? = some (val x) := by
  induction es using List.reverseRecOn with
  | nil => exact ⟨rfl, by simp⟩
  | append_singleton es y ih =>
    obtain ⟨hlen, hget⟩ := ih
    rw [List.foldl_append, List.foldl_cons, List.foldl_nil]
    refine ⟨by rw [List.length_set, hlen], fun e he hlt => ?_⟩
    by_cases hkey : key y = key e
    · refine ⟨y, by simp, hkey, ?_⟩
      rw [hkey, List.getElem?_set_self (by omega)]
    · rcases List.mem_append.mp he with he | he
      · obtain ⟨x, hx, hxe, hval⟩ := hget e he hlt
        refine ⟨x, by simp [hx], hxe, ?_⟩
        rw [List.getElem?_set_ne hkey, hval]
      · obtain rfl := List.mem_singleton.mp he
        exact absurd rfl hkey

/-- The table of the distinct tails has one entry for each. -/
theorem map_bytes_distinct {es : List TailEntry} {marked : List TailEntry × Nat} {ds : List (List UInt8)}
    (h : Marks none 0 es marked ds) :
    (marked.1.foldl (fun d e => d.set e.distinctOf e) (List.replicate marked.2 default)).map TailEntry.bytes =
      ds := by
  have hcount := h.count
  rw [Nat.zero_add] at hcount
  obtain ⟨hlen, hget⟩ := foldl_set_spec TailEntry.distinctOf id marked.1 (List.replicate marked.2 default)
  rw [List.length_replicate, hcount] at hlen hget
  apply List.ext_getElem?
  intro j
  by_cases hj : j < ds.length
  · obtain ⟨e, he, hof⟩ := h.used j hj
    rw [Nat.zero_add] at hof
    obtain ⟨x, hx, hxe, hval⟩ := hget e he (by omega)
    rw [hof] at hxe hval
    have hnumber := h.number_of_mem hx
    rw [hxe] at hnumber
    simp only [id] at hval
    rw [hcount, List.getElem?_map, hval, Option.map_some, hnumber]
  · rw [List.getElem?_eq_none (by rw [List.length_map, hcount]; simp only [id] at hlen; omega),
      List.getElem?_eq_none (by omega)]

/-! ## The pool -/

/-- The loop that emits the tails places their bytes. -/
theorem foldr_emitTail (es : List TailEntry) :
    (es.foldr emitTail ⟨[], none, []⟩).pool = (SuffixPool.build (es.map TailEntry.bytes)).pool ∧
      ((es.foldr emitTail ⟨[], none, []⟩).prev.map fun e => (e.bytes, e.offset)) =
        (SuffixPool.build (es.map TailEntry.bytes)).last ∧
      ((es.foldr emitTail ⟨[], none, []⟩).distinct.map fun e => (e.bytes, e.offset)) =
        (SuffixPool.build (es.map TailEntry.bytes)).placed := by
  induction es with
  | nil => exact ⟨rfl, rfl, rfl⟩
  | cons e es ih =>
    obtain ⟨hpool, hlast, hplaced⟩ := ih
    have hbuild : SuffixPool.build ((e :: es).map TailEntry.bytes) =
        SuffixPool.place e.bytes (SuffixPool.build (es.map TailEntry.bytes)) := rfl
    rw [hbuild, List.foldr_cons]
    generalize SuffixPool.build (es.map TailEntry.bytes) = a at hpool hlast hplaced
    generalize es.foldr emitTail ⟨[], none, []⟩ = s at hpool hlast hplaced
    rcases SuffixPool.place_cases e.bytes a with ⟨u, hu, ht⟩ | hnone
    · rw [hu, Option.map_eq_some_iff] at hlast
      obtain ⟨p, hp, rfl⟩ := hlast
      have hemit : emitTail e s =
          { s with distinct := { e with offset := p.offset + p.len - e.len } :: s.distinct } := by
        rw [emitTail, hp, Option.filter_some, isProperSuffix_eq, decide_eq_true ht]
        rfl
      rw [SuffixPool.place_inside hu ht, hemit]
      refine ⟨hpool, by rw [hp, hu]; rfl, ?_⟩
      rw [List.map_cons, hplaced]
      rfl
    · have hemit : emitTail e s = ⟨s.pool ++ e.bytes, some { e with offset := s.pool.length },
          { e with offset := s.pool.length } :: s.distinct⟩ := by
        rw [emitTail]
        rcases hprev : s.prev with _ | p
        · rfl
        · have hp := hnone (p.bytes, p.offset) (by rw [← hlast, hprev]; rfl)
          rw [Option.filter_some, isProperSuffix_eq, decide_eq_false hp]
          rfl
      rw [SuffixPool.place_append hnone, hemit]
      refine ⟨by rw [hpool], by rw [hpool]; rfl, ?_⟩
      rw [List.map_cons, hplaced, hpool]

/-! ## What the build returns -/

/-- The entry that fills a place of the table refers to where its tail is placed. -/
theorem Marks.ref_of_tail {q : EntryQsort} {tails ds : List (List UInt8)} {marked : List TailEntry × Nat}
    (h : Marks none 0 (q.sort (tails.mapIdx fun i bytes => ⟨bytes, 0, i, 0⟩)) marked ds)
    {distinct : List TailEntry}
    (hplaced : distinct.map (fun e => (e.bytes, e.offset)) = (SuffixPool.build ds).placed) {i : Nat}
    {t : List UInt8} (ht : tails[i]? = some t) :
    ∃ off, (t, off) ∈ (SuffixPool.build ds).placed ∧
      (marked.1.foldl (fun refs e => refs.set e.seq (refOf distinct e))
        (List.replicate tails.length ⟨0, 0⟩))[i]? = some ⟨off, t.length⟩ := by
  obtain ⟨e, he, rfl, rfl⟩ := h.exists_of_tail ht
  obtain ⟨hlt, _⟩ := List.getElem?_eq_some_iff.mp ht
  obtain ⟨_, hget⟩ := foldl_set_spec TailEntry.seq (refOf distinct) marked.1
    (List.replicate tails.length ⟨0, 0⟩)
  rw [List.length_replicate] at hget
  obtain ⟨x, hx, hxe, hval⟩ := hget e he hlt
  -- the entry that filled the place has the same tail
  have hxbytes : x.bytes = e.bytes := by
    have htail := h.tail_of_mem hx
    rw [hxe, ht] at htail
    exact (Option.some.inj htail).symm
  have hd : (distinct.map TailEntry.bytes)[x.distinctOf]? = some x.bytes := by
    have hds : distinct.map TailEntry.bytes = ds := by
      rw [← (SuffixPool.build_valid ds).placed, ← hplaced, List.map_map]
      rfl
    rw [hds]
    exact h.number_of_mem hx
  rw [List.getElem?_map, Option.map_eq_some_iff] at hd
  obtain ⟨d, hd, hdb⟩ := hd
  refine ⟨d.offset, ?_, ?_⟩
  · rw [← hplaced, ← hxbytes, ← hdb]
    exact List.mem_map_of_mem (f := fun e : TailEntry => (e.bytes, e.offset)) (List.mem_of_getElem? hd)
  · rw [hval, refOf, List.getD_eq_getElem?_getD, hd, Option.getD_some, TailEntry.len, hdb, hxbytes]

/-- The pool is that of the distinct tails in order, and every tail gets the place that it has there. -/
theorem tp2TailpoolBuild_spec (q : EntryQsort) (tails : List (List UInt8)) :
    ∃ ds, SuffixPool.Ascending ds ∧ (∀ t, t ∈ ds ↔ t ∈ tails) ∧
      (tp2TailpoolBuild q tails).pool = (SuffixPool.build ds).pool ∧
      ∀ i t, tails[i]? = some t → ∃ off, (t, off) ∈ (SuffixPool.build ds).placed ∧
        tp2TailpoolRef (tp2TailpoolBuild q tails) i = ⟨off, t.length⟩ := by
  rcases eq_or_ne tails [] with rfl | hne
  · exact ⟨[], .nil, fun t => Iff.rfl, rfl, fun i t ht => by simp at ht⟩
  · obtain ⟨ds, h⟩ := @markDistinct_spec none 0 (q.sort (tails.mapIdx fun i bytes => ⟨bytes, 0, i, 0⟩))
      (q.ascending _)
    have hbytes := map_bytes_distinct h
    have hbuild : tp2TailpoolBuild q tails = _ := if_neg (by rwa [List.length_eq_zero_iff])
    simp only at hbuild
    generalize markDistinct none 0 (q.sort _) = marked at h hbytes hbuild
    generalize marked.1.foldl (fun d e => d.set e.distinctOf e) (List.replicate marked.2 default) =
      distinct at hbytes hbuild
    obtain ⟨hpool, _, hplaced⟩ := foldr_emitTail distinct
    rw [hbytes] at hpool hplaced
    generalize distinct.foldr emitTail ⟨[], none, []⟩ = s at hpool hplaced hbuild
    refine ⟨ds, h.ascending, fun t => h.mem_iff, by rw [hbuild, hpool], fun i t ht => ?_⟩
    obtain ⟨off, hoff, href⟩ := h.ref_of_tail hplaced ht
    obtain ⟨hlt, _⟩ := List.getElem?_eq_some_iff.mp ht
    refine ⟨off, hoff, ?_⟩
    rw [hbuild, tp2TailpoolRef, if_neg (by simpa using hlt), List.getD_eq_getElem?_getD, href,
      Option.getD_some]

/-- The reference of a tail spells it. -/
theorem tailpoolRef_spelled (q : EntryQsort) {tails : List (List UInt8)} {i : Nat} {t : List UInt8}
    (ht : tails[i]? = some t) :
    (tp2TailpoolRef (tp2TailpoolBuild q tails) i).offset +
      (tp2TailpoolRef (tp2TailpoolBuild q tails) i).length ≤ (tp2TailpoolBuild q tails).pool.length ∧
    ((tp2TailpoolBuild q tails).pool.drop (tp2TailpoolRef (tp2TailpoolBuild q tails) i).offset).take
      (tp2TailpoolRef (tp2TailpoolBuild q tails) i).length = t := by
  obtain ⟨ds, _, _, hpool, hrefs⟩ := tp2TailpoolBuild_spec q tails
  obtain ⟨off, hplaced, href⟩ := hrefs i t ht
  rw [href, hpool]
  exact (SuffixPool.build_valid ds).spelled _ hplaced

/-- The references of all tails spell them, and the pool has no more bytes than those that end no other
tail. -/
theorem tailpool_lossless (q : EntryQsort) (tails : List (List UInt8)) :
    (∀ i t, tails[i]? = some t →
      (tp2TailpoolRef (tp2TailpoolBuild q tails) i).offset +
        (tp2TailpoolRef (tp2TailpoolBuild q tails) i).length ≤ (tp2TailpoolBuild q tails).pool.length ∧
      ((tp2TailpoolBuild q tails).pool.drop (tp2TailpoolRef (tp2TailpoolBuild q tails) i).offset).take
        (tp2TailpoolRef (tp2TailpoolBuild q tails) i).length = t) ∧
      (tp2TailpoolBuild q tails).pool.length =
        ((tails.dedup.filter fun t => decide (SuffixPool.Owns tails t)).map List.length).sum := by
  refine ⟨fun i t ht => tailpoolRef_spelled q ht, ?_⟩
  obtain ⟨ds, hasc, hds, hpool, _⟩ := tp2TailpoolBuild_spec q tails
  have hperm : ds.Perm tails.dedup := by
    rw [List.perm_ext_iff_of_nodup hasc.nodup (List.nodup_dedup tails)]
    intro t
    rw [hds, List.mem_dedup]
  have howns : (fun t => decide (SuffixPool.Owns ds t)) = fun t => decide (SuffixPool.Owns tails t) := by
    funext t
    refine decide_eq_decide.mpr ?_
    simp only [SuffixPool.Owns, hds]
  rw [hpool, SuffixPool.length_pool hasc, howns]
  exact ((hperm.filter _).map _).sum_eq

/-- Lists of the same tails have the same pool, and equal tails have equal references, which spell
them. -/
theorem tailpool_canonical (q q' : EntryQsort) {tails tails' : List (List UInt8)}
    (hsame : ∀ t, t ∈ tails ↔ t ∈ tails') :
    (tp2TailpoolBuild q tails).pool = (tp2TailpoolBuild q' tails').pool ∧
      ∀ i j t, tails[i]? = some t → tails'[j]? = some t →
        tp2TailpoolRef (tp2TailpoolBuild q tails) i = tp2TailpoolRef (tp2TailpoolBuild q' tails') j ∧
        ((tp2TailpoolBuild q tails).pool.drop (tp2TailpoolRef (tp2TailpoolBuild q tails) i).offset).take
          (tp2TailpoolRef (tp2TailpoolBuild q tails) i).length = t := by
  obtain ⟨ds, hasc, hds, hpool, hrefs⟩ := tp2TailpoolBuild_spec q tails
  obtain ⟨ds', hasc', hds', hpool', hrefs'⟩ := tp2TailpoolBuild_spec q' tails'
  obtain rfl : ds = ds' := hasc.eq_of_mem_iff hasc' fun t => by rw [hds, hds', hsame]
  refine ⟨hpool.trans hpool'.symm, fun i j t hi hj => ⟨?_, (tailpoolRef_spelled q hi).2⟩⟩
  obtain ⟨off, hoff, href⟩ := hrefs i t hi
  obtain ⟨off', hoff', href'⟩ := hrefs' j t hj
  have hplaced : ((SuffixPool.build ds).placed.map Prod.fst).Nodup := by
    rw [(SuffixPool.build_valid ds).placed]
    exact hasc.nodup
  have heq := List.inj_on_of_nodup_map hplaced hoff hoff' rfl
  rw [href, href', (Prod.mk.inj heq).2]

theorem tailpool_canonical_ring :
    (tp2TailpoolBuild .byInsertion [[0x72, 0x69, 0x6E, 0x67], [0x69, 0x6E, 0x67]]).pool =
      (tp2TailpoolBuild .byInsertion
        [[0x69, 0x6E, 0x67], [0x72, 0x69, 0x6E, 0x67], [0x69, 0x6E, 0x67]]).pool ∧
    tp2TailpoolRef (tp2TailpoolBuild .byInsertion [[0x72, 0x69, 0x6E, 0x67], [0x69, 0x6E, 0x67]]) 1 =
      tp2TailpoolRef (tp2TailpoolBuild .byInsertion
        [[0x69, 0x6E, 0x67], [0x72, 0x69, 0x6E, 0x67], [0x69, 0x6E, 0x67]]) 2 := by
  obtain ⟨hpool, hrefs⟩ := @tailpool_canonical .byInsertion .byInsertion
    [[0x72, 0x69, 0x6E, 0x67], [0x69, 0x6E, 0x67]]
    [[0x69, 0x6E, 0x67], [0x72, 0x69, 0x6E, 0x67], [0x69, 0x6E, 0x67]] (by intro t; simp; tauto)
  exact ⟨hpool, (hrefs 1 2 [0x69, 0x6E, 0x67] rfl rfl).1⟩

end Triepack.V2
