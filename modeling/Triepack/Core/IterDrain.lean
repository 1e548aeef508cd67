import Triepack.Core.IterRun

/-!
# Draining an iterator over a built dictionary

What an iterator over a built dictionary returns from one call to the next is a matter of what
is still to be visited: the entries in order, up to a branch that is nested too deeply.
-/

namespace Triepack

open BitString WhileLoop

/-- Entries, and `none` where the stack overflows. -/
abbrev Visits : Type := List (Option (List UInt8 × Value (List UInt8)))

/-- A result with its slices read. -/
def IterItem.read (buf : List UInt8) (item : IterItem) : List UInt8 × Value (List UInt8) :=
  (item.key, item.val.map (Slice.read buf))

/-- The results of `n` calls when `vs` is to be visited. -/
def resultsOf : (n : Nat) → Visits → List (Except Stop (List UInt8 × Value (List UInt8)))
  | 0, _ => []
  | n + 1, [] => .error (.rc .eof) :: resultsOf n []
  | n + 1, none :: _ => .error (.rc .overflow) :: resultsOf n []
  | n + 1, some e :: vs => .ok e :: resultsOf n vs

/-- Everything there is below the root. -/
def IterRoot.visits (root : IterRoot) : Visits :=
  (PrefixTree.visits iterMaxDepth root.tree).map (Option.map (PrefixTree.under root.path))

/-- What is still to be visited by an iterator between two calls. -/
inductive Pending (d : Dict) (es : List Entry) (t₀ : Trie) (root : IterRoot) : Iter → Visits → Prop
  | fresh {it : Iter} (settled : Settled d es t₀ root it) (cursor : it.CursorOk es)
      (empty : it.stack = []) (notStarted : it.started = false) (live : it.done = false) :
      Pending d es t₀ root it root.visits
  | running {it : Iter} {ps : List PendingFrame} (h : Running d es t₀ root it ps []) :
      Pending d es t₀ root it (pendingVisits ps)
  | done {it : Iter} (settled : Settled d es t₀ root it) (done : it.done = true) :
      Pending d es t₀ root it []

section Pending

variable {d : Dict} {es : List Entry} {t₀ : Trie} (hd : Represents d es t₀) {root root' : IterRoot}
  {it it' : Iter} {vs : Visits}

theorem Yielded.read {e : List UInt8 × Value (List UInt8)} {item : IterItem}
    (h : Yielded d es e item) : item.read d.buf = e := Prod.ext h.key_eq h.val_eq

theorem Settled.setDone (h : Settled d es t₀ root it) : Settled d es t₀ root { it with done := true } :=
  ⟨⟨h.rooted.dict_eq, h.rooted.stands, h.rooted.rootEnd_eq, h.rooted.rootKeyLen_eq,
    h.rooted.entries⟩, h.kept⟩

theorem Pending.settled (h : Pending d es t₀ root it vs) : Settled d es t₀ root it := by
  cases h with
  | fresh settled => exact settled
  | running h => exact h.settled
  | done settled => exact settled

/-- What one call does to an iterator with `vs` to visit. -/
def NextOutcome (d : Dict) (es : List Entry) (t₀ : Trie) (root : IterRoot) (it : Iter) :
    Visits → Prop
  | [] => ∃ it', iterNext it = (.error (.rc .eof), it') ∧ Pending d es t₀ root it' []
  | none :: _ => ∃ it', iterNext it = (.error (.rc .overflow), it') ∧ Pending d es t₀ root it' []
  | some e :: vs => ∃ item it', iterNext it = (.ok item, it') ∧ Yielded d es e item ∧
      Pending d es t₀ root it' vs

include hd

/-- The loop of `tp_iter_next` decides what the call returns. -/
theorem Outcome.next {mode : IterMode} {r : Reader} {it₁ : Iter} (hit : it.dict = d)
    (hlive : it.done = false)
    (hrun : iterRun it (it, bsReaderCreate it.dict.buf) =
      Op.loop iterBody (iterFuel it) mode (it₁, r))
    (hsome : (run (Op.loopStep iterBody) (iterFuel it) (mode, it₁, r)).isSome)
    (h : Outcome d es t₀ root (mode, it₁, r) vs) : NextOutcome d es t₀ root it vs := by
  have hcount : it.dict.info.numKeys ≠ 0 := by
    rw [hit, hd.numKeys_eq]
    exact (List.length_pos_of_ne_nil hd.ne_nil).ne'
  have hnext : ∀ {out : Except Stop IterItem × Iter × Reader},
      Returns (Op.loopStep iterBody) (mode, it₁, r) out →
      iterRun it (it, bsReaderCreate it.dict.buf) = out := fun hret =>
    hrun.trans (Op.loop_of_returns hret hsome)
  rw [NextOutcome.eq_def]
  match vs, h with
  | [], ⟨it', r', hret, hset⟩ =>
    refine ⟨{ it' with done := true }, ?_, .done hset.setDone rfl⟩
    rw [iterNext, if_neg (by simp [hlive]), if_neg hcount]
    simp only [hnext hret]
  | none :: _, ⟨it', r', hret, hset⟩ =>
    refine ⟨{ it' with done := true }, ?_, .done hset.setDone rfl⟩
    rw [iterNext, if_neg (by simp [hlive]), if_neg hcount]
    simp only [hnext hret]
  | some e :: vs, ⟨item, it', r', ps, hret, hyield, hrunning, hpending⟩ =>
    refine ⟨item, it', ?_, hyield, hpending ▸ .running hrunning⟩
    rw [iterNext, if_neg (by simp [hlive]), if_neg hcount]
    simp only [hnext hret]

/-- One call of `tp_iter_next` takes the first of what is to be visited. -/
theorem Pending.next (h : Pending d es t₀ root it vs) : NextOutcome d es t₀ root it vs := by
  cases h with
  | done settled done => exact ⟨it, by rw [iterNext, if_pos done], .done settled done⟩
  | running h =>
    have hready : It.Ready d (it, bsReaderCreate it.dict.buf) :=
      ⟨h.rooted.dict_eq, by rw [h.rooted.dict_eq]; exact .create hd.sound.length_lt,
        by rw [h.rooted.dict_eq]; rfl⟩
    refine Outcome.next hd h.rooted.dict_eq h.live ?_
      (iter_run_isSome hd.sound hready (iterMeasure_sibling_lt it _)) ?_
    · rw [iterRun, if_neg (by simp [h.started])]
    · rw [h.rooted.dict_eq]
      exact sibling_outcome hd h 0
  | fresh settled cursor empty notStarted live =>
    obtain ⟨⟨hdict, hstands, hend, hlen, hentries⟩, hkept⟩ := settled
    have hle := hstands.end_le hd.sound
    have hseek : bsReaderSeek it.rootPos (bsReaderCreate it.dict.buf) =
        (.ok (), d.reader it.rootPos) := by
      rw [hdict]
      exact @seek_reader d 0 hd.sound it.rootPos (by omega)
    have hrunning : Running d es t₀ root
        { it with started := true, pos := it.rootPos, keyLen := it.rootKeyLen } [] [root.path] := by
      refine ⟨⟨hdict, hstands, hend, hlen, hentries⟩, by rw [empty]; exact .nil,
        ⟨fun l hl => ?_, by simp⟩, cursor, rfl, live⟩
      obtain rfl : l = root.path := by simpa using hl
      exact hkept
    have hready : It.Ready d ({ it with started := true, pos := it.rootPos, keyLen := it.rootKeyLen },
        d.reader it.rootPos) :=
      ⟨hdict, hd.sound.reader (by omega), rfl⟩
    have hmeasure := @iterMeasure_walk_lt
      { it with started := true, pos := it.rootPos, keyLen := it.rootKeyLen }
      (d.reader it.rootPos) (by simp only [hdict]; rw [hd.sound.bitLen]) it.rootEnd
    have hwalk := walk_outcome hd root.tree hstands hentries hrunning hlen
    rw [← hend] at hwalk
    refine Outcome.next hd hdict live ?_ (iter_run_isSome hd.sound hready hmeasure) ?_
    · rw [iterRun, if_pos (by simp [notStarted]), It.modify_bind, It.rd_bind_ok hseek]
    · simpa [IterRoot.visits, pendingVisits] using hwalk

/-- Calls of `tp_iter_next` take one after another. -/
theorem Pending.nextN (h : Pending d es t₀ root it vs) (n : Nat) :
    (iterNextN n it).1.map (Except.map (IterItem.read d.buf)) = resultsOf n vs ∧
      ∃ vs', Pending d es t₀ root (iterNextN n it).2 vs' := by
  induction n generalizing it vs with
  | zero => exact ⟨rfl, vs, h⟩
  | succ n ih =>
    have hnext := h.next hd
    match vs, hnext with
    | [], ⟨it', heq, hpending⟩ =>
      obtain ⟨hresults, hlater⟩ := ih hpending
      simp only [iterNextN, heq]
      exact ⟨by rw [List.map_cons, hresults]; rfl, hlater⟩
    | none :: _, ⟨it', heq, hpending⟩ =>
      obtain ⟨hresults, hlater⟩ := ih hpending
      simp only [iterNextN, heq]
      exact ⟨by rw [List.map_cons, hresults]; rfl, hlater⟩
    | some e :: vs, ⟨item, it', heq, hyield, hpending⟩ =>
      obtain ⟨hresults, hlater⟩ := ih hpending
      simp only [iterNextN, heq]
      exact ⟨by rw [List.map_cons, hresults, Except.map, hyield.read]; rfl, hlater⟩

/-- What is to be visited determines the results, down to the slices. -/
theorem Pending.nextN_congr (h : Pending d es t₀ root it vs) (h' : Pending d es t₀ root' it' vs)
    (n : Nat) : (iterNextN n it).1 = (iterNextN n it').1 := by
  induction n generalizing it it' vs with
  | zero => rfl
  | succ n ih =>
    have hnext := h.next hd
    have hnext' := h'.next hd
    match vs, hnext, hnext' with
    | [], ⟨_, heq, hpending⟩, ⟨_, heq', hpending'⟩ =>
      simp only [iterNextN, heq, heq', ih hpending hpending']
    | none :: _, ⟨_, heq, hpending⟩, ⟨_, heq', hpending'⟩ =>
      simp only [iterNextN, heq, heq', ih hpending hpending']
    | some e :: vs, ⟨item, _, heq, hyield, hpending⟩, ⟨item', _, heq', hyield', hpending'⟩ =>
      simp only [iterNextN, heq, heq', ih hpending hpending', hyield.unique hd hyield']

omit hd

/-- Everything is to be visited again after a reset. -/
theorem Pending.reset (h : Pending d es t₀ root it vs) :
    Pending d es t₀ root (iterReset it) root.visits := by
  obtain ⟨⟨hdict, hstands, hend, hlen, hentries⟩, hkept⟩ := h.settled
  exact .fresh ⟨⟨hdict, hstands, hend, hlen, hentries⟩, hkept⟩ ⟨Nat.zero_le _, rfl⟩ rfl rfl rfl

end Pending

/-- A dictionary without keys has nothing to visit. -/
theorem iterNextN_of_empty {it : Iter} (h : it.dict.info.numKeys = 0) (n : Nat) :
    (iterNextN n it).1 = List.replicate n (.error (.rc .eof)) := by
  induction n generalizing it with
  | zero => rfl
  | succ n ih =>
    have hnext : ∃ it', iterNext it = (.error (.rc .eof), it') ∧ it'.dict = it.dict := by
      rw [iterNext]
      split_ifs
      · exact ⟨it, rfl, rfl⟩
      · exact ⟨_, rfl, rfl⟩
    obtain ⟨it', heq, hdict⟩ := hnext
    simp only [iterNextN, heq, List.replicate_succ, ih (by rw [hdict]; exact h)]

theorem resultsOf_nil (n : Nat) : resultsOf n [] = List.replicate n (.error (.rc .eof)) := by
  induction n with
  | zero => rfl
  | succ n ih => rw [resultsOf, ih, List.replicate_succ]

/-- Nothing comes behind an overflow. -/
theorem resultsOf_overflow (n : Nat) (pairs : List (List UInt8 × Value (List UInt8))) (vs : Visits) :
    resultsOf n (pairs.map some ++ none :: vs) = resultsOf n (pairs.map some ++ [none]) := by
  induction pairs generalizing n with
  | nil => cases n <;> rfl
  | cons e pairs ih =>
    cases n with
    | zero => rfl
    | succ n => simp only [List.map_cons, List.cons_append, resultsOf, ih]

/-! ## Iterating over all keys -/

def Entry.pair (e : Entry) : List UInt8 × Value (List UInt8) := (e.key, e.val)

/-- The results of the first `n` calls of `tp_iter_next` on a new iterator. -/
def iterResults (d : Dict) (n : Nat) : List (Except Stop (List UInt8 × Value (List UInt8))) :=
  (iterNextN n (dictIterate d)).1.map (Except.map (IterItem.read d.buf))

/-- Iteration gives the entries in their order and then, it may be, an overflow. From there on
it is at its end. -/
def Iterates (d : Dict) (es : List Entry) (overflow : Bool) : Prop :=
  ∀ n, iterResults d n =
    resultsOf n ((es.map Entry.pair).map some ++ if overflow then [none] else [])

/-- It does so for one list only. -/
theorem Iterates.unique {d : Dict} {es es' : List Entry} {o o' : Bool} (h : Iterates d es o)
    (h' : Iterates d es' o') : es = es' ∧ o = o' := by
  have hsame : ∀ n, resultsOf n ((es.map Entry.pair).map some ++ if o then [none] else []) =
      resultsOf n ((es'.map Entry.pair).map some ++ if o' then [none] else []) :=
    fun n => (h n).symm.trans (h' n)
  clear h h'
  induction es generalizing es' with
  | nil =>
    have hone := hsame 1
    cases es' with
    | nil => cases o <;> cases o' <;> simp [resultsOf] at hone ⊢
    | cons e es' => cases o <;> simp [resultsOf] at hone
  | cons e es ih =>
    cases es' with
    | nil =>
      have hone := hsame 1
      cases o' <;> simp [resultsOf] at hone
    | cons e' es' =>
      have hone := hsame 1
      have hpair : e.key = e'.key ∧ e.val = e'.val := by simpa [resultsOf, Entry.pair] using hone
      obtain ⟨hes, ho⟩ := ih fun n => by
        have hsucc := hsame (n + 1)
        simp only [List.map_cons, List.cons_append, resultsOf, List.cons.injEq] at hsucc
        exact hsucc.2
      obtain ⟨key, val⟩ := e
      obtain ⟨key', val'⟩ := e'
      obtain ⟨rfl, rfl⟩ : key = key' ∧ val = val' := hpair
      exact ⟨by rw [hes], ho⟩

section Iterate

variable {d : Dict} {es : List Entry} {t₀ : Trie} (hd : Represents d es t₀)

include hd

theorem Represents.entries_eq_pairs : t₀.entries = es.map Entry.pair := by
  rw [hd.entries_eq]
  exact List.map_congr_left fun e _ => by simp [suffixEntry, Entry.pair]

/-- A new iterator is over the whole trie. -/
theorem Represents.pending_iterate : Pending d es t₀ ⟨[], t₀, 0⟩ (dictIterate d)
    (IterRoot.visits ⟨[], t₀, 0⟩) := by
  refine .fresh ⟨⟨rfl, hd.trieAt, hd.valueStart_eq, rfl, ?_⟩, rfl⟩ ⟨Nat.zero_le _, rfl⟩ rfl rfl rfl
  rw [PrefixTree.map_under_nil]
  exact List.prefix_rfl

/-- Iteration is over all entries, up to one that is nested too deeply. -/
theorem Represents.iterates :
    (∀ e ∈ es, PrefixTree.nesting (es.map Entry.key) e.key ≤ iterMaxDepth) ∧ Iterates d es false ∨
      ∃ pre x post, es = pre ++ x :: post ∧
        (∀ e ∈ pre, PrefixTree.nesting (es.map Entry.key) e.key ≤ iterMaxDepth) ∧
        iterMaxDepth < PrefixTree.nesting (es.map Entry.key) x.key ∧ Iterates d pre true := by
  have hvisits : IterRoot.visits ⟨[], t₀, 0⟩ = PrefixTree.visits iterMaxDepth t₀ := by
    have hnil : Option.map (PrefixTree.under ([] : List UInt8)) =
        (id : Option (List UInt8 × Value (List UInt8)) → _) := by
      funext x
      cases x <;> rfl
    rw [IterRoot.visits, hnil, List.map_id]
  have hresults := fun n => ((hd.pending_iterate).nextN hd n).1
  have hkeys : (es.map Entry.pair).map Prod.fst = es.map Entry.key := by
    rw [List.map_map]
    rfl
  have hcut := hd.compact.cutAt_visits iterMaxDepth
  rw [hd.compact.nested_eq, hd.entries_eq_pairs, hkeys, List.map_map] at hcut
  rw [hvisits] at hresults
  obtain ⟨hall, heq⟩ | ⟨pre, x, post, rest, heq, hpre, hx, hvis⟩ := hcut
  · refine .inl ⟨fun e he => ?_, fun n => ?_⟩
    · exact hall _ (List.mem_map_of_mem he)
    · rw [heq, List.map_map] at hresults
      simpa [iterResults, Function.comp_def] using hresults n
  · obtain ⟨pre, rest', rfl, rfl, hrest⟩ := List.map_eq_append_iff.mp heq
    obtain ⟨x, post, rfl, rfl, rfl⟩ := List.map_eq_cons_iff.mp hrest
    refine .inr ⟨pre, x, post, rfl, fun e he => ?_, hx, fun n => ?_⟩
    · exact hpre _ (List.mem_map_of_mem he)
    · have hn := hresults n
      have hmap : (pre.map ((fun e => (e, PrefixTree.nesting
          ((pre ++ x :: post).map Entry.key) e.1)) ∘ Entry.pair)).map (fun x => some x.1) =
          (pre.map Entry.pair).map some := by simp [Function.comp_def]
      rw [hvis, hmap, resultsOf_overflow] at hn
      exact hn

end Iterate

end Triepack
