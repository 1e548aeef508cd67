import Triepack.Untrusted.Prefix

/-!
# Lookups and iterations end

No position grows along a call on malformed bytes, since a skip leads anywhere. What falls is the
number of children left in the frames of the stack, weighed by the room above each frame, and
within one run the bits that are left. It falls from one call to the next too, so an iterator
comes to its end.
-/

namespace Triepack

open BitString WhileLoop

/-! ## From one call to the next -/

/-- What the calls on an iterator have left to do. -/
def callMeasure (it : Iter) : Nat :=
  if it.started then stackCost (8 * it.dict.buf.length) it.stack else iterFuel it

/-- Only the first call marks an iterator as started. -/
theorem iterBody_started {mode : IterMode} {s s' : Iter × Reader} {out : IterMode ⊕ IterItem}
    (h : iterBody mode s = (.ok out, s')) : s'.1.started = s.1.started := by
  obtain ⟨it, r⟩ := s
  have hpush : ∀ {subtreeEnd : Nat} {r : Reader} {s : Iter × Reader},
      iterPushFrame subtreeEnd (it, r) = (.ok (), s) → s.1.started = it.started := by
    intro subtreeEnd r s h
    obtain ⟨n, r', _, _, rfl⟩ := iterPushFrame_eq_ok h
    rfl
  cases mode with
  | sibling =>
    obtain ⟨mode', s'', hsib, h⟩ := Op.bind_eq_ok h
    obtain ⟨_, rfl⟩ : .inl mode' = out ∧ s'' = s' := by simpa using h
    obtain ⟨f, frames, _, ⟨_, _, rfl⟩ | ⟨_, r₁, r₂, dist, _, _, _, rfl⟩⟩ := iterSibling_eq_ok hsib
    · rfl
    · rfl
  | walk subtreeEnd =>
    cases iterWalk_eq_ok h with
    | leave ge => rfl
    | byte b lt read => rfl
    | branch lt read _ push => exact hpush push
    | yield lt read _ terminal =>
      obtain ⟨r₁, s₁, _, hframe, hvalue⟩ := terminal.parts
      have hs₁ : s₁.1.started = it.started := by
        obtain ⟨_, rfl⟩ | ⟨_, r₂, _, hframe⟩ := hframe
        · rfl
        · exact hpush hframe
      obtain ⟨_, rfl⟩ | ⟨vi, hvalue⟩ := hvalue
      · exact hs₁
      · obtain ⟨⟨p, i, rfl⟩, _⟩ := iterValueAt_eq_ok hvalue
        exact hs₁

/-- Behind a key less is left than at its terminal, the frame of its BRANCH included. -/
theorem iterBody_item {d : Dict} {mode : IterMode} {s s' : Iter × Reader}
    {item : IterItem} (hs : It.Ready d s) (h : iterBody mode s = (.ok (.inr item), s')) :
    stackCost (8 * d.buf.length) s'.1.stack < iterMeasure (mode, s) := by
  obtain ⟨it, r⟩ := s
  have hdict : it.dict = d := hs.dict_eq
  cases mode with
  | sibling =>
    obtain ⟨mode', s'', _, h⟩ := Op.bind_eq_ok h
    simp at h
  | walk subtreeEnd =>
    cases iterWalk_eq_ok h with
    | yield lt read _ terminal =>
      obtain ⟨r₁, s₁, _, hframe, hvalue⟩ := terminal.parts
      have hcost : stackCost (8 * d.buf.length) s₁.1.stack ≤
          stackCost (8 * d.buf.length) it.stack +
            branchCost (8 * d.buf.length) (iterMaxDepth - it.stack.length) := by
        obtain ⟨_, rfl⟩ | ⟨_, r₂, _, hframe⟩ := hframe
        · exact Nat.le_add_right _ _
        · obtain ⟨n, r₃, _, hdepth, rfl⟩ := iterPushFrame_eq_ok hframe
          exact stackCost_pushFrame _ _ it.stack (u32_lt n) hdepth
      have hstack : s'.1.stack = s₁.1.stack := by
        obtain ⟨_, rfl⟩ | ⟨vi, hvalue⟩ := hvalue
        · rfl
        · obtain ⟨⟨p, i, rfl⟩, _⟩ := iterValueAt_eq_ok hvalue
          rfl
      simp only [iterMeasure, hdict, hstack]
      omega

/-- A call is entered with what its iterator has left to do. -/
theorem IterEntry.ready {d : Dict} (hd : d.Sound) {it : Iter} (hit : it.dict = d)
    {s : IterMode × Iter × Reader} (h : IterEntry it s) :
    It.Ready d s.2 ∧ s.2.1.started = true ∧ iterMeasure s ≤ callMeasure it := by
  subst hit
  cases h with
  | first notStarted le =>
    have hr : ({ bsReaderCreate it.dict.buf with pos := it.rootPos } : Reader).Sound :=
      (Reader.Sound.create hd.length_lt).move le
    have hlt := @iterMeasure_walk_lt
      { it with started := true, pos := it.rootPos, keyLen := it.rootKeyLen } _ hr.bitLen_eq.le it.rootEnd
    refine ⟨⟨rfl, hr, rfl⟩, rfl, ?_⟩
    rw [callMeasure, if_neg (by simp [notStarted])]
    exact hlt.le
  | later started =>
    refine ⟨⟨rfl, .create hd.length_lt, rfl⟩, started, ?_⟩
    rw [callMeasure, if_pos started]
    exact Nat.le_refl _

/-- A call that gives a key lowers what is left to do. -/
theorem iterNext_lt {d : Dict} (hd : d.Sound) {it it' : Iter} {item : IterItem} (hit : it.dict = d)
    (h : iterNext it = (.ok item, it')) : callMeasure it' < callMeasure it := by
  obtain ⟨_, _, s, r', hentry, hreturns⟩ := iterNext_eq_ok h
  obtain ⟨⟨mode, s'⟩, hreaches, hexit⟩ := hreturns.exists_exit
  -- along the loop nothing is added to what the call was entered with
  obtain ⟨hready, hstarted, hle⟩ := hreaches.invariant
    (I := fun x => It.Ready d x.2 ∧ x.2.1.started = true ∧ iterMeasure x ≤ callMeasure it) (by
      rintro ⟨mode, s⟩ ⟨mode', s'⟩ ⟨hready, hstarted, hle⟩ hstep
      have hbody := Op.loopStep_eq_inl hstep
      obtain ⟨hready', hlt⟩ := iterBody_next hd hready hbody
      exact ⟨hready', (iterBody_started hbody).trans hstarted, hlt.le.trans hle⟩)
    (hentry.ready hd hit)
  have hbody := Op.loopStep_eq_inr_ok hexit
  have hdict : it'.dict = d := by
    have hsafe := (iterNext_safe hd hit).1
    rwa [h] at hsafe
  have hstarted' : it'.started = true := (iterBody_started hbody).trans hstarted
  calc
    callMeasure it' = stackCost (8 * d.buf.length) it'.stack := by
      rw [callMeasure, if_pos hstarted', hdict]
    _ < iterMeasure (mode, s') := iterBody_item hready hbody
    _ ≤ callMeasure it := hle

/-! ## The end of an iteration -/

theorem iterNextN_of_done {it : Iter} (h : it.done = true) (n : Nat) :
    (iterNextN n it).1 = List.replicate n (.error (.rc .eof)) := by
  induction n with
  | zero => rfl
  | succ n ih =>
    have hnext : iterNext it = (.error (.rc .eof), it) := by rw [iterNext, if_pos h]
    simp only [iterNextN, hnext, List.replicate_succ, ih]

/-- Calls give finitely many keys, then a result code, and from there on the end. -/
def Drains (it : Iter) : Prop :=
  ∃ (items : List IterItem) (code : TpErr), ∀ n, (iterNextN (items.length + 1 + n) it).1 =
    items.map .ok ++ .error (.rc code) :: List.replicate n (.error (.rc .eof))

/-- An iterator drains, by induction on what is left to do. -/
theorem drains_of_sound {d : Dict} (hd : d.Sound) {it : Iter} (hit : it.dict = d) : Drains it := by
  induction hm : callMeasure it using Nat.strong_induction_on generalizing it with
  | _ m ih =>
    obtain ⟨hdict, herr⟩ := iterNext_safe hd hit
    rcases hnext : iterNext it with ⟨e | item, it'⟩
    · rw [hnext] at herr
      obtain ⟨⟨code, rfl⟩, hdone⟩ := herr e rfl
      refine ⟨[], code, fun n => ?_⟩
      rw [List.length_nil, Nat.zero_add, Nat.add_comm]
      simp only [iterNextN, hnext, iterNextN_of_done hdone, List.map_nil, List.nil_append]
    · rw [hnext] at hdict
      have hlt := iterNext_lt hd hit hnext
      obtain ⟨items, code, hitems⟩ := ih _ (hm ▸ hlt) hdict rfl
      refine ⟨item :: items, code, fun n => ?_⟩
      rw [List.length_cons, show items.length + 1 + 1 + n = items.length + 1 + n + 1 by omega]
      simp only [iterNextN, hnext, hitems]
      rfl

/-- Lookups and iterations end: their loops return, what they give is a result or a result code,
and an iterator comes to its end and stays there. -/
structure Terminates (d : Dict) : Prop where
  lookup_halts : ∀ key r, bsReaderSeek d.trieStart (bsReaderCreate d.buf) = (.ok (), r) →
    Halts (Op.loopStep (lookupBody d.sym key)) ((0, false), r)
  lookup_returns : ∀ key e, dictLookupN d key = .error e → ∃ code, e = .rc code
  next_halts : ∀ it, Reachable d it → ∀ s, IterEntry it s → Halts (Op.loopStep iterBody) s
  next_returns : ∀ it, Reachable d it → ∀ e, (iterNext it).1 = .error e → ∃ code, e = .rc code
  drains : ∀ it, Reachable d it → Drains it

theorem terminates_of_open {b : Buffer} {checkCrc : Bool} {d : Dict}
    (hopen : dictOpenImpl b.bytes checkCrc = .ok d) : Terminates d := by
  obtain ⟨hd, _⟩ := dictOpenImpl_sound hopen
  refine ⟨fun key r hseek => ?_, fun key e h => dictLookupN_safe hd h, fun it hit s hentry => ?_,
    fun it hit e h => ?_, fun it hit => drains_of_sound hd (hit.dict_eq hd)⟩
  · obtain ⟨hle, rfl⟩ := bsReaderSeek_eq_ok hseek
    have hr := (Reader.Sound.create hd.length_lt).move hle
    obtain ⟨out, hrun⟩ := Option.isSome_iff_exists.mp (lookup_run_isSome hd key hr rfl)
    exact ⟨out, _, hrun⟩
  · obtain ⟨hready, _, _⟩ := hentry.ready hd (hit.dict_eq hd)
    obtain ⟨out, hrun⟩ := Option.isSome_iff_exists.mp
      (iter_run_isSome hd hready (Nat.lt_succ_self (iterMeasure s)))
    exact ⟨out, _, hrun⟩
  · exact ((iterNext_safe hd (hit.dict_eq hd)).2 e h).1

/-- The file on which a prefix search goes on forever. -/
theorem terminates_of_open_cycleFile : ∃ d, dictOpen cycleFile = .ok d ∧ Terminates d := by
  have hsome : (match dictOpen cycleFile with
    | .ok _ => true
    | .error _ => false) = true := by decide +kernel
  rcases hopen : dictOpen cycleFile with e | d
  · simp [hopen] at hsome
  · exact ⟨d, rfl, @terminates_of_open ⟨cycleFile, by decide⟩ true d hopen⟩

end Triepack
