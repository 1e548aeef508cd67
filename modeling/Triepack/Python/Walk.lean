import Triepack.Library.Utf8
import Triepack.Python.Decode
import Triepack.Python.Layout

/-!
# The walk over a trie that was laid out

A walk whose end is that of the subtree assigns its keys in their order. One that ends in front of
the last terminal of the subtree assigns fewer. Numbers that ten groups cannot hold raise, and so does a
walk that takes more frames than there are; how many it takes is the cost of the tree.
-/

namespace Triepack.Python

open BitString CallStack

/-! ## Runs -/

/-- The first run needs `n` frames to be the second one, unless `ok` fails and it raises `OverflowError`. -/
def Leads {α : Type} (frames : Frames) (n : Nat) (ok : Prop) (x y : Except ReadErr α) : Prop :=
  Needs frames n x y ∨ ¬ ok ∧ x = .error .overflowError

section Leads

variable {frames : Frames} {m n : Nat} {ok : Prop} {σ α β : Type} {x y z : Except ReadErr α}

theorem Leads.of_eq (h : x = y) : Leads frames 0 ok x y := .inl (.of_eq h)

theorem Leads.congr (h : Leads frames m ok x y) (hiff : frames.Room m ↔ frames.Room n) :
    Leads frames n ok x y := h.imp_left fun hneeds => hneeds.congr hiff

theorem Leads.trans (h : Leads frames m ok x y) (h' : frames.Room m → Leads frames n ok y z) :
    Leads frames (max m n) ok x z := by
  rcases h with hneeds | hover
  · by_cases hm : frames.Room m
    · rcases h' hm with hrest | ⟨hok, herr⟩
      · exact .inl (hneeds.trans fun _ => hrest)
      · exact .inr ⟨hok, (hneeds.1 hm).trans herr⟩
    · exact .inl ⟨fun h => absurd (Frames.room_max.mp h).1 hm, fun _ => hneeds.2 hm⟩
  · exact .inr hover

theorem Leads.eq (h : Leads frames n ok x y) (hok : ok) (hroom : frames.Room n) : x = y :=
  (h.resolve_right fun h' => h'.1 hok).1 hroom

theorem Leads.eq_error (h : Leads frames n ok x y) (hok : ok) (hroom : ¬ frames.Room n) :
    x = .error .recursionError := (h.resolve_right fun h' => h'.1 hok).2 hroom

theorem Leads.bind {m : StateT σ (Except ReadErr) α} {f : α → StateT σ (Except ReadErr) β}
    {s s' : σ} {a : α} (h : Leads frames n ok (m s) (.ok (a, s'))) :
    Leads frames n ok ((m >>= f) s) (f a s') := by
  rcases h with hneeds | ⟨hok, herr⟩
  · exact .inl hneeds.run_bind
  · exact .inr ⟨hok, run_bind_error herr⟩

/-- A run inside `m` frames that a call opens. -/
theorem Leads.inside {x : StateT σ (Except ReadErr) α} {s : σ} {r : Except ReadErr (α × σ)}
    (h : Leads (frames.inside m) n ok (x s) r) : Leads frames (m + n) ok ((frames.call m x) s) r := by
  rcases h with hneeds | ⟨hok, herr⟩
  · exact .inl hneeds.run_inside
  · by_cases hm : frames.Room m
    · rw [Frames.call_of_room hm]
      exact .inr ⟨hok, herr⟩
    · refine .inl ⟨fun hroom => absurd (hroom.mono (Nat.le_add_right m n)) hm, fun _ => ?_⟩
      rw [Frames.call, if_neg hm]
      rfl

/-- A call that opens `n` frames and no others. -/
theorem Leads.call {x : StateT σ (Except ReadErr) α} {s : σ} {r : Except ReadErr (α × σ)}
    (h : Leads (frames.inside n) 0 ok (x s) r) : Leads frames n ok ((frames.call n x) s) r := h.inside

end Leads

theorem decodeUtf8_of_isUtf8 {raw : List UInt8} (h : JsonText.IsUtf8 raw) :
    decodeUtf8 raw = .ok raw := by
  obtain ⟨cs, rfl⟩ := h
  exact if_pos (.intro cs rfl)

/-! ## The parts of a walk -/

/-- Assign `None` to keys. -/
def Dict.assign (d : Dict) (keys : List (List UInt8)) : Dict :=
  keys.foldl (fun d key => d.set key .none) d

theorem Dict.assign_append (d : Dict) (ks ls : List (List UInt8)) :
    d.assign (ks ++ ls) = (d.assign ks).assign ls := List.foldl_append

/-- The configuration has the symbols of the alphabet. -/
structure Config.Matches (cfg : Config) (sym : SymbolInfo) (used : List UInt8) : Prop where
  codes : sym.Codes used
  bps : cfg.bps = sym.bitsPerSymbol
  ctrl : ∀ c : TpCtrl, cfg.ctrl c.index = c.index
  reverse : ∀ b ∈ used, cfg.reverseMap (sym.symbolMap b) = b

section Walk

variable {frames : Frames} {cfg : Config} {sym : SymbolInfo} {used buf : List UInt8} {ok : Prop}
  {hasValues : Bool} {p end_ : Nat} {q : List UInt8} {res : Dict}

theorem rd_reads {α : Type} {m : Read α} {bs : List Bool} {a : α} (h : ReadsAt p m bs a)
    (hat : At (bytesBits buf) p bs) :
    Walk.rd m ⟨⟨buf, p⟩, q, res⟩ = .ok (a, ⟨⟨buf, p + bs.length⟩, q, res⟩) := by
  rw [Walk.rd, h ⟨buf, p⟩ rfl hat]

theorem rd_varUint {v : Nat} (hok : ok → v < varUintBound)
    (hat : At (bytesBits buf) p (Leb128.bits v)) :
    Leads frames 3 ok (frames.call 3 (Walk.rd readVarUint) ⟨⟨buf, p⟩, q, res⟩)
      (.ok (v, ⟨⟨buf, p + (Leb128.bits v).length⟩, q, res⟩)) := by
  refine .call ?_
  by_cases hv : v < varUintBound
  · exact .of_eq (rd_reads (readVarUint_reads p hv) hat)
  · refine .inr ⟨fun h => hv (hok h), ?_⟩
    rw [Walk.rd, readVarUint_overflows p (Nat.le_of_not_lt hv) ⟨buf, p⟩ rfl hat]

/-- Asking for the position. -/
theorem position_leads : Leads frames 1 ok (frames.call 1 Walk.position ⟨⟨buf, p⟩, q, res⟩)
    (.ok (p, ⟨⟨buf, p⟩, q, res⟩)) := .call (.of_eq rfl)

/-- Nothing stands behind a terminal at the end of its subtree. -/
theorem walkBranchIfPresent_end {walk : Frames → Nat → Walk Unit} (h : end_ ≤ p) :
    Leads frames 1 ok (walkBranchIfPresent frames cfg walk end_ ⟨⟨buf, p⟩, q, res⟩)
      (.ok ((), ⟨⟨buf, p⟩, q, res⟩)) := by
  rw [walkBranchIfPresent]
  refine (position_leads.bind.trans fun _ => .of_eq ?_).congr (by rw [Nat.max_zero])
  rw [if_pos (by simpa using h)]
  rfl

/-- The last child ends where the branch does. -/
theorem walkChildren_last {walk : Frames → Nat → Walk Unit} {q' : List UInt8} {n : Nat}
    {r : Except ReadErr (Unit × WalkState)} (hq : q <+: q')
    (hwalk : Leads (frames.inside 1) n ok (walk (frames.inside 1) end_ ⟨⟨buf, p⟩, q, res⟩) r) :
    Leads frames (1 + n) ok
      (walkChildren frames cfg walk q.length end_ 1 ⟨⟨buf, p⟩, q', res⟩) r := by
  have htake : q'.take q.length = q := (List.prefix_iff_eq_take.mp hq).symm
  have htruncate : truncateKey q.length ⟨⟨buf, p⟩, q', res⟩ = .ok ((), ⟨⟨buf, p⟩, q, res⟩) := by
    rw [truncateKey, htake]
  rw [walkChildren, if_neg (by omega)]
  refine (position_leads.bind.trans fun _ =>
    (Leads.of_eq (run_bind_ok htruncate)).trans fun _ => hwalk.inside).congr ?_
  rw [Nat.zero_max, max_eq_right (Nat.le_add_right 1 n)]

section Symbols

variable (hm : cfg.Matches sym used)

include hm

theorem rd_symbol {code : Nat} (hcode : code < 2 ^ sym.bitsPerSymbol)
    (hat : At (bytesBits buf) p (symbolBits sym code)) :
    Leads frames 1 ok (frames.call 1 (Walk.rd (readBits cfg.bps)) ⟨⟨buf, p⟩, q, res⟩)
      (.ok (code, ⟨⟨buf, p + sym.bitsPerSymbol⟩, q, res⟩)) := by
  have hlow := hm.codes.three_le
  have hhigh := hm.codes.le_eight
  have h := @rd_reads buf p q res _ _ _ _ (readBits_reads p (by omega) (by omega) hcode) hat
  rw [length_natBits] at h
  rw [hm.bps]
  exact .call (.of_eq h)

theorem rd_ctrl (c : TpCtrl) (hat : At (bytesBits buf) p (symbolBits sym (sym.ctrlCodes c))) :
    Leads frames 1 ok (frames.call 1 (Walk.rd (readBits cfg.bps)) ⟨⟨buf, p⟩, q, res⟩)
      (.ok (c.index, ⟨⟨buf, p + sym.bitsPerSymbol⟩, q, res⟩)) := by
  have h := @rd_symbol frames cfg sym used buf ok p q res hm _ (hm.codes.ctrl_lt c) hat
  rwa [hm.codes.ctrl] at h

/-- A round of the loop in front of the end reads a symbol. -/
theorem dfsWalk_symbol {code : Nat} (hcode : code < 2 ^ sym.bitsPerSymbol) (fuel : Nat) (hend : p < end_)
    (hat : At (bytesBits buf) p (symbolBits sym code)) {n : Nat} {r : Except ReadErr (Unit × WalkState)}
    (hrest : Leads frames n ok ((if code = cfg.ctrl ctrlEnd then do
        assignKey
        frames.call 1 (walkBranchIfPresent (frames.inside 1) cfg (dfsWalk cfg fuel) end_)
      else if code = cfg.ctrl ctrlEndVal then do
        let _ ← frames.call 3 (Walk.rd readVarUint)
        assignKey
        frames.call 1 (walkBranchIfPresent (frames.inside 1) cfg (dfsWalk cfg fuel) end_)
      else if code = cfg.ctrl ctrlBranch then do
        let childCount ← frames.call 3 (Walk.rd readVarUint)
        frames.call 1 (walkBranch (frames.inside 1) cfg (dfsWalk cfg fuel) childCount end_)
      else do
        pushKey (if code < 256 then cfg.reverseMap code else 0)
        dfsWalk cfg fuel frames end_ : Walk Unit) ⟨⟨buf, p + sym.bitsPerSymbol⟩, q, res⟩) r) :
    Leads frames (max 1 n) ok (dfsWalk cfg (fuel + 1) frames end_ ⟨⟨buf, p⟩, q, res⟩) r := by
  rw [dfsWalk]
  refine (Leads.trans (n := max 1 n) position_leads.bind fun _ => ?_).congr (by rw [← max_assoc, max_self])
  rw [if_neg (by omega)]
  refine (rd_symbol hm hcode hat).bind.trans fun _ => ?_
  exact hrest

/-- One byte of a label. -/
theorem dfsWalk_byte {b : UInt8} (hb : b ∈ used) (fuel : Nat) (hend : p < end_)
    (hat : At (bytesBits buf) p (symbolBits sym (sym.symbolMap b))) :
    Leads frames 1 ok (dfsWalk cfg (fuel + 1) frames end_ ⟨⟨buf, p⟩, q, res⟩)
      (dfsWalk cfg fuel frames end_ ⟨⟨buf, p + sym.bitsPerSymbol⟩, q ++ [b], res⟩) := by
  have hsix := hm.codes.six_le b hb
  have hlt := hm.codes.symbol_lt b hb
  have hpow := Nat.pow_le_pow_right (show 0 < 2 by omega) hm.codes.le_eight
  have h0 : cfg.ctrl ctrlEnd = 0 := hm.ctrl .end_
  have h1 : cfg.ctrl ctrlEndVal = 1 := hm.ctrl .endVal
  have h5 : cfg.ctrl ctrlBranch = 5 := hm.ctrl .branch
  refine (dfsWalk_symbol hm hlt fuel hend hat (.of_eq ?_)).congr (by rw [Nat.max_zero])
  rw [if_neg (by omega), if_neg (by omega), if_neg (by omega), if_pos (by omega), hm.reverse b hb]
  rfl

/-- A label in front of the end. -/
theorem dfsWalk_label (hroom : frames.Room 1) {l : List UInt8} (hl : l ⊆ used) (fuel : Nat)
    (hend : p + l.length * sym.bitsPerSymbol ≤ end_)
    (hat : At (bytesBits buf) p (labelBits sym l)) :
    dfsWalk cfg (fuel + l.length) frames end_ ⟨⟨buf, p⟩, q, res⟩ =
      dfsWalk cfg fuel frames end_ ⟨⟨buf, p + l.length * sym.bitsPerSymbol⟩, q ++ l, res⟩ := by
  induction l generalizing p q with
  | nil => simp
  | cons b l ih =>
    obtain ⟨hb, hl⟩ := List.cons_subset.mp hl
    have hbps := hm.codes.three_le
    rw [List.length_cons, Nat.add_one_mul] at hend
    have hsplit : labelBits sym (b :: l) = symbolBits sym (sym.symbolMap b) ++ labelBits sym l := rfl
    rw [hsplit] at hat
    have hright := hat.right
    rw [length_symbolBits] at hright
    have hbyte := (@dfsWalk_byte frames cfg sym used buf True p end_ q res hm b hb (fuel + l.length)
      (by omega) hat.left).eq trivial hroom
    rw [List.length_cons, ← Nat.add_assoc, hbyte, ih hl (by omega) hright, List.append_assoc,
      Nat.add_one_mul]
    have hpos : p + sym.bitsPerSymbol + l.length * sym.bitsPerSymbol =
        p + (l.length * sym.bitsPerSymbol + sym.bitsPerSymbol) := by omega
    rw [hpos]
    rfl

omit hm in
/-- Without room for a frame the first call of a round raises. -/
theorem dfsWalk_overruns (hroom : ¬ frames.Room 1) (fuel : Nat) (s : WalkState) :
    dfsWalk cfg (fuel + 1) frames end_ s = .error .recursionError := by
  rw [dfsWalk]
  refine run_bind_error ?_
  rw [Frames.call, if_neg hroom]
  rfl

omit hm in
/-- A walk behind its end. -/
theorem dfsWalk_end (hroom : frames.Room 1) (fuel : Nat) (hend : end_ ≤ p) :
    dfsWalk cfg (fuel + 1) frames end_ ⟨⟨buf, p⟩, q, res⟩ = .ok ((), ⟨⟨buf, p⟩, q, res⟩) := by
  rw [dfsWalk, Frames.call_of_room hroom]
  refine (run_bind_ok rfl).trans ?_
  rw [if_pos (by simpa using hend)]
  rfl

/-- A label that the end cuts. -/
theorem dfsWalk_label_cut (hroom : frames.Room 1) {l : List UInt8} (hl : l ⊆ used) {fuel : Nat}
    (hfuel : l.length < fuel) (hend : end_ ≤ p + l.length * sym.bitsPerSymbol)
    (hat : At (bytesBits buf) p (labelBits sym l)) :
    ∃ r q', dfsWalk cfg fuel frames end_ ⟨⟨buf, p⟩, q, res⟩ = .ok ((), ⟨r, q', res⟩) := by
  induction l generalizing p q fuel with
  | nil =>
    obtain ⟨fuel, rfl⟩ : ∃ n, fuel = n + 1 := ⟨fuel - 1, by omega⟩
    rw [List.length_nil, Nat.zero_mul] at hend
    exact ⟨⟨buf, p⟩, q, dfsWalk_end hroom fuel hend⟩
  | cons b l ih =>
    obtain ⟨hb, hl⟩ := List.cons_subset.mp hl
    obtain ⟨fuel, rfl⟩ : ∃ n, fuel = n + 1 := ⟨fuel - 1, by omega⟩
    rw [List.length_cons] at hfuel
    by_cases hcut : end_ ≤ p
    · exact ⟨⟨buf, p⟩, q, dfsWalk_end hroom fuel hcut⟩
    · have hsplit : labelBits sym (b :: l) = symbolBits sym (sym.symbolMap b) ++ labelBits sym l := rfl
      rw [hsplit] at hat
      have hright := hat.right
      rw [length_symbolBits] at hright
      rw [List.length_cons, Nat.add_one_mul] at hend
      have hbyte := (@dfsWalk_byte frames cfg sym used buf True p end_ q res hm b hb fuel (by omega)
        hat.left).eq trivial hroom
      rw [hbyte]
      exact ih hl (by omega) (by omega) hright

/-- A terminal is assigned. -/
theorem dfsWalk_term {val : Value (List UInt8)} {vi : Nat} (fuel : Nat)
    (hend : p < end_) (hutf8 : JsonText.IsUtf8 q) (hok : ok → vi < varUintBound)
    (hat : At (bytesBits buf) p (termBits sym hasValues vi (some val))) :
    Leads frames (if hasValues ∧ val.tag ≠ 0 then 3 else 1) ok
      (dfsWalk cfg (fuel + 1) frames end_ ⟨⟨buf, p⟩, q, res⟩)
      (frames.call 1 (walkBranchIfPresent (frames.inside 1) cfg (dfsWalk cfg fuel) end_)
        ⟨⟨buf, p + (termBits sym hasValues vi (some val)).length⟩, q, res.set q .none⟩) := by
  have h0 : cfg.ctrl ctrlEnd = TpCtrl.end_.index := hm.ctrl .end_
  have h1 : cfg.ctrl ctrlEndVal = TpCtrl.endVal.index := hm.ctrl .endVal
  have hassign : ∀ r : BitReader, assignKey ⟨r, q, res⟩ = .ok ((), ⟨r, q, res.set q .none⟩) := by
    intro r
    rw [assignKey, decodeUtf8_of_isUtf8 hutf8]
  simp only [termBits] at hat ⊢
  split_ifs at hat ⊢
  · have hleft := hat.left
    have hright := hat.right
    have hlt := hm.codes.ctrl_lt .endVal
    rw [hm.codes.ctrl] at hleft hlt
    rw [length_symbolBits] at hright
    refine (dfsWalk_symbol hm hlt fuel hend hleft ?_).congr (by rw [show max 1 (max 3 0) = 3 from rfl])
    rw [if_neg (by rw [h0]; decide), if_pos h1.symm, List.length_append, length_symbolBits,
      ← Nat.add_assoc]
    exact (rd_varUint hok hright).bind.trans fun _ => .of_eq (run_bind_ok (hassign _))
  · have hlt := hm.codes.ctrl_lt .end_
    rw [hm.codes.ctrl] at hat hlt
    refine (dfsWalk_symbol hm hlt fuel hend hat ?_).congr (by rw [Nat.max_zero])
    rw [if_pos h0.symm, length_symbolBits]
    exact .of_eq (run_bind_ok (hassign _))

/-- A BRANCH behind a terminal. -/
theorem walkBranchIfPresent_branch {walk : Frames → Nat → Walk Unit} {count : Nat} (hend : p < end_)
    (hok : ok → count < varUintBound) (hat : At (bytesBits buf) p (branchBits sym count)) :
    Leads frames 3 ok (walkBranchIfPresent frames cfg walk end_ ⟨⟨buf, p⟩, q, res⟩)
      (frames.call 1 (walkBranch (frames.inside 1) cfg walk count end_)
        ⟨⟨buf, p + (branchBits sym count).length⟩, q, res⟩) := by
  have h5 : cfg.ctrl ctrlBranch = TpCtrl.branch.index := hm.ctrl .branch
  rw [branchBits] at hat
  have hright := hat.right
  rw [length_symbolBits] at hright
  rw [walkBranchIfPresent]
  refine (position_leads.bind.trans fun _ => ?_).congr (n := 3) (m := max 1 (max 1 3)) Iff.rfl
  rw [if_neg (by omega)]
  refine (rd_ctrl hm .branch hat.left).bind.trans fun _ => ?_
  rw [if_neg (by rw [h5]; decide), branchBits, List.length_append, length_symbolBits, ← Nat.add_assoc]
  exact (rd_varUint hok hright).bind

/-- A BRANCH without a terminal. -/
theorem dfsWalk_branch {count fuel : Nat} (hend : p < end_)
    (hok : ok → count < varUintBound) (hat : At (bytesBits buf) p (branchBits sym count)) :
    Leads frames 3 ok (dfsWalk cfg (fuel + 1) frames end_ ⟨⟨buf, p⟩, q, res⟩)
      (frames.call 1 (walkBranch (frames.inside 1) cfg (dfsWalk cfg fuel) count end_)
        ⟨⟨buf, p + (branchBits sym count).length⟩, q, res⟩) := by
  have h0 : cfg.ctrl ctrlEnd = TpCtrl.end_.index := hm.ctrl .end_
  have h1 : cfg.ctrl ctrlEndVal = TpCtrl.endVal.index := hm.ctrl .endVal
  have h5 : cfg.ctrl ctrlBranch = TpCtrl.branch.index := hm.ctrl .branch
  rw [branchBits] at hat
  have hleft := hat.left
  have hright := hat.right
  have hlt := hm.codes.ctrl_lt .branch
  rw [hm.codes.ctrl] at hleft hlt
  rw [length_symbolBits] at hright
  refine (dfsWalk_symbol (n := 3) hm hlt fuel hend hleft ?_).congr Iff.rfl
  rw [if_neg (by rw [h0]; decide), if_neg (by rw [h1]; decide), if_pos h5.symm, branchBits,
    List.length_append, length_symbolBits, ← Nat.add_assoc]
  exact (rd_varUint hok hright).bind

/-- A child that is not the last: its distance is read, and behind it the next one begins. -/
theorem walkChildren_skip {walk : Frames → Nat → Walk Unit} {dist n x c d : Nat} {q' q'' : List UInt8}
    {res' : Dict} {r : Except ReadErr (Unit × WalkState)} (hq : q <+: q') (hn : 0 < n)
    (hok : ok → dist < varUintBound) (hat : At (bytesBits buf) p (skipBits sym dist))
    (hwalk : Leads (frames.inside 1) c ok (walk (frames.inside 1) (p + (skipBits sym dist).length + dist)
        ⟨⟨buf, p + (skipBits sym dist).length⟩, q, res⟩)
      (.ok ((), ⟨⟨buf, x⟩, q'', res'⟩)))
    (hrest : Leads frames d ok (walkChildren frames cfg walk q.length end_ n
        ⟨⟨buf, p + (skipBits sym dist).length + dist⟩, q'', res'⟩) r) :
    Leads frames (max 3 (max (1 + c) d)) ok
      (walkChildren frames cfg walk q.length end_ (n + 1) ⟨⟨buf, p⟩, q', res⟩) r := by
  rw [skipBits] at hat
  have hright := hat.right
  rw [length_symbolBits] at hright
  have hlen : p + (skipBits sym dist).length = p + sym.bitsPerSymbol + (Leb128.bits dist).length := by
    rw [skipBits, List.length_append, length_symbolBits, Nat.add_assoc]
  rw [hlen] at hwalk hrest
  have htake : q'.take q.length = q := (List.prefix_iff_eq_take.mp hq).symm
  have htruncate : ∀ r, truncateKey q.length ⟨r, q', res⟩ = .ok ((), ⟨r, q, res⟩) := by
    intro r
    rw [truncateKey, htake]
  have hseek : Leads frames 1 ok
      (frames.call 1 (Walk.rd (seek (p + sym.bitsPerSymbol + (Leb128.bits dist).length + dist)))
        ⟨⟨buf, x⟩, q'', res'⟩)
      (.ok ((), ⟨⟨buf, p + sym.bitsPerSymbol + (Leb128.bits dist).length + dist⟩, q'', res'⟩)) :=
    .call (.of_eq rfl)
  rw [walkChildren, if_pos hn]
  refine ((rd_ctrl hm .skip hat.left).bind.trans fun _ => (rd_varUint hok hright).bind.trans fun _ =>
    position_leads.bind.trans fun _ => (Leads.of_eq (run_bind_ok (htruncate _))).trans fun _ =>
      hwalk.inside.bind.trans fun _ => hseek.bind.trans fun _ => hrest).congr ?_
  have hmax : max 1 (max 3 (max 1 (max 0 (max (1 + c) (max 1 d))))) = max 3 (max (1 + c) d) := by omega
  rw [hmax]

end Symbols

end Walk

/-! ## Subtrees in the stream -/

/-- The subtree of the keys that begin with `q` stands at `p`, and its first key has value index
`vi`. -/
structure Stands (sym : SymbolInfo) (hasValues : Bool) (used buf : List UInt8) (ok : Prop)
    (q : List UInt8) (p : Nat) (t : Trie) (vi : Nat) : Prop where
  stands : At (bytesBits buf) p (trieBits sym hasValues t vi)
  compact : t.Compact
  used : ∀ e ∈ t.entries, e.1 ⊆ used
  utf8 : ∀ e ∈ t.entries, JsonText.IsUtf8 (q ++ e.1)
  small : ok → (trieBits sym hasValues t vi).length < varUintBound ∧ vi + t.size ≤ varUintBound

/-- The last children of a branch stand at `p`. -/
structure KidsStand (sym : SymbolInfo) (hasValues : Bool) (used buf : List UInt8) (ok : Prop)
    (q : List UInt8) (p : Nat) (kids : List Trie) (vi : Nat) : Prop where
  stands : At (bytesBits buf) p (kidsBits sym hasValues kids vi)
  compact : ∀ t ∈ kids, t.Compact
  used : ∀ e ∈ kids.flatMap PrefixTree.entries, e.1 ⊆ used
  utf8 : ∀ e ∈ kids.flatMap PrefixTree.entries, JsonText.IsUtf8 (q ++ e.1)
  small : ok → (kidsBits sym hasValues kids vi).length < varUintBound ∧
    vi + (kids.map PrefixTree.size).sum ≤ varUintBound

section Stands

variable {sym : SymbolInfo} {hasValues : Bool} {used buf q : List UInt8} {ok : Prop} {p vi : Nat}
  {l : List UInt8} {term : Option (Value (List UInt8))} {kids : List Trie}

theorem Stands.label (h : Stands sym hasValues used buf ok q p (.node l term kids) vi) :
    l ⊆ used ∧ At (bytesBits buf) p (labelBits sym l) := by
  obtain ⟨e, he⟩ := List.exists_mem_of_ne_nil _ h.compact.entries_ne_nil
  have hstands := h.stands
  rw [trieBits] at hstands
  refine ⟨?_, hstands.left⟩
  have hsub := h.used e he
  rw [PrefixTree.entries_node, List.mem_map] at he
  obtain ⟨e', _, rfl⟩ := he
  exact fun b hb => hsub (List.mem_append_left _ hb)

/-- The terminal of a node. -/
theorem Stands.terminal {val : Value (List UInt8)}
    (h : Stands sym hasValues used buf ok q p (.node l (some val) kids) vi) :
    At (bytesBits buf) (p + l.length * sym.bitsPerSymbol) (termBits sym hasValues vi (some val)) ∧
      JsonText.IsUtf8 (q ++ l) ∧ (ok → vi < varUintBound) := by
  have hstands := h.stands
  rw [trieBits] at hstands
  have hright := hstands.right.left
  rw [length_labelBits] at hright
  refine ⟨hright, ?_, fun hok => ?_⟩
  · have hutf8 := h.utf8 (l, val) (by
      rw [PrefixTree.entries_node]
      simp [PrefixTree.termEntry, PrefixTree.under])
    exact hutf8
  · have hle := (h.small hok).2
    rw [PrefixTree.size_node, Option.toList_some, List.length_singleton] at hle
    omega

/-- The branch of a node and its children. -/
theorem Stands.branch (hbps : 0 < sym.bitsPerSymbol)
    (h : Stands sym hasValues used buf ok q p (.node l term kids) vi) (hne : kids ≠ []) :
    At (bytesBits buf) (p + l.length * sym.bitsPerSymbol + (termBits sym hasValues vi term).length)
        (branchBits sym kids.length) ∧
      (ok → kids.length < varUintBound) ∧
      KidsStand sym hasValues used buf ok (q ++ l)
        (p + l.length * sym.bitsPerSymbol + (termBits sym hasValues vi term).length +
          (branchBits sym kids.length).length) kids (vi + term.toList.length) := by
  have hstands := h.stands
  rw [trieBits, if_neg (by simpa using hne)] at hstands
  have hright := hstands.right.right
  rw [length_labelBits] at hright
  have hkey : ∀ e ∈ kids.flatMap PrefixTree.entries,
      PrefixTree.under l e ∈ (PrefixTree.node l term kids).entries := by
    intro e he
    rw [PrefixTree.entries_node]
    exact List.mem_map_of_mem (List.mem_append_right _ he)
  have hcompact : ∀ t ∈ kids, t.Compact := by
    cases h.compact with
    | intro compact => exact compact
  have hsmall : ok → (kidsBits sym hasValues kids (vi + term.toList.length)).length < varUintBound ∧
      vi + term.toList.length + (kids.map PrefixTree.size).sum ≤ varUintBound := by
    intro hok
    obtain ⟨hlen, hsize⟩ := h.small hok
    rw [trieBits, if_neg (by simpa using hne)] at hlen
    rw [PrefixTree.size_node] at hsize
    simp only [List.length_append] at hlen
    omega
  refine ⟨hright.left, fun hok => ?_, hright.right, hcompact,
    fun e he b hb => h.used _ (hkey e he) (List.mem_append_right _ hb), fun e he => ?_, hsmall⟩
  · have hlen := (hsmall hok).1
    have hkids := @sum_size_le_length_kidsBits sym hasValues kids
      (fun t _ vi => size_le_length_trieBits hbps t vi) (vi + term.toList.length)
    have hsum : kids.length ≤ (kids.map PrefixTree.size).sum := by
      calc kids.length = (kids.map fun _ => 1).sum := by simp
        _ ≤ (kids.map PrefixTree.size).sum := by
          refine List.sum_le_sum fun t ht => ?_
          exact List.length_pos_iff.mpr (hcompact t ht).entries_ne_nil
    omega
  · have hutf8 := h.utf8 _ (hkey e he)
    rwa [PrefixTree.under, ← List.append_assoc] at hutf8

/-- A child with siblings behind it. -/
theorem KidsStand.cons {t u : Trie} {ts : List Trie}
    (h : KidsStand sym hasValues used buf ok q p (t :: u :: ts) vi) :
    At (bytesBits buf) p (skipBits sym (trieBits sym hasValues t vi).length) ∧
      Stands sym hasValues used buf ok q
        (p + (skipBits sym (trieBits sym hasValues t vi).length).length) t vi ∧
      KidsStand sym hasValues used buf ok q
        (p + (skipBits sym (trieBits sym hasValues t vi).length).length +
          (trieBits sym hasValues t vi).length) (u :: ts) (vi + t.size) := by
  have hstands := h.stands
  have hsmall := h.small
  rw [kidsBits, if_neg (by simp)] at hstands hsmall
  rw [List.map_cons, List.sum_cons] at hsmall
  simp only [List.length_append] at hsmall
  refine ⟨hstands.left, ⟨hstands.right.left, h.compact t (by simp), fun e he => h.used e ?_,
      fun e he => h.utf8 e ?_, fun hok => ?_⟩,
    hstands.right.right, fun x hx => h.compact x (List.mem_cons_of_mem t hx),
    fun e he => h.used e ?_, fun e he => h.utf8 e ?_, fun hok => ?_⟩
  · simp [he]
  · simp [he]
  · have := hsmall hok
    omega
  · rw [List.flatMap_cons]
    exact List.mem_append_right _ he
  · rw [List.flatMap_cons]
    exact List.mem_append_right _ he
  · have := hsmall hok
    omega

/-- The last child. -/
theorem KidsStand.last {t : Trie} (h : KidsStand sym hasValues used buf ok q p [t] vi) :
    Stands sym hasValues used buf ok q p t vi := by
  have hstands := h.stands
  have hsmall := h.small
  have hlast : kidsBits sym hasValues [t] vi = trieBits sym hasValues t vi := by
    rw [kidsBits, kidsBits, if_pos (by simp), List.nil_append, List.append_nil]
  rw [hlast] at hstands hsmall
  exact ⟨hstands, h.compact t (by simp), fun e he => h.used e (by simp [he]),
    fun e he => h.utf8 e (by simp [he]), fun hok => by simpa using hsmall hok⟩

theorem length_trieBits_node :
    (trieBits sym hasValues (.node l term kids) vi).length =
      l.length * sym.bitsPerSymbol + ((termBits sym hasValues vi term).length +
        if kids = [] then 0
        else (branchBits sym kids.length).length +
          (kidsBits sym hasValues kids (vi + term.toList.length)).length) := by
  rw [trieBits, List.length_append, List.length_append, length_labelBits]
  cases kids <;> simp

end Stands

/-! ## The frames that a walk takes -/

/-- What the terminal of a value takes inside the frame of `dfs_walk`: the index, or the call that looks for
a branch behind it. -/
def walkLeaf (hasValues : Bool) (val : Value (List UInt8)) : Nat := if hasValues ∧ val.tag ≠ 0 then 3 else 2

/-- A branch takes the frames of `walk_branch` and `dfs_walk`, and behind a terminal that of
`walk_branch_if_present`. -/
def walkStep (ends : Bool) : Nat := if ends then 3 else 2

/-- The frames inside `dfs_walk`. -/
def walkCost (hasValues : Bool) (t : Trie) : Nat := t.cost walkStep (walkLeaf hasValues)

/-- The frames inside `walk_branch`. -/
def kidsWalkCost (hasValues : Bool) : List Trie → Nat
  | [] => 0
  | t :: ts => max (1 + walkCost hasValues t) (kidsWalkCost hasValues ts)

section Costs

variable {hasValues : Bool} {l : List UInt8} {term : Option (Value (List UInt8))} {kids : List Trie}

theorem two_le_walkCost {t : Trie} (h : t.Compact) : 2 ≤ walkCost hasValues t := by
  refine h.le_cost _ _ fun val => ?_
  rw [walkLeaf]
  split_ifs <;> omega

theorem three_le_kidsWalkCost (hne : kids ≠ []) (h : ∀ t ∈ kids, t.Compact) : 3 ≤ kidsWalkCost hasValues kids := by
  obtain ⟨t, ts, rfl⟩ := List.exists_cons_of_ne_nil hne
  have hcost := @two_le_walkCost hasValues t (h t (by simp))
  rw [kidsWalkCost]
  omega

theorem kidsCost_walk (hne : kids ≠ []) (ends : Bool) :
    PrefixTree.kidsCost walkStep (walkLeaf hasValues) ends kids =
      (if ends then 2 else 1) + kidsWalkCost hasValues kids := by
  have hstep : walkStep ends = (if ends then 2 else 1) + 1 := by cases ends <;> rfl
  induction kids with
  | nil => exact absurd rfl hne
  | cons t ts ih =>
    rw [PrefixTree.kidsCost, kidsWalkCost, hstep, Nat.add_assoc, walkCost]
    rcases eq_or_ne ts [] with rfl | hts
    · rw [PrefixTree.kidsCost, kidsWalkCost, Nat.max_zero, Nat.max_zero]
    · rw [ih hts]
      omega

theorem walkCost_leaf {val : Value (List UInt8)} :
    walkCost hasValues (.node l (some val) []) = walkLeaf hasValues val := by
  rw [walkCost, PrefixTree.cost, PrefixTree.kidsCost, Nat.max_zero]
  rfl

theorem walkCost_none (hne : kids ≠ []) :
    walkCost hasValues (.node l none kids) = 1 + kidsWalkCost hasValues kids := by
  rw [walkCost, PrefixTree.cost, kidsCost_walk hne]
  exact Nat.zero_max _

theorem walkCost_some {val : Value (List UInt8)} (hne : kids ≠ []) (hc : ∀ t ∈ kids, t.Compact) :
    walkCost hasValues (.node l (some val) kids) = 2 + kidsWalkCost hasValues kids := by
  have hkids := @three_le_kidsWalkCost hasValues _ hne hc
  have hleaf : walkLeaf hasValues val ≤ 3 := by
    rw [walkLeaf]
    split_ifs <;> omega
  rw [walkCost, PrefixTree.cost, kidsCost_walk hne]
  exact max_eq_right (hleaf.trans (by simp; omega))

end Costs

/-! ## A walk to the end of its subtree -/

section Whole

variable {frames : Frames} {cfg : Config} {sym : SymbolInfo} {used buf : List UInt8} {ok : Prop}
  {hasValues : Bool} (hm : cfg.Matches sym used) {p end_ vi : Nat} {q l : List UInt8} {res : Dict}
  {term : Option (Value (List UInt8))} {kids : List Trie}

/-- The keys of some entries below a path. -/
def keysBelow (q : List UInt8) (es : List (List UInt8 × Value (List UInt8))) : List (List UInt8) :=
  es.map fun e => q ++ e.1

theorem keysBelow_append (q : List UInt8) (es fs : List (List UInt8 × Value (List UInt8))) :
    keysBelow q (es ++ fs) = keysBelow q es ++ keysBelow q fs := List.map_append

theorem keysBelow_node : keysBelow q (PrefixTree.node l term kids).entries =
    keysBelow (q ++ l) (PrefixTree.termEntry term) ++
      keysBelow (q ++ l) (kids.flatMap PrefixTree.entries) := by
  rw [PrefixTree.entries_node, keysBelow, List.map_map, List.map_append]
  simp only [keysBelow, Function.comp_def, PrefixTree.under, List.append_assoc]

include hm

/-- A node without children. -/
theorem dfsWalk_leaf (hroom : frames.Room 1) {val : Value (List UInt8)} (fuel : Nat)
    (h : Stands sym hasValues used buf ok q p (.node l (some val) kids) vi)
    (hend : p + l.length * sym.bitsPerSymbol < end_) :
    Leads frames (if hasValues ∧ val.tag ≠ 0 then 3 else 1) ok
      (dfsWalk cfg (fuel + 1 + l.length) frames end_ ⟨⟨buf, p⟩, q, res⟩)
      (frames.call 1 (walkBranchIfPresent (frames.inside 1) cfg (dfsWalk cfg fuel) end_)
        ⟨⟨buf, p + l.length * sym.bitsPerSymbol + (termBits sym hasValues vi (some val)).length⟩,
          q ++ l, res.set (q ++ l) .none⟩) := by
  obtain ⟨hl, hlabel⟩ := h.label
  obtain ⟨hterm, hutf8, hok⟩ := h.terminal
  rw [dfsWalk_label hm hroom hl (fuel + 1) hend.le hlabel]
  exact dfsWalk_term hm fuel hend hutf8 hok hterm

/-- A node with children, given what becomes of its branch. -/
theorem dfsWalk_node (hroom : frames.Room 1) (fuel : Nat)
    (h : Stands sym hasValues used buf ok q p (.node l term kids) vi) (hne : kids ≠ [])
    (hend : p + l.length * sym.bitsPerSymbol + (termBits sym hasValues vi term).length < end_)
    {r : Except ReadErr (Unit × WalkState)} {n : Nat}
    (hbranch : Leads (frames.inside (if term.isSome then 2 else 1)) n ok
      (walkBranch (frames.inside (if term.isSome then 2 else 1)) cfg (dfsWalk cfg fuel) kids.length end_
        ⟨⟨buf, p + l.length * sym.bitsPerSymbol + (termBits sym hasValues vi term).length +
          (branchBits sym kids.length).length⟩, q ++ l,
          res.assign (keysBelow (q ++ l) (PrefixTree.termEntry term))⟩) r) :
    Leads frames ((if term.isSome then 2 else 1) + max 2 n) ok
      (dfsWalk cfg (fuel + 1 + l.length) frames end_ ⟨⟨buf, p⟩, q, res⟩) r := by
  obtain ⟨hl, hlabel⟩ := h.label
  obtain ⟨hstands, hok, _⟩ := h.branch (by have := hm.codes.three_le; omega) hne
  cases term with
  | none =>
    simp only [termBits, List.length_nil, Nat.add_zero] at hend hbranch hstands
    rw [dfsWalk_label hm hroom hl (fuel + 1) hend.le hlabel]
    refine ((dfsWalk_branch hm hend hok hstands).trans fun _ => hbranch.inside).congr ?_
    have hmax : max 3 (1 + n) = 1 + max 2 n := by omega
    exact iff_of_eq (congrArg frames.Room hmax)
  | some val =>
    have hkey : keysBelow (q ++ l) (PrefixTree.termEntry (some val)) = [q ++ l] := by
      simp [keysBelow, PrefixTree.termEntry]
    rw [hkey, Option.isSome_some, if_pos rfl, ← Frames.inside_inside frames 1 1] at hbranch
    refine ((dfsWalk_leaf hm hroom fuel h (by omega)).trans fun _ =>
      ((walkBranchIfPresent_branch hm hend hok hstands).trans fun _ => hbranch.inside).inside).congr ?_
    have hmax : max (if hasValues ∧ val.tag ≠ 0 then 3 else 1) (1 + max 3 (1 + n)) = 2 + max 2 n := by
      split_ifs <;> omega
    exact iff_of_eq (congrArg frames.Room hmax)

/-- The children of a branch, given what holds of each of them. -/
theorem walkChildren_trie {fuel : Nat} {ts : List Trie} {q' : List UInt8} (hne : ts ≠ [])
    (hwalk : ∀ t ∈ ts, ∀ (vi p : Nat) (res : Dict), Stands sym hasValues used buf ok q p t vi →
      (trieBits sym hasValues t vi).length < fuel →
      Leads (frames.inside 1) (walkCost hasValues t) ok
        (dfsWalk cfg fuel (frames.inside 1) (p + (trieBits sym hasValues t vi).length) ⟨⟨buf, p⟩, q, res⟩)
        (.ok ((), ⟨⟨buf, p + (trieBits sym hasValues t vi).length⟩, q ++ t.label,
          res.assign (keysBelow q t.entries)⟩)))
    (h : KidsStand sym hasValues used buf ok q p ts vi) (hq : q <+: q')
    (hfuel : (kidsBits sym hasValues ts vi).length < fuel) :
    ∃ q'', q <+: q'' ∧
      Leads frames (kidsWalkCost hasValues ts) ok (walkChildren frames cfg (dfsWalk cfg fuel) q.length
          (p + (kidsBits sym hasValues ts vi).length) ts.length ⟨⟨buf, p⟩, q', res⟩)
        (.ok ((), ⟨⟨buf, p + (kidsBits sym hasValues ts vi).length⟩, q'',
          res.assign (keysBelow q (ts.flatMap PrefixTree.entries))⟩)) := by
  induction ts generalizing p vi q' res with
  | nil => exact absurd rfl hne
  | cons t ts ih =>
    cases ts with
    | nil =>
      have hlast := h.last
      have hbits : kidsBits sym hasValues [t] vi = trieBits sym hasValues t vi := by
        rw [kidsBits, kidsBits, if_pos (by simp), List.nil_append, List.append_nil]
      rw [hbits] at hfuel ⊢
      refine ⟨q ++ t.label, List.prefix_append _ _, ?_⟩
      rw [List.length_singleton, List.flatMap_singleton, kidsWalkCost, kidsWalkCost, Nat.max_zero]
      exact walkChildren_last hq (hwalk t (by simp) vi p res hlast hfuel)
    | cons u us =>
      obtain ⟨hskip, ht, hus⟩ := h.cons
      have hlen : (kidsBits sym hasValues (t :: u :: us) vi).length =
          (skipBits sym (trieBits sym hasValues t vi).length).length +
            ((trieBits sym hasValues t vi).length +
              (kidsBits sym hasValues (u :: us) (vi + t.size)).length) := by
        rw [kidsBits, if_neg (by simp), List.length_append, List.length_append]
      have hfirst := hwalk t (by simp) vi _ res ht (by omega)
      obtain ⟨q'', hq'', hrest⟩ := @ih _ _ (res.assign (keysBelow q t.entries)) _ (by simp)
        (fun x hx => hwalk x (List.mem_cons_of_mem t hx)) hus (List.prefix_append q t.label) (by omega)
      refine ⟨q'', hq'', ?_⟩
      have hend : p + (kidsBits sym hasValues (t :: u :: us) vi).length =
          p + (skipBits sym (trieBits sym hasValues t vi).length).length +
            (trieBits sym hasValues t vi).length +
              (kidsBits sym hasValues (u :: us) (vi + t.size)).length := by omega
      have hcost := @two_le_walkCost hasValues t (h.compact t (by simp))
      have hkids : kidsWalkCost hasValues (t :: u :: us) =
        max (1 + walkCost hasValues t) (kidsWalkCost hasValues (u :: us)) := rfl
      rw [List.flatMap_cons, keysBelow_append, Dict.assign_append, hend]
      refine (walkChildren_skip hm hq (by simp) (fun hok => (ht.small hok).1) hskip hfirst hrest).congr ?_
      rw [hkids, ← max_assoc, max_eq_right (show 3 ≤ 1 + walkCost hasValues t by omega)]

/-- A walk to the end of its subtree assigns the keys of the subtree in their order. -/
theorem dfsWalk_trie {t : Trie} {fuel : Nat} (h : Stands sym hasValues used buf ok q p t vi)
    (hfuel : (trieBits sym hasValues t vi).length < fuel) :
    Leads frames (walkCost hasValues t) ok
      (dfsWalk cfg fuel frames (p + (trieBits sym hasValues t vi).length) ⟨⟨buf, p⟩, q, res⟩)
      (.ok ((), ⟨⟨buf, p + (trieBits sym hasValues t vi).length⟩, q ++ t.label,
        res.assign (keysBelow q t.entries)⟩)) := by
  induction t using PrefixTree.induction_on generalizing frames p vi q res fuel with
  | h l term kids ih =>
    have hbps := hm.codes.three_le
    have hlabel : l.length ≤ l.length * sym.bitsPerSymbol := Nat.le_mul_of_pos_right _ (by omega)
    have hlen := @length_trieBits_node sym hasValues vi l term kids
    have hcost := @two_le_walkCost hasValues _ h.compact
    by_cases hroom : frames.Room 1
    swap
    · obtain ⟨fuel, rfl⟩ : ∃ n, fuel = n + 1 := ⟨fuel - 1, by omega⟩
      exact .inl ⟨fun hcosts => absurd (hcosts.mono (by omega)) hroom, fun _ => dfsWalk_overruns hroom fuel _⟩
    by_cases hne : kids = []
    · subst hne
      obtain ⟨val, rfl⟩ : ∃ val, term = some val := by
        cases h.compact with
        | intro _ _ _ two =>
          cases term with
          | none => simp at two
          | some val => exact ⟨val, rfl⟩
      rw [if_pos rfl, Nat.add_zero] at hlen
      have hterm : sym.bitsPerSymbol ≤ (termBits sym hasValues vi (some val)).length := by
        rw [termBits]
        split_ifs <;> simp only [List.length_append, length_symbolBits] <;> omega
      obtain ⟨fuel, rfl⟩ : ∃ n, fuel = n + 1 + l.length := ⟨fuel - (1 + l.length), by omega⟩
      have hkeys : keysBelow q (PrefixTree.node l (some val) []).entries = [q ++ l] := by
        rw [keysBelow_node]
        simp [keysBelow, PrefixTree.termEntry]
      rw [hkeys, hlen, ← Nat.add_assoc, walkCost_leaf]
      refine ((dfsWalk_leaf hm hroom fuel h (by omega)).trans fun _ =>
        (walkBranchIfPresent_end (by omega)).inside).congr ?_
      rw [walkLeaf]
      split_ifs <;> rfl
    · rw [if_neg hne] at hlen
      obtain ⟨_, _, hkids⟩ := h.branch (by omega) hne
      have hbranch : sym.bitsPerSymbol ≤ (branchBits sym kids.length).length := by
        rw [branchBits, List.length_append, length_symbolBits]
        omega
      obtain ⟨fuel, rfl⟩ : ∃ n, fuel = n + 1 + l.length := ⟨fuel - (1 + l.length), by omega⟩
      have hless : (kidsBits sym hasValues kids (vi + term.toList.length)).length < fuel := by omega
      have hend : p + (trieBits sym hasValues (.node l term kids) vi).length =
          p + l.length * sym.bitsPerSymbol + (termBits sym hasValues vi term).length +
            (branchBits sym kids.length).length +
              (kidsBits sym hasValues kids (vi + term.toList.length)).length := by omega
      have hnode : walkCost hasValues (.node l term kids) =
          (if term.isSome then 2 else 1) + kidsWalkCost hasValues kids := by
        cases term with
        | none => exact walkCost_none hne
        | some val => exact walkCost_some hne hkids.compact
      have hmany := @three_le_kidsWalkCost hasValues _ hne hkids.compact
      rw [keysBelow_node, Dict.assign_append, hend, hnode]
      refine (dfsWalk_node (n := kidsWalkCost hasValues kids) hm hroom fuel h hne (by omega) ?_).congr
        (by rw [max_eq_right (by omega)])
      obtain ⟨q'', hq'', hchildren⟩ :=
        @walkChildren_trie (frames.inside _) _ _ _ _ _ _ hm _ _ _
          (res.assign (keysBelow (q ++ l) (PrefixTree.termEntry term))) _ _ _ hne
          (fun t ht _ _ _ hstands hlt => ih t ht hstands hlt) hkids List.prefix_rfl hless
      rw [walkBranch]
      refine (hchildren.bind.trans fun _ => .of_eq ?_).congr (by rw [Nat.max_zero])
      rw [truncateKey, (List.prefix_iff_eq_take.mp hq'').symm]
      rfl

end Whole

/-! ## The frames as a matter of the keys -/

/-- The frames that `decode` opens for an entry: that of the outermost `dfs_walk`, those of the branches on
the way to the key, and those of its terminal. -/
def walkFrames (keys : List (List UInt8)) (e : Entry) : Nat :=
  1 + PrefixTree.pathCost walkStep keys e.key + if e.val.tag = 0 then 2 else 3

/-- There is room for all of them inside the frame of `decode`. -/
def WalkFits (frames : Frames) (es : List Entry) : Prop :=
  ∀ e ∈ es, (frames.more 6).Room (walkFrames (es.map Entry.key) e)

instance (frames : Frames) (es : List Entry) : Decidable (WalkFits frames es) :=
  inferInstanceAs (Decidable (∀ e ∈ es, (frames.more 6).Room (walkFrames (es.map Entry.key) e)))

theorem walkFits_perm {es es' : List Entry} (h : es.Perm es') (frames : Frames) :
    WalkFits frames es ↔ WalkFits frames es' := by
  have hkeys : ∀ k, k ∈ es.map Entry.key ↔ k ∈ es'.map Entry.key := fun k => (h.map Entry.key).mem_iff
  simp only [WalkFits, walkFrames, PrefixTree.pathCost_congr _ hkeys, h.mem_iff]

theorem walkLeaf_entriesHaveValues {es : List Entry} {e : Entry} (he : e ∈ es) :
    walkLeaf (entriesHaveValues es) e.val = if e.val.tag = 0 then 2 else 3 := by
  have hhas : e.val.tag ≠ 0 → entriesHaveValues es = true := fun hne =>
    List.any_eq_true.mpr ⟨e, he, by simpa using hne⟩
  rw [walkLeaf]
  split_ifs with h h' h'
  · exact absurd h' h.2
  · rfl
  · rfl
  · exact absurd ⟨hhas h', h'⟩ h

/-- The cost of the trie is that of its entries. -/
theorem room_walkCost_iff {es : List Entry} {t : Trie} (hc : t.Compact)
    (hentries : t.entries = es.map (suffixEntry 0)) (frames : Frames) :
    (frames.more 5).Room (walkCost (entriesHaveValues es) t) ↔ WalkFits frames es := by
  have hkeys : t.entries.map Prod.fst = es.map Entry.key := by
    rw [hentries, List.map_map]
    rfl
  have hle : ∀ n, walkCost (entriesHaveValues es) t ≤ n ↔
      ∀ e ∈ es, walkFrames (es.map Entry.key) e ≤ n + 1 := by
    intro n
    rw [walkCost, hc.cost_le_iff, hkeys, hentries, List.forall_mem_map]
    refine forall₂_congr fun e he => ?_
    rw [walkFrames, ← walkLeaf_entriesHaveValues he]
    change PrefixTree.pathCost _ _ e.key + walkLeaf _ e.val ≤ n ↔ _
    omega
  cases frames with
  | unbounded => simp [WalkFits]
  | atMost k => exact hle (k + 5)

/-! ## A walk that ends early -/

section Cut

variable {frames : Frames} {cfg : Config} {sym : SymbolInfo} {used buf : List UInt8} {ok : Prop}
  {hasValues : Bool} (hm : cfg.Matches sym used) {p end_ vi : Nat} {q l : List UInt8} {res : Dict}
  {term : Option (Value (List UInt8))} {kids : List Trie}

include hm

/-- The children of a branch when the last one is cut. -/
theorem walkChildren_cut {fuel : Nat} {ts : List Trie} {q' : List UInt8} (hne : ts ≠ [])
    (hwalk : ∀ t ∈ ts, ∀ (vi p : Nat) (res : Dict), Stands sym hasValues used buf ok q p t vi →
      (trieBits sym hasValues t vi).length < fuel →
      end_ + sym.bitsPerSymbol + (Leb128.bits (vi + t.size - 1)).length ≤
        p + (trieBits sym hasValues t vi).length →
      ∃ n r q' ks, ks <+: (keysBelow q t.entries).dropLast ∧ Leads (frames.inside 1) n ok
        (dfsWalk cfg fuel (frames.inside 1) end_ ⟨⟨buf, p⟩, q, res⟩) (.ok ((), ⟨r, q', res.assign ks⟩)))
    (h : KidsStand sym hasValues used buf ok q p ts vi) (hq : q <+: q')
    (hfuel : (kidsBits sym hasValues ts vi).length < fuel)
    (hend : end_ + sym.bitsPerSymbol + (Leb128.bits (vi + (ts.map PrefixTree.size).sum - 1)).length ≤
      p + (kidsBits sym hasValues ts vi).length) :
    ∃ n r q'' ks, ks <+: (keysBelow q (ts.flatMap PrefixTree.entries)).dropLast ∧
      Leads frames n ok
        (walkChildren frames cfg (dfsWalk cfg fuel) q.length end_ ts.length ⟨⟨buf, p⟩, q', res⟩)
        (.ok ((), ⟨r, q'', res.assign ks⟩)) := by
  induction ts generalizing p vi q' res with
  | nil => exact absurd rfl hne
  | cons t ts ih =>
    cases ts with
    | nil =>
      have hbits : kidsBits sym hasValues [t] vi = trieBits sym hasValues t vi := by
        rw [kidsBits, kidsBits, if_pos (by simp), List.nil_append, List.append_nil]
      rw [hbits] at hfuel hend
      rw [List.map_singleton, List.sum_singleton] at hend
      obtain ⟨n, r, q'', ks, hks, hrun⟩ := hwalk t (by simp) vi p res h.last hfuel hend
      rw [List.length_singleton, List.flatMap_singleton]
      exact ⟨1 + n, r, q'', ks, hks, walkChildren_last hq hrun⟩
    | cons u us =>
      obtain ⟨hskip, ht, hus⟩ := h.cons
      have hlen : (kidsBits sym hasValues (t :: u :: us) vi).length =
          (skipBits sym (trieBits sym hasValues t vi).length).length +
            ((trieBits sym hasValues t vi).length +
              (kidsBits sym hasValues (u :: us) (vi + t.size)).length) := by
        rw [kidsBits, if_neg (by simp), List.length_append, List.length_append]
      have hsum : vi + ((t :: u :: us).map PrefixTree.size).sum - 1 =
          vi + t.size + ((u :: us).map PrefixTree.size).sum - 1 := by
        rw [List.map_cons, List.sum_cons, Nat.add_assoc]
      have hless : (trieBits sym hasValues t vi).length < fuel := by omega
      have hfirst := @dfsWalk_trie (frames.inside 1) _ _ _ _ _ _ hm _ _ _ res _ _ ht hless
      obtain ⟨n, r, q'', ks, hks, hrest⟩ := @ih _ _ (res.assign (keysBelow q t.entries)) _ (by simp)
        (fun x hx => hwalk x (List.mem_cons_of_mem t hx)) hus (List.prefix_append q t.label) (by omega)
        (by rw [← hsum]; omega)
      have hrun := walkChildren_skip hm hq (by simp) (fun hok => (ht.small hok).1) hskip hfirst hrest
      rw [← Dict.assign_append] at hrun
      refine ⟨_, r, q'', keysBelow q t.entries ++ ks, ?_, hrun⟩
      have hlast : keysBelow q ((u :: us).flatMap PrefixTree.entries) ≠ [] := by
        have hentries := (hus.compact u (by simp)).entries_ne_nil
        simp [keysBelow, hentries]
      rw [List.flatMap_cons, keysBelow_append, List.dropLast_append_of_ne_nil hlast]
      exact (List.prefix_append_right_inj _).mpr hks

/-- A walk that ends in front of the last terminal of the subtree does not come to its last key. -/
theorem dfsWalk_cut {t : Trie} {fuel : Nat} (h : Stands sym hasValues used buf ok q p t vi)
    (hfuel : (trieBits sym hasValues t vi).length < fuel)
    (hend : end_ + sym.bitsPerSymbol + (Leb128.bits (vi + t.size - 1)).length ≤
      p + (trieBits sym hasValues t vi).length) :
    ∃ n r q' ks, ks <+: (keysBelow q t.entries).dropLast ∧
      Leads frames n ok (dfsWalk cfg fuel frames end_ ⟨⟨buf, p⟩, q, res⟩)
        (.ok ((), ⟨r, q', res.assign ks⟩)) := by
  induction t using PrefixTree.induction_on generalizing frames p vi q res fuel with
  | h l term kids ih =>
    have hbps := hm.codes.three_le
    have hlabel : l.length ≤ l.length * sym.bitsPerSymbol := Nat.le_mul_of_pos_right _ (by omega)
    have hlen := @length_trieBits_node sym hasValues vi l term kids
    by_cases hroom : frames.Room 1
    swap
    · obtain ⟨fuel, rfl⟩ : ∃ n, fuel = n + 1 := ⟨fuel - 1, by omega⟩
      exact ⟨1, ⟨buf, p⟩, q, [], List.nil_prefix,
        .inl ⟨fun h => absurd h hroom, fun _ => dfsWalk_overruns hroom fuel _⟩⟩
    have hnone : end_ ≤ p + l.length * sym.bitsPerSymbol → l.length < fuel →
        ∃ n r q' ks, ks <+: (keysBelow q (PrefixTree.node l term kids).entries).dropLast ∧
          Leads frames n ok (dfsWalk cfg fuel frames end_ ⟨⟨buf, p⟩, q, res⟩)
            (.ok ((), ⟨r, q', res.assign ks⟩)) := by
      intro hcut hless
      obtain ⟨hl, hat⟩ := h.label
      obtain ⟨r, q', hrun⟩ := @dfsWalk_label_cut _ _ _ _ _ _ _ q res hm hroom l hl fuel hless hcut hat
      exact ⟨0, r, q', [], List.nil_prefix, .of_eq hrun⟩
    rw [PrefixTree.size_node] at hend
    by_cases hne : kids = []
    · subst hne
      have hterm : (termBits sym hasValues vi term).length ≤ sym.bitsPerSymbol + (Leb128.bits vi).length := by
        cases term with
        | none => simp [termBits]
        | some val =>
          rw [termBits]
          split_ifs <;> simp only [List.length_append, length_symbolBits] <;> omega
      have hsize : vi + (term.toList.length + (([] : List Trie).map PrefixTree.size).sum) - 1 = vi := by
        cases h.compact with
        | intro _ _ _ two =>
          cases term with
          | none => simp at two
          | some val => simp
      rw [hsize] at hend
      rw [if_pos rfl, Nat.add_zero] at hlen
      exact hnone (by omega) (by omega)
    · rw [if_neg hne] at hlen
      obtain ⟨_, _, hkids⟩ := h.branch (by omega) hne
      have hbranch : sym.bitsPerSymbol ≤ (branchBits sym kids.length).length := by
        rw [branchBits, List.length_append, length_symbolBits]
        omega
      have hkidsKeys : keysBelow (q ++ l) (kids.flatMap PrefixTree.entries) ≠ [] := by
        obtain ⟨t, ts, rfl⟩ := List.exists_cons_of_ne_nil hne
        have hentries := (hkids.compact t (by simp)).entries_ne_nil
        simp [keysBelow, hentries]
      by_cases hcut : end_ ≤ p + l.length * sym.bitsPerSymbol
      · exact hnone hcut (by omega)
      obtain ⟨fuel, rfl⟩ : ∃ n, fuel = n + 1 + l.length := ⟨fuel - (1 + l.length), by omega⟩
      rw [keysBelow_node, List.dropLast_append_of_ne_nil hkidsKeys]
      by_cases hbehind : end_ ≤
          p + l.length * sym.bitsPerSymbol + (termBits sym hasValues vi term).length
      · obtain ⟨val, rfl⟩ : ∃ val, term = some val := by
          cases term with
          | none =>
            simp only [termBits, List.length_nil, Nat.add_zero] at hbehind
            exact absurd hbehind hcut
          | some val => exact ⟨val, rfl⟩
        have hkey : keysBelow (q ++ l) (PrefixTree.termEntry (some val)) = [q ++ l] := by
          simp [keysBelow, PrefixTree.termEntry]
        have hrun := (@dfsWalk_leaf _ _ _ _ _ _ _ hm _ end_ _ _ _ res _ hroom _ fuel h (by omega)).trans
          fun _ => (walkBranchIfPresent_end hbehind).inside
        refine ⟨_, _, q ++ l, [q ++ l], ?_, hrun⟩
        rw [hkey]
        exact List.prefix_append _ _
      · have hless : (kidsBits sym hasValues kids (vi + term.toList.length)).length < fuel := by omega
        obtain ⟨n, r, q'', ks, hks, hchildren⟩ :=
          @walkChildren_cut (frames.inside (if term.isSome then 2 else 1)) _ _ _ _ _ _ hm _ end_ _ _
            (res.assign (keysBelow (q ++ l) (PrefixTree.termEntry term))) _ _ _ hne
            (fun t ht _ _ _ hstands hlt hle => ih t ht hstands hlt hle) hkids List.prefix_rfl hless
            (by rw [Nat.add_assoc vi]; omega)
        have hbranches := dfsWalk_node hm hroom fuel h hne (by omega) hchildren.bind
        rw [truncateKey, ← Dict.assign_append] at hbranches
        refine ⟨_, r, q''.take (q ++ l).length,
          keysBelow (q ++ l) (PrefixTree.termEntry term) ++ ks, ?_, hbranches⟩
        exact (List.prefix_append_right_inj _).mpr hks

end Cut

end Triepack.Python
