import Triepack.Core.TrieLayout
import Triepack.Library.TreeCost
import Triepack.Python.Encode

/-!
# The trie as the Python module writes it

Value indices are not reduced to 32 bits, so the layout of a tree is written out once more. Where all
indices fit, it is the layout of the C encoder. The frames that a range takes are the cost of its tree.
-/

namespace Triepack.Python

open BitString CallStack

/-! ## Entries of the C encoder -/

/-- The value that is added for a Python value: negative integers as signed ones, others as unsigned ones. -/
def PyValue.toValue : PyValue → Value (List UInt8)
  | .none => .null
  | .bool val => .bool val
  | .int val => if val < 0 then .int (Int64.ofInt val) else .uint (UInt64.ofNat val.toNat)
  | .float bits => .float64 bits
  | .str utf8 => .string utf8
  | .bytes data => .blob data

/-- The entry that stands for an item of a dictionary. -/
def entry (e : Item) : Entry := ⟨e.1, e.2.toValue⟩

theorem tag_toValue {v : PyValue} : v.toValue.tag ≠ 0 ↔ v ≠ .none := by
  cases v with
  | int val =>
    rw [PyValue.toValue]
    split_ifs <;> simp [Value.tag]
  | _ => simp [PyValue.toValue, Value.tag]

/-- The symbols of both encoders are the same. -/
structure Ctx.Matches (ctx : Ctx) (sym : SymbolInfo) : Prop where
  bps : ctx.bps = sym.bitsPerSymbol
  symbolMap : ctx.symbolMap = sym.symbolMap
  ctrl : ∀ c : TpCtrl, ctx.ctrl c.index = sym.ctrlCodes c

/-! ## The layout without a bound on the indices -/

section TrieBits

variable (sym : SymbolInfo) (hasValues : Bool)

/-- The terminal of the key that has value index `vi`. -/
def termBits (vi : Nat) : Option (Value (List UInt8)) → List Bool
  | none => []
  | some val =>
    if hasValues ∧ val.tag ≠ 0 then symbolBits sym (sym.ctrlCodes .endVal) ++ Leb128.bits vi
    else symbolBits sym (sym.ctrlCodes .end_)

mutual

/-- The bits of a tree whose first key has value index `vi`. -/
def trieBits : Trie → (vi : Nat) → List Bool
  | .node l term kids, vi =>
    labelBits sym l ++ (termBits sym hasValues vi term ++
      if kids.isEmpty then []
      else branchBits sym kids.length ++ kidsBits kids (vi + term.toList.length))

def kidsBits : List Trie → (vi : Nat) → List Bool
  | [], _ => []
  | t :: ts, vi =>
    (if ts.isEmpty then [] else skipBits sym (trieBits t vi).length) ++
      (trieBits t vi ++ kidsBits ts (vi + t.size))

end

end TrieBits

section Bounds

variable {sym : SymbolInfo} {hasValues : Bool}

theorem kidsBits_eq {ts : List Trie} {vi : Nat}
    (h : ∀ t ∈ ts, ∀ vi, vi + t.size ≤ 2 ^ 32 →
      trieBits sym hasValues t vi = Triepack.trieBits sym hasValues t vi)
    (hvi : vi + (ts.map PrefixTree.size).sum ≤ 2 ^ 32) :
    kidsBits sym hasValues ts vi = Triepack.kidsBits sym hasValues ts vi := by
  induction ts generalizing vi with
  | nil => rfl
  | cons t ts ih =>
    rw [List.map_cons, List.sum_cons] at hvi
    rw [kidsBits, Triepack.kidsBits, h t (by simp) vi (by omega),
      ih (fun u hu => h u (by simp [hu])) (by omega)]

/-- Where the indices fit in 32 bits both layouts are the same. -/
theorem trieBits_eq {t : Trie} {vi : Nat} (hvi : vi + t.size ≤ 2 ^ 32) :
    trieBits sym hasValues t vi = Triepack.trieBits sym hasValues t vi := by
  induction t using PrefixTree.induction_on generalizing vi with
  | h l term kids ih =>
    rw [PrefixTree.size_node] at hvi
    have hterm : termBits sym hasValues vi term = Triepack.termBits sym hasValues vi term := by
      cases term with
      | none => rfl
      | some val =>
        rw [Option.toList_some, List.length_singleton] at hvi
        rw [termBits, Triepack.termBits, u32_of_lt (by omega)]
    rw [trieBits, Triepack.trieBits, hterm, kidsBits_eq ih (by omega)]

theorem sum_size_le_length_kidsBits {ts : List Trie}
    (h : ∀ t ∈ ts, ∀ vi, t.size ≤ (trieBits sym hasValues t vi).length) (vi : Nat) :
    (ts.map PrefixTree.size).sum ≤ (kidsBits sym hasValues ts vi).length := by
  induction ts generalizing vi with
  | nil => simp
  | cons t ts ih =>
    have ht := h t (by simp) vi
    have hts := ih (fun u hu => h u (by simp [hu])) (vi + t.size)
    rw [kidsBits, List.map_cons, List.sum_cons, List.length_append, List.length_append]
    omega

/-- Every key of a tree takes at least one bit. -/
theorem size_le_length_trieBits (hbps : 0 < sym.bitsPerSymbol) (t : Trie) (vi : Nat) :
    t.size ≤ (trieBits sym hasValues t vi).length := by
  induction t using PrefixTree.induction_on generalizing vi with
  | h l term kids ih =>
    have hterm : term.toList.length ≤ (termBits sym hasValues vi term).length := by
      cases term with
      | none => simp
      | some val =>
        rw [termBits]
        split_ifs <;> simp only [List.length_append, length_symbolBits, Option.toList_some,
          List.length_singleton] <;> omega
    have hkids := sum_size_le_length_kidsBits ih (vi + term.toList.length)
    rw [PrefixTree.size_node, trieBits, List.length_append, List.length_append]
    cases kids with
    | nil => simpa using Nat.le_add_left_of_le hterm
    | cons t ts =>
      rw [List.isEmpty_cons, if_neg (by simp), List.length_append]
      omega

end Bounds

/-! ## Ranges -/

theorem allHave_eq (first : Item) (rest : List Item) (common : Nat) :
    allHave first rest common = Triepack.allHave (entry first) (rest.map entry) common := by
  have hlt : ∀ e : Item, (!decide (e.1.length ≤ common)) = decide (common < e.1.length) := by
    intro e
    rw [← decide_not, decide_eq_decide, Nat.not_le]
  simp only [allHave, hlt, Triepack.allHave, List.all_cons, List.all_map, BEq.rfl, Bool.and_true]
  rfl

theorem commonEnd_eq (first : Item) (rest : List Item) (prefixLen : Nat) :
    commonEnd first rest prefixLen = Triepack.commonEnd (entry first) (rest.map entry) prefixLen := by
  have hloop : ∀ fuel common, commonLoop first rest fuel common =
      Triepack.commonLoop (entry first) (rest.map entry) fuel common := by
    intro fuel
    induction fuel with
    | zero => exact fun _ => rfl
    | succ fuel ih => simp [commonLoop, Triepack.commonLoop, allHave_eq, ih]
  exact hloop _ _

theorem byteAt_of_lt {e : Item} {common : Nat} (h : common < e.1.length) :
    byteAt e common = .ok (keyByte (entry e) common) := by
  simp [byteAt, keyByte, entry, h]

theorem takeRun_eq {common : Nat} {es : List Item} (h : ∀ e ∈ es, common < e.1.length) (ch : UInt8) :
    takeRun common ch es = .ok (es.takeWhile fun e => keyByte (entry e) common == ch,
      es.dropWhile fun e => keyByte (entry e) common == ch) := by
  induction es with
  | nil => rfl
  | cons e es ih =>
    rw [takeRun, byteAt_of_lt (h e (by simp)), ih fun x hx => h x (by simp [hx])]
    by_cases hch : keyByte (entry e) common = ch
    · simp [hch, bind, Except.bind]
    · simp [hch, bind, Except.bind]

/-- No key is indexed behind its end, and the runs are those of the C encoder. -/
theorem childRuns_eq {common fuel : Nat} {es : List Item} (h : ∀ e ∈ es, common < e.1.length)
    (hfuel : es.length ≤ fuel) :
    ∃ runs, childRuns common fuel es = .ok runs ∧
      runs.map (List.map entry) = Triepack.childRuns common (es.map entry) := by
  induction fuel generalizing es with
  | zero =>
    obtain rfl := List.eq_nil_of_length_eq_zero (Nat.le_zero.mp hfuel)
    exact ⟨[], rfl, by simp [Triepack.childRuns]⟩
  | succ fuel ih =>
    cases es with
    | nil => exact ⟨[], rfl, by simp [Triepack.childRuns]⟩
    | cons e es =>
      set same := fun x : Item => keyByte (entry x) common == keyByte (entry e) common with hsame
      have hdrop := (List.dropWhile_suffix same (l := es)).length_le
      rw [List.length_cons] at hfuel
      obtain ⟨runs, hruns, hmap⟩ := @ih (es.dropWhile same)
        (fun x hx => h x (by simp [(List.dropWhile_sublist same).subset hx])) (by omega)
      have hrun := takeRun_eq (fun x hx => h x (List.mem_cons_of_mem e hx)) (keyByte (entry e) common)
      refine ⟨(e :: es.takeWhile same) :: runs, ?_, ?_⟩
      · rw [childRuns, byteAt_of_lt (h e (by simp))]
        simp only [bind, Except.bind, hrun, ← hsame, hruns]
      · rw [List.map_cons, hmap, List.map_cons, List.map_cons, Triepack.childRuns, List.takeWhile_map,
          List.dropWhile_map]
        rfl

/-- Behind the common prefix every child of a branch has another byte. -/
theorem lt_length_of_mem_children {first : Item} {rest : List Item} {prefixLen common : Nat}
    (hrange : TrieRange ((first :: rest).map entry) prefixLen) (hle : common ≤ first.1.length)
    (hpre : ∀ e ∈ (first :: rest).map entry, first.1.take common <+: e.key) :
    ∀ e ∈ (if first.1.length = common then rest else first :: rest), common < e.1.length := by
  have hrest : ∀ e ∈ rest, common < e.1.length := fun e he =>
    hrange.lt_length hle hpre (List.mem_map_of_mem he)
  split_ifs with hterm
  · exact hrest
  · intro e he
    rcases List.mem_cons.mp he with rfl | he
    · omega
    · exact hrest e he

/-! ## Ranges as trees -/

/-- What the terminal of a value takes inside the frame of `_trie_write`. Without a value it is three: the
number of children is written on the way there, in the frame of the caller. -/
def writeLeaf (hasValues : Bool) (val : Value (List UInt8)) : Nat := if hasValues ∧ val.tag ≠ 0 then 4 else 3

/-- What it takes inside the frame of `_trie_subtree_size`. -/
def sizeLeaf (hasValues : Bool) (val : Value (List UInt8)) : Nat := if hasValues ∧ val.tag ≠ 0 then 1 else 0

/-- The frames inside `_trie_write`, which calls itself once for every branch. -/
def writeCost (hasValues : Bool) (t : Trie) : Nat := t.cost (fun _ => 1) (writeLeaf hasValues)

/-- The frames inside `_trie_subtree_size`. -/
def sizeCost (hasValues : Bool) (t : Trie) : Nat := t.cost (fun _ => 1) (sizeLeaf hasValues)

/-- The most that a call for one of some children takes. -/
def kidsWriteCost (hasValues : Bool) (kids : List Trie) : Nat :=
  PrefixTree.kidsCost (fun _ => 1) (writeLeaf hasValues) false kids

def kidsSizeCost (hasValues : Bool) (kids : List Trie) : Nat :=
  PrefixTree.kidsCost (fun _ => 1) (sizeLeaf hasValues) false kids

section Costs

variable {hasValues : Bool} {l : List UInt8} {term : Option (Value (List UInt8))} {kids : List Trie} {t : Trie}

theorem writeCost_node : writeCost hasValues (.node l term kids) =
    max (term.elim 0 (writeLeaf hasValues)) (kidsWriteCost hasValues kids) := by
  rw [writeCost, PrefixTree.cost, PrefixTree.kidsCost_const]
  rfl

theorem sizeCost_node : sizeCost hasValues (.node l term kids) =
    max (term.elim 0 (sizeLeaf hasValues)) (kidsSizeCost hasValues kids) := by
  rw [sizeCost, PrefixTree.cost, PrefixTree.kidsCost_const]
  rfl

theorem kidsWriteCost_cons : kidsWriteCost hasValues (t :: kids) =
    max (1 + writeCost hasValues t) (kidsWriteCost hasValues kids) := rfl

theorem kidsSizeCost_cons : kidsSizeCost hasValues (t :: kids) =
    max (1 + sizeCost hasValues t) (kidsSizeCost hasValues kids) := rfl

theorem sizeCost_le : sizeCost hasValues t ≤ writeCost hasValues t := by
  refine PrefixTree.cost_mono (fun _ => le_rfl) fun val => ?_
  rw [sizeLeaf, writeLeaf]
  split_ifs <;> omega

theorem three_le_writeCost (h : t.Compact) : 3 ≤ writeCost hasValues t := by
  refine h.le_cost _ _ fun val => ?_
  rw [writeLeaf]
  split_ifs <;> omega

end Costs

/-- The range is the tree, for both encoders: each appends its bits and computes their number. -/
structure LaidOut (ctx : Ctx) (sym : SymbolInfo) (fuel : Nat) (es : List Item) (prefixLen : Nat)
    (t : Trie) : Prop where
  inC : Triepack.LaidOut sym ctx.hasValues fuel (es.map entry) prefixLen t
  size : ∀ frames vi, Needs frames (sizeCost ctx.hasValues t) (trieSubtreeSize ctx fuel frames es prefixLen vi)
    (.ok ((trieBits sym ctx.hasValues t vi).length, vi + t.size))
  appends : ∀ frames : Frames, frames.Room 3 → ∀ vi p,
    AppendsIn frames (writeCost ctx.hasValues t) p (trieWrite ctx fuel frames es prefixLen vi)
      (trieBits sym ctx.hasValues t vi) (vi + t.size)

section Layout

variable {ctx : Ctx} {sym : SymbolInfo} {frames : Frames} (hm : ctx.Matches sym)

include hm

theorem length_branchBits (count : Nat) :
    (branchBits sym count).length = ctx.bps + varUintBits count := by
  rw [branchBits, List.length_append, length_symbolBits, varUintBits_eq, hm.bps]

theorem length_skipBits (dist : Nat) : (skipBits sym dist).length = ctx.bps + varUintBits dist := by
  rw [skipBits, List.length_append, length_symbolBits, varUintBits_eq, hm.bps]

omit hm in
theorem varUintSize_needs (frames : Frames) (val : Nat) :
    Needs frames 1 (varUintSize frames val) (.ok (varUintBits val)) := .call frames 1 _

theorem terminalSize_needs (frames : Frames) (e : Item) (vi : Nat) :
    Needs frames (sizeLeaf ctx.hasValues e.2.toValue) (terminalSize frames ctx e vi)
      (.ok (termBits sym ctx.hasValues vi (some e.2.toValue)).length) := by
  rw [terminalSize, termBits, sizeLeaf]
  simp only [tag_toValue]
  split_ifs
  · rw [List.length_append, length_symbolBits, ← varUintBits_eq, ← hm.bps]
    exact (varUintSize_needs frames vi).bind
  · rw [length_symbolBits, ← hm.bps]
    exact .refl frames _

theorem childrenSize_needs {fuel common childCount childI : Nat} {runs : List (List Item)}
    {ts : List Trie} (h : List.Forall₂ (fun run t => LaidOut ctx sym fuel run common t) runs ts)
    (hcount : childI + runs.length = childCount) (vi : Nat) :
    Needs frames (kidsSizeCost ctx.hasValues ts)
      (childrenSize frames ctx.bps childCount
        (fun run vi => frames.call 1 (trieSubtreeSize ctx fuel (frames.inside 1) run common vi)) childI runs vi)
      (.ok ((kidsBits sym ctx.hasValues ts vi).length, vi + (ts.map PrefixTree.size).sum)) := by
  induction h generalizing childI vi with
  | nil => exact .refl frames _
  | @cons run t runs ts hrun hruns ih =>
    have hlen := hruns.length_eq
    rw [List.length_cons] at hcount
    have hskip : Needs frames (if ts.isEmpty then 0 else 1)
        (if childI < childCount - 1 then do
            let distBits ← varUintSize frames (trieBits sym ctx.hasValues t vi).length
            .ok (ctx.bps + distBits)
          else .ok 0)
        (.ok (if ts.isEmpty then [] else skipBits sym (trieBits sym ctx.hasValues t vi).length).length) := by
      cases ts with
      | nil =>
        have hlast : ¬ childI < childCount - 1 := by rw [List.length_nil] at hlen; omega
        simp only [hlast, List.isEmpty_nil, if_true, if_false]
        exact .refl frames _
      | cons u us =>
        have hmore : childI < childCount - 1 := by rw [List.length_cons] at hlen; omega
        simp only [hmore, List.isEmpty_cons, Bool.false_eq_true, if_true, if_false, length_skipBits hm]
        exact (varUintSize_needs frames _).bind
    have hrest := @ih (childI + 1) (by omega) (vi + t.size)
    rw [childrenSize, kidsBits, List.map_cons, List.sum_cons, List.length_append, List.length_append]
    refine ((hrun.size _ vi).inside.bind.trans fun _ => hskip.bind.trans fun _ =>
      hrest.bind.trans fun _ => .of_eq ?_).congr ?_
    · simp only [Nat.add_assoc]
    · have hle : (if ts.isEmpty then 0 else 1) ≤ 1 + sizeCost ctx.hasValues t := by split_ifs <;> omega
      rw [kidsSizeCost_cons, Nat.max_zero, ← max_assoc, max_eq_left hle]

theorem branchSize_needs {fuel common : Nat} {runs : List (List Item)} {ts : List Trie}
    (h : List.Forall₂ (fun run t => LaidOut ctx sym fuel run common t) runs ts) (hne : ts ≠ []) (vi : Nat) :
    Needs frames (kidsSizeCost ctx.hasValues ts)
      (branchSize frames ctx
        (fun run vi => frames.call 1 (trieSubtreeSize ctx fuel (frames.inside 1) run common vi)) runs vi)
      (.ok ((branchBits sym ts.length).length + (kidsBits sym ctx.hasValues ts vi).length,
        vi + (ts.map PrefixTree.size).sum)) := by
  obtain ⟨t, ts, rfl⟩ := List.exists_cons_of_ne_nil hne
  rw [branchSize, length_branchBits hm, ← h.length_eq]
  have hkids := @childrenSize_needs _ _ frames hm _ _ _ _ _ _ h (Nat.zero_add runs.length) vi
  refine ((varUintSize_needs frames _).bind.trans fun _ => hkids.bind).congr ?_
  have hle : 1 ≤ kidsSizeCost ctx.hasValues (t :: ts) := by
    rw [kidsSizeCost_cons]
    omega
  rw [max_eq_right hle]

variable (hbps : 0 < sym.bitsPerSymbol) (hbps' : sym.bitsPerSymbol ≤ 64)

include hbps hbps'

theorem writeSymbol_appends (p code : Nat) :
    Appends p (writeBits code ctx.bps) (symbolBits sym code) () := by
  rw [hm.bps]
  exact writeBits_appends p hbps hbps'

theorem writeCtrl_appends (p : Nat) (c : TpCtrl) :
    Appends p (writeBits (ctx.ctrl c.index) ctx.bps) (symbolBits sym (sym.ctrlCodes c)) () := by
  rw [hm.ctrl]
  exact writeSymbol_appends hm hbps hbps' p _

theorem writeSymbols_appends (hroom : frames.Room 3) (p : Nat) (key : List UInt8) :
    Appends p (key.forM fun ch => frames.call 2 (writeBits (ctx.symbolMap ch) ctx.bps))
      (labelBits sym key) () := by
  simp only [hm.symbolMap, Frames.call_of_room (hroom.mono (show 2 ≤ 3 by omega))]
  exact .forM (fun q ch _ => writeSymbol_appends hm hbps hbps' q _) p

theorem writeTerminal_appends (hroom : frames.Room 3) (p vi : Nat) (e : Item) :
    AppendsIn frames (writeLeaf ctx.hasValues e.2.toValue) p (writeTerminal frames ctx e vi)
      (termBits sym ctx.hasValues vi (some e.2.toValue)) () := by
  rw [writeTerminal, termBits, writeLeaf]
  simp only [tag_toValue, Frames.call_of_room (hroom.mono (show 2 ≤ 3 by omega))]
  split_ifs
  · refine ((writeCtrl_appends hm hbps hbps' p .endVal).needs.bind fun _ =>
      (writeVarUint_appends _ vi).call 4).congr ?_
    rw [Nat.zero_max]
  · exact (writeCtrl_appends hm hbps hbps' p .end_).needs.congr ⟨fun _ => hroom, fun _ => frames.room_zero⟩

/-- The size of the child is computed on the way. -/
theorem writeSkip_appends (hroom : frames.Room 4) {fuel common : Nat} {run : List Item} {t : Trie}
    (h : LaidOut ctx sym fuel run common t) (vi p : Nat) :
    AppendsIn frames (1 + sizeCost ctx.hasValues t) p
      (writeSkip frames ctx
        (fun run vi => frames.call 1 (trieSubtreeSize ctx fuel (frames.inside 1) run common vi)) run vi)
      (skipBits sym (trieBits sym ctx.hasValues t vi).length) () := by
  have hskip : Appends p (do
      frames.call 2 (writeBits (ctx.ctrl ctrlSkip) ctx.bps)
      frames.call 4 (writeVarUint (trieBits sym ctx.hasValues t vi).length))
      (skipBits sym (trieBits sym ctx.hasValues t vi).length) () := by
    rw [Frames.call_of_room (hroom.mono (by omega)), Frames.call_of_room hroom]
    exact (writeCtrl_appends hm hbps hbps' p .skip).bind (writeVarUint_appends _ _)
  refine (AppendsIn.lift (h.size _ vi).inside fun _ => hskip.needs).congr ?_
  rw [Nat.max_zero]

theorem writeChildren_appends (hroom : frames.Room 4) {fuel common childCount childI : Nat}
    {runs : List (List Item)} {ts : List Trie}
    (h : List.Forall₂ (fun run t => LaidOut ctx sym fuel run common t) runs ts)
    (hcount : childI + runs.length = childCount) (vi p : Nat) :
    AppendsIn frames (kidsWriteCost ctx.hasValues ts) p
      (writeChildren frames ctx childCount
        (fun run vi => frames.call 1 (trieSubtreeSize ctx fuel (frames.inside 1) run common vi))
        (fun run vi => frames.call 1 (trieWrite ctx fuel (frames.inside 1) run common vi)) childI runs vi)
      (kidsBits sym ctx.hasValues ts vi) (vi + (ts.map PrefixTree.size).sum) := by
  induction h generalizing childI vi p with
  | nil => exact (Appends.pure p _).needs
  | @cons run t runs ts hrun hruns ih =>
    have hlen := hruns.length_eq
    rw [List.length_cons] at hcount
    have hinside : (frames.inside 1).Room 3 := (Frames.room_inside (hroom.mono (by omega))).mpr hroom
    rw [writeChildren, kidsBits, List.map_cons, List.sum_cons, ← Nat.add_assoc, kidsWriteCost_cons]
    cases ts with
    | nil =>
      rw [if_neg (by rw [List.length_nil] at hlen; omega)]
      refine ((Appends.pure p ()).needs.bind fun _ => (hrun.appends _ hinside vi _).inside.bind fun _ =>
        @ih (childI + 1) (by omega) _ _).congr ?_
      rw [Nat.zero_max]
    | cons u us =>
      rw [if_pos (by rw [List.length_cons] at hlen; omega)]
      refine ((writeSkip_appends hm hbps hbps' hroom hrun vi p).bind fun _ =>
        (hrun.appends _ hinside vi _).inside.bind fun _ => @ih (childI + 1) (by omega) _ _).congr ?_
      have hle := @sizeCost_le ctx.hasValues t
      rw [max_eq_right (by omega)]

/-- What stands behind the terminal. -/
theorem writeBranch_appends (hroom : frames.Room 3) {fuel common : Nat} {runs : List (List Item)}
    {ts : List Trie} (h : List.Forall₂ (fun run t => LaidOut ctx sym fuel run common t) runs ts)
    (vi p : Nat) :
    AppendsIn frames (kidsWriteCost ctx.hasValues ts) p
      (if runs.length = 0 then pure vi
      else do
        frames.call 2 (writeBits (ctx.ctrl ctrlBranch) ctx.bps)
        frames.call 4 (writeVarUint runs.length)
        writeChildren frames ctx runs.length
          (fun run vi => frames.call 1 (trieSubtreeSize ctx fuel (frames.inside 1) run common vi))
          (fun run vi => frames.call 1 (trieWrite ctx fuel (frames.inside 1) run common vi)) 0 runs vi)
      (if ts.isEmpty then [] else branchBits sym ts.length ++ kidsBits sym ctx.hasValues ts vi)
      (vi + (ts.map PrefixTree.size).sum) := by
  have hkids := fun hfour : frames.Room 4 => writeChildren_appends hm hbps hbps' hfour h
    (Nat.zero_add runs.length) vi
  have hlen := h.length_eq
  cases h with
  | nil => exact (Appends.pure p _).needs
  | @cons run t runs ts hrun hruns =>
    -- the children take more than their number
    have hcost : 3 ≤ writeCost ctx.hasValues t := three_le_writeCost hrun.inC.compact
    have hle : 4 ≤ kidsWriteCost ctx.hasValues (t :: ts) := by
      rw [kidsWriteCost_cons]
      omega
    rw [if_neg (by simp), List.isEmpty_cons, if_neg (by simp), branchBits, ← hlen, List.append_assoc,
      Frames.call_of_room (hroom.mono (by omega))]
    refine ((writeCtrl_appends hm hbps hbps' p .branch).needs.bind fun _ =>
      ((writeVarUint_appends _ _).call 4).bind fun hfour => hkids hfour _).congr ?_
    rw [Nat.zero_max, max_eq_right hle]

/-- A range with what follows its common prefix laid out is laid out as one node. -/
theorem laidOut_node {fuel prefixLen common : Nat} {first : Item} {rest children : List Item}
    (hrange : TrieRange ((first :: rest).map entry) prefixLen)
    (hcommon : commonEnd first rest prefixLen = common)
    (hchildren : (if first.1.length = common then rest else first :: rest) = children)
    {runs : List (List Item)} (hruns : childRuns common children.length children = .ok runs)
    (hmap : runs.map (List.map entry) =
      Triepack.childRuns common (childEntries (entry first) (rest.map entry) common))
    {ts : List Trie} (hts : List.Forall₂ (fun run t => LaidOut ctx sym fuel run common t) runs ts) :
    LaidOut ctx sym (fuel + 1) (first :: rest) prefixLen
      (.node ((first.1.take common).drop prefixLen)
        (if first.1.length = common then some first.2.toValue else none) ts) := by
  have hcommonC : Triepack.commonEnd (entry first) (rest.map entry) prefixLen = common := by
    rw [← commonEnd_eq, hcommon]
  have hlabel : ((first.1.take common).drop prefixLen).length = common - prefixLen := by
    have hle : common ≤ first.1.length := hcommonC ▸ hrange.commonEnd_spec.2.1
    rw [List.length_drop, List.length_take, Nat.min_eq_left hle]
  have htwo : first.1.length ≠ common → 2 ≤ runs.length := by
    have h := (hrange.childRuns_spec hcommonC).2.2
    rwa [← hmap, List.length_map] at h
  have hlen := hts.length_eq
  refine ⟨?_, fun frames vi => ?_, fun frames hroom vi p => ?_⟩
  · refine Triepack.laidOut_node hbps hbps' hrange hcommonC ?_
    rw [← hmap, List.forall₂_map_left_iff]
    exact hts.imp fun run t h => h.inC
  · have hterminal := terminalSize_needs hm frames first vi
    have hbranch := fun hne vi => @branchSize_needs _ _ frames hm _ _ _ _ hts hne vi
    simp only [trieSubtreeSize, hcommon, hchildren, trieBits, PrefixTree.size_node, List.length_append,
      length_labelBits, hlabel, ← hm.bps, sizeCost_node]
    refine ((Needs.of_eq hruns).bind.trans fun _ => ?_).congr (by rw [Nat.zero_max])
    by_cases hterm : first.1.length = common
    · simp only [hterm, true_and, if_true, Option.toList_some, List.length_singleton, hlen]
      cases ts with
      | nil =>
        rw [if_pos List.length_nil]
        refine (hterminal.bind.trans fun _ => .of_eq ?_).congr Iff.rfl
        simp
      | cons t ts =>
        rw [if_neg (by simp)]
        refine (hterminal.bind.trans fun _ => (hbranch (by simp) (vi + 1)).bind.trans fun _ =>
          .of_eq ?_).congr (by rw [Nat.max_zero]; rfl)
        simp [Nat.add_assoc]
    · have hne : ts ≠ [] := List.ne_nil_of_length_pos (by have := htwo hterm; omega)
      simp only [hterm, false_and, if_false]
      refine ((hbranch hne vi).bind.trans fun _ => .of_eq ?_).congr (by rw [Nat.max_zero]; simp)
      simp [hne, termBits]
  · have hterminal : ∀ q, AppendsIn frames
        ((if first.1.length = common then some first.2.toValue else none).elim 0 (writeLeaf ctx.hasValues)) q
        (if first.1.length = common then writeTerminal frames ctx first vi else pure ())
        (termBits sym ctx.hasValues vi (if first.1.length = common then some first.2.toValue else none))
        () := by
      intro q
      split_ifs
      · exact writeTerminal_appends hm hbps hbps' hroom q vi first
      · exact (Appends.pure q ()).needs
    have hvi : (if first.1.length = common then vi + 1 else vi) =
        vi + (if first.1.length = common then some first.2.toValue else none).toList.length := by
      split_ifs <;> rfl
    simp only [trieWrite, hcommon, hchildren, hvi, trieBits, PrefixTree.size_node, ← Nat.add_assoc]
    refine ((writeSymbols_appends hm hbps hbps' hroom p _).needs.bind fun _ =>
      .lift (.of_eq hruns) fun _ => (hterminal _).bind fun _ =>
        writeBranch_appends hm hbps hbps' hroom hts _ _).congr ?_
    rw [writeCost_node, Nat.zero_max, Nat.zero_max]

/-- Both encoders lay a range out as one tree. -/
theorem exists_laidOut {fuel : Nat} {es : List Item} {prefixLen : Nat} (hne : es ≠ [])
    (hfuel : es.length ≤ fuel) (hrange : TrieRange (es.map entry) prefixLen) :
    ∃ t, LaidOut ctx sym fuel es prefixLen t := by
  induction fuel generalizing es prefixLen with
  | zero => exact absurd (List.eq_nil_of_length_eq_zero (by omega)) hne
  | succ fuel ih =>
    obtain ⟨first, rest, rfl⟩ := List.exists_cons_of_ne_nil hne
    rw [List.map_cons] at hrange
    obtain ⟨hsub, _, _⟩ := hrange.childRuns_spec rfl
    obtain ⟨_, hle, hpre, _⟩ := hrange.commonEnd_spec
    rw [← commonEnd_eq] at hsub hle hpre
    set common := commonEnd first rest prefixLen with hcommon
    have hentries : (if first.1.length = common then rest else first :: rest).map entry =
        childEntries (entry first) (rest.map entry) common := by
      rw [childEntries]
      split_ifs <;> first | rfl | contradiction
    obtain ⟨runs, hruns, hmap⟩ := childRuns_eq (lt_length_of_mem_children hrange hle hpre) le_rfl
    rw [hentries] at hmap
    have hall : ∀ rs : List (List Item), (∀ run ∈ rs, run ∈ runs) →
        ∃ ts, List.Forall₂ (fun run t => LaidOut ctx sym fuel run common t) rs ts := by
      intro rs
      induction rs with
      | nil => exact fun _ => ⟨[], .nil⟩
      | cons run rs ihrs =>
        intro hmem
        obtain ⟨hrunne, hrunrange, hrunlt, _⟩ := hsub (run.map entry) (by
          rw [← hmap]
          exact List.mem_map_of_mem (hmem run (by simp)))
        simp only [List.length_cons, List.length_map] at hrunlt hfuel
        obtain ⟨t, ht⟩ := ih (by simpa using hrunne) (by omega) hrunrange
        obtain ⟨ts, hts⟩ := ihrs fun r hr => hmem r (by simp [hr])
        exact ⟨t :: ts, .cons ht hts⟩
    obtain ⟨ts, hts⟩ := hall runs fun _ h => h
    exact ⟨_, laidOut_node hm hbps hbps' hrange rfl rfl hruns hmap hts⟩

end Layout

end Triepack.Python
