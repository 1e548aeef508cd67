import Triepack.Go.Encode
import Triepack.Python.LibraryFiles

/-!
# The Go and the Python encoder write the same bytes

The encoders are compared step by step: along the map of the writers each call returns the same or both fail.
-/

namespace Triepack.Go

open CallStack

/-! ## Values of both languages -/

/-- The Python value with the same contents, where there is one. -/
def Any.python : Any → Python.PyValue
  | .nil => .none
  | .bool val => .bool val
  | .int val => .int val.toInt
  | .int64 val => .int val.toInt
  | .uint64 val => .int val.toNat
  | .float32 bits => .float (Python.widen bits.toNat)
  | .float64 bits => .float bits
  | .string val => .str val
  | .bytes val => .bytes val
  | .other _ => .bool false

/-- The Python module writes what the Go module writes for the value. -/
def Any.InPython : Any → Prop
  | .float32 _ | .other _ => False
  | _ => True

instance : DecidablePred Any.InPython
  | .float32 _ | .other _ => inferInstanceAs (Decidable False)
  | .nil | .bool _ | .int _ | .int64 _ | .uint64 _ | .float64 _ | .string _ | .bytes _ =>
    inferInstanceAs (Decidable True)

/-- The item of an entry. -/
def TrieEntry.python (e : TrieEntry) : Python.Item := (e.key, e.val.python)

theorem python_eq_none {v : Any} : v.python = .none ↔ v = .nil := by
  cases v <;> simp [Any.python]

/-- The dictionary of a map. -/
def Map.python (data : Map) : Python.Dict where
  items := data.entries.map TrieEntry.python
  nodup := by
    rw [List.map_map]
    exact data.nodup

/-! ## Ranges -/

section Ranges

variable {first : TrieEntry} {rest es : List TrieEntry} {common : Nat}

theorem allHave_eq : allHave first rest common =
    Python.allHave first.python (rest.map TrieEntry.python) common := by
  simp only [allHave, Python.allHave, List.all_map]
  rfl

theorem commonEnd_eq (prefixLen : Nat) : commonEnd first rest prefixLen =
    Python.commonEnd first.python (rest.map TrieEntry.python) prefixLen := by
  have hloop : ∀ fuel common, commonLoop first rest fuel common =
      Python.commonLoop first.python (rest.map TrieEntry.python) fuel common := by
    intro fuel
    induction fuel with
    | zero => exact fun _ => rfl
    | succ fuel ih =>
      intro common
      rw [commonLoop, Python.commonLoop, allHave_eq, ih]
  exact hloop _ _

theorem byteAt_same (e : TrieEntry) : SameResult (byteAt e common) (Python.byteAt e.python common) := by
  rw [byteAt, Python.byteAt, TrieEntry.python]
  cases e.key[common]? <;> rfl

/-- A run and what is left, with the items of the entries. -/
def pythonPair (p : List TrieEntry × List TrieEntry) : List Python.Item × List Python.Item :=
  (p.1.map TrieEntry.python, p.2.map TrieEntry.python)

theorem takeRun_same (ch : UInt8) : SameResult ((takeRun common ch es).map pythonPair)
    (Python.takeRun common ch (es.map TrieEntry.python)) := by
  induction es with
  | nil => rfl
  | cons e es ih =>
    rw [List.map_cons, takeRun, Python.takeRun]
    obtain ⟨b, hb, hb'⟩ | ⟨x, y, hx, hy⟩ := (@byteAt_same common e).cases
    · rw [hb, hb']
      by_cases hch : b = ch
      · obtain ⟨p, hp, hp'⟩ | ⟨x, y, hx, hy⟩ := ih.cases_map
        · simp only [hp, hp', hch, if_true, bind, Except.bind, pythonPair]
          rfl
        · simp only [hx, hy, hch, if_true, bind, Except.bind]
          rfl
      · simp only [hch, if_false, bind, Except.bind]
        rfl
    · rw [hx, hy]
      rfl

theorem childRuns_same (fuel : Nat) :
    SameResult ((childRuns common fuel es).map (List.map (List.map TrieEntry.python)))
      (Python.childRuns common fuel (es.map TrieEntry.python)) := by
  induction fuel generalizing es with
  | zero => cases es <;> rfl
  | succ fuel ih =>
    cases es with
    | nil => rfl
    | cons e es =>
      rw [List.map_cons, childRuns, Python.childRuns]
      obtain ⟨ch, hch, hch'⟩ | ⟨x, y, hx, hy⟩ := (@byteAt_same common e).cases
      · obtain ⟨⟨run, rest⟩, hp, hp'⟩ | ⟨x, y, hx, hy⟩ := (@takeRun_same es common ch).cases_map
        · simp only [hch, hch', hp, hp', bind, Except.bind, pythonPair]
          obtain ⟨runs, hr, hr'⟩ | ⟨x, y, hx, hy⟩ := (@ih rest).cases_map
          · simp only [hr, hr']
            rfl
          · simp only [hx, hy]
            rfl
        · simp only [hch, hch', hx, hy, bind, Except.bind]
          rfl
      · rw [hx, hy]
        rfl

end Ranges

/-! ## The trie -/

/-- The context of the Python module. -/
def EncodeCtx.python (ctx : EncodeCtx) : Python.Ctx := ⟨ctx.bps, ctx.symbolMap, ctx.ctrlCodes, ctx.hasValues⟩

section Trie

variable {ctx : EncodeCtx} {childCount : Nat}
  {size : List TrieEntry → Nat → Except Fail (Nat × Nat)}
  {size' : List Python.Item → Nat → Except Python.Err (Nat × Nat)}

/-- Sizes of ranges that both modules compute. -/
def SameSize (size : List TrieEntry → Nat → Except Fail (Nat × Nat))
    (size' : List Python.Item → Nat → Except Python.Err (Nat × Nat)) : Prop :=
  ∀ run vi, SameResult (size run vi) (size' (run.map TrieEntry.python) vi)

theorem varUintSize_unbounded (val : Nat) : Python.varUintSize .unbounded val = .ok (varUintBits val) := by
  rw [Python.varUintSize, Frames.call_unbounded, varUintBits_eq]

theorem terminalSize_unbounded (e : TrieEntry) (vi : Nat) :
    Python.terminalSize .unbounded ctx.python e.python vi =
      .ok (if ctx.hasValues ∧ e.val ≠ .nil then ctx.bps + varUintBits vi else ctx.bps) := by
  have hval : e.python.2 = e.val.python := rfl
  have hhas : ctx.python.hasValues = ctx.hasValues := rfl
  rw [Python.terminalSize, varUintSize_unbounded]
  simp only [hval, hhas, ne_eq, python_eq_none]
  split_ifs <;> rfl

theorem childrenSize_same (h : SameSize size size') (bps : Nat) (runs : List (List TrieEntry))
    (childI vi : Nat) : SameResult (childrenSize bps childCount size childI runs vi)
      (Python.childrenSize .unbounded bps childCount size' childI (runs.map (List.map TrieEntry.python)) vi) := by
  induction runs generalizing childI vi with
  | nil => rfl
  | cons run runs ih =>
    rw [List.map_cons, childrenSize, Python.childrenSize]
    refine (h run vi).bind ?_
    rintro ⟨childSz, vi⟩
    simp only [varUintSize_unbounded]
    by_cases hlast : childI < childCount - 1
    · simp only [if_pos hlast]
      refine (ih (childI + 1) vi).bind ?_
      exact fun _ => rfl
    · simp only [if_neg hlast]
      refine (ih (childI + 1) vi).bind ?_
      rintro ⟨bits, vi⟩
      rw [Nat.zero_add]
      rfl

theorem branchSize_same (h : SameSize size size') (runs : List (List TrieEntry)) (vi : Nat) :
    SameResult ((childrenSize ctx.bps runs.length size 0 runs vi).map fun r =>
        (ctx.bps + varUintBits runs.length + r.1, r.2))
      (Python.branchSize .unbounded ctx.python size' (runs.map (List.map TrieEntry.python)) vi) := by
  rw [Python.branchSize, varUintSize_unbounded, List.length_map]
  exact (childrenSize_same h ctx.bps runs 0 vi).bind fun _ => rfl

/-- On a stack without a bound the sizes are those of the Go module. -/
theorem trieSubtreeSize_same (fuel : Nat) (es : List TrieEntry) (prefixLen vi : Nat) :
    SameResult (trieSubtreeSize ctx fuel es prefixLen vi)
      (Python.trieSubtreeSize ctx.python fuel .unbounded (es.map TrieEntry.python) prefixLen vi) := by
  induction fuel generalizing es prefixLen vi with
  | zero => rfl
  | succ fuel ih =>
    cases es with
    | nil => rfl
    | cons first rest =>
      rw [List.map_cons, trieSubtreeSize, Python.trieSubtreeSize]
      have hkey : first.python.1 = first.key := rfl
      have hbps : ctx.python.bps = ctx.bps := rfl
      have hchildren : ∀ common, (if first.key.length = common then rest.map TrieEntry.python
          else first.python :: rest.map TrieEntry.python) =
            (if first.key.length = common then rest else first :: rest).map TrieEntry.python := by
        intro common
        split_ifs <;> rfl
      simp only [commonEnd_eq, hkey, hbps, hchildren, List.length_map, terminalSize_unbounded,
        Frames.call_unbounded, Frames.inside_unbounded]
      generalize Python.commonEnd first.python (rest.map TrieEntry.python) prefixLen = common
      generalize (if first.key.length = common then rest else first :: rest) = children
      refine childRuns_same children.length |>.bind_map fun runs => ?_
      have hsize : SameSize (fun run => trieSubtreeSize ctx fuel run common)
          (fun run => Python.trieSubtreeSize ctx.python fuel .unbounded run common) := fun run vi => ih run common vi
      have hbranch := @branchSize_same ctx _ _ hsize runs
      simp only [List.length_map]
      generalize (if ctx.hasValues = true ∧ first.val ≠ Any.nil then ctx.bps + varUintBits vi
        else ctx.bps) = terminal
      by_cases hleaf : first.key.length = common ∧ runs.length = 0
      · rw [if_pos hleaf, if_pos hleaf]
        rfl
      rw [if_neg hleaf, if_neg hleaf]
      by_cases hterm : first.key.length = common
      · rw [if_pos hterm, if_pos hterm]
        refine (hbranch (vi + 1)).bind_map fun r => ?_
        simp only [Nat.add_assoc]
        rfl
      · rw [if_neg hterm, if_neg hterm]
        refine (hbranch vi).bind_map fun r => ?_
        simp only [Nat.add_assoc]
        rfl

theorem writeTerminal_sim (e : TrieEntry) (vi : Nat) :
    Sim (writeTerminal ctx e vi) (Python.writeTerminal .unbounded ctx.python e.python vi) := by
  have hval : e.python.2 = e.val.python := rfl
  rw [writeTerminal, Python.writeTerminal]
  simp only [hval, ne_eq, python_eq_none, Frames.call_unbounded]
  exact .ite ((writeBits_sim _ _).bind fun _ => writeVarUint_sim vi) (writeBits_sim _ _)

theorem writeSkip_sim (h : SameSize size size') (run : List TrieEntry) (vi : Nat) :
    Sim (writeSkip ctx size run vi)
      (Python.writeSkip .unbounded ctx.python size' (run.map TrieEntry.python) vi) := by
  refine (Simulates.lift (h run vi)).bind ?_
  rintro ⟨childSz, _⟩
  exact (writeBits_sim _ _).bind fun _ => writeVarUint_sim childSz

theorem writeChildren_sim (h : SameSize size size') {child : List TrieEntry → Nat → Write Nat}
    {child' : List Python.Item → Nat → Python.Write Nat}
    (hchild : ∀ run vi, Sim (child run vi) (child' (run.map TrieEntry.python) vi))
    (runs : List (List TrieEntry)) (childI vi : Nat) :
    Sim (writeChildren ctx childCount size child childI runs vi)
      (Python.writeChildren .unbounded ctx.python childCount size' child' childI
        (runs.map (List.map TrieEntry.python)) vi) := by
  induction runs generalizing childI vi with
  | nil => exact .pure vi
  | cons run runs ih =>
    rw [List.map_cons, writeChildren, Python.writeChildren]
    exact (Simulates.ite (writeSkip_sim h run vi) (.pure _)).bind fun _ =>
      (hchild run vi).bind fun vi => ih (childI + 1) vi

theorem trieWrite_sim (fuel : Nat) (es : List TrieEntry) (prefixLen vi : Nat) :
    Sim (trieWrite ctx fuel es prefixLen vi)
      (Python.trieWrite ctx.python fuel .unbounded (es.map TrieEntry.python) prefixLen vi) := by
  induction fuel generalizing es prefixLen vi with
  | zero => exact .throw _ _
  | succ fuel ih =>
    cases es with
    | nil => exact .throw _ _
    | cons first rest =>
      rw [List.map_cons, trieWrite, Python.trieWrite]
      have hkey : first.python.1 = first.key := rfl
      have hchildren : ∀ common, (if first.key.length = common then rest.map TrieEntry.python
          else first.python :: rest.map TrieEntry.python) =
            (if first.key.length = common then rest else first :: rest).map TrieEntry.python := by
        intro common
        split_ifs <;> rfl
      simp only [commonEnd_eq, hkey, hchildren, List.length_map, Frames.call_unbounded, Frames.inside_unbounded]
      generalize Python.commonEnd first.python (rest.map TrieEntry.python) prefixLen = common
      generalize (if first.key.length = common then rest else first :: rest) = children
      refine (Simulates.forM _ fun ch _ => writeBits_sim _ _).bind fun _ => ?_
      refine Simulates.lift_map (childRuns_same children.length) fun runs => ?_
      rw [List.length_map]
      refine (Simulates.ite (writeTerminal_sim first vi) (.pure _)).bind fun _ => .ite (.pure _) ?_
      refine (writeBits_sim _ _).bind fun _ => (writeVarUint_sim _).bind fun _ => ?_
      exact writeChildren_sim (fun run vi => trieSubtreeSize_same fuel run common vi)
        (fun run vi => ih run common vi) runs 0 _

end Trie

/-! ## Symbols -/

section Symbols

variable (entries : List TrieEntry)

theorem used_eq : used entries = Python.usedTable (entries.map TrieEntry.python) := by
  funext b
  rw [used, Python.usedTable, List.any_map]
  rfl

theorem alphabetSize_eq : alphabetSize entries = Python.alphabetSize (entries.map TrieEntry.python) := by
  rw [alphabetSize, Python.alphabetSize, used_eq]

theorem bpsLoop_eq (totalSymbols fuel bps : Nat) :
    bpsLoop totalSymbols fuel bps = Python.bpsLoop totalSymbols fuel bps := by
  induction fuel generalizing bps with
  | zero => rfl
  | succ fuel ih => rw [bpsLoop, Python.bpsLoop, ih]

/-- The Go module keeps a code above 255 out of its table; it is not looked up either. -/
theorem foldl_assignStep (used : UInt8 → Bool) (bs : List UInt8) {t : SymbolTables} {t' : Python.SymbolTables}
    (hmap : t.symbolMap = t'.symbolMap) (hcode : t.code = t'.code)
    (hrev : ∀ cd < 256, t.reverseMap cd = (t'.reverseMap cd).toNat) :
    (bs.foldl (assignStep used) t).symbolMap = (bs.foldl (Python.assignStep used) t').symbolMap ∧
      ∀ cd < 256, (bs.foldl (assignStep used) t).reverseMap cd =
        ((bs.foldl (Python.assignStep used) t').reverseMap cd).toNat := by
  induction bs generalizing t t' with
  | nil => exact ⟨hmap, hrev⟩
  | cons b bs ih =>
    rw [List.foldl_cons, List.foldl_cons, assignStep, Python.assignStep]
    by_cases hb : used b
    · rw [if_pos hb, if_pos hb]
      refine ih (by rw [hmap, hcode]) (by rw [hcode]) fun cd hcd => ?_
      by_cases hsame : cd = t.code
      · subst hsame
        simp only [if_pos hcd, ← hcode, Function.update_self]
      · have hother : (if t.code < 256 then Function.update t.reverseMap t.code b.toNat else t.reverseMap) cd =
            t.reverseMap cd := by
          split_ifs
          · exact Function.update_of_ne hsame _ _
          · rfl
        simp only [hother, ← hcode, Function.update_of_ne hsame, hrev cd hcd]
    · rw [if_neg hb, if_neg hb]
      exact ih hmap hcode hrev

theorem symbolTables_eq :
    (symbolTables entries).symbolMap = (Python.symbolTables (entries.map TrieEntry.python)).symbolMap ∧
      ∀ cd < 256, (symbolTables entries).reverseMap cd =
        ((Python.symbolTables (entries.map TrieEntry.python)).reverseMap cd).toNat := by
  rw [symbolTables, Python.symbolTables, used_eq]
  exact foldl_assignStep _ _ rfl rfl fun _ _ => rfl

theorem hasValues_eq : hasValues entries = Python.hasValues (entries.map TrieEntry.python) := by
  rw [hasValues, Python.hasValues, List.any_map]
  refine congrArg (List.any entries) (funext fun e => ?_)
  have hval : e.python.2 = e.val.python := rfl
  simp only [Function.comp_apply, hval, ne_eq, python_eq_none]

theorem python_context : (context entries).python = Python.context (entries.map TrieEntry.python) := by
  rw [context, EncodeCtx.python, Python.context]
  simp only [alphabetSize_eq, bpsLoop_eq, (symbolTables_eq entries).1, hasValues_eq]
  rfl

end Symbols

/-! ## The stream -/

theorem writeU32_ofNat (v : Nat) : Python.writeU32 (UInt32.ofNat v).toNat = Python.writeU32 v := by
  have hmod : v % 2 ^ 32 &&& 0xFFFFFFFF = v &&& 0xFFFFFFFF := by
    rw [show 0xFFFFFFFF = 2 ^ 32 - 1 from rfl, Nat.and_two_pow_sub_one_eq_mod, Nat.and_two_pow_sub_one_eq_mod,
      Nat.mod_mod]
  rw [Python.writeU32, Python.writeU32, UInt32.toNat_ofNat', hmod]

theorem writeHeader_sim (values : Bool) (count : Nat) :
    Sim (writeHeader (if values then tpFlagHasValues else 0) (UInt32.ofNat count))
      (Python.writeHeader (if values then Python.tpFlagHasValues else 0) count) := by
  have hflags : (if values then tpFlagHasValues else 0).toNat =
      if values then Python.tpFlagHasValues else 0 := by cases values <;> rfl
  rw [writeHeader, Python.writeHeader, ← hflags, ← writeU32_ofNat]
  refine (Simulates.forM _ fun b _ => writeU8_sim b).bind fun _ => ?_
  refine (writeU8_sim _).bind fun _ => (writeU8_sim _).bind fun _ => (writeU16_sim _).bind fun _ => ?_
  refine (writeU32_sim _).bind fun _ => (writeU32_sim 0).bind fun _ => (writeU32_sim 0).bind fun _ => ?_
  exact (writeU32_sim 0).bind fun _ => (writeU32_sim 0).bind fun _ => writeU32_sim 0

theorem writeConfig_sim (entries : List TrieEntry) (totalSymbols : Nat) :
    Sim (writeConfig (context entries) totalSymbols (symbolTables entries).reverseMap)
      (Python.writeConfig (Python.context (entries.map TrieEntry.python)) totalSymbols
        (Python.symbolTables (entries.map TrieEntry.python)).reverseMap) := by
  rw [writeConfig, Python.writeConfig, ← python_context]
  refine (writeBits_sim _ _).bind fun _ => (writeBits_sim _ _).bind fun _ => ?_
  refine (Simulates.forM _ fun c _ => writeBits_sim _ _).bind fun _ => Simulates.forM _ fun cd _ => ?_
  by_cases hcd : cd < 256
  · rw [if_pos hcd, if_pos hcd, (symbolTables_eq entries).2 cd hcd]
    exact writeVarUint_sim _
  · rw [if_neg hcd, if_neg hcd]
    exact writeVarUint_sim 0

theorem encodeInt_sim (v : Int64) : Sim (encodeInt v) (Python.encodeValue (.int v.toInt)) := by
  have hlow := v.le_toInt
  have hint := toInt_eq_toUInt64 v
  have hlt : v < 0 ↔ v.toInt < 0 := Int64.lt_iff_toInt_lt
  rw [encodeInt, Python.encodeValue]
  simp only [hlt]
  by_cases hneg : v.toInt < 0
  · have hraw : ((v <<< 1).toUInt64 ^^^ (v >>> 63).toUInt64).toNat = (-v.toInt * 2 - 1).toNat := by
      have hzigzag := Python.toNat_zigzag_ofInt hlow hneg
      rw [Int64.ofInt_toInt] at hzigzag
      have hshift : (v <<< 1).toUInt64 = v.toUInt64 <<< 1 := rfl
      rw [hshift]
      exact hzigzag
    rw [if_pos hneg, if_pos hneg, writeVarInt, hraw, Python.writeVarInt, if_neg (by omega)]
    refine (writeBits_sim _ _).bind fun _ => ?_
    have h := writeVarUint_sim (-v.toInt * 2 - 1).toNat
    rwa [Int.toNat_of_nonneg (by omega)] at h
  · have hval : v.toUInt64.toNat = v.toInt := by
      have := v.toUInt64.toNat_lt
      split_ifs at hint <;> omega
    rw [if_neg hneg, if_neg hneg]
    refine (writeBits_sim _ _).bind fun _ => ?_
    have h := writeVarUint_sim v.toUInt64.toNat
    rwa [hval] at h

theorem encodeValue_sim {v : Any} (h : v.InPython) : Sim (encodeValue v) (Python.encodeValue v.python) := by
  have hslice : ∀ bytes : List UInt8, Sim (do
      writeVarUint bytes.length
      alignToByte
      writeBytes bytes) (do
      Python.writeVarUint bytes.length
      Python.alignToByte
      Python.writeBytes bytes) := fun bytes =>
    (writeVarUint_sim _).bind fun _ => alignToByte_sim.bind fun _ => writeBytes_sim bytes
  cases v with
  | nil => exact writeBits_sim _ _
  | bool v =>
    refine (writeBits_sim _ _).bind fun _ => ?_
    cases v
    · exact writeBit_sim 0
    · exact writeBit_sim 1
  | int v => exact encodeInt_sim v
  | int64 v => exact encodeInt_sim v
  | uint64 v =>
    rw [Any.python, Python.encodeValue, if_neg (by omega)]
    exact (writeBits_sim _ _).bind fun _ => writeVarUint_sim v.toNat
  | float32 => exact h.elim
  | float64 bits =>
    have hlt := bits.toNat_lt
    have hhi : (bits >>> 32).toUInt32.toNat = bits.toNat >>> 32 := by
      have hshift : (bits >>> 32).toNat = bits.toNat / 2 ^ 32 := by
        rw [UInt64.toNat_shiftRight, Nat.shiftRight_eq_div_pow]
        rfl
      rw [UInt64.toNat_toUInt32, hshift, Nat.shiftRight_eq_div_pow]
      omega
    have hlo : (bits &&& 0xFFFFFFFF).toUInt32.toNat = bits.toNat &&& 0xFFFFFFFF := by
      have hmask : (bits &&& 0xFFFFFFFF).toNat = bits.toNat % 2 ^ 32 := by
        rw [UInt64.toNat_and, ← Nat.and_two_pow_sub_one_eq_mod]
        rfl
      rw [UInt64.toNat_toUInt32, hmask, Nat.mod_mod, ← Nat.and_two_pow_sub_one_eq_mod]
    have h : Sim (writeU64 (bits >>> 32).toUInt32 (bits &&& 0xFFFFFFFF).toUInt32)
        (Python.writeU64 (bits.toNat >>> 32) (bits.toNat &&& 0xFFFFFFFF)) := by
      rw [← hhi, ← hlo]
      exact (writeU32_sim _).bind fun _ => writeU32_sim _
    exact (writeBits_sim _ _).bind fun _ => h
  | string v => exact (writeBits_sim _ _).bind fun _ => hslice v
  | bytes v => exact (writeBits_sim _ _).bind fun _ => hslice v
  | other => exact h.elim

theorem encodeValues_sim {entries : List TrieEntry} (h : ∀ e ∈ entries, e.val.InPython) :
    Sim (encodeValues entries) (Python.encodeValues (entries.map TrieEntry.python)) := by
  induction entries with
  | nil => exact .pure _
  | cons e es ih => exact (encodeValue_sim (h e (by simp))).bind fun _ => ih fun x hx => h x (by simp [hx])

/-- The streams agree as far as the calls for the value store do. -/
theorem writeStream_sim_of_store {entries : List TrieEntry} {store : Python.Write Unit}
    (h : Sim (encodeValues entries) store) :
    Sim (writeStream entries) (Python.streamWith .unbounded store (entries.map TrieEntry.python)) := by
  have hctx := python_context entries
  have hhas : (Python.context (entries.map TrieEntry.python)).hasValues = (context entries).hasValues := by
    rw [← hctx]
    rfl
  rw [writeStream, Python.streamWith]
  simp only [hhas, List.length_map, ← alphabetSize_eq]
  refine (writeHeader_sim _ _).bind fun _ => position_sim.bind fun _ => ?_
  refine (writeConfig_sim entries _).bind fun _ => position_sim.bind fun _ => ?_
  refine Simulates.bind ?_ fun _ => position_sim.bind fun _ => ?_
  · by_cases hne : entries = []
    · subst hne
      exact .pure 0
    · rw [if_pos (List.length_pos_iff.mpr hne), if_pos (by simpa using hne), ← hctx]
      exact trieWrite_sim _ _ _ _
  · refine (Simulates.ite h (.pure _)).bind fun _ => position_sim.bind fun _ => .pure _

theorem writeStream_sim {entries : List TrieEntry} (h : ∀ e ∈ entries, e.val.InPython) :
    Sim (writeStream entries) (Python.writeStream .unbounded (entries.map TrieEntry.python)) :=
  writeStream_sim_of_store (encodeValues_sim h)

/-! ## The finished bytes -/

theorem crcStep_eq (crc : UInt32) (b : UInt8) : crcStep crc b = Triepack.crc32Step crc b := by
  have hshift : (crc >>> 8) &&& (0x00FFFFFF : UInt32) = crc >>> 8 := by
    apply UInt32.toNat_inj.mp
    have hlt := crc.toNat_lt
    have h8 : (crc >>> 8).toNat = crc.toNat / 2 ^ 8 := by
      rw [UInt32.toNat_shiftRight, Nat.shiftRight_eq_div_pow]
      rfl
    have hmask : (0x00FFFFFF : UInt32).toNat = 2 ^ 24 - 1 := rfl
    rw [UInt32.toNat_and, h8, hmask, Nat.and_two_pow_sub_one_eq_mod, Nat.mod_eq_of_lt (by omega)]
  rw [crcStep, Triepack.crc32Step, hshift, crc32Table]

/-- The checksum is that of the C library. -/
theorem computeCRC32_eq (data : List UInt8) : computeCRC32 data = Triepack.crc32 data := by
  have hmask : ∀ x : UInt32, x &&& 0xFFFFFFFF = x := by
    intro x
    apply UInt32.toNat_inj.mp
    have hlt := x.toNat_lt
    have hones : (0xFFFFFFFF : UInt32).toNat = 2 ^ 32 - 1 := rfl
    rw [UInt32.toNat_and, hones, Nat.and_two_pow_sub_one_eq_mod, Nat.mod_eq_of_lt hlt]
  have hstep : crcStep = Triepack.crc32Step := funext fun crc => funext fun b => crcStep_eq crc b
  rw [computeCRC32, hmask, Triepack.crc32, hstep]

/-- The low byte of a shifted word. -/
theorem toUInt8_shiftRight (v : UInt32) {k : UInt32} (hk : k.toNat < 32) :
    ((v >>> k) &&& 0xFF).toUInt8 = UInt8.ofNat (v.toNat >>> k.toNat) := by
  have hones : (0xFF : UInt32).toNat = 2 ^ 8 - 1 := rfl
  apply UInt8.toNat_inj.mp
  rw [UInt32.toNat_toUInt8, UInt32.toNat_and, UInt32.toNat_shiftRight, Nat.mod_eq_of_lt hk, hones,
    Nat.and_two_pow_sub_one_eq_mod, Nat.mod_mod, UInt8.toNat_ofNat']

theorem patchU32_eq (buf : List UInt8) (offset value : Nat) :
    patchU32 buf offset (UInt32.ofNat value) = Python.patchU32 buf offset value := by
  have hbytes := Python.be32_ofNat value
  simp only [be32, List.cons.injEq, and_true] at hbytes
  obtain ⟨h24, h16, h8, h0⟩ := hbytes
  have hlow : ((UInt32.ofNat value) &&& 0xFF).toUInt8 = UInt8.ofNat (UInt32.ofNat value).toNat := by
    have h := @toUInt8_shiftRight (UInt32.ofNat value) 0 (by decide)
    rwa [UInt32.shiftRight_zero] at h
  rw [patchU32, Python.patchU32, ← h24, ← h16, ← h8, ← h0, hlow, toUInt8_shiftRight _ (by decide),
    toUInt8_shiftRight _ (by decide), toUInt8_shiftRight _ (by decide)]
  rfl

theorem patchOffsets_eq (offs : StreamOffsets) (buf : List UInt8) :
    patchOffsets offs buf = Python.patchOffsets offs buf := by
  have hcrc : ∀ bytes, computeCRC32 bytes = UInt32.ofNat (Python.crc32 bytes) := by
    intro bytes
    rw [computeCRC32_eq, Python.crc32_eq, UInt32.ofNat_toNat]
  have hzero : (0 : UInt32) = UInt32.ofNat 0 := rfl
  simp only [patchOffsets, Python.patchOffsets, hzero, patchU32_eq, hcrc]

/-! ## The order of the entries -/

theorem keyLess_iff (as bs : List UInt8) : keyLess as bs = true ↔ as < bs := by
  induction as generalizing bs with
  | nil =>
    cases bs with
    | nil => simp [keyLess]
    | cons b bs => simp [keyLess]
  | cons a as ih =>
    cases bs with
    | nil => simp [keyLess]
    | cons b bs =>
      rw [keyLess, List.cons_lt_cons_iff]
      by_cases hab : a = b
      · subst hab
        simp [ih]
      · simp [hab]

/-- Whichever order a range takes and whatever `sort.Slice` does with it, the keys are in their one order. -/
theorem python_sort (sort : SortSlice entryLess) (data : Map) :
    (sort.run data.entries).map TrieEntry.python = Python.sortItems data.python.items := by
  have hperm : ((sort.run data.entries).map TrieEntry.python).Perm (Python.sortItems data.python.items) :=
    ((sort.perm data.entries).map TrieEntry.python).trans (List.perm_insertionSort _ _).symm
  have hnodup : ((sort.run data.entries).map TrieEntry.key).Nodup :=
    ((sort.perm data.entries).map TrieEntry.key).nodup_iff.mpr data.nodup
  have hkeys := List.pairwise_map.mp hnodup
  have hascending : ((sort.run data.entries).map TrieEntry.python).Pairwise fun a b => a.1 < b.1 := by
    refine List.pairwise_map.mpr (((sort.sorted data.entries).and hkeys).imp fun {a b} hab => ?_)
    have hnot : ¬ b.key < a.key := by
      rw [← keyLess_iff]
      simpa [entryLess] using hab.1
    rcases key_trichotomy a.key b.key with hlt | heq | hgt
    · exact hlt
    · exact absurd heq hab.2
    · exact absurd hgt hnot
  have hsorted : (Python.sortItems data.python.items).Pairwise fun a b => a.1 < b.1 :=
    List.pairwise_map.mp (Python.pairwise_keys (Python.strictlyAscending_sortItems data.python.nodup))
  refine List.Perm.eq_of_pairwise (fun a b _ _ hab hba => ?_) hascending hsorted hperm
  exact absurd (List.lt_trans hab hba) (List.lt_irrefl _)

/-! ## The two encoders -/

/-- The encoders return the same bytes, or both refuse the map, where the stack has no bound. -/
theorem encodeData_same (sort : SortSlice entryLess) (data : Map) (h : ∀ e ∈ data.entries, e.val.InPython) :
    SameResult (encodeData sort data) (Python.encode .unbounded data.python) := by
  have hsort := python_sort sort data
  have hvalues : ∀ e ∈ sort.run data.entries, e.val.InPython := fun e he =>
    h e ((sort.perm data.entries).mem_iff.mp he)
  have hcodes : Python.numControlCodes = numControlCodes := rfl
  simp only [encodeData, Python.encode, ← hsort, ← alphabetSize_eq, hcodes]
  generalize sort.run data.entries = entries at hvalues
  by_cases hlarge : alphabetSize entries + numControlCodes > 255
  · rw [if_pos hlarge, if_pos hlarge]
    rfl
  rw [if_neg hlarge, if_neg hlarge, ← python_newBitWriter]
  refine (writeStream_sim hvalues (newBitWriter 256)).bind_map ?_
  rintro ⟨offs, u⟩
  refine (alignToByte_sim u).bind_map ?_
  rintro ⟨_, v⟩
  have hcrc : (computeCRC32 v.toBytes).toNat = Python.crc32 v.python.toBytes := by
    rw [computeCRC32_eq, ← Python.crc32_eq]
    rfl
  have hlast := writeU32_sim (computeCRC32 v.toBytes) v
  rw [hcrc] at hlast
  refine hlast.bind_map ?_
  rintro ⟨_, w⟩
  rw [patchOffsets_eq]
  rfl

theorem alphabetSize_perm {entries entries' : List TrieEntry} (h : entries.Perm entries') :
    alphabetSize entries = alphabetSize entries' := by
  have hused : used entries = used entries' := funext fun b => h.any_eq
  rw [alphabetSize, alphabetSize, hused]

/-- The Python encoder returns a file unless the keys have too many byte values or its stack too little room. -/
theorem encode_ok {data : Python.Dict} (hcount : Python.alphabetSize data.items ≤ 249) :
    ∃ bytes, ∀ frames, Python.encode frames data =
      if Python.WriteFits frames data.items then .ok bytes else .error .recursionError := by
  obtain ⟨trie, n, _, hroom, htrie, _⟩ := Python.exists_trie (Python.strictlyAscending_sortItems data.nodup)
  obtain ⟨body, _, hencode⟩ := Python.encode_eq hcount hroom htrie
  exact ⟨_, hencode⟩

/-- Whatever order the range and the sort take, the Go and the Python encoder return the same bytes, unless
the stack of the Python encoder has no room for the trie, or both refuse keys of more than 249 byte values. -/
theorem encodeData_eq_encode (frames : Frames) (sort : SortSlice entryLess) (data : Map)
    (h : ∀ e ∈ data.entries, e.val.InPython) :
    (249 < alphabetSize data.entries ∧ Python.encode frames data.python = .error .valueError ∧
        encodeData sort data = .error (.err
          (s!"keys use too many distinct byte values ({alphabetSize data.entries}); " ++
            "the format allows at most 249"))) ∨
      (alphabetSize data.entries ≤ 249 ∧ ∃ bytes, encodeData sort data = .ok bytes ∧
        Python.encode frames data.python =
          if Python.WriteFits frames data.python.items then .ok bytes else .error .recursionError) := by
  have hperm := alphabetSize_perm (sort.perm data.entries)
  have hsize : Python.alphabetSize data.python.items = alphabetSize data.entries :=
    (alphabetSize_eq data.entries).symm
  by_cases hcount : alphabetSize data.entries ≤ 249
  · obtain ⟨bytes, hbytes⟩ := encode_ok (hsize ▸ hcount)
    have hwhole := hbytes .unbounded
    rw [if_pos (by simp [Python.WriteFits])] at hwhole
    obtain ⟨bytes', hgo, hpython⟩ | ⟨_, _, _, hbad⟩ := (encodeData_same sort data h).cases
    · rw [hwhole] at hpython
      obtain rfl := Except.ok.inj hpython
      exact .inr ⟨hcount, bytes, hgo, hbytes frames⟩
    · rw [hwhole] at hbad
      cases hbad
  · have hlarge : alphabetSize data.entries + 6 > 255 := by omega
    refine .inl ⟨by omega, ?_, ?_⟩
    · rw [Python.encode, Python.alphabetSize_sortItems, hsize]
      exact if_pos hlarge
    · simp only [encodeData, hperm]
      exact if_pos hlarge

theorem entryLess_eq_false {a b : TrieEntry} : entryLess b a = false ↔ a.key ≤ b.key := by
  rw [← Bool.not_eq_true, entryLess, keyLess_iff, List.not_lt]

instance : Std.Total fun a b : TrieEntry => a.key ≤ b.key where
  total a b := List.le_total a.key b.key

instance : IsTrans TrieEntry fun a b => a.key ≤ b.key where
  trans _ _ _ := List.le_trans

/-- The sort by insertion. -/
def SortSlice.byInsertion : SortSlice entryLess where
  run := List.insertionSort fun a b => a.key ≤ b.key
  perm := List.perm_insertionSort _
  sorted entries := (List.pairwise_insertionSort (fun a b : TrieEntry => a.key ≤ b.key) entries).imp
    entryLess_eq_false.mpr

/-- A blob and a negative number, in the order of the range. -/
def twoEntries : Map := ⟨[⟨[98, 97], .bytes [1, 2]⟩, ⟨[98], .int (-7)⟩], by decide⟩

theorem encodeData_eq_encode_twoEntries :
    (249 < alphabetSize twoEntries.entries ∧
        Python.encode (.atMost 992) twoEntries.python = .error .valueError ∧
        encodeData .byInsertion twoEntries = .error (.err
          (s!"keys use too many distinct byte values ({alphabetSize twoEntries.entries}); " ++
            "the format allows at most 249"))) ∨
      (alphabetSize twoEntries.entries ≤ 249 ∧ ∃ bytes, encodeData .byInsertion twoEntries = .ok bytes ∧
        Python.encode (.atMost 992) twoEntries.python =
          if Python.WriteFits (.atMost 992) twoEntries.python.items then .ok bytes
          else .error .recursionError) :=
  encodeData_eq_encode _ _ _ (by decide)

end Triepack.Go
