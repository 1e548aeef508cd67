import Mathlib.Data.List.TakeWhile
import Triepack.Core.Encoder
import Triepack.Core.Symbols

/-!
# Writing the trie

`trie_write` works on a range of the sorted entries whose keys share their first `prefixLen`
bytes; here a range is a list. The children of a branch are called with the length of the
branch's own key, so each writes its distinguishing byte itself. `TrieRange.childRuns_spec` says
what these children are.
-/

namespace Triepack

/-- The byte of the NUL-terminated copy of a key. -/
def keyByte (e : Entry) (i : Nat) : UInt8 := e.key.getD i 0

/-- Every entry of the range has a byte at `common`, and the same one. -/
def allHave (first : Entry) (rest : List Entry) (common : Nat) : Bool :=
  (first :: rest).all fun e =>
    decide (common < e.key.length) && keyByte e common == keyByte first common

/-- The loop for the common prefix; it ends at the latest with the first key. -/
def commonLoop (first : Entry) (rest : List Entry) : (fuel common : Nat) → Nat
  | 0, common => common
  | fuel + 1, common =>
    if allHave first rest common then commonLoop first rest fuel (common + 1) else common

def commonEnd (first : Entry) (rest : List Entry) (prefixLen : Nat) : Nat :=
  commonLoop first rest first.key.length prefixLen

/-- The children of a branch: the runs of entries with one byte at `common`. -/
def childRuns (common : Nat) : List Entry → List (List Entry)
  | [] => []
  | e :: es =>
    (e :: es.takeWhile fun x => keyByte x common == keyByte e common) ::
      childRuns common (es.dropWhile fun x => keyByte x common == keyByte e common)
termination_by es => es.length
decreasing_by
  have := (List.dropWhile_suffix (fun x => keyByte x common == keyByte e common) (l := es)).length_le
  simp only [List.length_cons]
  omega

/-- The entries of a range that go on behind its common prefix. -/
def childEntries (first : Entry) (rest : List Entry) (common : Nat) : List Entry :=
  if first.key.length = common then rest else first :: rest

/-- `varint_bits`. -/
def varintBits (val : Nat) : Nat :=
  if _h : val >>> 7 > 0 then 8 + varintBits (val >>> 7) else 8
termination_by val
decreasing_by
  simp only [Nat.shiftRight_eq_div_pow] at _h ⊢
  omega

/-- The children in `trie_subtree_size`. -/
def childrenSize (bps : Nat) (child : List Entry → Nat → Except Stop (Nat × Nat)) :
    List (List Entry) → Nat → Except Stop (Nat × Nat)
  | [], vi => .ok (0, vi)
  | run :: runs, vi => do
    let (childSz, vi) ← child run vi
    let (sz, vi) ← childrenSize bps child runs vi
    if runs.isEmpty then .ok (childSz + sz, vi)
    else .ok (bps + varintBits childSz + childSz + sz, vi)

/-- `trie_subtree_size`: the bits, and the value index behind the subtree. On an empty range
the loop for the common prefix does not end. -/
def trieSubtreeSize (sym : SymbolInfo) (hasValues : Bool) :
    (fuel : Nat) → List Entry → (prefixLen valueIdx : Nat) → Except Stop (Nat × Nat)
  | 0, _, _, _ => .error .fuel
  | _ + 1, [], _, _ => .error .fuel
  | fuel + 1, first :: rest, prefixLen, vi =>
    let bps := sym.bitsPerSymbol
    let common := commonEnd first rest prefixLen
    let hasTerminal := decide (first.key.length = common)
    let runs := childRuns common (childEntries first rest common)
    let bits := (common - prefixLen) * bps
    let bits := if hasTerminal then
        (if hasValues ∧ first.val.tag ≠ 0 then bits + bps + varintBits vi else bits + bps)
      else bits
    let vi := if hasTerminal then u32 (vi + 1) else vi
    if hasTerminal ∧ runs.isEmpty then .ok (bits, vi)
    else do
      let (sz, vi) ←
        childrenSize bps (fun run => trieSubtreeSize sym hasValues fuel run common) runs vi
      .ok (bits + bps + varintBits runs.length + sz, vi)

def writeSymbols (sym : SymbolInfo) : List UInt8 → Wr Unit
  | [] => pure ()
  | ch :: key => do
    bsWriteBits (sym.symbolMap ch) sym.bitsPerSymbol
    writeSymbols sym key

/-- The terminal of an entry. -/
def writeTerminal (sym : SymbolInfo) (hasValues : Bool) (e : Entry) (vi : Nat) : Wr Unit :=
  if hasValues ∧ e.val.tag ≠ 0 then do
    bsWriteBits (sym.ctrlCodes .endVal) sym.bitsPerSymbol
    bsWriteVarintU vi
  else bsWriteBits (sym.ctrlCodes .end_) sym.bitsPerSymbol

/-- A computation of the encoder that does not write. -/
def Wr.lift {α : Type} (x : Except Stop α) : Wr α := fun w => x.map fun a => (a, w)

/-- The children in `trie_write`. -/
def writeChildren (sym : SymbolInfo) (size : List Entry → Nat → Except Stop (Nat × Nat))
    (child : List Entry → Nat → Wr Nat) : List (List Entry) → Nat → Wr Nat
  | [], vi => pure vi
  | run :: runs, vi =>
    if runs.isEmpty then do
      let vi ← child run vi
      writeChildren sym size child runs vi
    else do
      let (childSz, _) ← Wr.lift (size run vi)
      bsWriteBits (sym.ctrlCodes .skip) sym.bitsPerSymbol
      bsWriteVarintU childSz
      let vi ← child run vi
      writeChildren sym size child runs vi

/-- `trie_write`: the result is the value index behind the subtree. -/
def trieWrite (sym : SymbolInfo) (hasValues : Bool) :
    (fuel : Nat) → List Entry → (prefixLen valueIdx : Nat) → Wr Nat
  | 0, _, _, _ => Wr.lift (.error .fuel)
  | _ + 1, [], _, _ => Wr.lift (.error .fuel)
  | fuel + 1, first :: rest, prefixLen, vi => do
    let common := commonEnd first rest prefixLen
    let hasTerminal := decide (first.key.length = common)
    let runs := childRuns common (childEntries first rest common)
    writeSymbols sym ((first.key.take common).drop prefixLen)
    (if hasTerminal then writeTerminal sym hasValues first vi else pure ())
    let vi := if hasTerminal then u32 (vi + 1) else vi
    if runs.isEmpty then pure vi
    else do
      bsWriteBits (sym.ctrlCodes .branch) sym.bitsPerSymbol
      bsWriteVarintU runs.length
      writeChildren sym (fun run => trieSubtreeSize sym hasValues fuel run common)
        (fun run => trieWrite sym hasValues fuel run common) runs vi

/-! ## Ranges of the sorted entries -/

/-- A range that `trie_write` is called on: sorted entries that share `prefixLen` bytes. -/
structure TrieRange (es : List Entry) (prefixLen : Nat) : Prop where
  ascending : StrictlyAscending es
  shared : ∃ p, p.length = prefixLen ∧ ∀ e ∈ es, p <+: e.key

theorem keyByte_eq {e : Entry} {i : Nat} (h : i < e.key.length) : keyByte e i = e.key[i] := by
  simp [keyByte, h]

theorem allHave_iff {first : Entry} {rest : List Entry} {common : Nat} :
    allHave first rest common = true ↔
      ∀ e ∈ first :: rest, common < e.key.length ∧ keyByte e common = keyByte first common := by
  simp [allHave]

/-- A shared prefix grows by the byte that all entries have behind it. -/
theorem prefix_succ_of_allHave {first : Entry} {rest : List Entry} {common : Nat}
    (hpre : ∀ e ∈ first :: rest, first.key.take common <+: e.key)
    (hall : allHave first rest common = true) :
    ∀ e ∈ first :: rest, first.key.take (common + 1) <+: e.key := by
  rw [allHave_iff] at hall
  intro e he
  obtain ⟨hlt, hbyte⟩ := hall e he
  obtain ⟨hfirst, _⟩ := hall first (by simp)
  rw [keyByte_eq hlt, keyByte_eq hfirst] at hbyte
  have htake : e.key.take common = first.key.take common := by
    have h := List.prefix_iff_eq_take.mp (hpre e he)
    rw [List.length_take, Nat.min_eq_left (by omega)] at h
    exact h.symm
  rw [List.take_succ_eq_append_getElem hfirst, ← hbyte, ← htake,
    ← List.take_succ_eq_append_getElem hlt]
  exact List.take_prefix _ _

/-- What the loop for the common prefix arrives at. -/
theorem commonLoop_spec {first : Entry} {rest : List Entry} {fuel common : Nat}
    (hpre : ∀ e ∈ first :: rest, first.key.take common <+: e.key)
    (hle : common ≤ first.key.length) (hfuel : first.key.length ≤ common + fuel) :
    common ≤ commonLoop first rest fuel common ∧
      commonLoop first rest fuel common ≤ first.key.length ∧
      (∀ e ∈ first :: rest, first.key.take (commonLoop first rest fuel common) <+: e.key) ∧
      allHave first rest (commonLoop first rest fuel common) = false := by
  induction fuel generalizing common with
  | zero =>
    refine ⟨le_rfl, hle, hpre, ?_⟩
    rw [commonLoop, Bool.eq_false_iff, ne_eq, allHave_iff]
    intro hall
    have := (hall first (by simp)).1
    omega
  | succ fuel ih =>
    rw [commonLoop]
    split_ifs with hall
    · have hlt := (allHave_iff.mp hall first (by simp)).1
      obtain ⟨h₁, h₂, h₃, h₄⟩ :=
        ih (prefix_succ_of_allHave hpre hall) (by omega) (by omega)
      exact ⟨by omega, h₂, h₃, h₄⟩
    · exact ⟨le_rfl, hle, hpre, by simpa using hall⟩

theorem TrieRange.prefix_take {first : Entry} {rest : List Entry} {prefixLen : Nat}
    (h : TrieRange (first :: rest) prefixLen) :
    prefixLen ≤ first.key.length ∧
      ∀ e ∈ first :: rest, first.key.take prefixLen <+: e.key := by
  obtain ⟨p, rfl, hp⟩ := h.shared
  have hfirst := hp first (by simp)
  refine ⟨hfirst.length_le, fun e he => ?_⟩
  rw [← List.prefix_iff_eq_take.mp hfirst]
  exact hp e he

theorem TrieRange.commonEnd_spec {first : Entry} {rest : List Entry} {prefixLen : Nat}
    (h : TrieRange (first :: rest) prefixLen) :
    prefixLen ≤ commonEnd first rest prefixLen ∧
      commonEnd first rest prefixLen ≤ first.key.length ∧
      (∀ e ∈ first :: rest, first.key.take (commonEnd first rest prefixLen) <+: e.key) ∧
      allHave first rest (commonEnd first rest prefixLen) = false :=
  commonLoop_spec h.prefix_take.2 h.prefix_take.1 (by omega)

/-- In a sorted range only the first key can be the shared prefix itself. -/
theorem TrieRange.lt_length {first e : Entry} {rest : List Entry} {prefixLen common : Nat}
    (h : TrieRange (first :: rest) prefixLen) (hle : common ≤ first.key.length)
    (hpre : ∀ e ∈ first :: rest, first.key.take common <+: e.key) (he : e ∈ rest) :
    common < e.key.length := by
  have hp := hpre e (by simp [he])
  have hlen := hp.length_le
  rw [List.length_take, Nat.min_eq_left hle] at hlen
  refine lt_of_le_of_ne hlen fun heq => ?_
  have hkey : first.key.take common = e.key :=
    hp.eq_of_length (by rw [List.length_take, Nat.min_eq_left hle, heq])
  have hlt : first.key < e.key := (List.pairwise_cons.mp h.ascending).1 e he
  rw [← hkey] at hlt
  exact absurd hlt (List.IsPrefix.le (List.take_prefix _ _))

theorem lt_of_append_left_lt {q as bs : List UInt8} (h : q ++ as < q ++ bs) : as < bs := by
  induction q with
  | nil => exact h
  | cons b q ih =>
    rcases List.cons_lt_cons_iff.mp h with hlt | ⟨_, hlt⟩
    · exact absurd hlt (UInt8.lt_irrefl b)
    · exact ih hlt

/-- Behind a shared prefix the keys of a sorted range are ordered by their next bytes. -/
theorem keyByte_le_of_lt {a b : Entry} {q : List UInt8} (ha : q <+: a.key) (hb : q <+: b.key)
    (hqa : q.length < a.key.length) (hqb : q.length < b.key.length) (h : a.key < b.key) :
    (keyByte a q.length).toNat ≤ (keyByte b q.length).toNat := by
  obtain ⟨as, has⟩ := ha
  obtain ⟨bs, hbs⟩ := hb
  have hlt : as < bs := by
    rw [← has, ← hbs] at h
    exact lt_of_append_left_lt h
  rw [← has, List.length_append] at hqa
  rw [← hbs, List.length_append] at hqb
  match as, bs, hlt with
  | x :: as, y :: bs, hlt =>
    have hx : keyByte a q.length = x := by simp [keyByte, ← has]
    have hy : keyByte b q.length = y := by simp [keyByte, ← hbs]
    rw [hx, hy]
    rcases List.cons_lt_cons_iff.mp hlt with hxy | ⟨rfl, _⟩
    · exact Nat.le_of_lt hxy
    · exact le_rfl
  | [], _, _ => simp at hqa
  | _ :: _, [], hlt => simp at hqb

theorem flatten_childRuns (common : Nat) (es : List Entry) : (childRuns common es).flatten = es := by
  fun_induction childRuns common es with
  | case1 => rfl
  | case2 e es ih =>
    rw [List.flatten_cons, ih, List.cons_append, List.takeWhile_append_dropWhile]

theorem of_mem_childRuns {common : Nat} {es run : List Entry} (h : run ∈ childRuns common es) :
    run ≠ [] ∧ ∃ b, ∀ e ∈ run, keyByte e common = b := by
  fun_induction childRuns common es with
  | case1 => simp at h
  | case2 e es ih =>
    rcases List.mem_cons.mp h with rfl | h
    · refine ⟨by simp, keyByte e common, fun x hx => ?_⟩
      rcases List.mem_cons.mp hx with rfl | hx
      · rfl
      · simpa using List.mem_takeWhile_imp hx
    · exact ih h

/-- Entries ordered by the byte at `common` fall into one run for each byte. -/
theorem childRuns_pairwise {common : Nat} {es : List Entry}
    (h : es.Pairwise fun a b => (keyByte a common).toNat ≤ (keyByte b common).toNat) :
    (childRuns common es).Pairwise fun r s =>
      ∀ a ∈ r, ∀ b ∈ s, keyByte a common ≠ keyByte b common := by
  fun_induction childRuns common es with
  | case1 => exact .nil
  | case2 e es ih =>
    obtain ⟨hhead, htail⟩ := List.pairwise_cons.mp h
    set same := fun x => keyByte x common == keyByte e common with hsame
    refine List.pairwise_cons.mpr ⟨fun s hs a ha b hb => ?_, ih (htail.sublist (List.dropWhile_sublist _))⟩
    have hae : keyByte a common = keyByte e common := by
      rcases List.mem_cons.mp ha with rfl | ha
      · rfl
      · simpa [hsame] using List.mem_takeWhile_imp ha
    have hbdrop : b ∈ es.dropWhile same := by
      rw [← flatten_childRuns common (es.dropWhile same)]
      exact List.mem_flatten_of_mem hs hb
    -- the first entry behind the run already has a larger byte
    obtain ⟨z, zs, hz⟩ := List.exists_cons_of_ne_nil (List.ne_nil_of_mem hbdrop)
    have hzne : keyByte z common ≠ keyByte e common := by
      have hnot := List.head?_dropWhile_not same es
      rw [hz] at hnot
      simpa [hsame] using hnot
    have hzle := hhead z ((List.dropWhile_sublist same).subset (by rw [hz]; simp))
    have hzb : (keyByte z common).toNat ≤ (keyByte b common).toNat := by
      have hsorted := htail.sublist (List.dropWhile_sublist same)
      rw [hz] at hsorted hbdrop
      rcases List.mem_cons.mp hbdrop with rfl | hb'
      · exact le_rfl
      · exact (List.pairwise_cons.mp hsorted).1 b hb'
    have hlt : (keyByte e common).toNat ≠ (keyByte z common).toNat := fun heq =>
      hzne (UInt8.toNat_inj.mp heq.symm)
    rw [hae]
    intro heq
    rw [heq] at hzle hlt
    omega

/-- What the children of a branch are. -/
theorem TrieRange.childRuns_spec {first : Entry} {rest : List Entry} {prefixLen common : Nat}
    (h : TrieRange (first :: rest) prefixLen) (hcommon : commonEnd first rest prefixLen = common) :
    (∀ run ∈ childRuns common (childEntries first rest common),
      run ≠ [] ∧ TrieRange run common ∧ run.length < (first :: rest).length ∧
        ∃ b, ∀ e ∈ run, (e.key.drop common).head? = some b) ∧
    (childRuns common (childEntries first rest common)).Pairwise (fun r s =>
      ∀ a ∈ r, ∀ b ∈ s, (a.key.drop common).head? ≠ (b.key.drop common).head?) ∧
    (first.key.length ≠ common →
      2 ≤ (childRuns common (childEntries first rest common)).length) := by
  obtain ⟨_, hle, hpre, hnot⟩ := h.commonEnd_spec
  rw [hcommon] at hle hpre hnot
  set q := first.key.take common with hq
  have hqlen : q.length = common := by rw [hq, List.length_take, Nat.min_eq_left hle]
  set es := childEntries first rest common with hes
  have hsub : es.Sublist (first :: rest) := by
    rw [hes, childEntries]
    split_ifs
    · exact List.sublist_cons_self _ _
    · exact .refl _
  have hlt : ∀ e ∈ es, common < e.key.length := by
    intro e he
    rw [hes, childEntries] at he
    split_ifs at he with hterm
    · exact h.lt_length hle hpre he
    · rcases List.mem_cons.mp he with rfl | he
      · omega
      · exact h.lt_length hle hpre he
  have hhead : ∀ e ∈ es, (e.key.drop common).head? = some (keyByte e common) := by
    intro e he
    rw [List.head?_drop, keyByte_eq (hlt e he), List.getElem?_eq_getElem]
  have hasc : StrictlyAscending es := h.ascending.sublist hsub
  have hbytes : es.Pairwise fun a b => (keyByte a common).toNat ≤ (keyByte b common).toNat := by
    refine hasc.imp_of_mem fun {a b} ha hb hab => ?_
    rw [← hqlen]
    exact keyByte_le_of_lt (hpre a (hsub.subset ha)) (hpre b (hsub.subset hb))
      (by rw [hqlen]; exact hlt a ha) (by rw [hqlen]; exact hlt b hb) hab
  have hmem : ∀ run ∈ childRuns common es, ∀ e ∈ run, e ∈ es := by
    intro run hrun e he
    rw [← flatten_childRuns common es]
    exact List.mem_flatten_of_mem hrun he
  have htwo : first.key.length ≠ common → 2 ≤ (childRuns common es).length := by
    intro hterm
    have hall : es = first :: rest := by rw [hes, childEntries, if_neg hterm]
    by_contra hfew
    -- a single run would have made the common prefix longer
    have hone : ∃ b, ∀ e ∈ es, keyByte e common = b := by
      match hruns : childRuns common es, hfew with
      | [], _ =>
        have hnil := flatten_childRuns common es
        rw [hruns, hall] at hnil
        simp at hnil
      | [run], _ =>
        have hflat := flatten_childRuns common es
        rw [hruns, List.flatten_singleton] at hflat
        rw [← hflat]
        exact (of_mem_childRuns (show run ∈ childRuns common es by rw [hruns]; simp)).2
      | _ :: _ :: _, hfew => simp at hfew
    obtain ⟨b, hb⟩ := hone
    rw [Bool.eq_false_iff, ne_eq, allHave_iff] at hnot
    refine hnot fun e he => ?_
    rw [← hall] at he
    exact ⟨hlt e he, by rw [hb e he, hb first (by rw [hall]; simp)]⟩
  refine ⟨fun run hrun => ?_, ?_, htwo⟩
  · obtain ⟨hne, b, hb⟩ := of_mem_childRuns hrun
    have hrunsub : run.Sublist es := by
      conv_rhs => rw [← flatten_childRuns common es]
      exact List.sublist_flatten_of_mem hrun
    refine ⟨hne, ⟨hasc.sublist hrunsub, q, hqlen, fun e he => hpre e (hsub.subset (hrunsub.subset he))⟩,
      ?_, b, fun e he => by rw [hhead e (hmem run hrun e he), hb e he]⟩
    have hrunlen := hrunsub.length_le
    by_cases hterm : first.key.length = common
    · have : es = rest := by rw [hes, childEntries, if_pos hterm]
      rw [this] at hrunlen
      simp only [List.length_cons]
      omega
    · have hlensub := hsub.length_le
      -- there is a second run, and it is not empty
      obtain ⟨before, after, hsplit⟩ := List.append_of_mem hrun
      have htotal := congrArg List.length (flatten_childRuns common es)
      rw [hsplit, List.flatten_append, List.flatten_cons, List.length_append,
        List.length_append] at htotal
      have hruns := htwo hterm
      rw [hsplit, List.length_append, List.length_cons] at hruns
      have hother : ∃ s ∈ before ++ after, s ∈ childRuns common es := by
        obtain ⟨s, hs⟩ := List.exists_mem_of_length_pos (l := before ++ after)
          (by rw [List.length_append]; omega)
        refine ⟨s, hs, ?_⟩
        rw [hsplit]
        simp only [List.mem_append, List.mem_cons] at hs ⊢
        tauto
      obtain ⟨s, hs, hsmem⟩ := hother
      have hspos := List.length_pos_of_ne_nil (of_mem_childRuns hsmem).1
      have hsle := (List.sublist_flatten_of_mem hs).length_le
      rw [List.flatten_append, List.length_append] at hsle
      omega
  · refine (childRuns_pairwise hbytes).imp_of_mem fun {r s} hr hs hrs a ha b hb => ?_
    rw [hhead a (hmem r hr a ha), hhead b (hmem s hs b hb)]
    simpa using hrs a ha b hb

end Triepack
