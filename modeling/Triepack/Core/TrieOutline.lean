import Triepack.Core.TrieWrite

/-!
# What the trie depends on

The trie of some entries depends on their keys and on which of the values are null.
-/

namespace Triepack

/-- The entry with its key and whether it has a value. -/
def Entry.outline (e : Entry) : Entry := ⟨e.key, if e.val.tag = 0 then .null else .bool true⟩

@[simp] theorem Entry.key_outline (e : Entry) : e.outline.key = e.key := rfl

@[simp] theorem Entry.tag_outline (e : Entry) : e.outline.val.tag = 0 ↔ e.val.tag = 0 := by
  rw [Entry.outline]
  split_ifs with h
  · exact iff_of_true rfl h
  · exact iff_of_false Nat.one_ne_zero h

section Ranges

variable {first : Entry} {rest es : List Entry} {common : Nat}

theorem allHave_outline : allHave first.outline (rest.map Entry.outline) common = allHave first rest common := by
  rw [allHave, allHave, ← List.map_cons, List.all_map]
  rfl

theorem commonEnd_outline (prefixLen : Nat) :
    commonEnd first.outline (rest.map Entry.outline) prefixLen = commonEnd first rest prefixLen := by
  have hloop : ∀ fuel common, commonLoop first.outline (rest.map Entry.outline) fuel common =
      commonLoop first rest fuel common := by
    intro fuel
    induction fuel with
    | zero => exact fun _ => rfl
    | succ fuel ih =>
      intro common
      rw [commonLoop, commonLoop, allHave_outline, ih]
  exact hloop _ _

theorem childRuns_outline :
    childRuns common (es.map Entry.outline) = (childRuns common es).map (List.map Entry.outline) := by
  fun_induction childRuns common es with
  | case1 => rw [List.map_nil, childRuns, List.map_nil]
  | case2 e es ih =>
    have hbyte : ((fun x => keyByte x common == keyByte e.outline common) ∘ Entry.outline) =
        fun x => keyByte x common == keyByte e common := rfl
    rw [List.map_cons, childRuns, List.takeWhile_map, List.dropWhile_map, hbyte, ih]
    rfl

theorem childEntries_outline : childEntries first.outline (rest.map Entry.outline) common =
    (childEntries first rest common).map Entry.outline := by
  rw [childEntries, childEntries, Entry.key_outline]
  split_ifs <;> rfl

end Ranges

section Trie

variable {sym : SymbolInfo} {hasValues : Bool}

theorem childrenSize_outline {bps : Nat} {child : List Entry → Nat → Except Stop (Nat × Nat)}
    (h : ∀ run vi, child (run.map Entry.outline) vi = child run vi) (runs : List (List Entry)) (vi : Nat) :
    childrenSize bps child (runs.map (List.map Entry.outline)) vi = childrenSize bps child runs vi := by
  induction runs generalizing vi with
  | nil => rfl
  | cons run runs ih => simp only [List.map_cons, childrenSize, h, ih, List.isEmpty_map]

theorem trieSubtreeSize_outline (fuel : Nat) (es : List Entry) (prefixLen vi : Nat) :
    trieSubtreeSize sym hasValues fuel (es.map Entry.outline) prefixLen vi =
      trieSubtreeSize sym hasValues fuel es prefixLen vi := by
  induction fuel generalizing es prefixLen vi with
  | zero => rfl
  | succ fuel ih =>
    cases es with
    | nil => rfl
    | cons first rest =>
      have hkids := fun common => @childrenSize_outline sym.bitsPerSymbol
        (fun run => trieSubtreeSize sym hasValues fuel run common) fun run vi => ih run common vi
      simp only [List.map_cons, trieSubtreeSize, commonEnd_outline, childEntries_outline, childRuns_outline,
        Entry.key_outline, ne_eq, Entry.tag_outline, List.isEmpty_map, List.length_map, hkids]

theorem writeTerminal_outline (e : Entry) (vi : Nat) :
    writeTerminal sym hasValues e.outline vi = writeTerminal sym hasValues e vi := by
  simp only [writeTerminal, ne_eq, Entry.tag_outline]

theorem writeChildren_outline {size : List Entry → Nat → Except Stop (Nat × Nat)}
    {child : List Entry → Nat → Wr Nat} (hsize : ∀ run vi, size (run.map Entry.outline) vi = size run vi)
    (hchild : ∀ run vi, child (run.map Entry.outline) vi = child run vi) (runs : List (List Entry)) (vi : Nat) :
    writeChildren sym size child (runs.map (List.map Entry.outline)) vi =
      writeChildren sym size child runs vi := by
  induction runs generalizing vi with
  | nil => rfl
  | cons run runs ih => simp only [List.map_cons, writeChildren, hsize, hchild, ih, List.isEmpty_map]

theorem trieWrite_outline (fuel : Nat) (es : List Entry) (prefixLen vi : Nat) :
    trieWrite sym hasValues fuel (es.map Entry.outline) prefixLen vi =
      trieWrite sym hasValues fuel es prefixLen vi := by
  induction fuel generalizing es prefixLen vi with
  | zero => rfl
  | succ fuel ih =>
    cases es with
    | nil => rfl
    | cons first rest =>
      have hkids := fun common => @writeChildren_outline sym
        (fun run => trieSubtreeSize sym hasValues fuel run common)
        (fun run => trieWrite sym hasValues fuel run common)
        (fun run vi => trieSubtreeSize_outline fuel run common vi) fun run vi => ih run common vi
      simp only [List.map_cons, trieWrite, commonEnd_outline, childEntries_outline, childRuns_outline,
        Entry.key_outline, writeTerminal_outline, List.isEmpty_map, List.length_map, hkids]

end Trie

/-- Entries with the same keys and the same null values have the same trie. -/
theorem trieWrite_congr {es es' : List Entry} (h : es.map Entry.outline = es'.map Entry.outline)
    (sym : SymbolInfo) (hasValues : Bool) (fuel prefixLen vi : Nat) :
    trieWrite sym hasValues fuel es prefixLen vi = trieWrite sym hasValues fuel es' prefixLen vi := by
  rw [← trieWrite_outline fuel es, h, trieWrite_outline]

end Triepack
