import Triepack.Json.Partial
import Triepack.Json.TextReads

/-!
# The text that is decoded

Whatever dictionary is decoded, what `tp_json_decode` writes is JSON, and `tp_json_decode_pretty`
writes the same tokens with other spaces between them.
-/

namespace Triepack

open JsonText Json

section Decoded

variable {pf : PrintFloat} {qs : FlatQsort} {buf : List UInt8} {es : List FlatEntry} {rootType : Nat}

theorem decodeImpl_of_extract (pf : PrintFloat) (indent : Option (List UInt8))
    (hextract : extractEntries qs buf = .ok (es, rootType)) :
    decodeImpl pf qs indent buf = if es.length = 0 then
        .ok (if rootType = jsonRootArray.toNat then [openBracket, closeBracket] else [openBrace, closeBrace])
      else emitJson pf buf indent es (pathSize + 1) [] 0 := by
  rw [decodeImpl, hextract, except_ok_bind]

theorem decodeImpl_of_emits (pf : PrintFloat) (indent : Option (List UInt8))
    (hextract : extractEntries qs buf = .ok (es, rootType)) (hne : es ≠ []) {t : Emitted}
    (ht : Emits es [] t) : decodeImpl pf qs indent buf = .ok (t.text pf buf indent 0) := by
  rw [decodeImpl_of_extract pf indent hextract, if_neg fun hzero => hne (List.length_eq_zero_iff.mp hzero)]
  exact ht.emitJson_eq (Nat.succ_pos _) (by simp)

/-- Of an accepted dictionary the same syntax tree is written with every indent, and it is one of
RFC 8259 when the indent consists of spaces and the dictionary holds neither infinities nor NaNs. -/
theorem decodeImpl_reads (hpf : pf.PrintsNumbers)
    (hfinite : ∀ es rootType, extractEntries qs buf = .ok (es, rootType) → ∀ e ∈ es, e.val.Finite)
    {indent₀ : Option (List UInt8)} {out : List UInt8} (hout : decodeImpl pf qs indent₀ buf = .ok out) :
    ∃ w : Tree, ∀ indent, ∃ out', decodeImpl pf qs indent buf = .ok out' ∧
      ((∀ ind ∈ indent, IsSpaces ind) → Reads rfc8259 (.value w) out' []) := by
  obtain ⟨⟨es, rootType⟩, hextract, -⟩ := except_bind_eq_ok hout
  have hnone : IsSpaces [] := by simp [IsSpaces]
  rw [decodeImpl_of_extract pf indent₀ hextract] at hout
  by_cases hzero : es.length = 0
  · refine ⟨if rootType = jsonRootArray.toNat then .arr [] else .obj [], fun indent =>
      ⟨_, (decodeImpl_of_extract pf indent hextract).trans (if_pos hzero), fun _ => ?_⟩⟩
    split_ifs
    · exact .emptyArr hnone []
    · exact .emptyObj hnone []
  · rw [if_neg hzero] at hout
    obtain ⟨t, ht, rfl⟩ := emitJson_eq_ok_iff.mp hout
    have hprinted : ∀ e ∈ es, ∃ w, Printed pf (e.val.map (Slice.read buf)) w := by
      intro e he
      refine exists_printed hpf ?_
      have hval := hfinite es rootType hextract e he
      cases hkind : e.val <;> simp_all [Value.map, Value.Finite]
    obtain ⟨w, hspells, -⟩ := ht.exists_spells hprinted
    have hne : es ≠ [] := fun hnil => hzero (by rw [hnil]; rfl)
    refine ⟨w, fun indent => ⟨_, decodeImpl_of_emits pf indent hextract hne ht, fun hindent => ?_⟩⟩
    have hw := hspells indent hindent 0 []
    rwa [List.append_nil] at hw

end Decoded

/-- `{"a":0.0}`. -/
def zeroText : List UInt8 := [0x7B, 0x22, 0x61, 0x22, 0x3A, 0x30, 0x2E, 0x30, 0x7D]

/-- A dictionary with the float zero, which is printed as `0`. -/
theorem decodeImpl_reads_zero : ∃ buf,
    jsonEncode (fun _ => 0) (.keepingLast ⟨[], .null⟩) zeroText = .ok buf ∧
      ∃ w : Tree, ∀ indent, ∃ out',
        decodeImpl ⟨fun _ => [0x30], fun _ => [0x30]⟩ .byInsertion indent buf = .ok out' ∧
          ((∀ ind ∈ indent, IsSpaces ind) → Reads rfc8259 (.value w) out' []) := by
  have hrun : (match jsonEncode (fun _ => 0) (.keepingLast ⟨[], .null⟩) zeroText with
    | .ok buf => match extractEntries .byInsertion buf with
      | .ok (es, _) => decide (es = [⟨[0x61], .float64 0⟩]) &&
          decide (decodeImpl ⟨fun _ => [0x30], fun _ => [0x30]⟩ .byInsertion none buf =
            .ok [0x7B, 0x22, 0x61, 0x22, 0x3A, 0x30, 0x7D])
      | .error _ => false
    | .error _ => false) = true := by decide +kernel
  rcases hencode : jsonEncode (fun _ => 0) (.keepingLast ⟨[], .null⟩) zeroText with e | buf
  · simp [hencode] at hrun
  rcases hextract : extractEntries .byInsertion buf with e | ⟨es, rootType⟩
  · simp [hencode, hextract] at hrun
  simp only [hencode, hextract, Bool.and_eq_true, decide_eq_true_eq] at hrun
  have hzero : ∃ n, rfc8259.number n ∧ n.text = [0x30] :=
    ⟨⟨false, [0x30], none, none⟩, ⟨⟨⟨by simp, by simp [isDigit]⟩, by simp, by simp⟩, by decide⟩, rfl⟩
  refine ⟨buf, rfl, decodeImpl_reads ⟨fun _ _ => hzero, fun _ _ => hzero⟩ (fun es' rootType' h e he => ?_) hrun.2⟩
  obtain ⟨rfl, rfl⟩ := Prod.mk.inj (Except.ok.inj (hextract.symm.trans h))
  rw [hrun.1] at he
  obtain rfl := List.mem_singleton.mp he
  exact show IsFinite64 0 by decide

end Triepack
