import Triepack.Core.BuildSucceeds

/-!
# A row of values read back

The values of a store stand one after another, each aligned by what stands before it. The writer
and the reader are followed side by side: what each value occupies depends on the position that
the ones before it left.
-/

namespace Triepack

open BitString

/-- Values encoded one after another, with the writer's position after each. -/
def encodeValues : List (Value (List UInt8)) → Wr (List Nat)
  | [] => pure []
  | v :: vs => do
    valueEncode v
    let pos ← bsWriterPosition
    let rest ← encodeValues vs
    return pos :: rest

/-- `n` values decoded one after another, with the reader's position after each. -/
def decodeValues : Nat → Rd (List (Value Slice × Nat))
  | 0 => pure []
  | n + 1 => do
    let v ← valueDecode
    let pos ← bsReaderPosition
    let rest ← decodeValues n
    return (v, pos) :: rest

/-- Where the values of a row that starts at bit `p` end. -/
def valueEnds (p : Nat) : List (Value (List UInt8)) → List Nat
  | [] => []
  | v :: vs => (p + (valueBits p v).length) :: valueEnds (p + (valueBits p v).length) vs

theorem encodeValues_appends (p : Nat) {vs : List (Value (List UInt8))}
    (hvs : ∀ v ∈ vs, v.Encodable) :
    Wr.Appends p (encodeValues vs) (valuesBits p vs) (valueEnds p vs) := by
  induction vs generalizing p with
  | nil => exact .pure p []
  | cons v vs ih =>
    refine (valueEncode_appends p (hvs v (by simp))).bind (.position_bind ?_)
    exact (ih _ fun x hx => hvs x (by simp [hx])).map _

theorem decodeValues_within {r : Reader} (hr : r.Within) {vs : List (Value (List UInt8))}
    (hvs : ∀ v ∈ vs, v.Encodable) (h : At r.bits r.pos (valuesBits r.pos vs)) :
    ∃ out, decodeValues vs.length r =
        (.ok out, { r with pos := r.pos + (valuesBits r.pos vs).length }) ∧
      out.map (fun x => x.1.map (Slice.read r.buf)) = vs ∧
      out.map Prod.snd = valueEnds r.pos vs := by
  induction vs generalizing r with
  | nil => exact ⟨[], rfl, rfl, rfl⟩
  | cons val vs ih =>
    obtain ⟨v, hdec, hread⟩ := valueDecode_within hr (hvs val (by simp)) h.left
    obtain ⟨out, hout, hvals, hends⟩ := ih (hr.pass h.left) (fun x hx => hvs x (by simp [hx])) h.right
    refine ⟨(v, r.pos + (valueBits r.pos val).length) :: out, ?_, ?_, ?_⟩
    · rw [List.length_cons, decodeValues, Op.bind_ok hdec]
      have hpos : bsReaderPosition { r with pos := r.pos + (valueBits r.pos val).length } =
          (.ok (r.pos + (valueBits r.pos val).length),
            { r with pos := r.pos + (valueBits r.pos val).length }) := rfl
      rw [Op.bind_ok hpos, Op.bind_ok hout, valuesBits, List.length_append, ← Nat.add_assoc]
      rfl
    · rw [List.map_cons, hread, hvals]
    · rw [List.map_cons, hends, valueEnds]

/-- Supported values that are written from any position on are read back from there, and the
reader is where the writer was after each of them. -/
theorem values_round_trip {vs : List (Value (List UInt8))} (hvs : ∀ v ∈ vs, v.Supported)
    {w : Writer} (hw : w.Valid) :
    ∃ ends w', encodeValues vs w = .ok (ends, w') ∧ w'.Valid ∧
      ∀ r : Reader, r.Over w' → r.pos = w.pos →
        ∃ out, decodeValues vs.length r = (.ok out, { r with pos := w'.pos }) ∧
          out.map (fun x => x.1.map (Slice.read r.buf)) = vs ∧ out.map Prod.snd = ends := by
  have henc : ∀ v ∈ vs, v.Encodable := fun v hv => (hvs v hv).encodable
  obtain ⟨w', hwrite, hvalid, hbits⟩ := encodeValues_appends w.pos henc w hw rfl
  refine ⟨_, w', hwrite, hvalid, fun r hr hpos => ?_⟩
  have hat := hr.at_of_bits hbits
  rw [hw.length_bits, ← hpos] at hat
  obtain ⟨out, hread, hvals, hends⟩ := decodeValues_within hr.within henc hat
  have hend : r.pos + (valuesBits r.pos vs).length = w'.pos := by
    rw [← hvalid.length_bits, hbits, List.length_append, hw.length_bits, hpos]
  rw [hend] at hread
  exact ⟨out, hread, hvals, by rw [hends, hpos]⟩

/-- The least integer, a string and a float behind three bits. -/
theorem values_round_trip_three :
    ∃ ends w', encodeValues [.int Int64.minValue, .string [104, 105], .float32 0x7fc00001]
        ⟨[0xA0], 0, 3⟩ = .ok (ends, w') ∧ w'.Valid ∧
      ∀ r : Reader, r.Over w' → r.pos = (⟨[0xA0], 0, 3⟩ : Writer).pos →
        ∃ out, decodeValues 3 r = (.ok out, { r with pos := w'.pos }) ∧
          out.map (fun x => x.1.map (Slice.read r.buf)) =
            [.int Int64.minValue, .string [104, 105], .float32 0x7fc00001] ∧
          out.map Prod.snd = ends :=
  @values_round_trip [.int Int64.minValue, .string [104, 105], .float32 0x7fc00001]
    (by decide) ⟨[0xA0], 0, 3⟩ ⟨by decide, by decide, by decide⟩

end Triepack
