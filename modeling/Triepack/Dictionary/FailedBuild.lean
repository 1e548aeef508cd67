import Triepack.Dictionary.Canonical

/-!
# Builds that fail

A build sorts the entries before it can fail. Without repeated keys that is all it does to them,
and no call can tell one order from another: an encoder on which a build has failed and one on
which none was attempted answer every later call alike.
-/

namespace Triepack

/-- Encoders with the same options and the same map from keys to values. -/
structure Encoder.Similar (enc enc' : Encoder) : Prop where
  opts_eq : enc.opts = enc'.opts
  perm : enc.entries.Perm enc'.entries
  nodup : (enc.entries.map Entry.key).Nodup

/-- What the caller sees of a call: the result of a build, and the number of entries behind it. -/
structure Observation where
  built : Option (Except Stop (List UInt8))
  count : Nat

/-- The result of a call; additions and resets return `TP_OK`. -/
def EncoderCall.built (enc : Encoder) : EncoderCall → Option (Except Stop (List UInt8))
  | .build q => some (encoderBuild q enc).1
  | _ => none

/-- The observations of a sequence of calls. -/
def observations (enc : Encoder) : List EncoderCall → List Observation
  | [] => []
  | call :: calls =>
    ⟨call.built enc, encoderCount (call.run enc)⟩ :: observations (call.run enc) calls

/-- No call adds a key that is there already. -/
def AddsAbsent (enc : Encoder) : List EncoderCall → Prop
  | [] => True
  | call :: calls =>
    (∀ a, call = .add a → a.1 ∉ enc.entries.map Entry.key) ∧ AddsAbsent (call.run enc) calls

/-- The same call; `qsort` may order its elements differently. -/
inductive EncoderCall.Same : EncoderCall → EncoderCall → Prop
  | add (a : Addition) : Same (.add a) (.add a)
  | build (q q' : Qsort) : Same (.build q) (.build q')
  | reset : Same .reset .reset

theorem Encoder.Similar.build_eq {enc enc' : Encoder} (h : enc.Similar enc') (q q' : Qsort) :
    (encoderBuild q enc).1 = (encoderBuild q' enc').1 := by
  have hsorted : sortedEntries q enc.entries = sortedEntries q' enc'.entries :=
    sortedEntries_eq_of_perm h.perm h.nodup
  simp only [encoderBuild, h.opts_eq, hsorted]

/-- A build leaves the map as it was. -/
theorem similar_of_build {enc : Encoder} (h : (enc.entries.map Entry.key).Nodup) (q : Qsort) :
    Encoder.Similar (encoderBuild q enc).2 enc := by
  have hperm := sortedEntries_perm q h
  exact ⟨rfl, hperm, (hperm.map Entry.key).nodup_iff.mpr h⟩

theorem Encoder.Similar.add {enc enc' : Encoder} (h : enc.Similar enc') {a : Addition}
    (habsent : a.1 ∉ enc'.entries.map Entry.key) :
    Encoder.Similar (encoderAddN enc a.1 a.2) (encoderAddN enc' a.1 a.2) := by
  have hlt := enc.count_lt
  have hlen := h.perm.length_eq
  rcases Nat.lt_or_ge (enc.entries.length + 1) (2 ^ 32) with hfits | hwraps
  · refine ⟨h.opts_eq, ?_, ?_⟩
    all_goals
      simp only [encoderAddN]
      rw [u32_of_lt hfits, List.take_of_length_le (by simp)]
    · rw [← hlen, u32_of_lt hfits, List.take_of_length_le (by simp [hlen])]
      exact h.perm.append_right _
    · rw [List.map_append, List.map_singleton]
      refine List.nodup_append.mpr ⟨h.nodup, by simp, fun k hk k' hk' => ?_⟩
      obtain rfl : k' = a.1 := by simpa using hk'
      rintro rfl
      exact habsent ((h.perm.map Entry.key).mem_iff.mp hk)
  · -- the count wraps to zero and every entry is lost
    have hzero : u32 (enc.entries.length + 1) = 0 := by rw [u32]; omega
    refine ⟨h.opts_eq, ?_, ?_⟩
    all_goals
      simp only [encoderAddN, hzero, List.take_zero]
    · rw [← hlen, hzero, List.take_zero]
    · exact .nil

/-- Similar encoders answer a call alike and stay similar. -/
theorem Encoder.Similar.step {enc enc' : Encoder} (h : enc.Similar enc') {call call' : EncoderCall}
    (hsame : call.Same call') (habsent : ∀ a, call' = .add a → a.1 ∉ enc'.entries.map Entry.key) :
    call.built enc = call'.built enc' ∧ (call.run enc).Similar (call'.run enc') := by
  cases hsame with
  | add a => exact ⟨rfl, h.add (habsent a rfl)⟩
  | build q q' =>
    have hnodup' : (enc'.entries.map Entry.key).Nodup := (h.perm.map Entry.key).nodup_iff.mp h.nodup
    have hleft := similar_of_build h.nodup q
    have hright := similar_of_build hnodup' q'
    exact ⟨congrArg some (h.build_eq q q'), hleft.opts_eq.trans (h.opts_eq.trans hright.opts_eq.symm),
      hleft.perm.trans (h.perm.trans hright.perm.symm), hleft.nodup⟩
  | reset => exact ⟨rfl, h.opts_eq, .refl _, .nil⟩

/-- Similar encoders answer every sequence of calls alike. -/
theorem Encoder.Similar.observations_eq {enc enc' : Encoder} (h : enc.Similar enc')
    {calls calls' : List EncoderCall} (hsame : List.Forall₂ EncoderCall.Same calls calls')
    (habsent : AddsAbsent enc' calls') : observations enc calls = observations enc' calls' := by
  induction hsame generalizing enc enc' with
  | nil => rfl
  | cons hcall _ ih =>
    obtain ⟨hbuilt, hnext⟩ := h.step hcall habsent.1
    rw [observations, observations, hbuilt, encoderCount, encoderCount, hnext.perm.length_eq,
      ih hnext habsent.2]

/-- After a build that failed the encoder holds the map it held before, and later calls show what
they show when the build was never attempted. -/
theorem failedBuild_unobservable {enc : Encoder} (hnodup : (enc.entries.map Entry.key).Nodup)
    {q : Qsort} {e : Stop} (hfail : (encoderBuild q enc).1 = .error e) :
    (∀ entry, entry ∈ (encoderBuild q enc).2.entries ↔ entry ∈ enc.entries) ∧
      (∀ q', (encoderBuild q' (encoderBuild q enc).2).1 = .error e) ∧
      ∀ calls calls' : List EncoderCall, List.Forall₂ EncoderCall.Same calls calls' →
        AddsAbsent enc calls' →
        observations (encoderBuild q enc).2 calls = observations enc calls' := by
  have hsimilar := similar_of_build hnodup q
  refine ⟨fun entry => hsimilar.perm.mem_iff, fun q' => ?_, fun calls calls' hsame habsent => ?_⟩
  · rw [hsimilar.build_eq q' q, hfail]
  · exact hsimilar.observations_eq hsame habsent

/-- The encoder of the keys "b" and "a", one of them with an array. -/
def arrayEncoder : Encoder where
  opts := encoderDefaults
  entries := [⟨[98], .array⟩, ⟨[97], .null⟩]
  count_lt := by decide

theorem failedBuild_unobservable_array : ∃ e,
    (∀ entry, entry ∈ (encoderBuild (.keepingLast ⟨[], .null⟩) arrayEncoder).2.entries ↔
        entry ∈ arrayEncoder.entries) ∧
      (∀ q', (encoderBuild q' (encoderBuild (.keepingLast ⟨[], .null⟩) arrayEncoder).2).1 = .error e) ∧
      ∀ calls calls' : List EncoderCall, List.Forall₂ EncoderCall.Same calls calls' →
        AddsAbsent arrayEncoder calls' →
        observations (encoderBuild (.keepingLast ⟨[], .null⟩) arrayEncoder).2 calls =
          observations arrayEncoder calls' := by
  have hfail : ∃ e, (encoderBuild (.keepingLast ⟨[], .null⟩) arrayEncoder).1 = .error e := by
    have herr : (encoderBuild (.keepingLast ⟨[], .null⟩) arrayEncoder).1.toOption = none := by
      decide +kernel
    rcases hres : (encoderBuild (.keepingLast ⟨[], .null⟩) arrayEncoder).1 with e | buf
    · exact ⟨e, rfl⟩
    · simp [hres, Except.toOption] at herr
  obtain ⟨e, he⟩ := hfail
  exact ⟨e, failedBuild_unobservable (by decide) he⟩

end Triepack
