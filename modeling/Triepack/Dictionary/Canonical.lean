import Triepack.Dictionary.RoundTrip

/-!
# Canonical bytes

A build sorts and compacts the entries where they are, and later additions go behind them. What
a build writes depends on the map from keys to values alone: sorting brings every order of the
same entries to the same list.
-/

namespace Triepack

/-- The calls that change an encoder. A build may find `qsort` to order its elements differently
each time. -/
inductive EncoderCall where
  | add (a : Addition)
  | build (q : Qsort)
  | reset

def EncoderCall.run (enc : Encoder) : EncoderCall → Encoder
  | .add a => encoderAddN enc a.1 a.2
  | .build q => (encoderBuild q enc).2
  | .reset => encoderReset enc

/-- The encoder after a history of calls. -/
def runCalls (enc : Encoder) (calls : List EncoderCall) : Encoder :=
  calls.foldl EncoderCall.run enc

/-- The additions since the last reset. -/
def liveAdditions (calls : List EncoderCall) : List Addition :=
  calls.foldl (fun live call =>
    match call with
    | .add a => live ++ [a]
    | .build _ => live
    | .reset => []) []

/-- The history leaves one value for each key: no key was added again since the last reset. -/
def KeysDistinct (calls : List EncoderCall) : Prop := ((liveAdditions calls).map Prod.fst).Nodup

/-- The histories leave the same map from keys to values. -/
def SameMap (calls calls' : List EncoderCall) : Prop :=
  ∀ e, e ∈ (liveAdditions calls).map Addition.entry ↔ e ∈ (liveAdditions calls').map Addition.entry

section Runs

variable {enc : Encoder} {calls : List EncoderCall}

theorem runCalls_append (enc : Encoder) (calls : List EncoderCall) (call : EncoderCall) :
    runCalls enc (calls ++ [call]) = EncoderCall.run (runCalls enc calls) call := by
  rw [runCalls, List.foldl_append]
  rfl

theorem liveAdditions_append (calls : List EncoderCall) (call : EncoderCall) :
    liveAdditions (calls ++ [call]) =
      match call with
      | .add a => liveAdditions calls ++ [a]
      | .build _ => liveAdditions calls
      | .reset => [] := by
  rw [liveAdditions, List.foldl_append]
  rfl

theorem runCalls_opts (enc : Encoder) (calls : List EncoderCall) :
    (runCalls enc calls).opts = enc.opts := by
  induction calls using List.reverseRecOn with
  | nil => rfl
  | append_singleton calls call ih =>
    rw [runCalls_append, ← ih]
    cases call <;> rfl

theorem map_key_entry (adds : List Addition) :
    (adds.map Addition.entry).map Entry.key = adds.map Prod.fst := by
  simp [Addition.entry]

/-- The encoder holds the additions since the last reset, in some order. -/
theorem runCalls_entries (hempty : enc.entries = []) (hdistinct : KeysDistinct calls)
    (hlt : (liveAdditions calls).length < 2 ^ 32) :
    (runCalls enc calls).entries.Perm ((liveAdditions calls).map Addition.entry) := by
  induction calls using List.reverseRecOn with
  | nil => simp [runCalls, liveAdditions, hempty]
  | append_singleton calls call ih =>
    rw [KeysDistinct, liveAdditions_append] at hdistinct
    rw [liveAdditions_append] at hlt ⊢
    rw [runCalls_append]
    cases call with
    | add a =>
      simp only [List.length_append, List.length_singleton, List.map_append] at hdistinct hlt ⊢
      have hperm := ih (List.Nodup.of_append_left hdistinct) (by omega)
      have hlen := hperm.length_eq
      rw [List.length_map] at hlen
      rw [EncoderCall.run, encoderAddN]
      simp only
      rw [u32_of_lt (by omega), List.take_of_length_le (by simp)]
      exact hperm.append_right _
    | build q =>
      have hperm := ih hdistinct hlt
      refine List.Perm.trans (sortedEntries_perm q ?_) hperm
      rw [(hperm.map Entry.key).nodup_iff, map_key_entry]
      exact hdistinct
    | reset => exact .refl _

end Runs

/-- The order of the entries and that of `qsort` leave no trace in the sorted entries. -/
theorem sortedEntries_eq_of_perm {q q' : Qsort} {es es' : List Entry} (h : es.Perm es')
    (hnodup : (es.map Entry.key).Nodup) : sortedEntries q es = sortedEntries q' es' := by
  have hnodup' : (es'.map Entry.key).Nodup := (h.map Entry.key).nodup_iff.mp hnodup
  have hperm : (sortedEntries q es).Perm (sortedEntries q' es') :=
    (sortedEntries_perm q hnodup).trans (h.trans (sortedEntries_perm q' hnodup').symm)
  refine List.Perm.eq_of_pairwise (fun a b _ _ hab hba => ?_) (strictlyAscending_sortedEntries q es)
    (strictlyAscending_sortedEntries q' es') hperm
  exact absurd (List.lt_trans hab hba) (List.lt_irrefl _)

/-- Encoders made with the same options whose histories leave the same map build the same: the
same bytes, or the same error. -/
theorem build_canonical {opts : EncoderOptions} {enc : Encoder}
    (hcreate : encoderCreateEx opts = .ok enc) {calls calls' : List EncoderCall}
    (hdistinct : KeysDistinct calls) (hdistinct' : KeysDistinct calls')
    (hlt : (liveAdditions calls).length < 2 ^ 32) (hlt' : (liveAdditions calls').length < 2 ^ 32)
    (hsame : SameMap calls calls') (q q' : Qsort) :
    (encoderBuild q (runCalls enc calls)).1 = (encoderBuild q' (runCalls enc calls')).1 := by
  have hempty : enc.entries = [] := by
    rw [encoderCreateEx] at hcreate
    split_ifs at hcreate
    obtain rfl := Except.ok.inj hcreate
    rfl
  have hperm := runCalls_entries hempty hdistinct hlt
  have hperm' := runCalls_entries hempty hdistinct' hlt'
  rw [KeysDistinct, ← map_key_entry] at hdistinct hdistinct'
  have hlive : ((liveAdditions calls).map Addition.entry).Perm
      ((liveAdditions calls').map Addition.entry) :=
    (List.perm_ext_iff_of_nodup (List.Nodup.of_map _ hdistinct)
      (List.Nodup.of_map _ hdistinct')).mpr hsame
  have hsorted : sortedEntries q (runCalls enc calls).entries =
      sortedEntries q' (runCalls enc calls').entries :=
    sortedEntries_eq_of_perm (hperm.trans (hlive.trans hperm'.symm))
      ((hperm.map Entry.key).nodup_iff.mpr hdistinct)
  simp only [encoderBuild, runCalls_opts, hsorted]

/-- Two additions in either order, with a build and a reset in between. -/
theorem build_canonical_two :
    (encoderBuild (.keepingLast ⟨[], .null⟩) (runCalls freshEncoder
      [.add ([97], none), .build (.keepingLast ⟨[], .null⟩), .add ([98], some (.uint 7))])).1 =
    (encoderBuild (.keepingLast ⟨[], .null⟩) (runCalls freshEncoder
      [.add ([98], none), .reset, .add ([98], some (.uint 7)), .add ([97], none)])).1 :=
  build_canonical encoderCreate_eq (by simp [KeysDistinct, liveAdditions])
    (by simp [KeysDistinct, liveAdditions]) (by simp [liveAdditions]) (by simp [liveAdditions])
    (by simp [SameMap, liveAdditions, or_comm]) _ _

/-- Not every build returns bytes: a value of the kind that is not implemented is refused. -/
theorem build_not_ok : ∃ (q : Qsort) (calls : List EncoderCall), KeysDistinct calls ∧
    ∀ buf, (encoderBuild q (runCalls freshEncoder calls)).1 ≠ .ok buf := by
  refine ⟨.keepingLast ⟨[], .null⟩, [.add ([97], some .array)], by simp [KeysDistinct, liveAdditions],
    fun buf hbuild => ?_⟩
  have herr : (match (encoderBuild (.keepingLast ⟨[], .null⟩)
      (runCalls freshEncoder [.add ([97], some .array)])).1 with
    | .ok _ => true
    | .error _ => false) = false := by decide +kernel
  rw [hbuild] at herr
  simp at herr

end Triepack
