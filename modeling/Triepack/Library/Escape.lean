import Mathlib.Data.List.Basic
import Mathlib.Tactic.Common

/-!
# Escaped runs

A run is a row of symbols that ends before a symbol that stops it. A symbol that cannot stand for
itself is written as another one behind the escape symbol. `split` takes the longest run off the
front of a row, so a run is determined by the row it is read from.
-/

namespace Escape

/-- Which symbol escapes, which symbols end a run, and what a symbol behind the escape stands for. -/
structure Scheme (α : Type*) where
  esc : α
  stop : α → Bool
  meaning : α → Option α

namespace Scheme

variable {α : Type*} {S : Scheme α}

/-- A run as it is written, and the symbols it stands for. -/
inductive Run (S : Scheme α) : List α → List α → Prop
  | nil : Run S [] []
  | plain {c : α} {raw s : List α} (hesc : c ≠ S.esc) (hstop : S.stop c = false) (h : Run S raw s) :
    Run S (c :: raw) (c :: s)
  | escaped {e c : α} {raw s : List α} (hmeaning : S.meaning e = some c) (h : Run S raw s) :
    Run S (S.esc :: e :: raw) (c :: s)

/-- No symbol of a run stands at the front of the row. -/
inductive Blocked (S : Scheme α) : List α → Prop
  | nil : Blocked S []
  | stop {c : α} {rest : List α} (hesc : c ≠ S.esc) (hstop : S.stop c = true) : Blocked S (c :: rest)
  | cut : Blocked S [S.esc]
  | unknown {e : α} {rest : List α} (hmeaning : S.meaning e = none) : Blocked S (S.esc :: e :: rest)

theorem Run.append {raw raw' s s' : List α} (h : Run S raw s) (h' : Run S raw' s') :
    Run S (raw ++ raw') (s ++ s') := by
  induction h with
  | nil => exact h'
  | plain hesc hstop _ ih => exact .plain hesc hstop ih
  | escaped hmeaning _ ih => exact .escaped hmeaning ih

/-- Symbols that all stand for themselves are a run. -/
theorem Run.of_plain {s : List α} (h : ∀ c ∈ s, c ≠ S.esc ∧ S.stop c = false) : Run S s s := by
  induction s with
  | nil => exact .nil
  | cons c s ih =>
    obtain ⟨⟨hesc, hstop⟩, hs⟩ := List.forall_mem_cons.mp h
    exact .plain hesc hstop (ih hs)

/-- A run is as long as what it stands for, or longer. -/
theorem Run.length_le {raw s : List α} (h : Run S raw s) : s.length ≤ raw.length := by
  induction h with
  | nil => exact Nat.le_refl _
  | plain _ _ _ ih => exact Nat.succ_le_succ ih
  | escaped _ _ ih => exact Nat.succ_le_succ (Nat.le_succ_of_le ih)

theorem Run.eq_nil_iff {raw s : List α} (h : Run S raw s) : raw = [] ↔ s = [] := by
  cases h <;> simp

/-- Up to its first escape a run stands for itself. -/
theorem Run.exists_plain {raw t : List α} (h : Run S raw t) : ∃ s raw' t', raw = s ++ raw' ∧ t = s ++ t' ∧
    (∀ c ∈ s, c ≠ S.esc ∧ S.stop c = false) ∧ Run S raw' t' ∧ (raw' = [] ∨ ∃ z, raw' = S.esc :: z) := by
  induction h with
  | nil => exact ⟨[], [], [], rfl, rfl, by simp, .nil, .inl rfl⟩
  | @plain c raw t hesc hstop _ ih =>
    obtain ⟨s, raw', t', rfl, rfl, hs, hrun, hend⟩ := ih
    exact ⟨c :: s, raw', t', rfl, rfl, List.forall_mem_cons.mpr ⟨⟨hesc, hstop⟩, hs⟩, hrun, hend⟩
  | escaped hmeaning hrun _ =>
    exact ⟨[], _, _, rfl, rfl, by simp, .escaped hmeaning hrun, .inr ⟨_, rfl⟩⟩

/-- A run does not begin with a symbol that stops it. -/
theorem Run.not_stop {raw s : List α} (h : Run S raw s) {c : α} (hesc : c ≠ S.esc)
    (hstop : S.stop c = true) : raw.head? ≠ some c := by
  cases h with
  | nil => simp
  | plain _ hplain _ =>
    rintro ⟨⟩
    simp [hstop] at hplain
  | escaped _ _ =>
    rintro ⟨⟩
    exact hesc rfl

/-- Where a run begins the row is not blocked. -/
theorem Run.not_blocked {raw s rest : List α} (h : Run S raw s) (hne : raw ≠ []) :
    ¬ Blocked S (raw ++ rest) := by
  intro hblocked
  cases h with
  | nil => exact hne rfl
  | @plain c raw s hesc hstop _ =>
    rw [List.cons_append] at hblocked
    generalize raw ++ rest = t at hblocked
    cases hblocked with
    | stop _ hstop' => simp [hstop] at hstop'
    | cut | unknown => exact hesc rfl
  | @escaped e c raw s hmeaning _ =>
    rw [List.cons_append, List.cons_append] at hblocked
    generalize raw ++ rest = t at hblocked
    cases hblocked with
    | stop hesc' _ => exact hesc' rfl
    | unknown hmeaning' => simp [hmeaning] at hmeaning'

/-- Either no symbol of a run stands at the front of a row, or one that stands for itself, or an
escaped one. -/
theorem blocked_or_next (S : Scheme α) (row : List α) : Blocked S row ∨
    (∃ c rest, row = c :: rest ∧ c ≠ S.esc ∧ S.stop c = false) ∨
    ∃ e c rest, row = S.esc :: e :: rest ∧ S.meaning e = some c := by
  cases row with
  | nil => exact .inl .nil
  | cons c rest =>
    by_cases hesc : c = S.esc
    · subst hesc
      cases rest with
      | nil => exact .inl .cut
      | cons e rest =>
        cases hmeaning : S.meaning e with
        | none => exact .inl (.unknown hmeaning)
        | some a => exact .inr (.inr ⟨e, a, rest, rfl, hmeaning⟩)
    · cases hstop : S.stop c with
      | true => exact .inl (.stop hesc hstop)
      | false => exact .inr (.inl ⟨c, rest, rfl, hesc, hstop⟩)

variable [DecidableEq α]

/-- The longest run at the front of a row: as it is written, what it stands for, and what is left. -/
def split (S : Scheme α) : List α → List α × List α × List α
  | [] => ([], [], [])
  | [c] => if c = S.esc ∨ S.stop c then ([], [], [c]) else ([c], [c], [])
  | c :: e :: rest =>
    if c = S.esc then
      match S.meaning e with
      | none => ([], [], c :: e :: rest)
      | some a =>
        let t := split S rest
        (c :: e :: t.1, a :: t.2.1, t.2.2)
    else if S.stop c then ([], [], c :: e :: rest)
    else
      let t := split S (e :: rest)
      (c :: t.1, c :: t.2.1, t.2.2)

theorem split_of_blocked {rest : List α} (h : Blocked S rest) : S.split rest = ([], [], rest) := by
  cases h with
  | nil => rfl
  | @stop c rest hesc hstop => cases rest <;> simp [split, hesc, hstop]
  | cut => simp [split]
  | unknown hmeaning => simp [split, hmeaning]

theorem split_plain {c : α} (hesc : c ≠ S.esc) (hstop : S.stop c = false) (rest : List α) :
    S.split (c :: rest) = (c :: (S.split rest).1, c :: (S.split rest).2.1, (S.split rest).2.2) := by
  cases rest <;> simp [split, hesc, hstop]

theorem split_escaped {e c : α} (hmeaning : S.meaning e = some c) (rest : List α) :
    S.split (S.esc :: e :: rest) =
      (S.esc :: e :: (S.split rest).1, c :: (S.split rest).2.1, (S.split rest).2.2) := by
  simp [split, hmeaning]

/-- A run is taken off whole where no symbol of a run follows it. -/
theorem split_append {raw s rest : List α} (h : Run S raw s) (hrest : Blocked S rest) :
    S.split (raw ++ rest) = (raw, s, rest) := by
  induction h with
  | nil => exact split_of_blocked hrest
  | plain hesc hstop _ ih => rw [List.cons_append, split_plain hesc hstop, ih]
  | escaped hmeaning _ ih => rw [List.cons_append, List.cons_append, split_escaped hmeaning, ih]

theorem split_spec (S : Scheme α) (row : List α) :
    ∃ raw s rest, S.split row = (raw, s, rest) ∧ row = raw ++ rest ∧ Run S raw s ∧ Blocked S rest := by
  obtain hblocked | ⟨c, t, rfl, hesc, hstop⟩ | ⟨e, c, t, rfl, hmeaning⟩ := blocked_or_next S row
  · exact ⟨[], [], row, split_of_blocked hblocked, rfl, .nil, hblocked⟩
  · obtain ⟨raw, s, rest, hsplit, rfl, hrun, hrest⟩ := split_spec S t
    exact ⟨c :: raw, c :: s, rest, by rw [split_plain hesc hstop, hsplit], rfl, .plain hesc hstop hrun, hrest⟩
  · obtain ⟨raw, s, rest, hsplit, rfl, hrun, hrest⟩ := split_spec S t
    exact ⟨_ :: e :: raw, c :: s, rest, by rw [split_escaped hmeaning, hsplit], rfl, .escaped hmeaning hrun,
      hrest⟩
termination_by row.length

/-- Two runs at the front of one row are the same where nothing prolongs either. -/
theorem Run.unique {raw raw' s s' rest rest' : List α} (h : Run S raw s) (h' : Run S raw' s')
    (hrest : Blocked S rest) (hrest' : Blocked S rest') (heq : raw ++ rest = raw' ++ rest') :
    raw = raw' ∧ s = s' ∧ rest = rest' := by
  have hsplit := split_append h hrest
  rw [heq, split_append h' hrest'] at hsplit
  simp only [Prod.mk.injEq] at hsplit
  exact ⟨hsplit.1.symm, hsplit.2.1.symm, hsplit.2.2.symm⟩

/-! ## Writing -/

/-- A row with the symbols that have a code written as it behind the escape symbol. -/
def write (S : Scheme α) (code : α → Option α) (s : List α) : List α :=
  s.flatMap fun c =>
    match code c with
    | some e => [S.esc, e]
    | none => [c]

/-- Codes mean what they are written for, and what has none can stand for itself. -/
structure Spells (S : Scheme α) (code : α → Option α) : Prop where
  meaning : ∀ {c e}, code c = some e → S.meaning e = some c
  plain : ∀ {c}, code c = none → c ≠ S.esc ∧ S.stop c = false

omit [DecidableEq α] in
theorem Spells.run_cons {code : α → Option α} (h : Spells S code) (c : α) {raw s : List α}
    (hraw : Run S raw s) : Run S ((match code c with | some e => [S.esc, e] | none => [c]) ++ raw)
      (c :: s) := by
  cases hcode : code c with
  | some e => exact .escaped (h.meaning hcode) hraw
  | none => exact .plain (h.plain hcode).1 (h.plain hcode).2 hraw

omit [DecidableEq α] in
/-- What is written is a run that stands for the row. -/
theorem Spells.run_write {code : α → Option α} (h : Spells S code) (s : List α) :
    Run S (S.write code s) s := by
  induction s with
  | nil => exact .nil
  | cons c s ih => exact h.run_cons c ih

end Scheme

end Escape
