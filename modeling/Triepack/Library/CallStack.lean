import Mathlib.Tactic.Common

/-!
# Calls on a stack of bounded depth

An interpreter opens a frame for each call, and raises when its stack has no room for one more. A call
is given how many frames it opens one inside the other; a recursive one is given what its caller has
left less its own frame. What a run needs is the most that any of its calls needs.
-/

namespace CallStack

/-- Exceptions of which one says that the stack has no room. -/
class Overflows (ε : Type) where
  overflow : ε

/-- How many frames can be opened inside the running one. -/
inductive Frames where
  | unbounded
  | atMost (n : Nat)
  deriving DecidableEq, Repr

namespace Frames

/-- `n` frames can be opened, one inside the other. -/
def Room : Frames → Nat → Prop
  | unbounded, _ => True
  | atMost k, n => n ≤ k

instance : (frames : Frames) → (n : Nat) → Decidable (frames.Room n)
  | unbounded, _ => inferInstanceAs (Decidable True)
  | atMost k, n => inferInstanceAs (Decidable (n ≤ k))

/-- What can be opened inside the innermost of `n` frames. -/
def inside : Frames → Nat → Frames
  | unbounded, _ => unbounded
  | atMost k, n => atMost (k - n)

/-- What can be opened with `n` frames more. -/
def more : Frames → Nat → Frames
  | unbounded, _ => unbounded
  | atMost k, n => atMost (k + n)

@[simp] theorem room_unbounded (n : Nat) : unbounded.Room n := trivial

@[simp] theorem room_atMost {k n : Nat} : (atMost k).Room n ↔ n ≤ k := Iff.rfl

@[simp] theorem inside_unbounded (n : Nat) : unbounded.inside n = unbounded := rfl

@[simp] theorem inside_atMost (k n : Nat) : (atMost k).inside n = atMost (k - n) := rfl

@[simp] theorem more_unbounded (n : Nat) : unbounded.more n = unbounded := rfl

@[simp] theorem more_atMost (k n : Nat) : (atMost k).more n = atMost (k + n) := rfl

variable {frames : Frames} {m n : Nat}

@[simp] theorem room_zero (frames : Frames) : frames.Room 0 := by
  cases frames with
  | unbounded => trivial
  | atMost k => exact Nat.zero_le k

theorem Room.mono (h : frames.Room n) (hle : m ≤ n) : frames.Room m := by
  cases frames with
  | unbounded => trivial
  | atMost k => exact Nat.le_trans hle h

theorem room_max : frames.Room (max m n) ↔ frames.Room m ∧ frames.Room n := by
  cases frames with
  | unbounded => simp
  | atMost k => exact Nat.max_le

/-- Inside `m` frames that were opened there is room for as many less. -/
theorem room_inside (h : frames.Room m) : (frames.inside m).Room n ↔ frames.Room (m + n) := by
  cases frames with
  | unbounded => simp
  | atMost k =>
    rw [room_atMost] at h
    rw [inside_atMost, room_atMost, room_atMost]
    omega

theorem inside_inside (frames : Frames) (m n : Nat) : (frames.inside m).inside n = frames.inside (m + n) := by
  cases frames with
  | unbounded => rfl
  | atMost k => simp [Nat.sub_sub]

theorem room_more (n : Nat) : (frames.more n).Room n := by
  cases frames with
  | unbounded => trivial
  | atMost k => exact Nat.le_add_left n k

/-- A call that opens `n` frames, one inside the other. -/
def call {ε α : Type} {m : Type → Type} [MonadExcept ε m] [Overflows ε] (frames : Frames) (n : Nat)
    (body : m α) : m α := if frames.Room n then body else throw Overflows.overflow

section Call

variable {ε α : Type} {m : Type → Type} [MonadExcept ε m] [Overflows ε] {body : m α}

@[simp] theorem call_unbounded (n : Nat) (body : m α) : unbounded.call n body = body := rfl

theorem call_of_room (h : frames.Room n) : frames.call n body = body := if_pos h

end Call

end Frames

/-! ## What a run needs -/

section Needs

variable {ε σ α β : Type} [Overflows ε] {frames : Frames} {m n : Nat} {x y z : Except ε α}

/-- With room for `n` frames the first run is the second one, and without it the stack overflows. -/
def Needs (frames : Frames) (n : Nat) (x y : Except ε α) : Prop :=
  (frames.Room n → x = y) ∧ (¬ frames.Room n → x = .error Overflows.overflow)

namespace Needs

theorem refl (frames : Frames) (x : Except ε α) : Needs frames 0 x x :=
  ⟨fun _ => rfl, fun h => absurd (frames.room_zero) h⟩

theorem of_eq (h : x = y) : Needs frames 0 x y := h ▸ refl frames x

/-- The second run matters only if the first one leads to it. -/
theorem trans (h : Needs frames m x y) (h' : frames.Room m → Needs frames n y z) :
    Needs frames (max m n) x z := by
  constructor
  · intro hroom
    obtain ⟨hm, hn⟩ := Frames.room_max.mp hroom
    exact (h.1 hm).trans ((h' hm).1 hn)
  · intro hroom
    by_cases hm : frames.Room m
    · exact (h.1 hm).trans ((h' hm).2 fun hn => hroom (Frames.room_max.mpr ⟨hm, hn⟩))
    · exact h.2 hm

/-- The number of frames matters only as far as the room goes. -/
theorem congr (h : Needs frames m x y) (hiff : frames.Room m ↔ frames.Room n) : Needs frames n x y :=
  ⟨fun hn => h.1 (hiff.mpr hn), fun hn => h.2 fun hm => hn (hiff.mp hm)⟩

theorem call (frames : Frames) (n : Nat) (x : Except ε α) : Needs frames n (frames.call n x) x :=
  ⟨fun h => if_pos h, fun h => if_neg h⟩

/-- A run inside `m` frames that a call opens. -/
theorem inside (h : Needs (frames.inside m) n x y) : Needs frames (m + n) (frames.call m x) y := by
  by_cases hm : frames.Room m
  · rw [Frames.call_of_room hm]
    exact ⟨fun hn => h.1 ((Frames.room_inside hm).mpr hn),
      fun hn => h.2 fun hroom => hn ((Frames.room_inside hm).mp hroom)⟩
  · exact ⟨fun hn => absurd (hn.mono (Nat.le_add_right m n)) hm, fun _ => if_neg hm⟩

theorem bind {x : Except ε α} {a : α} {f : α → Except ε β} (h : Needs frames n x (.ok a)) :
    Needs frames n (x >>= f) (f a) := by
  constructor
  · intro hn
    rw [h.1 hn]
    rfl
  · intro hn
    rw [h.2 hn]
    rfl

/-- The same with a state that is passed on. -/
theorem run_bind {m : StateT σ (Except ε) α} {f : α → StateT σ (Except ε) β} {s s' : σ} {a : α}
    (h : Needs frames n (m s) (.ok (a, s'))) : Needs frames n ((m >>= f) s) (f a s') := by
  change Needs frames n (m s >>= fun r => f r.1 r.2) (f (a, s').1 (a, s').2)
  exact h.bind

/-- A run with a state inside `m` frames that a call opens. -/
theorem run_inside {x : StateT σ (Except ε) α} {s : σ} {r : Except ε (α × σ)}
    (h : Needs (frames.inside m) n (x s) r) : Needs frames (m + n) ((frames.call m x) s) r := by
  have hrun : (frames.call m x) s = frames.call m (x s) := by
    rw [Frames.call, Frames.call]
    split_ifs <;> rfl
  rw [hrun]
  exact h.inside

end Needs

end Needs

end CallStack
