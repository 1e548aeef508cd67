import Triepack.Library.BitString

/-!
# Bit streams: results, cursors, and the shape of an operation

A reader is a cursor over a borrowed buffer, a writer a growing buffer with a cursor at its
end. `Rd` and `Wr` are the operations on them: an operation either succeeds or ends with a
`Stop`, and a reader keeps the position at which it ended. Pointers are never NULL and
allocation never fails. The arithmetic on positions is that of `uint64_t`.
-/

namespace Triepack

open BitString

/-- The result codes of the library other than `TP_OK`. -/
inductive TpErr where
  | eof | alloc | invalidParam | invalidPosition | notAligned | overflow | invalidUtf8
  | badMagic | version | corrupt | notFound | truncated | alphabet | unsupported
  | jsonSyntax | jsonDepth | jsonType
  deriving DecidableEq, Repr

/-- How a call ends when not with `TP_OK`: with a result code, by reading a bit outside the
buffer, which C leaves undefined, or not within the bound the model puts on a loop. -/
inductive Stop where
  | rc (code : TpErr)
  | oob (bit : Nat)
  | fuel
  deriving DecidableEq, Repr

/-- Unsigned 64-bit arithmetic wraps around. -/
def u64 (n : Nat) : Nat := n % 2 ^ 64

/-- Unsigned 32-bit arithmetic wraps around. -/
def u32 (n : Nat) : Nat := n % 2 ^ 32

theorem u64_of_lt {n : Nat} (h : n < 2 ^ 64) : u64 n = n := Nat.mod_eq_of_lt h

theorem u32_of_lt {n : Nat} (h : n < 2 ^ 32) : u32 n = n := Nat.mod_eq_of_lt h

theorem u64_lt (n : Nat) : u64 n < 2 ^ 64 := Nat.mod_lt _ (by decide)

/-- `tp_bitstream_reader`. -/
structure Reader where
  buf : List UInt8
  bitLen : Nat
  pos : Nat
  deriving DecidableEq, Repr

/-- `tp_bs_reader_create` over a whole buffer. -/
def bsReaderCreate (buf : List UInt8) : Reader := ⟨buf, u64 (buf.length * 8), 0⟩

/-- An operation on something that keeps its state when the operation fails. -/
def Op (σ α : Type) : Type := σ → Except Stop α × σ

instance {σ : Type} : Monad (Op σ) where
  pure a r := (.ok a, r)
  bind x f r :=
    match x r with
    | (.ok a, r') => f a r'
    | (.error e, r') => (.error e, r')

def Op.fail {σ α : Type} (code : TpErr) : Op σ α := fun r => (.error (.rc code), r)

/-- An operation on a reader. -/
abbrev Rd (α : Type) : Type := Op Reader α

section Op

variable {σ α β : Type} {x : Op σ α} {f : α → Op σ β} {r r' : σ}

@[simp] theorem Op.pure_apply (a : α) (r : σ) : (pure a : Op σ α) r = (.ok a, r) := rfl

@[simp] theorem Op.fail_apply (code : TpErr) (r : σ) :
    (Op.fail code : Op σ α) r = (.error (.rc code), r) := rfl

theorem Op.bind_ok {a : α} (h : x r = (.ok a, r')) : (x >>= f) r = f a r' := by
  change (match x r with | (.ok a, r') => f a r' | (.error e, r') => (.error e, r')) = _
  rw [h]

theorem Op.bind_error {e : Stop} (h : x r = (.error e, r')) :
    (x >>= f) r = (.error e, r') := by
  change (match x r with | (.ok a, r') => f a r' | (.error e, r') => (.error e, r')) = _
  rw [h]

/-- What a sequence that succeeds has done. -/
theorem Op.bind_eq_ok {b : β} (h : (x >>= f) r = (.ok b, r')) :
    ∃ a t, x r = (.ok a, t) ∧ f a t = (.ok b, r') := by
  rcases hx : x r with ⟨e | a, t⟩
  · rw [Op.bind_error hx] at h
    simp at h
  · exact ⟨a, t, rfl, (Op.bind_ok hx).symm.trans h⟩

end Op

/-- `tp_bitstream_writer`; its `cap` is the length of `buf`. -/
structure Writer where
  buf : List UInt8
  growth : Nat
  pos : Nat
  deriving DecidableEq, Repr

def Writer.cap (w : Writer) : Nat := w.buf.length

def defaultWriterCap : Nat := 256

/-- `tp_bs_writer_create`. -/
def bsWriterCreate (initialCap growth : Nat) : Writer where
  buf := List.replicate (if initialCap > 0 then initialCap else defaultWriterCap) 0
  growth := growth
  pos := 0

/-- An operation on a writer. -/
def Wr (α : Type) : Type := Writer → Except Stop (α × Writer)

instance : Monad Wr where
  pure a w := .ok (a, w)
  bind x f w :=
    match x w with
    | .ok (a, w') => f a w'
    | .error e => .error e

def Wr.fail {α : Type} (code : TpErr) : Wr α := fun _ => .error (.rc code)

section Wr

variable {α β : Type} {x : Wr α} {f : α → Wr β} {w w' : Writer}

@[simp] theorem Wr.pure_apply (a : α) (w : Writer) : (pure a : Wr α) w = .ok (a, w) := rfl

@[simp] theorem Wr.fail_apply (code : TpErr) (w : Writer) :
    (Wr.fail code : Wr α) w = .error (.rc code) := rfl

theorem Wr.bind_ok {a : α} (h : x w = .ok (a, w')) : (x >>= f) w = f a w' := by
  change (match x w with | .ok (a, w') => f a w' | .error e => .error e) = _
  rw [h]

theorem Wr.bind_error {e : Stop} (h : x w = .error e) : (x >>= f) w = .error e := by
  change (match x w with | .ok (a, w') => f a w' | .error e => .error e) = _
  rw [h]

theorem Wr.bind_eq_ok {b : β} (h : (x >>= f) w = .ok (b, w')) :
    ∃ a t, x w = .ok (a, t) ∧ f a t = .ok (b, w') := by
  rcases hx : x w with e | ⟨a, t⟩
  · rw [Wr.bind_error hx] at h
    simp at h
  · exact ⟨a, t, rfl, (Wr.bind_ok hx).symm.trans h⟩

end Wr

end Triepack
