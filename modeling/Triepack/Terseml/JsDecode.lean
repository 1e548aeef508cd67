import Triepack.Library.Binary64
import Triepack.Terseml.JsEncode
import Triepack.Terseml.PythonDecode

/-!
# The decoder of the JavaScript module

It takes a string byte by byte, where the Python module searches for the next reserved byte, and a
length is a double. It accepts what the Python decoder accepts and returns the same nodes: a length
that a double does not hold is longer than any input.
-/

namespace Terseml.Js

open Escape
open Python (Stop raised)

/-! ## Strings -/

/-- `VALID_ESCAPES`. -/
def validEscapes : List UInt8 := [lbr, rbr, lsq, rsq, com, col, bs]

/-- `Reader.take`. -/
def take : List UInt8 → Except Stop (UInt8 × List UInt8)
  | [] => raised .unexpectedEnd
  | b :: s => .ok (b, s)

theorem take_cons (b : UInt8) (s : List UInt8) : take (b :: s) = .ok (b, s) := rfl

/-- `Reader.expect`. -/
def expect (byte : UInt8) (s : List UInt8) : Except Stop (List UInt8) := do
  let (got, s) ← take s
  if got ≠ byte then raised .expected else .ok s

/-- `readEscaped`. -/
def readEscaped (stop : List UInt8) : List UInt8 → Except Stop (List UInt8 × List UInt8)
  | [] => raised .unterminatedElement
  | [ch] =>
    if ch = bs then raised .unexpectedEnd
    else if isSet stop ch then .ok ([], [ch]) else raised .unterminatedElement
  | ch :: nxt :: s =>
    if ch = bs then
      if isSet validEscapes nxt then do
        let (out, s) ← readEscaped stop s
        .ok (nxt :: out, s)
      else raised .invalidEscape
    else if isSet stop ch then .ok ([], ch :: nxt :: s)
    else do
      let (out, s) ← readEscaped stop (nxt :: s)
      .ok (ch :: out, s)

/-- The loop of `readVarint`, with what is left of its ten groups. -/
def readVarint : (groups n shift : Nat) → List UInt8 → Except Stop (Nat × List UInt8)
  | _, _, _, [] => raised .truncatedVarint
  | 0, _, _, _ :: _ => raised .longVarint
  | groups + 1, n, shift, b :: s =>
    let n := Binary64.add n (Binary64.mul (b.toNat &&& 0x7F) shift)
    let shift := Binary64.mul shift 128
    if b.toNat &&& 0x80 = 0 then .ok (n, s) else readVarint groups n shift s

/-- The loop of `readBinary`. -/
def readRun : List UInt8 → Except Stop (List UInt8 × List UInt8)
  | [] => raised .unterminatedRun
  | [ch] => if ch = 0 then .ok ([], []) else if ch = bs then raised .unexpectedEnd else raised .unterminatedRun
  | ch :: nxt :: s =>
    if ch = 0 then .ok ([], nxt :: s)
    else if ch = bs then
      if nxt = digit0 then do
        let (out, s) ← readRun s
        .ok (0 :: out, s)
      else if nxt = bs then do
        let (out, s) ← readRun s
        .ok (bs :: out, s)
      else raised .invalidRunEscape
    else do
      let (out, s) ← readRun (nxt :: s)
      .ok (ch :: out, s)

/-- `readBinary`. -/
def readBinary (s : List UInt8) : Except Stop (List UInt8 × List UInt8) := do
  let s ← expect bs s
  let (kind, s) ← take s
  if kind = letterB then do
    let (n, s) ← readVarint 10 0 1 s
    if n > s.length then raised .binaryClaim else .ok (s.take n, s.drop n)
  else readRun s

/-! ## Elements -/

/-- The loop of `decodeElement` over the attributes. -/
def decodeAttrsLoop : (fuel : Nat) → List UInt8 → Except Stop (List Attr × List UInt8)
  | 0, _ => .error .fuel
  | fuel + 1, s => do
    let (key, s) ← readEscaped rKey s
    let (ch, s) ← take s
    if ch ≠ col then raised .pairWithoutColon
    else do
      let (val, s) ← readEscaped rVal s
      let (ch, s') ← take s
      if ch = com then do
        let (ch, _) ← take s'
        if ch = rsq then .ok ([⟨key, val⟩], s')
        else do
          let (attrs, s) ← decodeAttrsLoop fuel s'
          .ok (⟨key, val⟩ :: attrs, s)
      else .ok ([⟨key, val⟩], s)

/-- The attributes in `decodeElement`, behind their bracket. -/
def decodeAttrs (s : List UInt8) : Except Stop (List Attr × List UInt8) := do
  let (ch, _) ← take s
  let (attrs, s) ← if ch ≠ rsq then decodeAttrsLoop (s.length + 1) s else .ok ([], s)
  let s ← expect rsq s
  .ok (attrs, s)

mutual

/-- `decodeElement`. -/
def decodeElement : (fuel depth : Nat) → List UInt8 → Except Stop (Node × List UInt8)
  | 0, _, _ => .error .fuel
  | fuel + 1, depth, s =>
    if depth > maxDepth then raised .nesting
    else do
      let s ← expect lbr s
      let (head, s) ← readEscaped rTag s
      let (ch, s') ← take s
      if ch = rbr then .ok (.element tagText [] (if head.length > 0 then [.text head] else []), s')
      else if ch = lbr then raised .childWithoutComma
      else do
        let s ← expect com s
        if s.head? = some lsq then do
          let (attrs, s) ← decodeAttrs s.tail
          let (ch, s') ← take s
          if ch = com then do
            let (children, s) ← decodeContent fuel depth s'
            .ok (.element head attrs children, s)
          else if ch = rbr then .ok (.element head attrs [], s')
          else do
            let (children, s) ← decodeContent fuel depth s
            .ok (.element head attrs children, s)
        else do
          let (children, s) ← decodeContent fuel depth s
          .ok (.element head [] children, s)

/-- The loop of `decodeElement` over the content. -/
def decodeContent : (fuel depth : Nat) → List UInt8 → Except Stop (List Node × List UInt8)
  | 0, _, _ => .error .fuel
  | _ + 1, _, [] => raised .unterminatedElement
  | fuel + 1, depth, c :: s =>
    if c = rbr then .ok ([], s)
    else if c = lbr then do
      let (child, s) ← decodeElement fuel (depth + 1) (c :: s)
      let (children, s) ← decodeContent fuel depth s
      .ok (child :: children, s)
    else if c = bs ∧ (s.head? = some letterb ∨ s.head? = some letterB) then do
      let (run, s) ← readBinary (c :: s)
      let (children, s) ← decodeContent fuel depth s
      .ok (.text run :: children, s)
    else do
      let (text, s) ← readEscaped rText (c :: s)
      let (children, s) ← decodeContent fuel depth s
      .ok (if text.length > 0 then .text text :: children else children, s)

end

/-- `decode`. -/
def decode (buf : List UInt8) : Except Stop Node := do
  let (el, rest) ← decodeElement (decodeFuel buf) 0 buf
  if rest ≠ [] then raised .trailingBytes else .ok el

/-- The loop of `decodeDocument`. -/
def decodeRoots : (fuel : Nat) → List UInt8 → Except Stop (List Node)
  | 0, _ => .error .fuel
  | _ + 1, [] => .ok []
  | fuel + 1, c :: s => do
    let (el, rest) ← decodeElement (decodeFuel (c :: s)) 0 (c :: s)
    let out ← decodeRoots fuel rest
    .ok (el :: out)

/-- `decodeDocument`. -/
def decodeDocument (buf : List UInt8) : Except Stop (List Node) := decodeRoots (buf.length + 1) buf

/-! ## What both modules read -/

/-- The calls end alike, and what is left behind them is not longer than `n`. -/
structure SameUpTo {α : Type} (n : Nat) (x y : Except Stop (α × List UInt8)) : Prop where
  outcome_eq : outcome Stop.fail x = outcome Stop.fail y
  length_le : ∀ t, y = .ok t → t.2.length ≤ n

namespace SameUpTo

variable {α β : Type} {n m : Nat} {x y : Except Stop (α × List UInt8)}

theorem raised (e e' : Python.DecodeError) :
    SameUpTo n (Python.raised e : Except Stop (α × List UInt8)) (Python.raised e') where
  outcome_eq := rfl
  length_le _ h := nomatch h

theorem fuel : SameUpTo n (.error .fuel : Except Stop (α × List UInt8)) (.error .fuel) where
  outcome_eq := rfl
  length_le _ h := nomatch h

theorem ok (a : α) {s : List UInt8} (h : s.length ≤ n) :
    SameUpTo n (.ok (a, s) : Except Stop (α × List UInt8)) (.ok (a, s)) where
  outcome_eq := rfl
  length_le t ht := by rwa [← Except.ok.inj ht]

theorem mono (h : SameUpTo n x y) (hle : n ≤ m) : SameUpTo m x y where
  outcome_eq := h.outcome_eq
  length_le t ht := (h.length_le t ht).trans hle

theorem bind {f g : α × List UInt8 → Except Stop (β × List UInt8)} (h : SameUpTo n x y)
    (hfg : ∀ a s, s.length ≤ n → SameUpTo m (f (a, s)) (g (a, s))) : SameUpTo m (x >>= f) (y >>= g) := by
  cases y with
  | error e =>
    cases x with
    | error e' =>
      have heq : Stop.fail e' = Stop.fail e := Except.error.inj h.outcome_eq
      exact ⟨congrArg Except.error heq, fun _ ht => nomatch ht⟩
    | ok t => exact nomatch h.outcome_eq
  | ok t =>
    obtain rfl : x = .ok t := eq_ok_of_outcome h.outcome_eq
    exact hfg t.1 t.2 (h.length_le t rfl)

end SameUpTo

section Strings

variable {ctx : EscCtx} {raw t rest : List UInt8}

theorem isSet_validEscapes (c : UInt8) : isSet validEscapes c = validEscape c := by
  simp only [isSet, validEscapes, validEscape]
  grind

/-- A byte that stands for itself is the first of what is read. -/
theorem readEscaped_cons {c : UInt8} (hc : isReserved ctx c = false) (s : List UInt8) :
    readEscaped (reserved ctx) (c :: s) =
      readEscaped (reserved ctx) s >>= fun t => .ok (c :: t.1, t.2) := by
  rw [isReserved_eq, Bool.or_eq_false_iff, decide_eq_false_iff_not] at hc
  cases s with
  | nil => simp [readEscaped, hc.1, hc.2, raised, bind, Except.bind]
  | cons d s => simp [readEscaped, hc.1, hc.2]

theorem readEscaped_run (h : Scheme.Run ctx.scheme raw t) (hrest : Scheme.Blocked ctx.scheme rest) :
    outcome Stop.fail (readEscaped (reserved ctx) (raw ++ rest)) =
      if Ended rest then .ok (t, rest) else .error .rejected := by
  induction h with
  | nil =>
    cases hrest with
    | nil => rfl
    | @stop c rest hesc hstop =>
      have hc : c ≠ bs := hesc
      have hres : isSet (reserved ctx) c = true := by
        have hres : isReserved ctx c = true := hstop
        rw [isReserved_eq] at hres
        simpa [hc] using hres
      cases rest <;> simp [readEscaped, hres, hc, Ended]
    | cut => simp [readEscaped, EscCtx.scheme, Ended]
    | @unknown e rest hmeaning =>
      have he : validEscape e = false := by simpa [EscCtx.scheme] using hmeaning
      simp [readEscaped, EscCtx.scheme, Ended, isSet_validEscapes, he]
  | @plain c raw t hesc hstop _ ih =>
    have hc : isReserved ctx c = false := hstop
    rw [List.cons_append, readEscaped_cons hc, outcome_bind, ih]
    split_ifs <;> rfl
  | @escaped e c raw t hmeaning _ ih =>
    obtain ⟨hvalid, rfl⟩ : validEscape e = true ∧ e = c := by
      simp only [EscCtx.scheme] at hmeaning
      split_ifs at hmeaning with hvalid
      exact ⟨hvalid, Option.some.inj hmeaning⟩
    simp only [List.cons_append, EscCtx.scheme, readEscaped, if_true, isSet_validEscapes, hvalid, outcome_bind, ih]
    split_ifs <;> rfl

theorem readEscaped_same (ctx : EscCtx) (s : List UInt8) :
    SameUpTo s.length (readEscaped (reserved ctx) s) (Python.readEscaped ctx s) where
  outcome_eq := by
    obtain ⟨raw, t, rest, hsplit, rfl, hrun, hblocked⟩ := Scheme.split_spec ctx.scheme s
    rw [readEscaped_run hrun hblocked, Python.readEscaped_eq, hsplit, copyRun_of_run hrun]
  length_le t ht := by
    have hread := Python.readEscaped_eq ctx s
    rw [ht] at hread
    split_ifs at hread
    · obtain rfl := Except.ok.inj hread
      exact split_length_le ctx s
    · exact nomatch hread

theorem readRun_eq (s : List UInt8) : readRun s = Python.readRunLoop s := by
  fun_induction readRun s <;> simp_all [Python.readRunLoop]

/-- A length that both modules have read: the same, or too long for a double to tell. -/
def Near (n v : Nat) : Prop := n = v ∧ v < 2 ^ 53 ∨ 2 ^ 53 ≤ n ∧ 2 ^ 53 ≤ v

theorem Near.add {n v : Nat} (h : Near n v) (m : Nat) : Near (Binary64.add n m) (v + m) := by
  obtain ⟨rfl, hlt⟩ | ⟨hn, hv⟩ := h
  · by_cases hsum : n + m < 2 ^ 53
    · exact .inl ⟨Binary64.add_of_lt hsum, hsum⟩
    · exact .inr ⟨Binary64.le_add (by omega), by omega⟩
  · exact .inr ⟨Binary64.le_add (by omega), by omega⟩

/-- Compared with the length of an input, the two are the same. -/
theorem Near.eq_of_le {n v m : Nat} (h : Near n v) (hm : m < 2 ^ 53) : (n ≤ m ↔ v ≤ m) ∧ (v ≤ m → n = v) := by
  obtain ⟨rfl, -⟩ | ⟨hn, hv⟩ := h
  · exact ⟨Iff.rfl, fun _ => rfl⟩
  · exact ⟨by omega, by omega⟩

/-- The two loops end at one place, with lengths that are near. -/
theorem readVarint_near {groups n v k : Nat} (hnear : Near n v) (hv : v < 2 ^ k) (s : List UInt8) :
    (∃ e e', readVarint groups n (2 ^ k) s = raised e ∧ Python.readVarint groups k v s = raised e') ∨
      ∃ n' v' rest, readVarint groups n (2 ^ k) s = .ok (n', rest) ∧
        Python.readVarint groups k v s = .ok (v', rest) ∧ Near n' v' ∧ rest.length ≤ s.length := by
  induction s generalizing groups n v k with
  | nil => cases groups <;> exact .inl ⟨_, _, rfl, rfl⟩
  | cons b s ih =>
    cases groups with
    | zero => exact .inl ⟨_, _, rfl, rfl⟩
    | succ groups =>
      have hlow : b.toNat &&& 0x7F = b.toNat % 128 := Nat.and_two_pow_sub_one_eq_mod _ 7
      have hb : b.toNat % 128 < 128 := Nat.mod_lt _ (by decide)
      have hterm : Binary64.mul (b.toNat % 128) (2 ^ k) = b.toNat % 128 * 2 ^ k :=
        Binary64.round_mul_pow (by omega) k
      have hshift : Binary64.mul (2 ^ k) 128 = 2 ^ (k + 7) := by
        have hone := Binary64.round_mul_pow (show 1 < 2 ^ 53 by decide) (k + 7)
        rw [Nat.one_mul, pow_add] at hone
        rw [pow_add]
        exact hone
      have hor : v ||| (b.toNat % 128) <<< k = v + b.toNat % 128 * 2 ^ k := by
        rw [Nat.shiftLeft_eq, Nat.or_comm, Nat.mul_comm, ← Nat.two_pow_add_eq_or_of_lt hv, Nat.add_comm]
      have hbound : v + b.toNat % 128 * 2 ^ k < 2 ^ (k + 7) := by
        have hmul : b.toNat % 128 * 2 ^ k ≤ 127 * 2 ^ k := Nat.mul_le_mul_right _ (by omega)
        rw [pow_add]
        omega
      have hnext := hnear.add (b.toNat % 128 * 2 ^ k)
      simp only [readVarint, Python.readVarint, hlow, hterm, hshift, hor]
      split_ifs with hlast
      · exact .inr ⟨_, _, _, rfl, rfl, hnext, Nat.le_succ _⟩
      · obtain hfail | ⟨n', v', rest, hjs, hpython, hnear', hlen⟩ := @ih groups _ _ (k + 7) hnext hbound
        · exact .inl hfail
        · exact .inr ⟨n', v', rest, hjs, hpython, hnear', hlen.trans (Nat.le_succ _)⟩

theorem readRun_same (s : List UInt8) : SameUpTo s.length (readRun s) (Python.readRunLoop s) where
  outcome_eq := by rw [readRun_eq]
  length_le t ht := by
    have hread := Python.readRunLoop_eq s
    obtain ⟨raw, _, rest, hsplit, rfl, -, -⟩ := Scheme.split_spec binScheme s
    rw [ht, hsplit] at hread
    split_ifs at hread
    · obtain rfl := Except.ok.inj hread
      simp only [List.length_tail, List.length_append]
      omega
    · exact nomatch hread

/-- A run is read alike from an input whose length a double holds. -/
theorem readBinary_same {s : List UInt8} (hlen : s.length < 2 ^ 53) :
    SameUpTo s.length (readBinary (bs :: s)) (Python.readBinary (bs :: s)) := by
  cases s with
  | nil => exact .raised _ _
  | cons kind s =>
    rw [List.length_cons] at hlen
    have hrun : readBinary (bs :: kind :: s) = if kind = letterB then readVarint 10 0 1 s >>= fun t =>
        if t.1 > t.2.length then raised .binaryClaim else .ok (t.2.take t.1, t.2.drop t.1)
      else readRun s := rfl
    have hpython : Python.readBinary (bs :: kind :: s) = if kind = letterB then Python.readVarint 10 0 0 s >>=
        fun t => if t.1 > t.2.length then raised .binaryClaim else .ok (t.2.take t.1, t.2.drop t.1)
      else Python.readRunLoop s := rfl
    rw [hrun, hpython]
    split_ifs with hkind
    · have hnear : Near 0 0 := .inl ⟨rfl, by decide⟩
      obtain ⟨e, e', hjs, hpy⟩ | ⟨n, v, rest, hjs, hpy, hnv, hrest⟩ :=
        @readVarint_near 10 0 0 0 hnear (by decide) s
      · rw [pow_zero] at hjs
        rw [hjs, hpy]
        exact .raised e e'
      · rw [pow_zero] at hjs
        obtain ⟨hiff, heq⟩ := hnv.eq_of_le (show rest.length < 2 ^ 53 by omega)
        rw [hjs, hpy]
        simp only [ok_bind, gt_iff_lt, ← Nat.not_le, hiff]
        by_cases hfits : v ≤ rest.length
        · rw [if_neg (not_not.mpr hfits), if_neg (not_not.mpr hfits), heq hfits]
          exact .ok _ (by rw [List.length_drop, List.length_cons]; omega)
        · rw [if_pos hfits, if_pos hfits]
          exact .raised _ _
    · exact (readRun_same s).mono (by simp)

end Strings

section Elements

theorem expect_same {α : Type} {n : Nat} {f g : List UInt8 → Except Stop (α × List UInt8)} {byte : UInt8}
    {s : List UInt8} (h : ∀ rest, s = byte :: rest → SameUpTo n (f rest) (g rest)) :
    SameUpTo n (expect byte s >>= f) (Python.expect byte s >>= g) := by
  cases s with
  | nil => exact .raised _ _
  | cons got s =>
    by_cases hgot : got = byte
    · subst hgot
      simpa [expect, take, Python.expect] using h s rfl
    · have hjs : expect byte (got :: s) = raised .expected := by simp [expect, take, hgot]
      have hpython : Python.expect byte (got :: s) = raised .expected := by simp [Python.expect, hgot]
      rw [hjs, hpython]
      exact .raised _ _

theorem decodeAttrsLoop_same (fuel : Nat) (s : List UInt8) :
    SameUpTo s.length (decodeAttrsLoop fuel s) (Python.decodeAttrsLoop fuel s) := by
  induction fuel generalizing s with
  | zero => exact .fuel
  | succ fuel ih =>
    refine (readEscaped_same .key s).bind fun key s₁ hs₁ => ?_
    cases s₁ with
    | nil => exact .raised _ _
    | cons ch s₁ =>
      simp only [take_cons, ok_bind]
      rw [List.length_cons] at hs₁
      split_ifs with hcol
      · exact .raised _ _
      refine (readEscaped_same .val s₁).bind fun val s₂ hs₂ => ?_
      cases s₂ with
      | nil => exact .raised _ _
      | cons ch s₂ =>
        simp only [take_cons, ok_bind]
        rw [List.length_cons] at hs₂
        split_ifs with hcom
        · cases s₂ with
          | nil => exact .raised _ _
          | cons ch s₂ =>
            simp only [take_cons, ok_bind]
            rw [List.length_cons] at hs₂
            split_ifs with hclose
            · exact .ok _ (by rw [List.length_cons]; omega)
            · refine (ih (ch :: s₂)).bind fun attrs s₃ hs₃ => .ok _ (hs₃.trans ?_)
              rw [List.length_cons]
              omega
        · exact .ok _ (by rw [List.length_cons]; omega)

theorem decodeAttrs_same (s : List UInt8) : SameUpTo s.length (decodeAttrs s) (Python.decodeAttrs s) := by
  cases s with
  | nil => exact .raised _ _
  | cons ch s =>
    have hexpect : ∀ (attrs : List Attr) (s₁ : List UInt8), s₁.length ≤ (ch :: s).length →
        SameUpTo (ch :: s).length (expect rsq s₁ >>= fun rest => .ok (attrs, rest))
          (Python.expect rsq s₁ >>= fun rest => .ok (attrs, rest)) := fun attrs s₁ hs₁ =>
      expect_same fun rest hrest => .ok attrs (by rw [hrest, List.length_cons] at hs₁; omega)
    simp only [decodeAttrs, Python.decodeAttrs, take_cons, ok_bind]
    split_ifs with hclose
    · exact (decodeAttrsLoop_same _ (ch :: s)).bind fun attrs s₁ hs₁ => hexpect attrs s₁ hs₁
    · exact hexpect [] (ch :: s) le_rfl

/-- With so much fuel the decoders do the same to the bytes of an element. -/
def SameElements (fuel : Nat) : Prop := ∀ (depth : Nat) (s : List UInt8), s.length < 2 ^ 53 →
  SameUpTo s.length (decodeElement fuel depth s) (Python.decodeElement fuel depth s)

/-- And to those of its content. -/
def SameContent (fuel : Nat) : Prop := ∀ (depth : Nat) (s : List UInt8), s.length < 2 ^ 53 →
  SameUpTo s.length (decodeContent fuel depth s) (Python.decodeContent fuel depth s)

section Elements

variable {fuel : Nat} (ih : SameContent fuel)

include ih

theorem filled_same {depth n : Nat} {s : List UInt8} (mk : List Node → Node) (hn : n < 2 ^ 53)
    (hs : s.length ≤ n) :
    SameUpTo n (decodeContent fuel depth s >>= fun t => .ok (mk t.1, t.2))
      (Python.decodeContent fuel depth s >>= fun t => .ok (mk t.1, t.2)) :=
  (ih depth s (by omega)).bind fun children _ hrest => .ok (mk children) (hrest.trans hs)

theorem decodeElement_same : SameElements (fuel + 1) := by
  intro depth s hlen
  unfold decodeElement Python.decodeElement
  split_ifs with hdepth
  · exact .raised _ _
  refine expect_same fun s₁ hs₁ => ?_
  subst hs₁
  rw [List.length_cons] at hlen ⊢
  refine (readEscaped_same .tag s₁).bind fun head s₂ hs₂ => ?_
  cases s₂ with
  | nil => exact .raised _ _
  | cons ch s₂ =>
    rw [List.length_cons] at hs₂
    have hn : s₁.length + 1 < 2 ^ 53 := hlen
    simp only [take_cons, ok_bind]
    by_cases hclose : ch = rbr
    · have hhead : (if head.length > 0 then [Node.text head] else []) =
          if head = [] then [] else [.text head] := by
        cases head <;> simp
      rw [if_pos hclose, if_pos hclose, hhead]
      exact .ok _ (by omega)
    rw [if_neg hclose, if_neg hclose]
    by_cases hopen : ch = lbr
    · rw [if_pos hopen, if_pos hopen]
      exact .raised _ _
    rw [if_neg hopen, if_neg hopen]
    by_cases hcom : ch = com
    swap
    · have hjs : expect com (ch :: s₂) = raised .expected := by simp [expect, take, hcom]
      rw [if_pos hcom, hjs]
      exact .raised _ _
    have hjs : expect com (ch :: s₂) = .ok s₂ := by simp [expect, take, hcom]
    rw [if_neg (not_not.mpr hcom), hjs, ok_bind]
    split_ifs with hbracket
    · refine (decodeAttrs_same s₂.tail).bind fun attrs s₃ hs₃ => ?_
      rw [List.length_tail] at hs₃
      cases s₃ with
      | nil => exact .raised _ _
      | cons ch s₃ =>
        rw [List.length_cons] at hs₃
        simp only [take_cons, ok_bind]
        split_ifs
        · exact filled_same ih (.element head attrs) hn (by omega)
        · exact .ok _ (by omega)
        · exact filled_same ih (.element head attrs) hn (by rw [List.length_cons]; omega)
    · exact filled_same ih (.element head []) hn (by omega)

theorem decodeContent_same (ihElement : SameElements fuel) : SameContent (fuel + 1) := by
  intro depth s hlen
  cases s with
  | nil => exact .raised _ _
  | cons c s =>
    unfold decodeContent Python.decodeContent
    split_ifs with hclose hopen hrun
    · exact .ok _ (by simp)
    · refine (ihElement (depth + 1) (c :: s) hlen).bind fun child s₁ hs₁ => ?_
      exact (ih depth s₁ (by omega)).bind fun children s₂ hs₂ => .ok _ (hs₂.trans hs₁)
    · obtain ⟨rfl, -⟩ := hrun
      rw [List.length_cons] at hlen ⊢
      refine (readBinary_same (s := s) (by omega)).bind fun run s₁ hs₁ => ?_
      exact (ih depth s₁ (by omega)).bind fun children s₂ hs₂ => .ok _ (by omega)
    · refine (readEscaped_same .text (c :: s)).bind fun text s₁ hs₁ => ?_
      refine (ih depth s₁ (by omega)).bind fun children s₂ hs₂ => ?_
      have htext : (if text.length > 0 then Node.text text :: children else children) =
          if text = [] then children else .text text :: children := by
        cases text <;> simp
      dsimp only
      rw [htext]
      exact .ok _ (hs₂.trans hs₁)

end Elements

/-- Both decoders build the same elements and contents. -/
theorem decode_same (fuel : Nat) : SameElements fuel ∧ SameContent fuel := by
  induction fuel with
  | zero => exact ⟨fun _ _ _ => .fuel, fun _ _ _ => .fuel⟩
  | succ fuel ih => exact ⟨decodeElement_same ih.2, decodeContent_same ih.2 ih.1⟩

theorem decodeRoots_same (fuel : Nat) {s : List UInt8} (hlen : s.length < 2 ^ 53) :
    outcome Stop.fail (decodeRoots fuel s) = outcome Stop.fail (Python.decodeRoots fuel s) := by
  induction fuel generalizing s with
  | zero => rfl
  | succ fuel ih =>
    cases s with
    | nil => rfl
    | cons c s =>
      have hroot := (decode_same (decodeFuel (c :: s))).1 0 (c :: s) hlen
      rw [decodeRoots, Python.decodeRoots, outcome_bind, outcome_bind, hroot.outcome_eq]
      cases hread : Python.decodeElement (decodeFuel (c :: s)) 0 (c :: s) with
      | error e => rfl
      | ok t =>
        have hrest := hroot.length_le t hread
        rw [outcome_ok, ok_bind, ok_bind, outcome_bind, outcome_bind, ih (by omega)]

end Elements

/-- On every input whose length a double holds, `decode` returns what the Python module returns, and
raises when that does. -/
theorem decode_outcome {s : List UInt8} (hlen : s.length < 2 ^ 53) :
    outcome Stop.fail (decode s) = outcome Stop.fail (Python.decode s) := by
  have hroot := (decode_same (decodeFuel s)).1 0 s hlen
  rw [decode, Python.decode, outcome_bind, outcome_bind, hroot.outcome_eq]

theorem decodeDocument_outcome {s : List UInt8} (hlen : s.length < 2 ^ 53) :
    outcome Stop.fail (decodeDocument s) = outcome Stop.fail (Python.decodeDocument s) :=
  decodeRoots_same _ hlen

end Terseml.Js
