import Triepack.Terseml.Grammar

/-!
# The decoder of the Python module

`_Reader` is the bytes from its cursor on. It reads what the C decoder reads, but keeps empty runs,
takes numbers of any size for what they are, and has a document without elements.
-/

namespace Terseml.Python

open Escape Triepack

/-- `TersemlError` of the decoder, by what its message says. -/
inductive DecodeError where
  | unexpectedEnd | expected | unterminatedElement | invalidEscape | truncatedVarint | longVarint | binaryClaim
  | unterminatedRun | invalidRunEscape | nesting | childWithoutComma | pairWithoutColon | trailingBytes
  deriving DecidableEq, Repr

/-- How a call ends when it does not return. -/
inductive Stop where
  | raised (e : DecodeError)
  | fuel
  deriving DecidableEq, Repr

@[simp] def Stop.fail : Stop → Fail
  | .raised _ => .rejected
  | .fuel => .fuel

def raised {α : Type} (e : DecodeError) : Except Stop α := .error (.raised e)

/-! ## Strings -/

/-- The loop of `_read_escaped`, from where the last escape ended. -/
def readEscapedLoop (stop : EscCtx) : (fuel : Nat) → List UInt8 → Except Stop (List UInt8 × List UInt8)
  | 0, _ => .error .fuel
  | fuel + 1, s =>
    let part := s.takeWhile fun c => !isReserved stop c
    match s.dropWhile fun c => !isReserved stop c with
    | [] => raised .unterminatedElement
    | c :: rest =>
      if c ≠ bs then .ok (part, c :: rest)
      else
        match rest with
        | [] => raised .invalidEscape
        | nxt :: rest =>
          if validEscape nxt then do
            let (parts, rest) ← readEscapedLoop stop fuel rest
            .ok (part ++ nxt :: parts, rest)
          else raised .invalidEscape

/-- `_read_escaped`. -/
def readEscaped (stop : EscCtx) (s : List UInt8) : Except Stop (List UInt8 × List UInt8) :=
  match s.dropWhile fun c => !isReserved stop c with
  | [] => raised .unterminatedElement
  | c :: rest =>
    if c ≠ bs then .ok (s.takeWhile fun c => !isReserved stop c, c :: rest)
    else readEscapedLoop stop (s.length + 1) s

/-- The loop of `_read_varint`, with what is left of its ten groups. -/
def readVarint : (groups shift n : Nat) → List UInt8 → Except Stop (Nat × List UInt8)
  | _, _, _, [] => raised .truncatedVarint
  | 0, _, _, _ :: _ => raised .longVarint
  | groups + 1, shift, n, b :: s =>
    let n := n ||| (b.toNat &&& 0x7F) <<< shift
    if b.toNat &&& 0x80 = 0 then .ok (n, s) else readVarint groups (shift + 7) n s

/-- The loop of `_read_binary`. -/
def readRunLoop : List UInt8 → Except Stop (List UInt8 × List UInt8)
  | [] => raised .unterminatedRun
  | [ch] => if ch = 0 then .ok ([], []) else if ch = bs then raised .unexpectedEnd else raised .unterminatedRun
  | ch :: nxt :: rest =>
    if ch = 0 then .ok ([], nxt :: rest)
    else if ch = bs then
      if nxt = digit0 then do
        let (out, rest) ← readRunLoop rest
        .ok (0 :: out, rest)
      else if nxt = bs then do
        let (out, rest) ← readRunLoop rest
        .ok (bs :: out, rest)
      else raised .invalidRunEscape
    else do
      let (out, rest) ← readRunLoop (nxt :: rest)
      .ok (ch :: out, rest)

/-- `_read_binary`, at its backslash. -/
def readBinary (s : List UInt8) : Except Stop (List UInt8 × List UInt8) :=
  match s.tail with
  | [] => raised .unexpectedEnd
  | kind :: s =>
    if kind = letterB then do
      let (n, s) ← readVarint 10 0 0 s
      if n > s.length then raised .binaryClaim else .ok (s.take n, s.drop n)
    else readRunLoop s

/-! ## Elements -/

/-- The loop of `_decode_element` over the attributes. -/
def decodeAttrsLoop : (fuel : Nat) → List UInt8 → Except Stop (List Attr × List UInt8)
  | 0, _ => .error .fuel
  | fuel + 1, s => do
    let (key, s) ← readEscaped .key s
    match s with
    | [] => raised .unexpectedEnd
    | ch :: s =>
      if ch ≠ col then raised .pairWithoutColon
      else do
        let (val, s) ← readEscaped .val s
        match s with
        | [] => raised .unexpectedEnd
        | ch :: s =>
          if ch = com then
            match s with
            | [] => raised .unexpectedEnd
            | ch :: s =>
              if ch = rsq then .ok ([⟨key, val⟩], ch :: s)
              else do
                let (attrs, s) ← decodeAttrsLoop fuel (ch :: s)
                .ok (⟨key, val⟩ :: attrs, s)
          else .ok ([⟨key, val⟩], ch :: s)

/-- `r.expect`. -/
def expect (want : UInt8) : List UInt8 → Except Stop (List UInt8)
  | [] => raised .unexpectedEnd
  | got :: s => if got = want then .ok s else raised .expected

/-- The attributes in `_decode_element`, behind their bracket. -/
def decodeAttrs (s : List UInt8) : Except Stop (List Attr × List UInt8) :=
  match s with
  | [] => raised .unexpectedEnd
  | ch :: _ => do
    let (attrs, s) ← if ch ≠ rsq then decodeAttrsLoop (s.length + 1) s else .ok ([], s)
    let s ← expect rsq s
    .ok (attrs, s)

mutual

/-- `_decode_element`. -/
def decodeElement : (fuel depth : Nat) → List UInt8 → Except Stop (Node × List UInt8)
  | 0, _, _ => .error .fuel
  | fuel + 1, depth, s =>
    if depth > maxDepth then raised .nesting
    else do
      let s ← expect lbr s
      let (head, s) ← readEscaped .tag s
      match s with
      | [] => raised .unexpectedEnd
      | ch :: s =>
        if ch = rbr then .ok (.element tagText [] (if head = [] then [] else [.text head]), s)
        else if ch = lbr then raised .childWithoutComma
        else if ch ≠ com then raised .expected
        else if s.head? = some lsq then do
          let (attrs, s) ← decodeAttrs s.tail
          match s with
          | [] => raised .unexpectedEnd
          | ch :: s =>
            if ch = com then do
              let (children, s) ← decodeContent fuel depth s
              .ok (.element head attrs children, s)
            else if ch = rbr then .ok (.element head attrs [], s)
            else do
              let (children, s) ← decodeContent fuel depth (ch :: s)
              .ok (.element head attrs children, s)
        else do
          let (children, s) ← decodeContent fuel depth s
          .ok (.element head [] children, s)

/-- The loop of `_decode_element` over the content. -/
def decodeContent : (fuel depth : Nat) → List UInt8 → Except Stop (List Node × List UInt8)
  | 0, _, _ => .error .fuel
  | _ + 1, _, [] => raised .unterminatedElement
  | fuel + 1, depth, ch :: rest =>
    if ch = rbr then .ok ([], rest)
    else if ch = lbr then do
      let (child, s) ← decodeElement fuel (depth + 1) (ch :: rest)
      let (children, s) ← decodeContent fuel depth s
      .ok (child :: children, s)
    else if ch = bs ∧ (rest.head? = some letterb ∨ rest.head? = some letterB) then do
      let (run, s) ← readBinary (ch :: rest)
      let (children, s) ← decodeContent fuel depth s
      .ok (.text run :: children, s)
    else do
      let (text, s) ← readEscaped .text (ch :: rest)
      let (children, s) ← decodeContent fuel depth s
      .ok (if text = [] then children else .text text :: children, s)

end

/-- `decode`. -/
def decode (buf : List UInt8) : Except Stop Node := do
  let (el, rest) ← decodeElement (decodeFuel buf) 0 buf
  if rest ≠ [] then raised .trailingBytes else .ok el

/-- The loop of `decode_document`. -/
def decodeRoots : (fuel : Nat) → List UInt8 → Except Stop (List Node)
  | 0, _ => .error .fuel
  | _ + 1, [] => .ok []
  | fuel + 1, c :: s => do
    let (el, rest) ← decodeElement (decodeFuel (c :: s)) 0 (c :: s)
    let out ← decodeRoots fuel rest
    .ok (el :: out)

/-- `decode_document`. -/
def decodeDocument (buf : List UInt8) : Except Stop (List Node) := decodeRoots (buf.length + 1) buf

/-! ## What the decoder reads -/

@[simp] theorem outcome_raised {α : Type} (e : DecodeError) :
    outcome Stop.fail (raised e : Except Stop α) = .error .rejected := rfl

section Strings

variable {ctx : EscCtx} {raw t rest s : List UInt8}

theorem readEscaped_eq_loop (ctx : EscCtx) (s : List UInt8) :
    readEscaped ctx s = readEscapedLoop ctx (s.length + 1) s := by
  rw [readEscaped, readEscapedLoop]
  cases hdrop : s.dropWhile fun c => !isReserved ctx c with
  | nil => rfl
  | cons c u =>
    dsimp only
    split_ifs
    · rfl
    · simp

/-- A byte that stands for itself is the first of what is read. -/
theorem readEscapedLoop_cons {c : UInt8} (hc : isReserved ctx c = false) (fuel : Nat) (s : List UInt8) :
    readEscapedLoop ctx (fuel + 1) (c :: s) =
      readEscapedLoop ctx (fuel + 1) s >>= fun t => .ok (c :: t.1, t.2) := by
  simp only [readEscapedLoop, List.takeWhile_cons, List.dropWhile_cons, hc, Bool.not_false, if_true]
  generalize s.dropWhile (fun c => !isReserved ctx c) = tail
  cases tail with
  | nil => rfl
  | cons b tail =>
    dsimp only
    split_ifs
    · rfl
    · cases tail with
      | nil => rfl
      | cons e tail =>
        dsimp only
        split_ifs
        · cases readEscapedLoop ctx fuel tail <;> rfl
        · rfl

theorem readEscapedLoop_run (h : Scheme.Run ctx.scheme raw t) (hrest : Scheme.Blocked ctx.scheme rest)
    {fuel : Nat} (hfuel : raw.length < fuel) :
    outcome Stop.fail (readEscapedLoop ctx fuel (raw ++ rest)) =
      if Ended rest then .ok (t, rest) else .error .rejected := by
  have hbs : isReserved ctx bs = true := by simp [isReserved]
  induction h generalizing fuel with
  | nil =>
    obtain ⟨fuel, rfl⟩ : ∃ f, fuel = f + 1 := ⟨fuel - 1, by omega⟩
    cases hrest with
    | nil => rfl
    | @stop c rest hesc hstop =>
      have hc : c ≠ bs := hesc
      have hres : isReserved ctx c = true := hstop
      simp [readEscapedLoop, hres, hc, Ended]
    | cut => simp [readEscapedLoop, EscCtx.scheme, hbs, Ended]
    | @unknown e rest hmeaning =>
      have he : validEscape e = false := by simpa [EscCtx.scheme] using hmeaning
      simp [readEscapedLoop, EscCtx.scheme, hbs, Ended, he]
  | @plain c raw t hesc hstop _ ih =>
    obtain ⟨fuel, rfl⟩ : ∃ f, fuel = f + 1 := ⟨fuel - 1, by omega⟩
    have hc : isReserved ctx c = false := hstop
    rw [List.cons_append, readEscapedLoop_cons hc, outcome_bind, ih (by simp at hfuel; omega)]
    split_ifs <;> rfl
  | @escaped e c raw t hmeaning _ ih =>
    obtain ⟨fuel, rfl⟩ : ∃ f, fuel = f + 1 := ⟨fuel - 1, by omega⟩
    obtain ⟨hvalid, rfl⟩ : validEscape e = true ∧ e = c := by
      simp only [EscCtx.scheme] at hmeaning
      split_ifs at hmeaning with hvalid
      exact ⟨hvalid, Option.some.inj hmeaning⟩
    have hlen : raw.length < fuel := by simp at hfuel; omega
    have hrec := ih hlen
    simp only [List.cons_append, EscCtx.scheme, readEscapedLoop, List.takeWhile_cons, List.dropWhile_cons, hbs,
      Bool.not_true, Bool.false_eq_true, if_false, ne_eq, not_true_eq_false, hvalid, if_true, outcome_bind, hrec,
      List.nil_append]
    split_ifs <;> rfl

theorem readEscaped_eq (ctx : EscCtx) (s : List UInt8) :
    outcome Stop.fail (readEscaped ctx s) = if Ended (ctx.scheme.split s).2.2 then
      .ok (copyRun (ctx.scheme.split s).1, (ctx.scheme.split s).2.2) else .error .rejected := by
  obtain ⟨raw, t, rest, hsplit, rfl, hrun, hblocked⟩ := Scheme.split_spec ctx.scheme s
  rw [readEscaped_eq_loop, readEscapedLoop_run hrun hblocked (by simp), hsplit, copyRun_of_run hrun]

theorem readRunLoop_run (h : Scheme.Run binScheme raw t) (hrest : Scheme.Blocked binScheme rest) :
    outcome Stop.fail (readRunLoop (raw ++ rest)) =
      if rest.head? = some 0 then .ok (t, rest.tail) else .error .rejected := by
  have hbs : bs ≠ 0 := by decide
  induction h with
  | nil =>
    cases hrest with
    | nil => rfl
    | @stop c rest hesc hstop =>
      obtain rfl : c = 0 := by simpa [binScheme] using hstop
      cases rest <;> simp [readRunLoop]
    | cut => simp [readRunLoop, binScheme, hbs]
    | @unknown e rest hmeaning =>
      obtain ⟨hzero, he⟩ : e ≠ digit0 ∧ e ≠ bs := by
        simp only [binScheme, binescape] at hmeaning
        split_ifs at hmeaning with hzero he
        exact ⟨hzero, he⟩
      simp [readRunLoop, binScheme, hzero, he, hbs]
  | @plain c raw t hesc hstop _ ih =>
    have hc : c ≠ bs := hesc
    have hzero : c ≠ 0 := by simpa [binScheme] using hstop
    rw [List.cons_append]
    generalize hrow : raw ++ rest = row at ih ⊢
    cases row with
    | nil =>
      obtain ⟨-, rfl⟩ := List.append_eq_nil_iff.mp hrow
      simp [readRunLoop, hzero, hc]
    | cons e row =>
      simp only [readRunLoop, if_neg hzero, if_neg hc, outcome_bind, ih]
      split_ifs <;> rfl
  | @escaped e c raw t hmeaning _ ih =>
    simp only [List.cons_append, binScheme, readRunLoop, if_neg hbs, if_true]
    simp only [binScheme, binescape] at hmeaning
    split_ifs at hmeaning with hzero hesc
    · obtain rfl := Option.some.inj hmeaning
      rw [if_pos hzero, outcome_bind, ih]
      split_ifs <;> rfl
    · obtain rfl := Option.some.inj hmeaning
      rw [if_neg hzero, if_pos hesc, outcome_bind, ih]
      split_ifs <;> rfl

theorem readRunLoop_eq (s : List UInt8) :
    outcome Stop.fail (readRunLoop s) = if (binScheme.split s).2.2.head? = some 0 then
      .ok (copyBinary (binScheme.split s).1, (binScheme.split s).2.2.tail) else .error .rejected := by
  obtain ⟨raw, t, rest, hsplit, rfl, hrun, hblocked⟩ := Scheme.split_spec binScheme s
  rw [readRunLoop_run hrun hblocked, hsplit, copyBinary_of_run hrun]

/-- The number at the front of the bytes is read as it is, if it has few enough groups. -/
theorem readVarint_eq {groups shift n : Nat} (hn : n < 2 ^ shift) (s : List UInt8) :
    outcome Stop.fail (readVarint groups shift n s) =
      match Leb128.takeCode s with
      | none => .error .rejected
      | some (code, rest) =>
        if code.length ≤ groups then .ok (n + Leb128.byteValue code * 2 ^ shift, rest)
        else .error .rejected := by
  induction s generalizing groups shift n with
  | nil => cases groups <;> rfl
  | cons b s ih =>
    cases groups with
    | zero =>
      cases htake : Leb128.takeCode (b :: s) with
      | none => rfl
      | some t =>
        have hpos := (Leb128.isCode_of_takeCode htake).1.length_pos
        simp [readVarint, show t.1 ≠ [] from List.ne_nil_of_length_pos hpos]
    | succ groups =>
      have hb : b.toNat < 256 := b.toNat_lt
      have hlast : b < 128 ↔ b.toNat < 128 := UInt8.lt_iff_toNat_lt
      have hor : n ||| (b.toNat % 128) <<< shift = n + b.toNat % 128 * 2 ^ shift := by
        rw [Nat.shiftLeft_eq, Nat.or_comm, Nat.mul_comm, ← Nat.two_pow_add_eq_or_of_lt hn, Nat.add_comm]
      simp only [readVarint, Leb128.takeCode, and_seven_bits, and_continuation hb, hor, hlast]
      split_ifs with h128
      · simp [Leb128.byteValue, Leb128.value]
      · have hpow : 2 ^ (shift + 7) = 128 * 2 ^ shift := by rw [pow_add]; ring
        have hmod : b.toNat % 128 * 2 ^ shift ≤ 127 * 2 ^ shift := Nat.mul_le_mul_right _ (by omega)
        rw [ih (by omega)]
        cases Leb128.takeCode s with
        | none => rfl
        | some t =>
          have hval : n + b.toNat % 128 * 2 ^ shift + Leb128.byteValue t.1 * 2 ^ (shift + 7) =
              n + Leb128.byteValue (b :: t.1) * 2 ^ shift := by
            rw [Leb128.byteValue_cons, hpow]
            ring
          simp [hval]

theorem readBinary_counted (s : List UInt8) :
    outcome Stop.fail (readBinary (bs :: letterB :: s)) = (readCounted .python s).map fun t =>
      (match t.1 with | .counted _ payload => payload | _ => [], t.2) := by
  have hread := @readVarint_eq 10 0 0 (by simp) s
  simp only [readBinary, List.tail_cons, if_true, outcome_bind, hread, readCounted, Dialect.python, id]
  cases Leb128.takeCode s with
  | none => rfl
  | some t =>
    obtain ⟨code, rest⟩ := t
    dsimp only
    rw [Nat.zero_add, pow_zero, Nat.mul_one]
    by_cases hgroups : code.length ≤ 10
    · by_cases hlen : Leb128.byteValue code ≤ rest.length
      · simp [hgroups, hlen, Nat.not_lt.mpr hlen, Except.map]
      · simp [hgroups, hlen, Nat.not_le.mp hlen, Except.map]
    · simp [hgroups, Except.map, bind, Except.bind]

end Strings

/-- What is behind the loop does not touch the attributes. -/
theorem expect_cons {α : Type} (x : Except Stop (List α × List UInt8)) (a : α) :
    ((x >>= fun t => .ok (a :: t.1, t.2)) >>= fun t => expect rsq t.2 >>= fun s => .ok (t.1, s)) =
      (x >>= fun t => expect rsq t.2 >>= fun s => .ok (t.1, s)) >>= fun t => .ok (a :: t.1, t.2) := by
  cases x with
  | error e => rfl
  | ok t =>
    simp only [ok_bind]
    cases expect rsq t.2 <;> rfl

/-- The loop and the test behind it read the pairs up to their bracket. -/
theorem decodeAttrsLoop_eq {fuel : Nat} {s : List UInt8} (hfuel : s.length < fuel) :
    outcome Stop.fail (decodeAttrsLoop fuel s >>= fun t => expect rsq t.2 >>= fun s => .ok (t.1, s)) =
      (readPairs fuel s).map fun t => (attrsOf t.1.1, t.2) := by
  induction fuel generalizing s with
  | zero => omega
  | succ fuel ih =>
    have hbs : bs ≠ col ∧ bs ≠ rsq ∧ bs ≠ com := by decide
    have hne : com ≠ rsq := by decide
    have hlen := split_length_le .key s
    obtain ⟨k, kt, s₁, hk⟩ : ∃ k kt s₁, EscCtx.key.scheme.split s = (k, kt, s₁) := ⟨_, _, _, rfl⟩
    have hkey := readEscaped_eq .key s
    rw [hk] at hlen
    rw [decodeAttrsLoop, readPairs, bind_assoc, outcome_bind, hkey, hk]
    dsimp only at hlen ⊢
    cases s₁ with
    | nil => rfl
    | cons c s₁ =>
      by_cases hend : c = bs
      · subst hend
        simp [Ended, hbs.1, Except.map, bind, Except.bind]
      rw [if_pos (ended_cons.mpr hend), ok_bind]
      dsimp only
      by_cases hcol : c = col
      swap
      · simp [hcol, Except.map, raised, bind, Except.bind, outcome]
      obtain ⟨v, vt, s₂, hv⟩ : ∃ v vt s₂, EscCtx.val.scheme.split s₁ = (v, vt, s₂) := ⟨_, _, _, rfl⟩
      have hval := readEscaped_eq .val s₁
      have hlen' := split_length_le .val s₁
      rw [hv] at hlen'
      simp only [hcol, ne_eq, not_true_eq_false, if_false, if_true]
      rw [bind_assoc, outcome_bind, hval, hv]
      dsimp only
      cases s₂ with
      | nil => rfl
      | cons c s₂ =>
        by_cases hend : c = bs
        · subst hend
          simp [Ended, hbs.2.1, hbs.2.2, Except.map, bind, Except.bind]
        rw [if_pos (ended_cons.mpr hend), ok_bind]
        dsimp only
        by_cases hcom : c = com
        · subst hcom
          simp only [if_true, if_neg hne]
          cases s₂ with
          | nil =>
            obtain ⟨fuel, rfl⟩ : ∃ f, fuel = f + 1 := ⟨fuel - 1, by simp at hlen hlen'; omega⟩
            rfl
          | cons c s₂ =>
            by_cases hlast : c = rsq
            · simp [hlast, expect, Except.map, attrsOf]
            · simp only [hlast, if_false, List.head?_cons, Option.some.injEq]
              rw [expect_cons, outcome_bind, ih (by simp at hlen hlen' ⊢; omega)]
              cases readPairs fuel (c :: s₂) <;> rfl
        · by_cases hclose : c = rsq
          · subst hclose
            simp [hne.symm, expect, Except.map, attrsOf]
          · simp [hcom, hclose, expect, Except.map, raised, bind, Except.bind, outcome]

theorem decodeAttrs_eq (s : List UInt8) :
    outcome Stop.fail (decodeAttrs s) = (readAttrs s).map fun t => (attrsOf t.1.1, t.2) := by
  rw [readAttrs]
  cases s with
  | nil => rfl
  | cons c s =>
    by_cases hc : c = rsq
    · simp [decodeAttrs, hc, expect, Except.map, attrsOf]
    · have hloop := decodeAttrsLoop_eq (Nat.lt_succ_self (c :: s).length)
      simp only [decodeAttrs, ne_eq, hc, not_false_eq_true, if_true, List.head?_cons, Option.some.injEq, if_false]
      exact hloop

/-! ## Elements with their empty runs -/

mutual

/-- The nodes that an item stands for here: an empty run stands for an empty text. -/
def keptNodes : Item → List Node
  | .text raw => textNode (copyRun raw)
  | .terminated raw => [.text (copyBinary raw)]
  | .counted _ payload => [.text payload]
  | .singleton head content => [.element tagText [] (textNode (copyRun head) ++ keptContent content)]
  | .plain tag content => [.element (copyRun tag) [] (keptContent content)]
  | .attributed tag pairs _ _ content => [.element (copyRun tag) (attrsOf pairs) (keptContent content)]

def keptContent : List Item → List Node
  | [] => []
  | i :: is => keptNodes i ++ keptContent is

end

def Built (t : Node × List UInt8) (u : Item × List UInt8) : Prop := keptNodes u.1 = [t.1] ∧ t.2 = u.2

def BuiltContent (t : List Node × List UInt8) (u : List Item × List UInt8) : Prop :=
  keptContent u.1 = t.1 ∧ t.2 = u.2

theorem readBinary_reads {c : UInt8} {s : List UInt8}
    (hc : c = bs ∧ (s.head? = some letterb ∨ s.head? = some letterB)) :
    Reads Stop.fail (fun t u => keptNodes u.1 = [.text t.1] ∧ t.2 = u.2) (readBinary (c :: s))
      (readRun .python (c :: s)) := by
  have hne : letterB ≠ letterb := by decide
  obtain ⟨rfl, hs | hs⟩ := hc
  · obtain ⟨s, rfl⟩ := List.head?_eq_some_iff.mp hs
    have hloop : outcome Stop.fail (readBinary (bs :: letterb :: s)) = _ := readRunLoop_eq s
    have hread : readRun .python (bs :: letterb :: s) = readTerminated s := by simp [readRun]
    rw [hread, readTerminated]
    by_cases hzero : (binScheme.split s).2.2.head? = some 0
    · simp only [hzero, if_true] at hloop ⊢
      exact reads_ok hloop ⟨by rw [keptNodes], rfl⟩
    · simp only [hzero, if_false] at hloop ⊢
      exact reads_error hloop
  · obtain ⟨s, rfl⟩ := List.head?_eq_some_iff.mp hs
    have hread : readRun .python (bs :: letterB :: s) = readCounted .python s := by simp [readRun, hne]
    rw [hread]
    refine (reads_of_outcome (readBinary_counted s)).mono fun t u hu htu => ?_
    obtain ⟨varint, payload, hitem⟩ := readCounted_eq_ok hu
    rw [htu, hitem]
    exact ⟨by rw [keptNodes], rfl⟩

theorem readEscaped_reads {c : UInt8} {s : List UInt8} (hopen : c ≠ lbr) (hclose : c ≠ rbr)
    (hc : ¬ (c = bs ∧ (s.head? = some letterb ∨ s.head? = some letterB))) :
    Reads Stop.fail (fun t u => keptNodes u.1 = textNode t.1 ∧ t.2 = u.2) (readEscaped .text (c :: s))
      (readRun .python (c :: s)) := by
  have hread := readRun_text (D := .python) rfl hopen hclose hc
  have htext := readEscaped_eq .text (c :: s)
  rw [hread]
  by_cases hend : Ended (EscCtx.text.scheme.split (c :: s)).2.2
  · rw [if_pos hend] at htext ⊢
    exact reads_ok htext ⟨by rw [keptNodes], rfl⟩
  · rw [if_neg hend] at htext ⊢
    exact reads_error htext

/-- With so much fuel the decoder builds the elements that the reader finds, unless the reader runs out of it. -/
def ElementReads (fuel : Nat) : Prop :=
  ∀ (depth : Nat) (s : List UInt8), readElement .python maxDepth fuel depth s ≠ .error .fuel →
    Reads Stop.fail Built (decodeElement fuel depth s) (readElement .python maxDepth fuel depth s)

/-- And their content. -/
def ContentReads (fuel : Nat) : Prop :=
  ∀ (depth : Nat) (s : List UInt8), readContent .python maxDepth fuel depth s ≠ .error .fuel →
    Reads Stop.fail BuiltContent (decodeContent fuel depth s) (readContent .python maxDepth fuel depth s)

/-- What the reader does behind the attributes of an element. -/
def readBehindAttrs (fuel depth : Nat) (tag : List UInt8) (pairs : List (List UInt8 × List UInt8))
    (trailing : Bool) (s : List UInt8) : Except Fail (Item × List UInt8) := do
  let (o, s) ← (if s.head? = some com then .ok ((.attributed tag pairs trailing true [], true), s.tail)
    else if s.head? = some rbr then .ok ((.attributed tag pairs trailing false [], false), s.tail)
    else if Dialect.python.bareContent then .ok ((.attributed tag pairs trailing false [], true), s)
    else .error .rejected : Except Fail ((Item × Bool) × List UInt8))
  if o.2 then do
    let (content, s) ← readContent .python maxDepth fuel depth s
    .ok (o.1.fill content, s)
  else .ok (o.1, s)

section Elements

variable {fuel depth : Nat} (ih : ContentReads fuel)

include ih

/-- The content of an element whose tag and attributes have been read. -/
theorem filled_reads {s : List UInt8} {mk : List Node → Node} {i : Item}
    (hi : ∀ is, keptNodes (i.fill is) = [mk (keptContent is)])
    (hne : (readContent .python maxDepth fuel depth s >>= fun t => .ok (i.fill t.1, t.2)) ≠ .error .fuel) :
    Reads Stop.fail Built
      (decodeContent fuel depth s >>= fun t => .ok (mk t.1, t.2))
      (readContent .python maxDepth fuel depth s >>= fun t => .ok (i.fill t.1, t.2)) := by
  refine Reads.bind_of_ne_fuel hne (ih depth s) fun t u htu _ => ⟨?_, htu.2⟩
  rw [hi, htu.1]

/-- An element with attributes, from behind their bracket on. -/
theorem behindAttrs_reads {tag s : List UInt8} {pairs : List (List UInt8 × List UInt8)} {trailing : Bool} :
    readBehindAttrs fuel depth tag pairs trailing s ≠ .error .fuel → Reads Stop.fail Built
      (match s with
        | [] => raised .unexpectedEnd
        | ch :: s =>
          if ch = com then do
            let (children, s) ← decodeContent fuel depth s
            .ok (.element (copyRun tag) (attrsOf pairs) children, s)
          else if ch = rbr then .ok (.element (copyRun tag) (attrsOf pairs) [], s)
          else do
            let (children, s) ← decodeContent fuel depth (ch :: s)
            .ok (.element (copyRun tag) (attrsOf pairs) children, s))
      (readBehindAttrs fuel depth tag pairs trailing s) := by
  intro hne
  have hnodes : ∀ comma is, keptNodes ((Item.attributed tag pairs trailing comma []).fill is) =
      [.element (copyRun tag) (attrsOf pairs) (keptContent is)] := fun comma is => by
    rw [Item.fill, keptNodes]
  unfold readBehindAttrs at hne ⊢
  cases s with
  | nil =>
    cases fuel with
    | zero => exact absurd rfl hne
    | succ fuel => rfl
  | cons c s =>
    simp only [List.head?_cons, Option.some.injEq, List.tail_cons] at hne ⊢
    by_cases hcomma : c = com
    · simp only [if_pos hcomma] at hne ⊢
      exact filled_reads ih (hnodes true) hne
    by_cases hend : c = rbr
    · simp only [if_neg hcomma, if_pos hend] at hne ⊢
      exact ⟨hnodes false [], rfl⟩
    · simp only [if_neg hcomma, if_neg hend] at hne ⊢
      exact filled_reads ih (hnodes false) hne

theorem decodeElement_reads : ElementReads (fuel + 1) := by
  intro depth s hne
  rw [decodeElement]
  rw [readElement] at hne ⊢
  by_cases hdepth : depth > maxDepth
  · rw [if_pos hdepth, if_pos hdepth]
    rfl
  rw [if_neg hdepth] at hne ⊢
  rw [if_neg hdepth]
  by_cases hhead : s.head? = some lbr
  swap
  · rw [readOpening, if_neg hhead]
    cases s with
    | nil => rfl
    | cons c s =>
      have hc : c ≠ lbr := fun h => hhead (by rw [h]; rfl)
      rw [expect, if_neg hc]
      rfl
  obtain ⟨s, rfl⟩ := List.head?_eq_some_iff.mp hhead
  obtain ⟨tag, tagBytes, s₁, hsplit⟩ : ∃ raw t s₁, EscCtx.tag.scheme.split s = (raw, t, s₁) := ⟨_, _, _, rfl⟩
  have htag := readEscaped_eq .tag s
  simp only [hsplit] at htag
  simp only [readOpening, expect, List.head?_cons, if_true, List.tail_cons, hsplit, ok_bind] at hne ⊢
  cases s₁ with
  | nil =>
    obtain ⟨e, htag, he⟩ := exists_error_of_outcome htag
    rw [htag]
    exact he
  | cons c s₁ =>
    by_cases hbs : c = bs
    · -- an escape that is none ends the tag for neither of them
      subst hbs
      have hend : ¬ Ended (bs :: s₁) := by simp [Ended]
      have hne : bs ≠ rbr ∧ bs ≠ com := by decide
      rw [if_neg hend] at htag
      obtain ⟨e, htag, he⟩ := exists_error_of_outcome htag
      rw [htag]
      simp only [if_neg hne.1, if_neg hne.2]
      exact he
    rw [if_pos (ended_cons.mpr hbs)] at htag
    rw [eq_ok_of_outcome htag]
    simp only [ok_bind] at hne ⊢
    by_cases hclose : c = rbr
    · simp only [if_pos hclose, ok_bind]
      refine ⟨?_, rfl⟩
      simp [keptNodes, keptContent, textNode]
    simp only [if_neg hclose] at hne ⊢
    by_cases hcom : c = com
    swap
    · simp only [Dialect.python, Bool.false_eq_true, if_false, ne_eq, hcom, not_false_eq_true, if_true]
      split_ifs <;> rfl
    have hopen : com ≠ lbr := by decide
    simp only [hcom, if_neg hopen, ne_eq, not_true_eq_false, if_false, if_true] at hne ⊢
    by_cases hbracket : s₁.head? = some lsq
    swap
    · simp only [if_neg hbracket, ok_bind, if_true] at hne ⊢
      exact @filled_reads _ _ ih _ _ (.plain tag []) (fun is => by rw [Item.fill, keptNodes]) hne
    obtain ⟨s₂, rfl⟩ := List.head?_eq_some_iff.mp hbracket
    simp only [List.head?_cons, if_true, List.tail_cons, bind_assoc] at hne ⊢
    refine Reads.bind_of_ne_fuel hne (fun _ => reads_of_outcome (decodeAttrs_eq s₂)) ?_
    rintro _ ⟨⟨pairs, trailing⟩, s₃⟩ rfl hne
    exact behindAttrs_reads ih hne

/-- A child and what is behind it; `add` puts the nodes of the child before the others. -/
theorem child_reads {α : Type} {x : Except Stop (α × List UInt8)} {y : Except Fail (Item × List UInt8)}
    {add : α → List Node → List Node}
    (hne : (y >>= fun t => readContent .python maxDepth fuel depth t.2 >>= fun u => .ok (t.1 :: u.1, u.2)) ≠
      .error .fuel)
    (h : y ≠ .error .fuel →
      Reads Stop.fail (fun t u => (∀ ns, add t.1 ns = keptNodes u.1 ++ ns) ∧ t.2 = u.2) x y) :
    Reads Stop.fail BuiltContent
      (x >>= fun t => decodeContent fuel depth t.2 >>= fun u => .ok (add t.1 u.1, u.2))
      (y >>= fun t => readContent .python maxDepth fuel depth t.2 >>= fun u => .ok (t.1 :: u.1, u.2)) := by
  refine Reads.bind_of_ne_fuel hne h ?_
  rintro ⟨child, s₁⟩ ⟨i, s₂⟩ ⟨hnodes, hrest⟩ hne
  obtain rfl : s₁ = s₂ := hrest
  refine Reads.bind_of_ne_fuel hne (ih depth s₁) ?_
  rintro ⟨kids, s₂⟩ ⟨is, s₃⟩ ⟨hkids, hrest⟩ -
  refine ⟨?_, hrest⟩
  dsimp only at hnodes hkids ⊢
  rw [keptContent, hnodes, hkids]

theorem decodeContent_reads (ihElement : ElementReads fuel) : ContentReads (fuel + 1) := by
  intro depth s hne
  cases s with
  | nil => rfl
  | cons c s =>
    rw [decodeContent]
    rw [readContent] at hne ⊢
    by_cases hclose : c = rbr
    · rw [if_pos hclose, if_pos hclose]
      exact ⟨rfl, rfl⟩
    rw [if_neg hclose] at hne ⊢
    rw [if_neg hclose]
    by_cases hopen : c = lbr
    · rw [if_pos hopen] at hne ⊢
      rw [if_pos hopen]
      refine @child_reads _ _ ih _ _ _ List.cons hne fun hread => ?_
      refine (ihElement (depth + 1) (c :: s) hread).mono fun t u _ htu => ⟨fun ns => ?_, htu.2⟩
      rw [htu.1]
      rfl
    rw [if_neg hopen] at hne ⊢
    rw [if_neg hopen]
    by_cases hc : c = bs ∧ (s.head? = some letterb ∨ s.head? = some letterB)
    · rw [if_pos hc]
      refine @child_reads _ _ ih _ _ _ (fun run => List.cons (.text run)) hne fun _ => ?_
      refine (readBinary_reads hc).mono fun t u _ htu => ⟨fun ns => ?_, htu.2⟩
      rw [htu.1]
      rfl
    · rw [if_neg hc]
      refine @child_reads _ _ ih _ _ _ (fun text ns => if text = [] then ns else .text text :: ns) hne fun _ => ?_
      refine (readEscaped_reads hopen hclose hc).mono fun t u _ htu => ⟨fun ns => ?_, htu.2⟩
      rw [htu.1, textNode]
      split_ifs <;> rfl

end Elements

/-- The decoder builds the nodes of the items that the reader finds. -/
theorem decode_reads (fuel : Nat) : ElementReads fuel ∧ ContentReads fuel := by
  induction fuel with
  | zero => exact ⟨fun _ _ _ => rfl, fun _ _ _ => rfl⟩
  | succ fuel ih => exact ⟨decodeElement_reads ih.2, decodeContent_reads ih.2 ih.1⟩

theorem decodeRoots_reads (fuel : Nat) (s : List UInt8) :
    Reads Stop.fail (fun ns is => keptContent is = ns) (decodeRoots fuel s)
      (readRoots .python maxDepth fuel s) := by
  induction fuel generalizing s with
  | zero => rfl
  | succ fuel ih =>
    cases s with
    | nil => rfl
    | cons c s =>
      rw [decodeRoots, readRoots]
      refine ((decode_reads _).1 0 (c :: s) (readElement_ne_fuel _)).bind ?_
      rintro ⟨n, s₁⟩ ⟨i, s₂⟩ ⟨hnodes, hrest⟩
      obtain rfl : s₁ = s₂ := hrest
      refine (ih s₁).bind ?_
      rintro ns is rfl
      have hnodes : keptNodes i = [n] := hnodes
      show keptContent (i :: is) = n :: keptContent is
      rw [keptContent, hnodes]
      rfl

section Runs

variable {s : List UInt8} {n : Node}

/-- `decode` accepts the elements that are well formed and not too deep. -/
theorem decode_eq_ok : decode s = .ok n ↔
    ∃ i : Item, i.IsRoot .python maxDepth ∧ s = i.bytes ∧ keptNodes i = [n] := by
  have hreads := (decode_reads (decodeFuel s)).1 0 s (readElement_ne_fuel s)
  rw [decode]
  constructor
  · intro h
    obtain ⟨⟨root, rest⟩, hroot, h⟩ := bind_eq_ok.mp h
    rw [hroot] at hreads
    obtain ⟨⟨i, rest'⟩, hread, hnodes, hrest⟩ := hreads.of_ok
    obtain rfl : rest = rest' := hrest
    dsimp only at h
    split_ifs at h with hend
    · simp [raised] at h
    · obtain rfl : root = n := Except.ok.inj h
      obtain ⟨hroot, hs⟩ := readElement_eq_ok.mp hread
      exact ⟨i, hroot, by rw [hs, not_not.mp hend, List.append_nil], hnodes⟩
  · rintro ⟨i, hroot, hs, hnodes⟩
    rw [readElement_eq_ok.mpr ⟨hroot, by rw [hs, List.append_nil]⟩] at hreads
    obtain ⟨⟨n', rest⟩, hdecode, hnodes', hrest⟩ := hreads.of_read
    obtain rfl : rest = [] := hrest
    have hn : [n'] = [n] := hnodes'.symm.trans hnodes
    rw [hdecode, List.singleton_inj.mp hn]
    rfl

/-- `decode_document` accepts any number of elements. -/
theorem decodeDocument_eq_ok {ns : List Node} : decodeDocument s = .ok ns ↔
    ∃ is : List Item, (∀ i ∈ is, i.IsRoot .python maxDepth) ∧ s = contentBytes is ∧ keptContent is = ns := by
  have hreads := decodeRoots_reads (s.length + 1) s
  rw [decodeDocument]
  constructor
  · intro h
    rw [h] at hreads
    obtain ⟨is, hread, hnodes⟩ := hreads.of_ok
    obtain ⟨his, hs⟩ := (readRoots_eq_ok (Nat.lt_succ_self _)).mp hread
    exact ⟨is, his, hs, hnodes⟩
  · rintro ⟨is, his, hs, hnodes⟩
    rw [(readRoots_eq_ok (Nat.lt_succ_self _)).mpr ⟨his, hs⟩] at hreads
    obtain ⟨ns', hdecode, hnodes'⟩ := hreads.of_read
    rw [hdecode, ← hnodes, hnodes']

end Runs

end Terseml.Python
