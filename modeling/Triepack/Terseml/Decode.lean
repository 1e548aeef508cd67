import Mathlib.Data.List.TakeWhile
import Triepack.Bitstream.Varint
import Triepack.Terseml.ReaderSound

/-!
# The C decoder

`rdr` is the bytes from its cursor on. A node points into the buffer or at a copy; here it holds
the bytes.
-/

namespace Terseml

open Escape Triepack

/-- How a call ends when not with `TSML_OK`. -/
inductive TsmlStop where
  | rc (code : TsmlErr)
  | fuel
  deriving DecidableEq, Repr

def malformed {α : Type} : Except TsmlStop α := .error (.rc .malformed)

/-! ## Strings -/

/-- The loop of `read_escaped` that finds the end of a run with escapes: the run, and what is
behind it. -/
def measureEscaped (ctx : EscCtx) : List UInt8 → Except TsmlStop (List UInt8 × List UInt8)
  | [] => malformed
  | [c] => if c = bs then malformed else if isReserved ctx c then .ok ([], [c]) else malformed
  | c :: e :: rest =>
    if c = bs then
      if validEscape e then do
        let (run, rest) ← measureEscaped ctx rest
        .ok (c :: e :: run, rest)
      else malformed
    else if isReserved ctx c then .ok ([], c :: e :: rest)
    else do
      let (run, rest) ← measureEscaped ctx (e :: rest)
      .ok (c :: run, rest)

/-- `read_escaped`. -/
def readEscaped (ctx : EscCtx) (s : List UInt8) : Except TsmlStop (List UInt8 × List UInt8) :=
  let head := s.takeWhile fun c => c != bs && !isReserved ctx c
  let tail := s.dropWhile fun c => c != bs && !isReserved ctx c
  match tail with
  | [] => malformed
  | c :: _ =>
    if c ≠ bs then .ok (head, tail)
    else do
      let (run, rest) ← measureEscaped ctx tail
      .ok (copyRun (head ++ run), rest)

/-- The loop of `read_binary` that reads a length, with what is left of its ten groups. -/
def readVarint : (groups shift claim : Nat) → List UInt8 → Except TsmlStop (Nat × List UInt8)
  | 0, _, _, _ => malformed
  | _ + 1, _, _, [] => malformed
  | groups + 1, shift, claim, c :: s =>
    let claim := claim ||| u64 ((c.toNat &&& 0x7F) <<< shift)
    if c.toNat &&& 0x80 = 0 then .ok (claim, s) else readVarint groups (shift + 7) claim s

/-- The loop of `read_binary` that measures a run with escapes. -/
def measureBinary : List UInt8 → Except TsmlStop Unit
  | [] => malformed
  | [c] => if c = 0 then .ok () else malformed
  | c :: e :: rest =>
    if c = 0 then .ok ()
    else if c = bs then
      if e = digit0 ∨ e = bs then measureBinary rest else malformed
    else measureBinary (e :: rest)

/-- The loop of `read_binary` that copies a run up to its NUL. -/
def copyTerminated : List UInt8 → Except TsmlStop (List UInt8 × List UInt8)
  | [] => malformed
  | [c] => if c = 0 then .ok ([], []) else malformed
  | c :: e :: rest =>
    if c = 0 then .ok ([], e :: rest)
    else if c = bs then
      if e = digit0 then do
        let (t, rest) ← copyTerminated rest
        .ok (0 :: t, rest)
      else if e = bs then do
        let (t, rest) ← copyTerminated rest
        .ok (bs :: t, rest)
      else malformed
    else do
      let (t, rest) ← copyTerminated (e :: rest)
      .ok (c :: t, rest)

/-- `read_binary`, at its backslash. -/
def readBinary (s : List UInt8) : Except TsmlStop (List UInt8 × List UInt8) :=
  match s.tail with
  | [] => malformed
  | kind :: s =>
    if kind = letterB then do
      let (claim, s) ← readVarint 10 0 0 s
      if claim > s.length then malformed else .ok (s.take claim, s.drop claim)
    else if kind ≠ letterb then malformed
    else
      let head := s.takeWhile fun c => c != 0 && c != bs
      let tail := s.dropWhile fun c => c != 0 && c != bs
      if tail.head? = some 0 then .ok (head, tail.tail)
      else do
        measureBinary s
        copyTerminated s

/-! ## Elements -/

/-- The loop of `decode_attrs`. -/
def decodeAttrsLoop : (fuel : Nat) → List UInt8 → Except TsmlStop (List Attr × List UInt8)
  | 0, _ => .error .fuel
  | fuel + 1, s => do
    let (key, s) ← readEscaped .key s
    if s.head? ≠ some col then malformed
    else do
      let (val, s) ← readEscaped .val s.tail
      if s.head? = some com then
        if s.tail.head? = some rsq then .ok ([⟨key, val⟩], s.tail)
        else do
          let (attrs, s) ← decodeAttrsLoop fuel s.tail
          .ok (⟨key, val⟩ :: attrs, s)
      else .ok ([⟨key, val⟩], s)

/-- `decode_attrs`, at its bracket. -/
def decodeAttrs (s : List UInt8) : Except TsmlStop (List Attr × List UInt8) :=
  (if s.tail.head?.any (· != rsq) then decodeAttrsLoop (s.tail.length + 1) s.tail else .ok ([], s.tail)) >>=
    fun t => if t.2.head? = some rsq then .ok (t.1, t.2.tail) else malformed

mutual

/-- `decode_element`. -/
def decodeElement : (fuel depth : Nat) → List UInt8 → Except TsmlStop (Node × List UInt8)
  | 0, _, _ => .error .fuel
  | fuel + 1, depth, s =>
    if depth > maxDepth then .error (.rc .depth)
    else if s.head? ≠ some lbr then malformed
    else do
      let (head, s) ← readEscaped .tag s.tail
      match s with
      | [] => malformed
      | c :: s =>
        if c = rbr then .ok (.element tagText [] (if head = [] then [] else [.text head]), s)
        else if c = lbr then malformed
        else if c ≠ com then malformed
        else if s.head? = some lsq then do
          let (attrs, s) ← decodeAttrs s
          if s.head? = some com then do
            let (children, s) ← decodeChildren fuel depth s.tail
            .ok (.element head attrs children, s)
          else if s.head? = some rbr then .ok (.element head attrs [], s.tail)
          else do
            let (children, s) ← decodeChildren fuel depth s
            .ok (.element head attrs children, s)
        else do
          let (children, s) ← decodeChildren fuel depth s
          .ok (.element head [] children, s)

/-- `decode_children`. -/
def decodeChildren : (fuel depth : Nat) → List UInt8 → Except TsmlStop (List Node × List UInt8)
  | 0, _, _ => .error .fuel
  | _ + 1, _, [] => malformed
  | fuel + 1, depth, c :: rest =>
    if c = rbr then .ok ([], rest)
    else if c = lbr then do
      let (child, s) ← decodeElement fuel (depth + 1) (c :: rest)
      let (kids, s) ← decodeChildren fuel depth s
      .ok (child :: kids, s)
    else
      (if c = bs ∧ (rest.head? = some letterb ∨ rest.head? = some letterB) then readBinary (c :: rest)
      else readEscaped .text (c :: rest)) >>= fun t => do
        let (kids, s) ← decodeChildren fuel depth t.2
        .ok (if t.1 = [] then kids else .text t.1 :: kids, s)

end

/-- `tsml_decode`; the result is the root of the document. -/
def tsmlDecode (s : List UInt8) : Except TsmlStop Node := do
  let (root, rest) ← decodeElement (decodeFuel s) 0 s
  if rest ≠ [] then malformed else .ok root

/-- The loop of `tsml_decode_document`. -/
def decodeRoots : (fuel : Nat) → List UInt8 → Except TsmlStop (List Node)
  | 0, _ => .error .fuel
  | _ + 1, [] => .ok []
  | fuel + 1, c :: s => do
    let (node, rest) ← decodeElement (decodeFuel (c :: s)) 0 (c :: s)
    let roots ← decodeRoots fuel rest
    .ok (node :: roots)

/-- `tsml_decode_document`; the result is the roots of the document. -/
def tsmlDecodeDocument (s : List UInt8) : Except TsmlStop (List Node) := do
  let roots ← decodeRoots (s.length + 1) s
  if roots = [] then malformed else .ok roots

/-! ## What the decoder reads -/

/-- A call that fails rejects the bytes, whatever the code. -/
@[simp] def TsmlStop.fail : TsmlStop → Fail
  | .rc _ => .rejected
  | .fuel => .fuel

@[simp] theorem outcome_malformed {α : Type} :
    outcome TsmlStop.fail (malformed : Except TsmlStop α) = .error .rejected := rfl

section Strings

variable {ctx : EscCtx} {raw t rest s : List UInt8}

/-- The byte that ends a run is not the backslash of an escape that is none. -/
def Ended (rest : List UInt8) : Prop := rest.head?.any (· != bs)

instance : DecidablePred Ended := fun _ => inferInstanceAs (Decidable (_ = true))

theorem measureEscaped_run (h : Scheme.Run ctx.scheme raw t) (hrest : Scheme.Blocked ctx.scheme rest) :
    measureEscaped ctx (raw ++ rest) = if Ended rest then .ok (raw, rest) else malformed := by
  induction h with
  | nil =>
    cases hrest with
    | nil => rfl
    | @stop c rest hesc hstop =>
      have hc : c ≠ bs := hesc
      have hres : isReserved ctx c = true := hstop
      cases rest <;> simp [measureEscaped, hc, hres, Ended]
    | cut => simp [measureEscaped, EscCtx.scheme, Ended]
    | @unknown e rest hmeaning =>
      have he : validEscape e = false := by simpa [EscCtx.scheme] using hmeaning
      simp [measureEscaped, EscCtx.scheme, Ended, he]
  | @plain c raw t hesc hstop _ ih =>
    have hc : c ≠ bs := hesc
    have hres : isReserved ctx c = false := hstop
    rw [List.cons_append]
    generalize hrow : raw ++ rest = row at ih ⊢
    cases row with
    | nil =>
      obtain ⟨-, rfl⟩ := List.append_eq_nil_iff.mp hrow
      simp [measureEscaped, hc, hres, Ended]
    | cons e row =>
      simp only [measureEscaped, if_neg hc, hres, Bool.false_eq_true, if_false, ih]
      split_ifs <;> rfl
  | @escaped e c raw t hmeaning _ ih =>
    have he : validEscape e = true := by
      by_contra hno
      simp [EscCtx.scheme, hno] at hmeaning
    simp only [List.cons_append, EscCtx.scheme, measureEscaped, if_true, he, ih]
    split_ifs <;> rfl

/-- A byte that stands for itself is the first of what is read. -/
theorem readEscaped_cons {c : UInt8} (hc : (c != bs && !isReserved ctx c) = true) (s : List UInt8) :
    readEscaped ctx (c :: s) = readEscaped ctx s >>= fun t => .ok (c :: t.1, t.2) := by
  have hne : c ≠ bs := by
    rintro rfl
    simp at hc
  have hcopy : ∀ run, copyRun (c :: run) = c :: copyRun run := fun run => by
    cases run <;> simp [copyRun, hne]
  simp only [readEscaped, List.takeWhile_cons, List.dropWhile_cons, hc, if_true]
  generalize s.dropWhile (fun c => c != bs && !isReserved ctx c) = tail
  cases tail with
  | nil => rfl
  | cons b tail =>
    dsimp only
    split_ifs
    · rfl
    · cases measureEscaped ctx (b :: tail) with
      | error e => rfl
      | ok t => simp [hcopy]

/-- A string is read up to the byte that ends its run. -/
theorem readEscaped_run (h : Scheme.Run ctx.scheme raw t) (hrest : Scheme.Blocked ctx.scheme rest) :
    readEscaped ctx (raw ++ rest) = if Ended rest then .ok (t, rest) else malformed := by
  induction h with
  | nil =>
    cases hrest with
    | nil => rfl
    | @stop c rest hesc hstop =>
      have hc : c ≠ bs := hesc
      have hres : isReserved ctx c = true := hstop
      simp [readEscaped, hc, hres, Ended]
    | cut => simp [readEscaped, measureEscaped, EscCtx.scheme, Ended, malformed, bind, Except.bind]
    | @unknown e rest hmeaning =>
      have he : validEscape e = false := by simpa [EscCtx.scheme] using hmeaning
      simp [readEscaped, measureEscaped, EscCtx.scheme, Ended, malformed, bind, Except.bind, he]
  | @plain c raw t hesc hstop hrun ih =>
    have hc : (c != bs && !isReserved ctx c) = true := by
      have hne : c ≠ bs := hesc
      have hres : isReserved ctx c = false := hstop
      simp [hne, hres]
    rw [List.cons_append, readEscaped_cons hc, ih]
    split_ifs <;> rfl
  | @escaped e c raw t hmeaning hrun _ =>
    have hmeasure := measureEscaped_run (.escaped hmeaning hrun) hrest
    have hcopy := copyRun_of_run (.escaped hmeaning hrun)
    simp only [List.cons_append] at hmeasure
    have hstop : ((bs != bs) && !isReserved ctx bs) = false := by simp
    simp only [List.cons_append, readEscaped, EscCtx.scheme, List.takeWhile_cons, List.dropWhile_cons, hstop,
      Bool.false_eq_true, if_false, ne_eq, not_true_eq_false, List.nil_append] at hmeasure hcopy ⊢
    rw [hmeasure]
    split_ifs
    · simp [hcopy]
    · rfl

theorem readEscaped_eq (ctx : EscCtx) (s : List UInt8) :
    readEscaped ctx s = if Ended (ctx.scheme.split s).2.2 then
      .ok (copyRun (ctx.scheme.split s).1, (ctx.scheme.split s).2.2) else malformed := by
  obtain ⟨raw, t, rest, hsplit, rfl, hrun, hblocked⟩ := Scheme.split_spec ctx.scheme s
  rw [hsplit, readEscaped_run hrun hblocked, copyRun_of_run hrun]

/-- The first pass of `read_binary` over a run with escapes finds what the second one copies. -/
theorem measureBinary_run (h : Scheme.Run binScheme raw t) (hrest : Scheme.Blocked binScheme rest) :
    measureBinary (raw ++ rest) = if rest.head? = some 0 then .ok () else malformed := by
  induction h with
  | nil =>
    cases hrest with
    | nil => rfl
    | @stop c rest hesc hstop =>
      obtain rfl : c = 0 := by simpa [binScheme] using hstop
      cases rest <;> simp [measureBinary]
    | cut => simp [measureBinary, binScheme]
    | @unknown e rest hmeaning =>
      obtain ⟨hzero, hbs⟩ : e ≠ digit0 ∧ e ≠ bs := by
        simp only [binScheme, binescape] at hmeaning
        split_ifs at hmeaning with hzero hbs
        exact ⟨hzero, hbs⟩
      simp [measureBinary, binScheme, hzero, hbs]
  | @plain c raw t hesc hstop _ ih =>
    have hc : c ≠ bs := hesc
    have hzero : c ≠ 0 := by simpa [binScheme] using hstop
    rw [List.cons_append]
    generalize hrow : raw ++ rest = row at ih ⊢
    cases row with
    | nil =>
      obtain ⟨-, rfl⟩ := List.append_eq_nil_iff.mp hrow
      simp [measureBinary, hzero]
    | cons e row => simp only [measureBinary, if_neg hzero, if_neg hc, ih]
  | @escaped e c raw t hmeaning _ ih =>
    have hbs : bs ≠ 0 := by decide
    have he : e = digit0 ∨ e = bs := by
      simp only [binScheme, binescape] at hmeaning
      split_ifs at hmeaning with hzero hesc
      · exact .inl hzero
      · exact .inr hesc
    simp only [List.cons_append, binScheme, measureBinary, if_neg hbs, if_true, if_pos he, ih]

theorem copyTerminated_run (h : Scheme.Run binScheme raw t) (hrest : Scheme.Blocked binScheme rest) :
    copyTerminated (raw ++ rest) = if rest.head? = some 0 then .ok (t, rest.tail) else malformed := by
  induction h with
  | nil =>
    cases hrest with
    | nil => rfl
    | @stop c rest hesc hstop =>
      obtain rfl : c = 0 := by simpa [binScheme] using hstop
      cases rest <;> simp [copyTerminated]
    | cut => simp [copyTerminated, binScheme]
    | @unknown e rest hmeaning =>
      obtain ⟨hzero, hbs⟩ : e ≠ digit0 ∧ e ≠ bs := by
        simp only [binScheme, binescape] at hmeaning
        split_ifs at hmeaning with hzero hbs
        exact ⟨hzero, hbs⟩
      simp [copyTerminated, binScheme, hzero, hbs]
  | @plain c raw t hesc hstop _ ih =>
    have hc : c ≠ bs := hesc
    have hzero : c ≠ 0 := by simpa [binScheme] using hstop
    rw [List.cons_append]
    generalize hrow : raw ++ rest = row at ih ⊢
    cases row with
    | nil =>
      obtain ⟨-, rfl⟩ := List.append_eq_nil_iff.mp hrow
      simp [copyTerminated, hzero]
    | cons e row =>
      simp only [copyTerminated, if_neg hzero, if_neg hc, ih]
      split_ifs <;> rfl
  | @escaped e c raw t hmeaning _ ih =>
    have hbs : bs ≠ 0 := by decide
    simp only [List.cons_append, binScheme, copyTerminated, if_neg hbs, if_true, ih]
    simp only [binScheme, binescape] at hmeaning
    split_ifs at hmeaning with hzero hesc
    · obtain rfl := Option.some.inj hmeaning
      rw [if_pos hzero]
      split_ifs <;> rfl
    · obtain rfl := Option.some.inj hmeaning
      rw [if_neg hzero, if_pos hesc]
      split_ifs <;> rfl

theorem readBinary_terminated (s : List UInt8) :
    readBinary (bs :: letterb :: s) = if (binScheme.split s).2.2.head? = some 0 then
      .ok (copyBinary (binScheme.split s).1, (binScheme.split s).2.2.tail) else malformed := by
  obtain ⟨raw, t, rest, hsplit, hs, hrun, hblocked⟩ := Scheme.split_spec binScheme s
  have hslow : (do measureBinary s; copyTerminated s) =
      if rest.head? = some 0 then .ok (t, rest.tail) else malformed := by
    rw [hs, measureBinary_run hrun hblocked, copyTerminated_run hrun hblocked]
    split_ifs <;> rfl
  have hletter : letterb ≠ letterB := by decide
  simp only [readBinary, List.tail_cons, if_neg hletter, ne_eq, not_true_eq_false, if_false, hsplit,
    copyBinary_of_run hrun]
  split
  · rename_i hzero
    obtain ⟨u, hu⟩ := List.head?_eq_some_iff.mp hzero
    have hplain : Scheme.Run binScheme (s.takeWhile fun c => c != 0 && c != bs)
        (s.takeWhile fun c => c != 0 && c != bs) := .of_plain fun c hc => by
      have hp := List.mem_takeWhile_imp hc
      simp only [Bool.and_eq_true, bne_iff_ne] at hp
      exact ⟨hp.2, by simpa [binScheme] using hp.1⟩
    have hsplit' : (s.takeWhile fun c => c != 0 && c != bs) ++ 0 :: u = raw ++ rest := by
      rw [← hs, ← hu, List.takeWhile_append_dropWhile]
    obtain ⟨rfl, rfl, rfl⟩ := hplain.unique hrun (.stop (by decide) (by decide)) hblocked hsplit'
    rw [hu, List.head?_cons, if_pos rfl]
  · exact hslow

/-- A group joins the groups below it, and what is above 64 bits is lost. -/
theorem or_shifted {claim g shift : Nat} (hclaim : claim < 2 ^ shift) (hshift : shift ≤ 64) :
    claim ||| u64 (g <<< shift) = u64 (claim + g * 2 ^ shift) := by
  have hpow : 2 ^ 64 = 2 ^ (64 - shift) * 2 ^ shift := by rw [← pow_add, Nat.sub_add_cancel hshift]
  have hlow : g * 2 ^ shift % 2 ^ 64 = g % 2 ^ (64 - shift) * 2 ^ shift := by
    rw [hpow, Nat.mul_mod_mul_right]
  have hlt : g % 2 ^ (64 - shift) < 2 ^ (64 - shift) := Nat.mod_lt _ (by positivity)
  have hle : (g % 2 ^ (64 - shift) + 1) * 2 ^ shift ≤ 2 ^ 64 := by
    rw [hpow]
    exact Nat.mul_le_mul_right _ hlt
  have hsum : claim + g % 2 ^ (64 - shift) * 2 ^ shift < 2 ^ 64 := by
    rw [Nat.add_mul, Nat.one_mul] at hle
    omega
  rw [Nat.shiftLeft_eq, u64, u64, hlow, ← Nat.add_mod_mod, hlow, Nat.mod_eq_of_lt hsum, Nat.or_comm,
    Nat.mul_comm, ← Nat.two_pow_add_eq_or_of_lt hclaim, Nat.add_comm]

/-- The number at the front of the bytes is read modulo `2 ^ 64`, if it has few enough groups. -/
theorem readVarint_eq {groups shift claim : Nat} (hsum : shift + 7 * groups = 70)
    (hclaim : claim < 2 ^ shift) (s : List UInt8) :
    readVarint groups shift claim s =
      match Leb128.takeCode s with
      | none => malformed
      | some (code, rest) =>
        if code.length ≤ groups then .ok (u64 (claim + Leb128.byteValue code * 2 ^ shift), rest)
        else malformed := by
  induction groups generalizing shift claim s with
  | zero =>
    cases htake : Leb128.takeCode s with
    | none => rfl
    | some t =>
      have hpos := (Leb128.isCode_of_takeCode htake).1.length_pos
      simp [readVarint, show t.1 ≠ [] from List.ne_nil_of_length_pos hpos]
  | succ groups ih =>
    cases s with
    | nil => rfl
    | cons c s =>
      have hc : c.toNat < 256 := c.toNat_lt
      have hlast : c < 128 ↔ c.toNat < 128 := UInt8.lt_iff_toNat_lt
      simp only [readVarint, Leb128.takeCode, and_seven_bits, and_continuation hc,
        or_shifted hclaim (by omega : shift ≤ 64), hlast]
      split_ifs with h128
      · simp [Leb128.byteValue, Leb128.value]
      · rcases Nat.eq_zero_or_pos groups with rfl | hpos
        · cases htake : Leb128.takeCode s with
          | none => rfl
          | some t =>
            have hlen := (Leb128.isCode_of_takeCode htake).1.length_pos
            simp [readVarint, show t.1 ≠ [] from List.ne_nil_of_length_pos hlen]
        · have hpow : 2 ^ (shift + 7) = 128 * 2 ^ shift := by rw [pow_add]; ring
          have hmod : c.toNat % 128 * 2 ^ shift ≤ 127 * 2 ^ shift := Nat.mul_le_mul_right _ (by omega)
          have hclaim' : claim + c.toNat % 128 * 2 ^ shift < 2 ^ (shift + 7) := by omega
          have hle : 2 ^ (shift + 7) ≤ 2 ^ 64 := Nat.pow_le_pow_right (by omega) (by omega)
          rw [u64_of_lt (hclaim'.trans_le hle), ih (by omega) hclaim']
          cases Leb128.takeCode s with
          | none => rfl
          | some t =>
            have hval : claim + c.toNat % 128 * 2 ^ shift + Leb128.byteValue t.1 * 2 ^ (shift + 7) =
                claim + Leb128.byteValue (c :: t.1) * 2 ^ shift := by
              rw [Leb128.byteValue_cons, hpow]
              ring
            simp [hval]

theorem readCounted_eq_ok {D : Dialect} {i : Item} (h : readCounted D s = .ok (i, rest)) :
    ∃ varint payload, i = .counted varint payload := by
  rw [readCounted] at h
  split at h
  · simp at h
  · dsimp only at h
    split_ifs at h
    simp only [Except.ok.injEq, Prod.mk.injEq] at h
    exact ⟨_, _, h.1.symm⟩

theorem readBinary_counted (s : List UInt8) :
    outcome TsmlStop.fail (readBinary (bs :: letterB :: s)) = (readCounted .c s).map fun t =>
      (match t.1 with | .counted _ payload => payload | _ => [], t.2) := by
  have hread := @readVarint_eq 10 0 0 rfl (by simp) s
  simp only [readBinary, List.tail_cons, if_true, hread, readCounted, Dialect.c]
  cases Leb128.takeCode s with
  | none => rfl
  | some t =>
    obtain ⟨code, rest⟩ := t
    dsimp only
    rw [Nat.zero_add, pow_zero, Nat.mul_one]
    by_cases hgroups : code.length ≤ 10
    · by_cases hlen : u64 (Leb128.byteValue code) ≤ rest.length
      · simp [hgroups, hlen, Nat.not_lt.mpr hlen, Except.map]
      · simp [hgroups, hlen, Nat.not_le.mp hlen, Except.map]
    · simp [hgroups, Except.map, malformed, bind, Except.bind, outcome]

end Strings

/-! ## Elements -/

theorem ended_cons {c : UInt8} {s : List UInt8} : Ended (c :: s) ↔ c ≠ bs := by simp [Ended]

theorem not_ended_nil : ¬ Ended [] := by simp [Ended]

/-- The attributes that pairs stand for. -/
def attrsOf (pairs : List (List UInt8 × List UInt8)) : List Attr :=
  pairs.map fun p => ⟨copyRun p.1, copyRun p.2⟩

/-- The loop and the test behind it read the pairs up to their bracket. -/
theorem decodeAttrsLoop_eq (fuel : Nat) (s : List UInt8) :
    outcome TsmlStop.fail (decodeAttrsLoop fuel s >>= fun t =>
      if t.2.head? = some rsq then .ok (t.1, t.2.tail) else malformed) =
      (readPairs fuel s).map fun t => (attrsOf t.1.1, t.2) := by
  induction fuel generalizing s with
  | zero => rfl
  | succ fuel ih =>
    rw [decodeAttrsLoop, readPairs, readEscaped_eq]
    generalize EscCtx.key.scheme.split s = k
    obtain ⟨k, kt, s₁⟩ := k
    cases s₁ with
    | nil => rfl
    | cons c s₁ =>
      have hbs : bs ≠ col ∧ bs ≠ rsq ∧ bs ≠ com := by decide
      by_cases hc : c = col
      swap
      · by_cases hend : Ended (c :: s₁)
        · simp [hc, hend, Except.map, malformed, bind, Except.bind, outcome]
        · simp [hc, hend, Except.map, malformed, bind, Except.bind, outcome]
      subst hc
      simp only [if_pos (ended_cons.mpr hbs.1.symm), ok_bind, List.head?_cons, ne_eq, not_true_eq_false,
        if_false, List.tail_cons, if_true, readEscaped_eq]
      obtain ⟨v, vt, s₂, hv⟩ : ∃ v vt s₂, EscCtx.val.scheme.split s₁ = (v, vt, s₂) := ⟨_, _, _, rfl⟩
      simp only [hv]
      cases s₂ with
      | nil => rfl
      | cons c s₂ =>
        by_cases hend : c = bs
        · subst hend
          simp [Ended, hbs.2.1, hbs.2.2, Except.map, malformed, bind, Except.bind, outcome]
        simp only [if_pos (ended_cons.mpr hend), ok_bind, List.head?_cons, List.tail_cons,
          Option.some.injEq]
        have hne : com ≠ rsq := by decide
        by_cases hcom : c = com
        · subst hcom
          by_cases hlast : s₂.head? = some rsq
          · simp [hlast, hne, Except.map, attrsOf]
          · have hih := ih s₂
            simp only [if_true, if_neg hne, hlast, if_false]
            cases hloop : decodeAttrsLoop fuel s₂ with
            | error e =>
              rw [hloop] at hih
              cases hpairs : readPairs fuel s₂ with
              | error e' =>
                rw [hpairs] at hih
                rcases e with _ | _ <;> exact hih
              | ok t => rcases e with _ | _ <;> simp [hpairs, Except.map, bind, Except.bind, outcome] at hih
            | ok t =>
              obtain ⟨attrs, s₃⟩ := t
              rw [hloop] at hih
              simp only [ok_bind] at hih ⊢
              by_cases hbracket : s₃.head? = some rsq
              · simp only [if_pos hbracket, outcome_ok] at hih ⊢
                cases hpairs : readPairs fuel s₂ with
                | error e => simp [hpairs, Except.map] at hih
                | ok t =>
                  simp only [hpairs, Except.map, Except.ok.injEq, Prod.mk.injEq] at hih
                  simp [Except.map, hih, attrsOf]
              · simp only [if_neg hbracket, outcome_malformed] at hih ⊢
                cases hpairs : readPairs fuel s₂ with
                | error e =>
                  rw [hpairs] at hih
                  exact hih
                | ok t => simp [hpairs, Except.map] at hih
        · by_cases hclose : c = rsq
          · subst hclose
            simp [hne.symm, Except.map, attrsOf]
          · simp [hcom, hclose, Except.map]

theorem decodeAttrs_eq (s : List UInt8) :
    outcome TsmlStop.fail (decodeAttrs (lsq :: s)) = (readAttrs s).map fun t => (attrsOf t.1.1, t.2) := by
  rw [decodeAttrs, readAttrs, List.tail_cons]
  obtain rfl | ⟨c, s, rfl⟩ := eq_nil_or_cons s
  · rfl
  by_cases hc : c = rsq
  · simp [hc, Except.map, attrsOf]
  · simp only [List.head?_cons, Option.any_some, bne_iff_ne, ne_eq, hc, not_false_eq_true, if_true,
      Option.some.injEq, if_false]
    exact decodeAttrsLoop_eq _ _

/-- The decoder has built the nodes of the item that has been read. -/
def Built (t : Node × List UInt8) (u : Item × List UInt8) : Prop := u.1.nodes = [t.1] ∧ t.2 = u.2

/-- The decoder has built the nodes of the content that has been read. -/
def BuiltContent (t : List Node × List UInt8) (u : List Item × List UInt8) : Prop :=
  contentNodes u.1 = t.1 ∧ t.2 = u.2

/-- What is no brace and introduces no other run is the beginning of a text. -/
theorem readRun_text {D : Dialect} (hD : D.runAfterText = false) {c : UInt8} {s : List UInt8} (hopen : c ≠ lbr)
    (hclose : c ≠ rbr) (hc : ¬ (c = bs ∧ (s.head? = some letterb ∨ s.head? = some letterB))) :
    readRun D (c :: s) = if Ended (EscCtx.text.scheme.split (c :: s)).2.2 then
      .ok (.text (EscCtx.text.scheme.split (c :: s)).1, (EscCtx.text.scheme.split (c :: s)).2.2)
      else .error .rejected := by
  have hb : ¬ (c = bs ∧ s.head? = some letterb) := by tauto
  have hB : ¬ (c = bs ∧ s.head? = some letterB) := by tauto
  obtain ⟨raw, t, rest, hsplit⟩ : ∃ raw t rest, EscCtx.text.scheme.split (c :: s) = (raw, t, rest) := ⟨_, _, _, rfl⟩
  obtain ⟨heq, -, hblocked⟩ := split_eq hsplit
  simp only [readRun, List.head?_cons, Option.some.injEq, List.tail_cons, if_neg hb, if_neg hB, readText, hsplit,
    hD, Bool.false_eq_true, false_or]
  by_cases hend : Ended rest
  · have hraw : raw ≠ [] := by
      rintro rfl
      rw [List.nil_append] at heq
      subst heq
      cases hblocked with
      | stop hesc hstop =>
        have hesc : c ≠ bs := hesc
        have hstop : isReserved .text c = true := hstop
        simp [isReserved, hesc, hopen, hclose] at hstop
      | cut => simp [Ended, EscCtx.scheme] at hend
      | unknown => simp [Ended, EscCtx.scheme] at hend
    have hany : rest.head?.any (· != bs) = true := hend
    simp only [if_pos hend, if_neg hraw, hany, if_true]
  · have hany : rest.head?.any (· != bs) = false := Bool.eq_false_iff.mpr hend
    simp only [if_neg hend, hany, Bool.false_eq_true, if_false, ite_self]

/-- A run is read as the text that it stands for. -/
theorem readRun_reads (c : UInt8) (s : List UInt8) (hopen : c ≠ lbr) (hclose : c ≠ rbr) :
    Reads TsmlStop.fail (fun t u => u.1.nodes = textNode t.1 ∧ t.2 = u.2)
      (if c = bs ∧ (s.head? = some letterb ∨ s.head? = some letterB) then readBinary (c :: s)
        else readEscaped .text (c :: s))
      (readRun .c (c :: s)) := by
  have hne : letterB ≠ letterb := by decide
  by_cases hletter : c = bs ∧ (s.head? = some letterb ∨ s.head? = some letterB)
  · rw [if_pos hletter]
    obtain ⟨rfl, hs | hs⟩ := hletter
    · obtain ⟨s, rfl⟩ := List.head?_eq_some_iff.mp hs
      have hread : readRun .c (bs :: letterb :: s) = readTerminated s := by simp [readRun]
      rw [hread, readTerminated, readBinary_terminated]
      by_cases hzero : (binScheme.split s).2.2.head? = some 0
      · simp only [hzero, if_true]
        exact ⟨by rw [Item.nodes], rfl⟩
      · simp only [hzero, if_false]
        rfl
    · obtain ⟨s, rfl⟩ := List.head?_eq_some_iff.mp hs
      have hread : readRun .c (bs :: letterB :: s) = readCounted .c s := by simp [readRun, hne]
      rw [hread]
      refine (reads_of_outcome (readBinary_counted s)).mono fun t u hu htu => ?_
      obtain ⟨varint, payload, hitem⟩ := readCounted_eq_ok hu
      rw [htu, hitem]
      exact ⟨by rw [Item.nodes], rfl⟩
  · rw [if_neg hletter, readRun_text rfl hopen hclose hletter, readEscaped_eq]
    split_ifs
    · exact ⟨by rw [Item.nodes], rfl⟩
    · rfl

/-- With so much fuel the decoder builds the elements that the reader finds. -/
def ElementReads (fuel : Nat) : Prop :=
  ∀ (depth : Nat) (s : List UInt8), Reads TsmlStop.fail Built (decodeElement fuel depth s)
    (readElement .c maxDepth fuel depth s)

/-- And their content. -/
def ContentReads (fuel : Nat) : Prop :=
  ∀ (depth : Nat) (s : List UInt8), Reads TsmlStop.fail BuiltContent (decodeChildren fuel depth s)
    (readContent .c maxDepth fuel depth s)

section Elements

variable {fuel : Nat} (ih : ContentReads fuel)

include ih

/-- The content of an element whose tag and attributes have been read. -/
theorem filled_reads {depth : Nat} {s : List UInt8} {mk : List Node → Node} {i : Item}
    (hi : ∀ is, (i.fill is).nodes = [mk (contentNodes is)]) :
    Reads TsmlStop.fail Built
      (decodeChildren fuel depth s >>= fun t => .ok (mk t.1, t.2))
      (readContent .c maxDepth fuel depth s >>= fun t => .ok (i.fill t.1, t.2)) := by
  refine (ih depth s).bind fun t u htu => ⟨?_, htu.2⟩
  rw [hi, htu.1]

theorem decodeElement_reads : ElementReads (fuel + 1) := by
  intro depth s
  rw [decodeElement, readElement]
  split_ifs with hdepth hhead
  · rfl
  · rw [readOpening, if_neg hhead]
    rfl
  obtain ⟨s, rfl⟩ := List.head?_eq_some_iff.mp (not_not.mp hhead)
  obtain ⟨tag, tagBytes, s₁, hsplit⟩ : ∃ raw t s₁, EscCtx.tag.scheme.split s = (raw, t, s₁) := ⟨_, _, _, rfl⟩
  simp only [readOpening, List.head?_cons, if_true, List.tail_cons, readEscaped_eq, hsplit]
  cases s₁ with
  | nil => rfl
  | cons c s₁ =>
    by_cases hbs : c = bs
    · -- an escape that is none ends the tag for neither of them
      subst hbs
      have hend : ¬ Ended (bs :: s₁) := by simp [Ended]
      have hne : bs ≠ rbr ∧ bs ≠ com := by decide
      rw [if_neg hend]
      simp only [if_neg hne.1, if_neg hne.2]
      rfl
    rw [if_pos (ended_cons.mpr hbs)]
    simp only [ok_bind]
    by_cases hclose : c = rbr
    · simp only [if_pos hclose, ok_bind]
      refine ⟨?_, rfl⟩
      simp [Item.nodes, contentNodes, textNode]
    simp only [if_neg hclose]
    by_cases hcom : c = com
    swap
    · simp only [Dialect.c, Bool.false_eq_true, if_false, ne_eq, hcom, not_false_eq_true, if_true]
      split_ifs <;> rfl
    have hopen : com ≠ lbr := by decide
    simp only [hcom, if_neg hopen, ne_eq, not_true_eq_false, if_false, if_true]
    by_cases hbracket : s₁.head? = some lsq
    swap
    · simp only [if_neg hbracket, ok_bind, if_true]
      exact @filled_reads _ ih _ _ _ (.plain tag []) fun is => by rw [Item.fill, Item.nodes]
    obtain ⟨s₂, rfl⟩ := List.head?_eq_some_iff.mp hbracket
    simp only [List.head?_cons, if_true, List.tail_cons, bind_assoc]
    refine (reads_of_outcome (decodeAttrs_eq s₂)).bind ?_
    rintro _ ⟨⟨pairs, trailing⟩, s₃⟩ rfl
    dsimp only
    have hnodes : ∀ comma is, ((Item.attributed tag pairs trailing comma []).fill is).nodes =
        [.element (copyRun tag) (attrsOf pairs) (contentNodes is)] := fun comma is => by
      rw [Item.fill, Item.nodes]
      rfl
    split_ifs with hcomma hend hbare
    · exact filled_reads ih (hnodes true)
    · exact ⟨hnodes false [], rfl⟩
    · exact filled_reads ih (hnodes false)
    · exact absurd rfl hbare

theorem decodeChildren_reads (ihElement : ElementReads fuel) : ContentReads (fuel + 1) := by
  intro depth s
  cases s with
  | nil => rfl
  | cons c s =>
    rw [decodeChildren, readContent]
    by_cases hclose : c = rbr
    · rw [if_pos hclose, if_pos hclose]
      exact ⟨rfl, rfl⟩
    rw [if_neg hclose, if_neg hclose]
    by_cases hopen : c = lbr
    · rw [if_pos hopen, if_pos hopen]
      refine (ihElement (depth + 1) (c :: s)).bind ?_
      rintro ⟨child, s₁⟩ ⟨i, s₂⟩ ⟨hnodes, hrest⟩
      obtain rfl : s₁ = s₂ := hrest
      refine (ih depth s₁).bind ?_
      rintro ⟨kids, s₂⟩ ⟨is, s₃⟩ ⟨hkids, hrest⟩
      refine ⟨?_, hrest⟩
      rw [contentNodes, hnodes, hkids]
      rfl
    · rw [if_neg hopen, if_neg hopen]
      refine (readRun_reads c s hopen hclose).bind ?_
      rintro ⟨run, s₁⟩ ⟨i, s₂⟩ ⟨hnodes, hrest⟩
      obtain rfl : s₁ = s₂ := hrest
      refine (ih depth s₁).bind ?_
      rintro ⟨kids, s₂⟩ ⟨is, s₃⟩ ⟨hkids, hrest⟩
      refine ⟨?_, hrest⟩
      dsimp only at hnodes hkids ⊢
      rw [contentNodes, hnodes, hkids, textNode]
      split_ifs <;> rfl

end Elements

theorem decode_reads (fuel : Nat) : ElementReads fuel ∧ ContentReads fuel := by
  induction fuel with
  | zero => exact ⟨fun _ _ => rfl, fun _ _ => rfl⟩
  | succ fuel ih => exact ⟨decodeElement_reads ih.2, decodeChildren_reads ih.2 ih.1⟩

theorem decodeRoots_reads (fuel : Nat) (s : List UInt8) :
    Reads TsmlStop.fail (fun ns is => contentNodes is = ns) (decodeRoots fuel s)
      (readRoots .c maxDepth fuel s) := by
  induction fuel generalizing s with
  | zero => rfl
  | succ fuel ih =>
    cases s with
    | nil => rfl
    | cons c s =>
      rw [decodeRoots, readRoots]
      refine ((decode_reads _).1 0 (c :: s)).bind ?_
      rintro ⟨n, s₁⟩ ⟨i, s₂⟩ ⟨hnodes, hrest⟩
      obtain rfl : s₁ = s₂ := hrest
      refine (ih s₁).bind ?_
      rintro ns is rfl
      have hnodes : i.nodes = [n] := hnodes
      show contentNodes (i :: is) = n :: contentNodes is
      rw [contentNodes, hnodes]
      rfl

/-! ## Runs of the decoder -/

section Runs

variable {s rest : List UInt8} {n : Node} {i : Item}

/-- `tsml_decode` accepts the elements that are well formed and not too deep. -/
theorem tsmlDecode_eq_ok : tsmlDecode s = .ok n ↔
    ∃ i : Item, i.IsRoot .c maxDepth ∧ s = i.bytes ∧ i.nodes = [n] := by
  have hreads := (decode_reads (decodeFuel s)).1 0 s
  rw [tsmlDecode]
  constructor
  · intro h
    obtain ⟨⟨root, rest⟩, hroot, h⟩ := bind_eq_ok.mp h
    rw [hroot] at hreads
    obtain ⟨⟨i, rest'⟩, hread, hnodes, hrest⟩ := hreads.of_ok
    obtain rfl : rest = rest' := hrest
    dsimp only at h
    split_ifs at h with hend
    · simp [malformed] at h
    · obtain rfl : root = n := Except.ok.inj h
      obtain ⟨hroot, hs⟩ := readElement_eq_ok.mp hread
      exact ⟨i, hroot, by rw [hs, not_not.mp hend, List.append_nil], hnodes⟩
  · rintro ⟨i, hroot, hs, hnodes⟩
    rw [readElement_eq_ok.mpr ⟨hroot, by rw [hs, List.append_nil]⟩] at hreads
    obtain ⟨⟨n', rest⟩, hdecode, hnodes', hrest⟩ := hreads.of_read
    obtain rfl : rest = [] := hrest
    have hn : [n'] = [n] := hnodes'.symm.trans hnodes
    rw [hdecode, List.singleton_inj.mp hn]
    rfl

theorem tsmlDecode_ne_fuel : tsmlDecode s ≠ .error .fuel := by
  have hread : readElement .c maxDepth (decodeFuel s) 0 s ≠ .error .fuel := readElement_ne_fuel s
  have hne : decodeElement (decodeFuel s) 0 s ≠ .error .fuel := ((decode_reads (decodeFuel s)).1 0 s).ne_stop hread
  rw [tsmlDecode]
  cases hdecode : decodeElement (decodeFuel s) 0 s with
  | error e => exact fun h => hne (by rw [hdecode, Except.error.inj h])
  | ok t =>
    rw [ok_bind]
    dsimp only
    split_ifs <;> simp [malformed]

/-- `tsml_decode_document` accepts one element and more. -/
theorem tsmlDecodeDocument_eq_ok {ns : List Node} : tsmlDecodeDocument s = .ok ns ↔
    s ≠ [] ∧ ∃ is : List Item, (∀ i ∈ is, i.IsRoot .c maxDepth) ∧ s = contentBytes is ∧
      contentNodes is = ns := by
  have hreads := decodeRoots_reads (s.length + 1) s
  have hnil : ∀ {is : List Item}, (∀ i ∈ is, i.IsRoot .c maxDepth) → s = contentBytes is →
      (contentNodes is = [] ↔ s = []) := by
    rintro is hroots rfl
    cases is with
    | nil => simp [contentBytes, contentNodes]
    | cons i is =>
      have hroot := hroots i (by simp)
      obtain ⟨tag, attrs, kids, hnodes⟩ := Item.nodes_of_isElement hroot.isElement
      simp [contentBytes, contentNodes, hnodes, Item.bytes_ne_nil hroot.ok]
  rw [tsmlDecodeDocument]
  constructor
  · intro h
    obtain ⟨roots, hroots, h⟩ := bind_eq_ok.mp h
    rw [hroots] at hreads
    obtain ⟨is, hread, hnodes⟩ := hreads.of_ok
    obtain ⟨his, hs⟩ := (readRoots_eq_ok (Nat.lt_succ_self _)).mp hread
    split_ifs at h with hempty
    · simp [malformed] at h
    · obtain rfl : roots = ns := Except.ok.inj h
      exact ⟨fun hs' => hempty (hnodes ▸ (hnil his hs).mpr hs'), is, his, hs, hnodes⟩
  · rintro ⟨hne, is, his, hs, hnodes⟩
    rw [(readRoots_eq_ok (Nat.lt_succ_self _)).mpr ⟨his, hs⟩] at hreads
    obtain ⟨ns', hdecode, hnodes'⟩ := hreads.of_read
    obtain rfl : ns' = ns := hnodes'.symm.trans hnodes
    rw [hdecode, ok_bind, if_neg fun hempty => hne ((hnil his hs).mp (hnodes'.trans hempty))]

theorem tsmlDecodeDocument_ne_fuel : tsmlDecodeDocument s ≠ .error .fuel := by
  have hne : decodeRoots (s.length + 1) s ≠ .error .fuel :=
    (decodeRoots_reads (s.length + 1) s).ne_stop (readRoots_ne_fuel (Nat.lt_succ_self _))
  rw [tsmlDecodeDocument]
  cases hdecode : decodeRoots (s.length + 1) s with
  | error e => exact fun h => hne (by rw [hdecode, Except.error.inj h])
  | ok t =>
    rw [ok_bind]
    split_ifs <;> simp [malformed]

end Runs

end Terseml
