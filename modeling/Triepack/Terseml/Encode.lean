import Triepack.Bitstream.Write
import Triepack.Terseml.Syntax

/-!
# The C encoder

`buf` is the bytes that have been put into it. The buffer grows as far as it has to.
-/

namespace Terseml

open Escape Triepack

/-! ## Strings -/

/-- `write_escaped`: only the first byte can be a leading bracket. -/
def writeEscaped (ctx : EscCtx) : List UInt8 → (leadBracket : Bool) → List UInt8
  | [], _ => []
  | c :: s, leadBracket =>
    (if isReserved ctx c || (leadBracket && c == lsq) then [bs, c] else [c]) ++ writeEscaped ctx s false

/-- The loop of `varint_len`. It ends in fewer rounds than the number has units. -/
def varintLenLoop : (fuel n : Nat) → Nat
  | 0, _ => 1
  | fuel + 1, n => if n ≥ 0x80 then varintLenLoop fuel (n >>> 7) + 1 else 1

/-- `varint_len`. -/
def varintLen (n : Nat) : Nat := varintLenLoop n n

/-- The loop of `varint_put`. -/
def varintPutLoop : (fuel n : Nat) → List UInt8
  | 0, n => [UInt8.ofNat (n &&& 0x7F)]
  | fuel + 1, n =>
    if n >>> 7 = 0 then [UInt8.ofNat (n &&& 0x7F)]
    else UInt8.ofNat ((n &&& 0x7F) ||| 0x80) :: varintPutLoop fuel (n >>> 7)

/-- `varint_put`. -/
def varintPut (n : Nat) : List UInt8 := varintPutLoop n n

/-- `bin_form`. -/
inductive BinForm where
  | inline | terminated | counted
  deriving DecidableEq, Repr

/-- `choose_form`. -/
def chooseForm (s : List UInt8) (leadBracket : Bool) : BinForm :=
  let inl := u64 (s.length + s.countP (fun c => c == lbr || c == rbr || c == bs) +
    if leadBracket && s.head? == some lsq then 1 else 0)
  let term := u64 (s.length + 3 + s.countP fun c => c == 0 || c == bs)
  let cnt := u64 (2 + varintLen s.length + s.length)
  if cnt ≤ term ∧ cnt ≤ inl then .counted
  else if term ≤ inl then .terminated
  else .inline

/-- The loop of `write_binary`. -/
def escapeBinary (s : List UInt8) : List UInt8 :=
  s.flatMap fun c => if c = 0 then [bs, digit0] else if c = bs then [bs, bs] else [c]

/-- `write_binary`. -/
def writeBinary (s : List UInt8) (form : BinForm) : List UInt8 :=
  if form = .counted then bs :: letterB :: (varintPut s.length ++ s)
  else bs :: letterb :: (escapeBinary s ++ [0])

/-- What `encode_node` writes for a text. -/
def writeText (s : List UInt8) (atStart : Bool) : List UInt8 :=
  let f := chooseForm s atStart
  if f = .inline then writeEscaped .text s atStart else writeBinary s f

/-! ## Elements -/

/-- The loop of `encode_node` over the attributes, with their brackets. -/
def encodeAttrs (attrs : List Attr) : List UInt8 :=
  if attrs = [] then []
  else com :: lsq :: ([com].intercalate (attrs.map fun a =>
    writeEscaped .key a.key false ++ col :: writeEscaped .val a.val false) ++ [rsq])

/-- The text of a text node. -/
def Node.text? : Node → Option (List UInt8)
  | .text t => some t
  | .element .. => none

mutual

/-- `encode_node`; nothing comes of a buffer that is out of memory. -/
def encodeNode : Node → (depth : Nat) → Option (List UInt8)
  | .text t, depth =>
    if depth > maxDepth then none
    else some (lbr :: (tagText ++ com :: (writeText t true ++ [rbr])))
  | .element tag attrs children, depth =>
    if depth > maxDepth then none
    else do
      let content ← encodeChildren children (attrs = []) depth
      some (lbr :: (writeEscaped .tag tag false ++ (encodeAttrs attrs ++ com :: (content ++ [rbr]))))

/-- The loop of `encode_node` over the children. -/
def encodeChildren : List Node → (atStart : Bool) → (depth : Nat) → Option (List UInt8)
  | [], _, _ => some []
  | c :: children, atStart, depth => do
    let child ←
      match c.text? with
      | some t => some (writeText t atStart)
      | none => encodeNode c (depth + 1)
    let rest ← encodeChildren children false depth
    some (child ++ rest)

end

/-- `tsml_encode`. -/
def tsmlEncode (node : Node) : Except TsmlErr (List UInt8) :=
  match encodeNode node 0 with
  | none => .error .alloc
  | some out => .ok out

/-! ## What a string is written as -/

section Strings

variable {ctx : EscCtx}

theorem validEscape_of_isReserved {c : UInt8} (h : isReserved ctx c = true) : validEscape c = true := by
  cases ctx <;> simp only [isReserved] at h <;> split_ifs at h <;> simp_all [validEscape] <;> grind

/-- What a byte is written as behind a backslash. -/
def escCode (ctx : EscCtx) (leadBracket : Bool) (c : UInt8) : Option UInt8 :=
  if isReserved ctx c || (leadBracket && c == lsq) then some c else none

theorem spells_escCode (leadBracket : Bool) : Scheme.Spells ctx.scheme (escCode ctx leadBracket) := by
  constructor
  · intro c e hcode
    unfold escCode at hcode
    split_ifs at hcode with hesc
    obtain rfl := Option.some.inj hcode
    have hvalid : validEscape c = true := by
      simp only [Bool.or_eq_true, Bool.and_eq_true, beq_iff_eq] at hesc
      obtain hres | ⟨-, rfl⟩ := hesc
      · exact validEscape_of_isReserved hres
      · decide
    simp [EscCtx.scheme, hvalid]
  · intro c hcode
    unfold escCode at hcode
    split_ifs at hcode with hesc
    simp only [Bool.or_eq_true, not_or] at hesc
    refine ⟨fun hbs => hesc.1 ?_, Bool.eq_false_iff.mpr hesc.1⟩
    simp [isReserved, show c = bs from hbs]

theorem writeEscaped_cons (c : UInt8) (s : List UInt8) (leadBracket : Bool) :
    writeEscaped ctx (c :: s) leadBracket =
      ctx.scheme.write (escCode ctx leadBracket) [c] ++ writeEscaped ctx s false := by
  rw [writeEscaped, Scheme.write, List.flatMap_singleton, escCode]
  split_ifs <;> rfl

/-- A string is written as a run that stands for it. -/
theorem writeEscaped_run (s : List UInt8) (leadBracket : Bool) :
    Scheme.Run ctx.scheme (writeEscaped ctx s leadBracket) s := by
  induction s generalizing leadBracket with
  | nil => exact .nil
  | cons c s ih =>
    rw [writeEscaped_cons]
    exact ((spells_escCode leadBracket).run_write [c]).append (ih false)

/-- What a byte of a binary text is written as behind a backslash. -/
def binCode (c : UInt8) : Option UInt8 := if c = 0 then some digit0 else if c = bs then some bs else none

theorem spells_binCode : Scheme.Spells binScheme binCode := by
  constructor
  · intro c e hcode
    unfold binCode at hcode
    split_ifs at hcode with hzero hbs
    all_goals
      obtain rfl := Option.some.inj hcode
      subst_vars
      rfl
  · intro c hcode
    unfold binCode at hcode
    split_ifs at hcode with hzero hbs
    exact ⟨hbs, by simpa [binScheme] using hzero⟩

theorem escapeBinary_run (s : List UInt8) : Scheme.Run binScheme (escapeBinary s) s := by
  have hwrite : escapeBinary s = binScheme.write binCode s := by
    refine List.flatMap_congr fun c _ => ?_
    unfold binCode
    split_ifs <;> rfl
  rw [hwrite]
  exact spells_binCode.run_write s

theorem shift_seven (n : Nat) : n >>> 7 = n / 128 := by rw [Nat.shiftRight_eq_div_pow]

theorem varintPutLoop_eq {fuel n : Nat} (hfuel : n ≤ fuel) : varintPutLoop fuel n = Leb128.code n := by
  have hlow : n &&& 0x7F = n % 128 := Nat.and_two_pow_sub_one_eq_mod n 7
  induction fuel generalizing n with
  | zero =>
    obtain rfl : n = 0 := by omega
    rw [Leb128.code_of_lt (by decide)]
    rfl
  | succ fuel ih =>
    rw [varintPutLoop, shift_seven, hlow]
    by_cases hn : n < 128
    · rw [if_pos (Nat.div_eq_of_lt hn), Leb128.code_of_lt hn, Nat.mod_eq_of_lt hn]
    · rw [if_neg (by omega), Leb128.code_of_le (by omega),
        ih (by omega) (Nat.and_two_pow_sub_one_eq_mod _ 7), or_continuation (Nat.mod_lt _ (by decide))]

theorem varintPut_eq (n : Nat) : varintPut n = Leb128.code n := varintPutLoop_eq (Nat.le_refl n)

theorem varintLenLoop_eq {fuel n : Nat} (hfuel : n ≤ fuel) :
    varintLenLoop fuel n = (Leb128.code n).length := by
  induction fuel generalizing n with
  | zero =>
    obtain rfl : n = 0 := by omega
    rw [Leb128.code_of_lt (by decide)]
    rfl
  | succ fuel ih =>
    rw [varintLenLoop, shift_seven]
    by_cases hn : n < 128
    · rw [if_neg (by omega), Leb128.code_of_lt hn]
      rfl
    · rw [if_pos (by omega), Leb128.code_of_le (by omega), ih (by omega), List.length_cons]

theorem varintLen_eq (n : Nat) : varintLen n = (Leb128.code n).length := varintLenLoop_eq (Nat.le_refl n)

end Strings

end Terseml
