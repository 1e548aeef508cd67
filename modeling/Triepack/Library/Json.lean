import Mathlib.Data.List.DropRight
import Mathlib.Data.List.Infix
import Mathlib.Tactic

/-!
# JSON values and tokens

A value is a tree over whatever stands for its strings and numbers. In a syntax tree these are
tokens as they are written, in the value it denotes they are bytes and integers. A text is a list
of bytes.
-/

namespace JsonText

/-- A JSON value with strings from `σ` and numbers from `ν`. -/
inductive Json (σ ν : Type) where
  | null
  | bool (b : Bool)
  | num (n : ν)
  | str (s : σ)
  | arr (vs : List (Json σ ν))
  | obj (ms : List (σ × Json σ ν))

namespace Json

variable {σ ν σ' ν' : Type}

/-- Induction on a value, with the hypothesis for every element and every member. -/
theorem induction_on {P : Json σ ν → Prop} (v : Json σ ν) (null : P .null)
    (bool : ∀ b, P (.bool b)) (num : ∀ n, P (.num n)) (str : ∀ s, P (.str s))
    (arr : ∀ vs, (∀ v ∈ vs, P v) → P (.arr vs))
    (obj : ∀ ms, (∀ m ∈ ms, P m.2) → P (.obj ms)) : P v := by
  refine Json.rec (motive_1 := P) (motive_2 := fun vs => ∀ v ∈ vs, P v)
    (motive_3 := fun ms => ∀ m ∈ ms, P m.2) (motive_4 := fun m => P m.2) null bool num str arr obj
    (by simp) ?_ (by simp) ?_ (fun k v hv => hv) v
  · intro v vs hv hvs
    exact List.forall_mem_cons.mpr ⟨hv, hvs⟩
  · intro m ms hm hms
    exact List.forall_mem_cons.mpr ⟨hm, hms⟩

mutual

def map (f : σ → σ') (g : ν → ν') : Json σ ν → Json σ' ν'
  | .null => .null
  | .bool b => .bool b
  | .num n => .num (g n)
  | .str s => .str (f s)
  | .arr vs => .arr (mapElements f g vs)
  | .obj ms => .obj (mapMembers f g ms)

def mapElements (f : σ → σ') (g : ν → ν') : List (Json σ ν) → List (Json σ' ν')
  | [] => []
  | v :: vs => map f g v :: mapElements f g vs

def mapMembers (f : σ → σ') (g : ν → ν') : List (σ × Json σ ν) → List (σ' × Json σ' ν')
  | [] => []
  | (k, v) :: ms => (f k, map f g v) :: mapMembers f g ms

end

theorem mapElements_eq (f : σ → σ') (g : ν → ν') (vs : List (Json σ ν)) :
    mapElements f g vs = vs.map (map f g) := by
  induction vs with
  | nil => rfl
  | cons v vs ih => rw [mapElements, ih, List.map_cons]

theorem mapMembers_eq (f : σ → σ') (g : ν → ν') (ms : List (σ × Json σ ν)) :
    mapMembers f g ms = ms.map fun m => (f m.1, map f g m.2) := by
  induction ms with
  | nil => rfl
  | cons m ms ih => rw [mapMembers, ih, List.map_cons]

theorem map_map {σ'' ν'' : Type} (f : σ → σ') (f' : σ' → σ'') (g : ν → ν') (g' : ν' → ν'') (v : Json σ ν) :
    (v.map f g).map f' g' = v.map (f' ∘ f) (g' ∘ g) := by
  induction v using induction_on with
  | null | bool | num | str => rfl
  | arr vs ih =>
    rw [map, map, map, mapElements_eq, mapElements_eq, mapElements_eq, List.map_map]
    exact congrArg arr (List.map_congr_left ih)
  | obj ms ih =>
    rw [map, map, map, mapMembers_eq, mapMembers_eq, mapMembers_eq, List.map_map]
    exact congrArg obj (List.map_congr_left fun m hm => congrArg (Prod.mk _) (ih m hm))

/-! ## Leaves -/

/-- A step into a container. -/
inductive Seg (σ : Type) where
  | key (k : σ)
  | idx (i : Nat)
  deriving DecidableEq

mutual

/-- The scalars in a value, each with its position. -/
def leaves : Json σ ν → List (List (Seg σ) × Json σ ν)
  | .arr vs => elementLeaves vs 0
  | .obj ms => memberLeaves ms
  | v => [([], v)]

/-- The leaves of the elements from an index on. -/
def elementLeaves : List (Json σ ν) → Nat → List (List (Seg σ) × Json σ ν)
  | [], _ => []
  | v :: vs, i => (leaves v).map (fun l => (.idx i :: l.1, l.2)) ++ elementLeaves vs (i + 1)

def memberLeaves : List (σ × Json σ ν) → List (List (Seg σ) × Json σ ν)
  | [] => []
  | (k, v) :: ms => (leaves v).map (fun l => (.key k :: l.1, l.2)) ++ memberLeaves ms

end

/-- The leaves of a value with other numbers. -/
theorem leaves_map (g : ν → ν') (v : Json σ ν) :
    (v.map id g).leaves = v.leaves.map fun l => (l.1, l.2.map id g) := by
  induction v using induction_on with
  | null | bool | num | str => rfl
  | arr vs ih =>
    rw [map, leaves, leaves]
    generalize 0 = i
    induction vs generalizing i with
    | nil => rfl
    | cons v vs ihvs =>
      rw [mapElements, elementLeaves, elementLeaves, ih v (by simp), ihvs (fun v hv => ih v (by simp [hv])),
        List.map_append, List.map_map, List.map_map]
      rfl
  | obj ms ih =>
    rw [map, leaves, leaves]
    induction ms with
    | nil => rfl
    | cons m ms ihms =>
      rw [mapMembers, memberLeaves, memberLeaves, ih m (by simp), ihms fun m hm => ih m (by simp [hm]),
        List.map_append, List.map_map, List.map_map]
      rfl

mutual

/-- How many containers are around the innermost one, itself included. -/
def nesting : Json σ ν → Nat
  | .arr vs => elementNesting vs + 1
  | .obj ms => memberNesting ms + 1
  | _ => 0

def elementNesting : List (Json σ ν) → Nat
  | [] => 0
  | v :: vs => max (nesting v) (elementNesting vs)

def memberNesting : List (σ × Json σ ν) → Nat
  | [] => 0
  | (_, v) :: ms => max (nesting v) (memberNesting ms)

end

end Json

/-! ## Bytes -/

abbrev quote : UInt8 := 0x22
abbrev backslash : UInt8 := 0x5C
abbrev comma : UInt8 := 0x2C
abbrev colon : UInt8 := 0x3A
abbrev minus : UInt8 := 0x2D
abbrev point : UInt8 := 0x2E
abbrev openBracket : UInt8 := 0x5B
abbrev closeBracket : UInt8 := 0x5D
abbrev openBrace : UInt8 := 0x7B
abbrev closeBrace : UInt8 := 0x7D
abbrev letterU : UInt8 := 0x75

def trueWord : List UInt8 := [0x74, 0x72, 0x75, 0x65]
def falseWord : List UInt8 := [0x66, 0x61, 0x6C, 0x73, 0x65]
def nullWord : List UInt8 := [0x6E, 0x75, 0x6C, 0x6C]

def isSpace (b : UInt8) : Bool := b == 0x20 || b == 0x09 || b == 0x0A || b == 0x0D

def isDigit (b : UInt8) : Bool := 0x30 ≤ b && b ≤ 0x39

/-- What holds of each of the 256 bytes can be decided. -/
theorem forall_byte {P : UInt8 → Prop} (h : ∀ n : Fin 256, P (.ofNat n.val)) (b : UInt8) : P b := by
  simpa using h ⟨b.toNat, b.toNat_lt⟩

/-- The value of a hexadecimal digit. -/
def hexDigit (b : UInt8) : Option Nat :=
  if 0x30 ≤ b ∧ b ≤ 0x39 then some (b.toNat - 0x30)
  else if 0x61 ≤ b ∧ b ≤ 0x66 then some (b.toNat - 0x61 + 10)
  else if 0x41 ≤ b ∧ b ≤ 0x46 then some (b.toNat - 0x41 + 10)
  else none

/-- UTF-8, also of a surrogate, and nothing for what is no code point. -/
def utf8 (cp : Nat) : List UInt8 :=
  if cp < 0x80 then [.ofNat cp]
  else if cp < 0x800 then [.ofNat (0xC0 ||| cp >>> 6), .ofNat (0x80 ||| cp &&& 0x3F)]
  else if cp < 0x10000 then
    [.ofNat (0xE0 ||| cp >>> 12), .ofNat (0x80 ||| (cp >>> 6) &&& 0x3F), .ofNat (0x80 ||| cp &&& 0x3F)]
  else if cp < 0x110000 then
    [.ofNat (0xF0 ||| cp >>> 18), .ofNat (0x80 ||| (cp >>> 12) &&& 0x3F),
      .ofNat (0x80 ||| (cp >>> 6) &&& 0x3F), .ofNat (0x80 ||| cp &&& 0x3F)]
  else []

/-! ## Strings -/

/-- Four hexadecimal digits, as in `\uXXXX`. -/
structure Hex4 where
  digits : List UInt8
  length_eq : digits.length = 4
  isHex : ∀ b ∈ digits, (hexDigit b).isSome = true

def Hex4.value (h : Hex4) : Nat := h.digits.foldl (fun n b => 16 * n + (hexDigit b).getD 0) 0

theorem Hex4.ext {h h' : Hex4} (heq : h.digits = h'.digits) : h = h' := by
  cases h
  cases h'
  congr

def IsHigh (cp : Nat) : Prop := 0xD800 ≤ cp ∧ cp ≤ 0xDBFF

def IsLow (cp : Nat) : Prop := 0xDC00 ≤ cp ∧ cp ≤ 0xDFFF

instance : DecidablePred IsHigh := fun _ => inferInstanceAs (Decidable (_ ∧ _))

instance : DecidablePred IsLow := fun _ => inferInstanceAs (Decidable (_ ∧ _))

/-- What the letter after a backslash stands for. -/
def unescape (b : UInt8) : Option UInt8 :=
  if b = quote ∨ b = backslash ∨ b = 0x2F then some b
  else if b = 0x62 then some 0x08
  else if b = 0x66 then some 0x0C
  else if b = 0x6E then some 0x0A
  else if b = 0x72 then some 0x0D
  else if b = 0x74 then some 0x09
  else none

/-- A character of a string as it is written: a byte, a backslash and a letter, or an escaped
UTF-16 code unit or pair of them. -/
inductive StrChar where
  | raw (b : UInt8)
  | esc (b : UInt8)
  | unit (h : Hex4)
  | pair (h l : Hex4)

namespace StrChar

def text : StrChar → List UInt8
  | .raw b => [b]
  | .esc b => [backslash, b]
  | .unit h => backslash :: letterU :: h.digits
  | .pair h l => backslash :: letterU :: h.digits ++ backslash :: letterU :: l.digits

/-- The bytes that a character stands for. -/
def bytes : StrChar → List UInt8
  | .raw b => [b]
  | .esc b => [(unescape b).getD 0]
  | .unit h => utf8 h.value
  | .pair h l => utf8 (0x10000 + (h.value - 0xD800) * 1024 + (l.value - 0xDC00))

/-- It is told apart from what may stand in its place: a quote ends the string, and a high
surrogate begins a pair. -/
def Spelled : StrChar → Prop
  | .raw b => b ≠ quote ∧ b ≠ backslash
  | .esc b => (unescape b).isSome = true
  | .unit h => ¬ IsHigh h.value
  | .pair h l => IsHigh h.value ∧ IsLow l.value

end StrChar

/-- The bytes of a string literal. -/
def strBytes (s : List StrChar) : List UInt8 := s.flatMap StrChar.bytes

/-- A string literal up to its closing quote, which comes before `rest`. -/
def strTail (s : List StrChar) (rest : List UInt8) : List UInt8 :=
  s.flatMap StrChar.text ++ quote :: rest

/-! ## Numbers -/

def IsDigits (ds : List UInt8) : Prop := ds ≠ [] ∧ ∀ d ∈ ds, isDigit d = true

instance (ds : List UInt8) : Decidable (IsDigits ds) := inferInstanceAs (Decidable (_ ∧ _))

/-- The exponent of a number: its letter, its sign and its digits. -/
structure Exponent where
  letter : UInt8
  sign : Option UInt8
  digits : List UInt8
  deriving DecidableEq

/-- A number as it is written. -/
structure NumLit where
  neg : Bool
  int : List UInt8
  frac : Option (List UInt8)
  exp : Option Exponent
  deriving DecidableEq

def Exponent.text (e : Exponent) : List UInt8 := e.letter :: e.sign.toList ++ e.digits

structure Exponent.Spelled (e : Exponent) : Prop where
  letter : e.letter = 0x65 ∨ e.letter = 0x45
  sign : ∀ b ∈ e.sign, b = 0x2B ∨ b = minus
  digits : IsDigits e.digits

namespace NumLit

def fracText (n : NumLit) : List UInt8 :=
  match n.frac with
  | none => []
  | some ds => point :: ds

def expText (n : NumLit) : List UInt8 :=
  match n.exp with
  | none => []
  | some e => e.text

def text (n : NumLit) : List UInt8 :=
  (if n.neg then [minus] else []) ++ (n.int ++ (n.fracText ++ n.expText))

structure Spelled (n : NumLit) : Prop where
  int : IsDigits n.int
  frac : ∀ ds ∈ n.frac, IsDigits ds
  exp : ∀ e ∈ n.exp, e.Spelled

/-- Neither a fraction nor an exponent. -/
def IsInt (n : NumLit) : Prop := n.frac = none ∧ n.exp = none

instance (n : NumLit) : Decidable n.IsInt := inferInstanceAs (Decidable (_ ∧ _))

/-- The number that a row of digits stands for. -/
def natOf (ds : List UInt8) : Nat := ds.foldl (fun n d => 10 * n + (d.toNat - 0x30)) 0

/-- What an integer denotes. -/
def toInt (n : NumLit) : Int := if n.neg then -natOf n.int else natOf n.int

/-- A zero in front of other digits. -/
def LeadingZero (n : NumLit) : Prop := 1 < n.int.length ∧ n.int.head? = some 0x30

instance (n : NumLit) : Decidable n.LeadingZero := inferInstanceAs (Decidable (_ ∧ _))

end NumLit

/-- A syntax tree. -/
abbrev Tree : Type := Json (List StrChar) NumLit

/-- The value that a syntax tree stands for, its numbers as they are written. -/
def Json.denote (v : Tree) : Json (List UInt8) NumLit := v.map strBytes id

/-- The value that a syntax tree stands for when its numbers are integers. -/
def Json.value (v : Tree) : Json (List UInt8) Int := v.map strBytes NumLit.toInt

theorem Json.value_eq (v : Tree) : v.value = v.denote.map id NumLit.toInt := by
  rw [denote, map_map]
  rfl

end JsonText
