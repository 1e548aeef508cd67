import Triepack.Core.Build
import Triepack.Library.Json

/-!
# Encoding JSON

A recursive-descent parser that adds every scalar under the path it stands at. The fixed buffers
are the bytes that were written to them: `Stop.oob` is a write at an index outside. `strtod` is a
parameter.
-/

namespace Triepack

open JsonText

/-- `json_parser`: the text from `pos` on, and the first `path_len` bytes of `path`. -/
structure JsonParser where
  rest : List UInt8
  depth : Nat
  enc : Encoder
  path : List UInt8

def maxNestingDepth : Nat := 32

/-- `sizeof(p->path)`. -/
def pathSize : Nat := 4096

/-- `sizeof(key)` in `parse_object`. -/
def keySize : Nat := 1024

/-- `sizeof(str)` in `parse_value`. -/
def strSize : Nat := 4096

/-- An operation on a parser. -/
abbrev Jp (α : Type) : Type := Op JsonParser α

def Jp.get : Jp JsonParser := fun p => (.ok p, p)

def Jp.modify (f : JsonParser → JsonParser) : Jp Unit := fun p => (.ok (), f p)

def Jp.stop {α : Type} (e : Stop) : Jp α := fun p => (.error e, p)

/-- `p->pos += n`. -/
def advance (n : Nat) : Jp Unit := Jp.modify fun p => { p with rest := p.rest.drop n }

/-- `skip_ws`. -/
def skipWs : Jp Unit := Jp.modify fun p => { p with rest := p.rest.dropWhile isSpace }

/-- `peek`. -/
def peek : Jp UInt8 := do
  skipWs
  let p ← Jp.get
  pure (p.rest.headD 0)

/-- `expect`. -/
def expect (c : UInt8) : Jp Bool := do
  skipWs
  let p ← Jp.get
  if p.rest.head? = some c then do
    advance 1
    pure true
  else pure false

/-! ## The path -/

/-- The path buffer after `path_push_key`. -/
def pushKey (path key : List UInt8) : List UInt8 :=
  let path := if path.length > 0 then path ++ [point] else path
  if path.length + key.length < pathSize then path ++ key else path

/-- `snprintf` of an unsigned number with `%u`. -/
def decimal (n : Nat) : List UInt8 := (Nat.toDigits 10 n).map fun c => UInt8.ofNat c.toNat

/-- The index segment of a path. -/
def indexText (idx : Nat) : List UInt8 := openBracket :: decimal idx ++ [closeBracket]

/-- The path buffer after `path_push_index`. -/
def pushIndex (path : List UInt8) (idx : Nat) : List UInt8 :=
  if path.length + (indexText idx).length < pathSize then path ++ indexText idx else path

/-- `p->path[p->path_len] = '\0'` once the path is changed. -/
def setPath (path : List UInt8) : Jp Unit :=
  if path.length < pathSize then Jp.modify fun p => { p with path := path }
  else Jp.stop (.oob path.length)

/-- `path_push_key`; the result is `*saved_len`. -/
def pathPushKey (key : List UInt8) : Jp Nat := do
  let p ← Jp.get
  setPath (pushKey p.path key)
  pure p.path.length

/-- `path_push_index`; the result is `*saved_len`. -/
def pathPushIndex (idx : Nat) : Jp Nat := do
  let p ← Jp.get
  setPath (pushIndex p.path idx)
  pure p.path.length

/-- `path_restore`. -/
def pathRestore (savedLen : Nat) : Jp Unit := do
  let p ← Jp.get
  setPath (p.path.take savedLen)

/-! ## Strings -/

/-- The four digits after `\u`, and what comes behind them. -/
def parseHex4 : List UInt8 → Option (Nat × List UInt8)
  | a :: b :: c :: d :: rest => do
    let a ← hexDigit a
    let b ← hexDigit b
    let c ← hexDigit c
    let d ← hexDigit d
    pure ((((a <<< 4 ||| b) <<< 4 ||| c) <<< 4) ||| d, rest)
  | _ => none

/-- The case `'u'` of `parse_string_into`: the bytes of the code point, and what comes behind. -/
def unicodeEscape (rest : List UInt8) : Except TpErr (List UInt8 × List UInt8) :=
  match parseHex4 rest with
  | none => .error .jsonSyntax
  | some (cp, rest) =>
    if cp ≥ 0xD800 ∧ cp ≤ 0xDBFF then
      match rest with
      | b :: u :: rest =>
        if b = backslash ∧ u = letterU then
          match parseHex4 rest with
          | none => .error .jsonSyntax
          | some (lo, rest) =>
            if lo < 0xDC00 ∨ lo > 0xDFFF then .error .jsonSyntax
            else .ok (utf8 (0x10000 + ((cp - 0xD800) <<< 10) + (lo - 0xDC00)), rest)
        else .error .jsonSyntax
      | _ => .error .jsonSyntax
    else .ok (utf8 cp, rest)

/-- One iteration of `parse_string_into`: the bytes it appends, if it is not at the closing
quote, and what comes behind. -/
def stringBody : List UInt8 → Except TpErr (Option (List UInt8) × List UInt8)
  | [] => .error .jsonSyntax
  | c :: rest =>
    if c = quote then .ok (none, rest)
    else if c = backslash then
      match rest with
      | [] => .error .jsonSyntax
      | e :: rest =>
        if e = letterU then (unicodeEscape rest).map fun (bs, rest) => (some bs, rest)
        else
          match unescape e with
          | some b => .ok (some [b], rest)
          | none => .error .jsonSyntax
    else .ok (some [c], rest)

/-- The loop of `parse_string_into` with what it has stored and counted so far. A character that
does not fit is counted and not stored, and then none behind it fits. -/
def stringLoop (outCap : Nat) : (fuel : Nat) → (rest out : List UInt8) → (w : Nat) →
    Except Stop ((List UInt8 × Nat) × List UInt8)
  | 0, _, _, _ => .error .fuel
  | fuel + 1, rest, out, w =>
    match stringBody rest with
    | .error code => .error (.rc code)
    | .ok (none, rest) => .ok ((out, w), rest)
    | .ok (some bs, rest) =>
      stringLoop outCap fuel rest (if w + bs.length - 1 < outCap then out ++ bs else out)
        (w + bs.length)

def runStringLoop (outCap : Nat) : Jp (List UInt8 × Nat) := fun p =>
  match stringLoop outCap (p.rest.length + 1) p.rest [] 0 with
  | .error e => (.error e, p)
  | .ok (found, rest) => (.ok found, { p with rest := rest })

/-- `parse_string_into`; the result is what it stored in `out`, and `*out_len`. -/
def parseStringInto (outCap : Nat) : Jp (List UInt8 × Nat) := do
  let found ← expect quote
  if found then runStringLoop outCap else Op.fail .jsonSyntax

/-- `parse_string_into` with a buffer of `size` bytes, and the terminator that its callers then
write behind the counted bytes. -/
def parseBuffered (size : Nat) : Jp (List UInt8) := do
  let (out, len) ← parseStringInto (size - 1)
  if len < size then pure out else Jp.stop (.oob len)

/-! ## Numbers -/

/-- `strtoll` in base 10 of a minus sign and digits. -/
def strtoll (tmp : List UInt8) : Int64 := Int64.ofInt (max (-NumLit.natOf tmp.tail) (-2 ^ 63))

/-- `strtoull` in base 10 of digits. -/
def strtoull (tmp : List UInt8) : Nat := min (NumLit.natOf tmp) (2 ^ 64 - 1)

/-- What `parse_number` makes of the bytes of a number. -/
def numberValue (strtod : List UInt8 → UInt64) (isFloat isNeg : Bool) (tmp : List UInt8) :
    Value (List UInt8) :=
  if isFloat then .float64 (strtod tmp)
  else if isNeg then .int (strtoll tmp)
  else if strtoull tmp > 2 ^ 63 - 1 then .uint (UInt64.ofNat (strtoull tmp))
  else .int (Int64.ofNat (strtoull tmp))

def headIs (p : UInt8 → Bool) (rest : List UInt8) : Bool := rest.head?.any p

/-- Digits, of which there is at least one. -/
def scanDigits (rest : List UInt8) : Option (List UInt8) :=
  if headIs isDigit rest then some (rest.dropWhile isDigit) else none

/-- The fractional part, if there is one. -/
def scanFrac (rest : List UInt8) : Option (List UInt8 × Bool) :=
  if headIs (· == point) rest then (scanDigits rest.tail).map (·, true) else some (rest, false)

/-- The exponent part, if there is one. -/
def scanExp (rest : List UInt8) : Option (List UInt8 × Bool) :=
  if headIs (fun b => b == 0x65 || b == 0x45) rest then
    let rest := rest.tail
    let rest := if headIs (fun b => b == 0x2B || b == minus) rest then rest.tail else rest
    (scanDigits rest).map (·, true)
  else some (rest, false)

/-- What is behind a number, whether it has a fraction or an exponent, and whether it begins with
a minus sign. -/
def scanNumber (start : List UInt8) : Option (List UInt8 × Bool × Bool) := do
  let isNeg := headIs (· == minus) start
  let rest ← scanDigits (if isNeg then start.tail else start)
  let (rest, isFrac) ← scanFrac rest
  let (rest, isExp) ← scanExp rest
  pure (rest, isFrac || isExp, isNeg)

/-- `parse_number`; of the number 63 bytes are looked at. -/
def parseNumber (strtod : List UInt8 → UInt64) : Jp (Value (List UInt8)) := fun p =>
  match scanNumber p.rest with
  | none => (.error (.rc .jsonSyntax), p)
  | some (rest, isFloat, isNeg) =>
    (.ok (numberValue strtod isFloat isNeg (p.rest.take (min (p.rest.length - rest.length) 63))),
      { p with rest := rest })

/-! ## Values -/

/-- `tp_encoder_add_n` at the current path. -/
def addAtPath (val : Value (List UInt8)) : Jp Unit :=
  Jp.modify fun p => { p with enc := encoderAddN p.enc p.path (some val) }

/-- `p->depth++` and its test. -/
def enterNesting : Jp Unit := do
  Jp.modify fun p => { p with depth := p.depth + 1 }
  let p ← Jp.get
  if p.depth > maxNestingDepth then Op.fail .jsonDepth else pure ()

/-- `p->depth--`. -/
def leaveNesting : Jp Unit := Jp.modify fun p => { p with depth := p.depth - 1 }

mutual

/-- `parse_value`. -/
def parseValue (strtod : List UInt8 → UInt64) : (fuel : Nat) → Jp Unit
  | 0 => Jp.stop .fuel
  | fuel + 1 => do
    skipWs
    let p ← Jp.get
    match p.rest with
    | [] => Op.fail .jsonSyntax
    | c :: _ =>
      if c = openBrace then parseObject strtod fuel
      else if c = openBracket then parseArray strtod fuel
      else if c = quote then do
        let str ← parseBuffered strSize
        addAtPath (.string str)
      else if c = minus ∨ isDigit c = true then do
        let val ← parseNumber strtod
        addAtPath val
      else if trueWord.isPrefixOf p.rest then do
        advance 4
        addAtPath (.bool true)
      else if falseWord.isPrefixOf p.rest then do
        advance 5
        addAtPath (.bool false)
      else if nullWord.isPrefixOf p.rest then do
        advance 4
        addAtPath .null
      else Op.fail .jsonSyntax

/-- `parse_object`. -/
def parseObject (strtod : List UInt8 → UInt64) : (fuel : Nat) → Jp Unit
  | 0 => Jp.stop .fuel
  | fuel + 1 => do
    enterNesting
    let found ← expect openBrace
    if ¬ found then Op.fail .jsonSyntax
    else do
      let c ← peek
      if c = closeBrace then advance 1 else parseMembers strtod fuel
      leaveNesting

/-- The loop of `parse_object`. -/
def parseMembers (strtod : List UInt8 → UInt64) : (fuel : Nat) → Jp Unit
  | 0 => Jp.stop .fuel
  | fuel + 1 => do
    let key ← parseBuffered keySize
    skipWs
    let found ← expect colon
    if ¬ found then Op.fail .jsonSyntax
    else do
      let saved ← pathPushKey key
      parseValue strtod fuel
      pathRestore saved
      skipWs
      let c ← peek
      if c = closeBrace then advance 1
      else do
        let found ← expect comma
        if ¬ found then Op.fail .jsonSyntax else parseMembers strtod fuel

/-- `parse_array`. -/
def parseArray (strtod : List UInt8 → UInt64) : (fuel : Nat) → Jp Unit
  | 0 => Jp.stop .fuel
  | fuel + 1 => do
    enterNesting
    let found ← expect openBracket
    if ¬ found then Op.fail .jsonSyntax
    else do
      let c ← peek
      if c = closeBracket then advance 1 else parseElements strtod fuel 0
      leaveNesting

/-- The loop of `parse_array` from the element `idx` on. -/
def parseElements (strtod : List UInt8 → UInt64) : (fuel : Nat) → (idx : Nat) → Jp Unit
  | 0, _ => Jp.stop .fuel
  | fuel + 1, idx => do
    let saved ← pathPushIndex idx
    parseValue strtod fuel
    pathRestore saved
    skipWs
    let c ← peek
    if c = closeBracket then advance 1
    else do
      let found ← expect comma
      if ¬ found then Op.fail .jsonSyntax else parseElements strtod fuel (u32 (idx + 1))

end

/-! ## One-shot encode -/

/-- `TP_JSON_META_ROOT`. -/
def jsonMetaRoot : List UInt8 := [0x01, 0x72, 0x6F, 0x6F, 0x74]

/-- `TP_JSON_ROOT_OBJECT`. -/
def jsonRootObject : UInt64 := 1

/-- `TP_JSON_ROOT_ARRAY`. -/
def jsonRootArray : UInt64 := 2

/-- The parser at the start of a text; there is fuel for every call that a text leads to. -/
def jsonParser (text : List UInt8) : JsonParser where
  rest := text
  depth := 0
  enc := freshEncoder
  path := []

def parseFuel (text : List UInt8) : Nat := 3 * text.length + 3

/-- The root of a text: its kind, and the parser behind it. -/
def parseRoot (strtod : List UInt8 → UInt64) (text : List UInt8) : Jp UInt64 := do
  skipWs
  let p ← Jp.get
  match p.rest with
  | [] => Op.fail .jsonSyntax
  | c :: _ =>
    if c = openBrace then do
      parseObject strtod (parseFuel text)
      pure jsonRootObject
    else if c = openBracket then do
      parseArray strtod (parseFuel text)
      pure jsonRootArray
    else Op.fail .jsonSyntax

/-- `tp_json_encode`. -/
def jsonEncode (strtod : List UInt8 → UInt64) (q : Qsort) (text : List UInt8) :
    Except Stop (List UInt8) :=
  match parseRoot strtod text (jsonParser text) with
  | (.error e, _) => .error e
  | (.ok rootType, p) => (encoderBuild q (encoderAddN p.enc jsonMetaRoot (some (.uint rootType)))).1

end Triepack
