import Triepack.Json.Tokens

/-!
# What the parser does with a syntax tree

`valueAdds` are the additions that a tree leads to, or how the parser ends. On a text with a
reading the parser does just that.
-/

namespace Triepack

open JsonText

/-- The value that is stored for a number. -/
def numLitValue (strtod : List UInt8 → UInt64) (n : NumLit) : Value (List UInt8) :=
  numberValue strtod (n.frac.isSome || n.exp.isSome) n.neg (n.text.take 63)

/-- The path if it leaves room for its terminator. -/
def checkedPath (path : List UInt8) : Except Stop (List UInt8) :=
  if path.length < pathSize then .ok path else .error (.oob path.length)

/-- The string if it leaves room for its terminator. -/
def checkedStr (size : Nat) (s : List StrChar) : Except Stop (List UInt8) :=
  if (strBytes s).length < size then .ok (strBytes s) else .error (.oob (strBytes s).length)

mutual

/-- The additions for a value that is read at a depth and a path. -/
def valueAdds (strtod : List UInt8 → UInt64) :
    Tree → (depth : Nat) → (path : List UInt8) → Except Stop (List Addition)
  | .null, _, path => .ok [(path, some .null)]
  | .bool b, _, path => .ok [(path, some (.bool b))]
  | .num n, _, path => .ok [(path, some (numLitValue strtod n))]
  | .str s, _, path => do
    let str ← checkedStr strSize s
    .ok [(path, some (.string str))]
  | .arr vs, depth, path =>
    if depth + 1 > maxNestingDepth then .error (.rc .jsonDepth)
    else elementAdds strtod vs (depth + 1) path 0
  | .obj ms, depth, path =>
    if depth + 1 > maxNestingDepth then .error (.rc .jsonDepth)
    else memberAdds strtod ms (depth + 1) path

/-- The additions for the elements from an index on. -/
def elementAdds (strtod : List UInt8 → UInt64) :
    List Tree → (depth : Nat) → (path : List UInt8) → (idx : Nat) → Except Stop (List Addition)
  | [], _, _, _ => .ok []
  | v :: vs, depth, path, idx => do
    let sub ← checkedPath (pushIndex path idx)
    let adds ← valueAdds strtod v depth sub
    let more ← elementAdds strtod vs depth path (u32 (idx + 1))
    .ok (adds ++ more)

/-- The additions for members. -/
def memberAdds (strtod : List UInt8 → UInt64) :
    List (List StrChar × Tree) → (depth : Nat) → (path : List UInt8) → Except Stop (List Addition)
  | [], _, _ => .ok []
  | (k, v) :: ms, depth, path => do
    let key ← checkedStr keySize k
    let sub ← checkedPath (pushKey path key)
    let adds ← valueAdds strtod v depth sub
    let more ← memberAdds strtod ms depth path
    .ok (adds ++ more)

end

/-! ## The parser on a text with a reading -/

theorem encoderAddAll_append (enc : Encoder) (as bs : List Addition) :
    encoderAddAll enc (as ++ bs) = encoderAddAll (encoderAddAll enc as) bs :=
  List.foldl_append ..

/-- The operation makes the additions or ends as they do, and then stands before `rest`. -/
def ParsesTo (x : Jp Unit) (p : JsonParser) (adds : Except Stop (List Addition))
    (rest : List UInt8) : Prop :=
  match adds with
  | .ok adds => x p = (.ok (), { p with rest := rest, enc := encoderAddAll p.enc adds })
  | .error e => (x p).1 = .error e

theorem ParsesTo.of_eq {x y : Jp Unit} {p q : JsonParser} {adds : Except Stop (List Addition)}
    {rest : List UInt8} (h : x p = y q) (hq : q = { p with rest := q.rest })
    (hy : ParsesTo y q adds rest) : ParsesTo x p adds rest := by
  rw [hq] at h hy
  rcases adds with e | adds
  · exact (congrArg Prod.fst h).trans hy
  · exact h.trans hy

theorem isPrefix_pushKey (path key : List UInt8) : path <+: pushKey path key := by
  rw [pushKey]
  split_ifs
  · exact ⟨point :: key, by simp⟩
  · exact List.prefix_append ..
  · exact ⟨key, by simp⟩
  · exact List.prefix_refl _

theorem isPrefix_pushIndex (path : List UInt8) (idx : Nat) : path <+: pushIndex path idx := by
  rw [pushIndex]
  split_ifs
  · exact List.prefix_append ..
  · exact List.prefix_refl _

section Parses

variable {p : JsonParser} {path : List UInt8}

theorem setPath_of_lt (h : path.length < pathSize) :
    setPath path p = (.ok (), { p with path := path }) := by
  rw [setPath, if_pos h]
  rfl

theorem setPath_of_error {e : Stop} (h : checkedPath path = .error e) :
    setPath path p = (.error e, p) := by
  rw [checkedPath] at h
  split_ifs at h with hlt
  obtain rfl := Except.error.inj h
  rw [setPath, if_neg hlt]
  rfl

theorem checkedPath_eq_ok {sub : List UInt8} (h : checkedPath path = .ok sub) :
    sub = path ∧ path.length < pathSize := by
  rw [checkedPath] at h
  split_ifs at h with hlt
  exact ⟨(Except.ok.inj h).symm, hlt⟩

/-- A child is read at its path, and behind it the path is as before. -/
theorem parses_child {sub : List UInt8} {x next : Jp Unit}
    {adds : List UInt8 → Except Stop (List Addition)} {more : Except Stop (List Addition)}
    {rest : List UInt8} (mid : List UInt8) (hbelow : p.path <+: sub) (hroom : p.path.length < pathSize)
    (hx : sub.length < pathSize → ParsesTo x { p with path := sub } (adds sub) mid)
    (hnext : ∀ enc, ParsesTo next { p with rest := mid, enc := enc } more rest) :
    ParsesTo (do setPath sub; x; pathRestore p.path.length; next) p
      (do let sub ← checkedPath sub; let as ← adds sub; let bs ← more; .ok (as ++ bs)) rest := by
  rcases hsub : checkedPath sub with e | sub'
  · exact congrArg Prod.fst (Op.bind_error (setPath_of_error hsub))
  · obtain ⟨rfl, hlt⟩ := checkedPath_eq_ok hsub
    have hset : setPath sub' p = (.ok (), { p with path := sub' }) := setPath_of_lt hlt
    have hx₀ := hx hlt
    change ParsesTo _ p (do let as ← adds sub'; let bs ← more; .ok (as ++ bs)) rest
    rcases hadds : adds sub' with e | as <;> rw [hadds] at hx₀
    · have hx' : (x { p with path := sub' }).1 = .error e := hx₀
      change ((do setPath sub'; x; pathRestore p.path.length; next : Jp Unit) p).1 = .error e
      rw [Op.bind_ok hset, Op.bind_error (Prod.ext hx' rfl)]
    · have hx' : x { p with path := sub' } =
          (.ok (), { p with path := sub', rest := mid, enc := encoderAddAll p.enc as }) := hx₀
      have hrestore : pathRestore p.path.length
          { p with path := sub', rest := mid, enc := encoderAddAll p.enc as } =
          (.ok (), { p with rest := mid, enc := encoderAddAll p.enc as }) := by
        have htake : sub'.take p.path.length = p.path := (List.prefix_iff_eq_take.mp hbelow).symm
        change setPath (sub'.take p.path.length) _ = _
        rw [htake, setPath_of_lt hroom]
      have hall : (do setPath sub'; x; pathRestore p.path.length; next : Jp Unit) p =
          next { p with rest := mid, enc := encoderAddAll p.enc as } :=
        (Op.bind_ok hset).trans ((Op.bind_ok hx').trans (Op.bind_ok hrestore))
      have hnext' := hnext (encoderAddAll p.enc as)
      rcases more with e | bs
      · exact (congrArg Prod.fst hall).trans hnext'
      · refine hall.trans ?_
        rw [encoderAddAll_append]
        exact hnext'

/-- What `parse_object` and `parse_array` do behind a member or an element. -/
def loopTail (close : UInt8) (next : Jp Unit) : Jp Unit := do
  skipWs
  let c ← peek
  if c = close then advance 1
  else do
    let found ← expect comma
    if ¬ found then Op.fail .jsonSyntax else next

theorem loopTail_close {close : UInt8} (hclose : isSpace close = false) {w rest : List UInt8}
    (hw : IsSpaces w) (hp : p.rest = w ++ close :: rest) (next : Jp Unit) :
    loopTail close next p = (.ok (), { p with rest := rest }) := by
  have hpeek : peek { p with rest := close :: rest } = (.ok close, { p with rest := close :: rest }) :=
    peek_of_spaces (w := []) (by simp [IsSpaces]) hclose rfl
  rw [loopTail, Op.bind_ok (skipWs_of_spaces hw hclose hp), Op.bind_ok hpeek, if_pos rfl]
  rfl

theorem loopTail_comma {close : UInt8} (hclose : comma ≠ close) {w rest : List UInt8}
    (hw : IsSpaces w) (hp : p.rest = w ++ comma :: rest) (next : Jp Unit) :
    loopTail close next p = next { p with rest := rest } := by
  have hpeek : peek { p with rest := comma :: rest } = (.ok comma, { p with rest := comma :: rest }) :=
    peek_of_spaces (w := []) (by simp [IsSpaces]) (by decide) rfl
  have hexpect : expect comma { p with rest := comma :: rest } = (.ok true, { p with rest := rest }) :=
    expect_of_spaces (w := []) (by simp [IsSpaces]) (by decide) rfl
  rw [loopTail, Op.bind_ok (skipWs_of_spaces hw (by decide) hp), Op.bind_ok hpeek, if_neg hclose,
    Op.bind_ok hexpect]
  rfl

/-- `parse_object` and `parse_array` around their loops. -/
def parseContainer (opening closing : UInt8) (loop : Jp Unit) : Jp Unit := do
  enterNesting
  let found ← expect opening
  if ¬ found then Op.fail .jsonSyntax
  else do
    let c ← peek
    if c = closing then advance 1 else loop
    leaveNesting

theorem parseObject_succ (strtod : List UInt8 → UInt64) (fuel : Nat) :
    parseObject strtod (fuel + 1) =
      parseContainer openBrace closeBrace (parseMembers strtod fuel) := rfl

theorem parseArray_succ (strtod : List UInt8 → UInt64) (fuel : Nat) :
    parseArray strtod (fuel + 1) =
      parseContainer openBracket closeBracket (parseElements strtod fuel 0) := rfl

theorem parseContainer_tooDeep {opening closing : UInt8} (h : p.depth + 1 > maxNestingDepth)
    (loop : Jp Unit) : (parseContainer opening closing loop p).1 = .error (.rc .jsonDepth) := by
  have henter : enterNesting p = (.error (.rc .jsonDepth), { p with depth := p.depth + 1 }) := by
    change (if p.depth + 1 > maxNestingDepth then Op.fail .jsonDepth else pure () : Jp Unit) _ = _
    rw [if_pos h]
    rfl
  rw [parseContainer, Op.bind_error henter]

theorem parseContainer_enter {opening closing b : UInt8} {body t : List UInt8}
    (h : ¬ p.depth + 1 > maxNestingDepth) (hopening : isSpace opening = false)
    (hp : p.rest = opening :: body) (hbody : body.dropWhile isSpace = b :: t) (loop : Jp Unit) :
    parseContainer opening closing loop p =
      (do (if b = closing then advance 1 else loop); leaveNesting : Jp Unit)
        { p with rest := b :: t, depth := p.depth + 1 } := by
  have henter : enterNesting p = (.ok (), { p with depth := p.depth + 1 }) := by
    change (if p.depth + 1 > maxNestingDepth then Op.fail .jsonDepth else pure () : Jp Unit) _ = _
    rw [if_neg h]
    rfl
  have hexpect : expect opening { p with depth := p.depth + 1 } =
      (.ok true, { p with rest := body, depth := p.depth + 1 }) :=
    expect_of_spaces (w := []) (by simp [IsSpaces]) hopening hp
  have hpeek : peek { p with rest := body, depth := p.depth + 1 } =
      (.ok b, { p with rest := b :: t, depth := p.depth + 1 }) := by
    rw [peek, Op.bind_ok (skipWs_apply _), hbody]
    rfl
  rw [parseContainer, Op.bind_ok henter, Op.bind_ok hexpect, if_neg (by simp), Op.bind_ok hpeek]
  split <;> rfl

theorem parses_empty {opening closing : UInt8} {w rest : List UInt8} (hopening : isSpace opening = false)
    (hclosing : isSpace closing = false) (hw : IsSpaces w)
    (hp : p.rest = opening :: (w ++ closing :: rest)) (loop : Jp Unit) :
    ParsesTo (parseContainer opening closing loop) p
      (if p.depth + 1 > maxNestingDepth then .error (.rc .jsonDepth) else .ok []) rest := by
  split_ifs with hdeep
  · exact parseContainer_tooDeep hdeep loop
  · have hbody : (w ++ closing :: rest).dropWhile isSpace = closing :: rest :=
      dropWhile_spaces hw (by simpa using hclosing)
    refine (parseContainer_enter hdeep hopening hp hbody loop).trans ?_
    rw [if_pos rfl]
    rfl

theorem parses_container {opening closing b : UInt8} {body t rest : List UInt8} {loop : Jp Unit}
    {adds : Except Stop (List Addition)} (hopening : isSpace opening = false)
    (hp : p.rest = opening :: body) (hbody : body.dropWhile isSpace = b :: t) (hb : b ≠ closing)
    (hloop : ParsesTo loop { p with rest := b :: t, depth := p.depth + 1 } adds rest) :
    ParsesTo (parseContainer opening closing loop) p
      (if p.depth + 1 > maxNestingDepth then .error (.rc .jsonDepth) else adds) rest := by
  split_ifs with hdeep
  · exact parseContainer_tooDeep hdeep loop
  · have henter : parseContainer opening closing loop p = _ :=
      parseContainer_enter hdeep hopening hp hbody loop
    rw [if_neg hb] at henter
    rcases adds with e | adds
    · exact (congrArg Prod.fst henter).trans
        (congrArg Prod.fst (Op.bind_error (Prod.ext hloop rfl)))
    · exact henter.trans (Op.bind_ok hloop)

theorem pathPushKey_bind (key : List UInt8) (f : Nat → Jp Unit) (p : JsonParser) :
    (pathPushKey key >>= f) p =
      (do setPath (pushKey p.path key); f p.path.length : Jp Unit) p := by
  rcases h : setPath (pushKey p.path key) p with ⟨e | _, p'⟩
  · have hpush : pathPushKey key p = (.error e, p') :=
      (Op.bind_error h : (do setPath (pushKey p.path key); pure p.path.length : Jp Nat) p = _)
    rw [Op.bind_error h, Op.bind_error hpush]
  · have hpush : pathPushKey key p = (.ok p.path.length, p') :=
      (Op.bind_ok h : (do setPath (pushKey p.path key); pure p.path.length : Jp Nat) p = _)
    rw [Op.bind_ok h, Op.bind_ok hpush]

theorem pathPushIndex_bind (idx : Nat) (f : Nat → Jp Unit) (p : JsonParser) :
    (pathPushIndex idx >>= f) p =
      (do setPath (pushIndex p.path idx); f p.path.length : Jp Unit) p := by
  rcases h : setPath (pushIndex p.path idx) p with ⟨e | _, p'⟩
  · have hpush : pathPushIndex idx p = (.error e, p') :=
      (Op.bind_error h : (do setPath (pushIndex p.path idx); pure p.path.length : Jp Nat) p = _)
    rw [Op.bind_error h, Op.bind_error hpush]
  · have hpush : pathPushIndex idx p = (.ok p.path.length, p') :=
      (Op.bind_ok h : (do setPath (pushIndex p.path idx); pure p.path.length : Jp Nat) p = _)
    rw [Op.bind_ok h, Op.bind_ok hpush]

theorem parseElements_succ (strtod : List UInt8 → UInt64) (fuel idx : Nat) (p : JsonParser) :
    parseElements strtod (fuel + 1) idx p =
      (do
        setPath (pushIndex p.path idx)
        parseValue strtod fuel
        pathRestore p.path.length
        loopTail closeBracket (parseElements strtod fuel (u32 (idx + 1))) : Jp Unit) p := by
  rw [parseElements, pathPushIndex_bind]
  rfl

theorem parseMembers_succ (strtod : List UInt8 → UInt64) (fuel : Nat) {w w₂ t : List UInt8}
    {k : List StrChar} (hw : IsSpaces w) (hk : ∀ c ∈ k, c.Spelled) (hw₂ : IsSpaces w₂)
    (hp : p.rest = w ++ quote :: strTail k (w₂ ++ colon :: t)) :
    (∀ key, checkedStr keySize k = .ok key → parseMembers strtod (fuel + 1) p =
      (do
        setPath (pushKey p.path key)
        parseValue strtod fuel
        pathRestore p.path.length
        loopTail closeBrace (parseMembers strtod fuel) : Jp Unit) { p with rest := t }) ∧
    ∀ e, checkedStr keySize k = .error e → (parseMembers strtod (fuel + 1) p).1 = .error e := by
  rw [parseMembers, checkedStr]
  split_ifs with hfits
  · refine ⟨fun key hkey => ?_, fun e he => by simp at he⟩
    obtain rfl := Except.ok.inj hkey
    have hspaces : skipWs { p with rest := w₂ ++ colon :: t } = (.ok (), { p with rest := colon :: t }) :=
      skipWs_of_spaces hw₂ (by decide) rfl
    have hcolon : expect colon { p with rest := colon :: t } = (.ok true, { p with rest := t }) :=
      expect_of_spaces (w := []) (by simp [IsSpaces]) (by decide) rfl
    rw [Op.bind_ok (parseBuffered_of_lt (by decide) hw hk hp hfits), Op.bind_ok hspaces,
      Op.bind_ok hcolon, if_neg (by simp), pathPushKey_bind]
    rfl
  · refine ⟨fun key hkey => by simp at hkey, fun e he => ?_⟩
    obtain rfl := Except.error.inj he
    have hlong := parseBuffered_of_le (by decide) hw hk hp (Nat.not_lt.mp hfits)
    rw [Op.bind_error (Prod.ext hlong rfl)]

/-- Which scanner the first byte calls for. -/
theorem parseValue_succ (strtod : List UInt8 → UInt64) (fuel : Nat) {c : UInt8} {t : List UInt8}
    (hp : p.rest.dropWhile isSpace = c :: t) :
    parseValue strtod (fuel + 1) p =
      (if c = openBrace then parseObject strtod fuel
      else if c = openBracket then parseArray strtod fuel
      else if c = quote then do
        let str ← parseBuffered strSize
        addAtPath (.string str)
      else if c = minus ∨ isDigit c = true then do
        let val ← parseNumber strtod
        addAtPath val
      else if trueWord.isPrefixOf (c :: t) then do
        advance 4
        addAtPath (.bool true)
      else if falseWord.isPrefixOf (c :: t) then do
        advance 5
        addAtPath (.bool false)
      else if nullWord.isPrefixOf (c :: t) then do
        advance 4
        addAtPath .null
      else Op.fail .jsonSyntax) { p with rest := c :: t } := by
  rw [parseValue, Op.bind_ok (skipWs_apply p), hp]
  rfl

end Parses

/-! ## Exactness -/

/-- What is to be shown of a reading: with enough fuel the parser does what the tree says. -/
def PartParses (strtod : List UInt8 → UInt64) : Part → List UInt8 → List UInt8 → Prop
  | .value v, text, rest => ((∃ n, v = .num n) → EndsNumber rest) → ∀ (p : JsonParser) (fuel : Nat),
      p.rest.dropWhile isSpace = text → 3 * p.rest.length + 1 ≤ fuel → p.path.length < pathSize →
      ParsesTo (parseValue strtod fuel) p (valueAdds strtod v p.depth p.path) rest
  | .elements vs, text, rest => ∀ (p : JsonParser) (fuel idx : Nat),
      p.rest.dropWhile isSpace = text.dropWhile isSpace → 3 * p.rest.length + 2 ≤ fuel →
      p.path.length < pathSize →
      ParsesTo (parseElements strtod fuel idx) p (elementAdds strtod vs p.depth p.path idx) rest
  | .members ms, text, rest => ∀ (p : JsonParser) (fuel : Nat),
      p.rest.dropWhile isSpace = text.dropWhile isSpace → 3 * p.rest.length + 2 ≤ fuel →
      p.path.length < pathSize →
      ParsesTo (parseMembers strtod fuel) p (memberAdds strtod ms p.depth p.path) rest

theorem take_numLit (n : NumLit) (rest : List UInt8) :
    (n.text ++ rest).take (min ((n.text ++ rest).length - rest.length) 63) = n.text.take 63 := by
  rw [List.length_append, Nat.add_sub_cancel, List.take_append_of_le_length (by omega)]
  rcases Nat.le_total n.text.length 63 with hle | hle
  · rw [Nat.min_eq_left hle, List.take_of_length_le (Nat.le_refl _), List.take_of_length_le hle]
  · rw [Nat.min_eq_right hle]

section Cases

variable {L : Lexicon} {strtod : List UInt8 → UInt64} {w w' w₁ w₂ w₃ text text' rest : List UInt8}
  {k : List StrChar} {v : Tree} {vs : List Tree} {ms : List (List StrChar × Tree)}

theorem num_parses {n : NumLit} (hn : L.number n) : PartParses strtod (.value (.num n)) (n.text ++ rest) rest := by
  intro hend p fuel hp hfuel _
  obtain ⟨fuel, rfl⟩ := Nat.exists_eq_add_of_le' (Nat.le_trans (Nat.le_add_left ..) hfuel)
  obtain ⟨b, t, htext, hb⟩ := (Reads.num hn rest).starts
  have hb' : b = minus ∨ isDigit b = true := hb
  have hother : ∀ b : UInt8, b = minus ∨ isDigit b = true →
      b ≠ openBrace ∧ b ≠ openBracket ∧ b ≠ quote := forall_byte (by decide +kernel)
  obtain ⟨h₁, h₂, h₃⟩ := hother b hb'
  have hnumber : parseNumber strtod { p with rest := b :: t } =
      (.ok (numLitValue strtod n), { p with rest := rest }) := by
    rw [parseNumber]
    simp only [← htext, scanNumber_text (L.number_spelled n hn) (hend ⟨n, rfl⟩), take_numLit, numLitValue]
  have hvalue := parseValue_succ strtod fuel (hp.trans htext)
  rw [if_neg h₁, if_neg h₂, if_neg h₃, if_pos hb', Op.bind_ok hnumber] at hvalue
  rw [valueAdds]
  exact hvalue

theorem str_parses {s : List StrChar} (hs : ∀ c ∈ s, L.char c) :
    PartParses strtod (.value (.str s)) (quote :: strTail s rest) rest := by
  intro _ p fuel hp hfuel _
  obtain ⟨fuel, rfl⟩ := Nat.exists_eq_add_of_le' (Nat.le_trans (Nat.le_add_left ..) hfuel)
  have hvalue := parseValue_succ strtod fuel hp
  rw [if_neg (by decide), if_neg (by decide), if_pos rfl] at hvalue
  have hs' := fun c hc => L.char_spelled c (hs c hc)
  rw [valueAdds, checkedStr]
  split_ifs with hfits
  · have hread : parseBuffered strSize { p with rest := quote :: strTail s rest } =
        (.ok (strBytes s), { p with rest := rest }) :=
      parseBuffered_of_lt (w := []) (by decide) (by simp [IsSpaces]) hs' rfl hfits
    exact hvalue.trans (Op.bind_ok hread)
  · have hread : (parseBuffered strSize { p with rest := quote :: strTail s rest }).1 =
        .error (.oob (strBytes s).length) :=
      parseBuffered_of_le (w := []) (by decide) (by simp [IsSpaces]) hs' rfl (Nat.not_lt.mp hfits)
    exact (congrArg Prod.fst hvalue).trans (congrArg Prod.fst (Op.bind_error (Prod.ext hread rfl)))

theorem emptyArr_parses (hw : IsSpaces w) :
    PartParses strtod (.value (.arr [])) (openBracket :: (w ++ closeBracket :: rest)) rest := by
  intro _ p fuel hp hfuel _
  have hlen := length_dropWhile_le isSpace p.rest
  rw [hp, List.length_cons] at hlen
  obtain ⟨fuel, rfl⟩ : ∃ k, fuel = k + 2 := ⟨fuel - 2, by omega⟩
  have hvalue := parseValue_succ strtod (fuel + 1) hp
  rw [if_neg (by decide), if_pos rfl, parseArray_succ] at hvalue
  refine ParsesTo.of_eq hvalue rfl ?_
  rw [valueAdds, elementAdds]
  exact parses_empty (by decide) (by decide) hw rfl _

theorem arr_parses (h : Reads L (.elements vs) text rest) (ih : PartParses strtod (.elements vs) text rest) :
    PartParses strtod (.value (.arr vs)) (openBracket :: text) rest := by
  intro _ p fuel hp hfuel hroom
  have hlen := length_dropWhile_le isSpace p.rest
  rw [hp, List.length_cons] at hlen
  obtain ⟨fuel, rfl⟩ : ∃ k, fuel = k + 2 := ⟨fuel - 2, by omega⟩
  have hvalue := parseValue_succ strtod (fuel + 1) hp
  rw [if_neg (by decide), if_pos rfl, parseArray_succ] at hvalue
  refine ParsesTo.of_eq hvalue rfl ?_
  obtain ⟨b, t, hbody, hb⟩ := h.elements_head
  have hbodylen := length_dropWhile_le isSpace text
  rw [hbody] at hbodylen
  rw [valueAdds]
  refine parses_container (by decide) rfl hbody hb (ih _ fuel 0 ?_ ?_ hroom)
  · change (b :: t).dropWhile isSpace = text.dropWhile isSpace
    rw [← hbody, List.dropWhile_idempotent]
  · change 3 * (b :: t).length + 2 ≤ fuel
    omega

theorem emptyObj_parses (hw : IsSpaces w) :
    PartParses strtod (.value (.obj [])) (openBrace :: (w ++ closeBrace :: rest)) rest := by
  intro _ p fuel hp hfuel _
  have hlen := length_dropWhile_le isSpace p.rest
  rw [hp, List.length_cons] at hlen
  obtain ⟨fuel, rfl⟩ : ∃ k, fuel = k + 2 := ⟨fuel - 2, by omega⟩
  have hvalue := parseValue_succ strtod (fuel + 1) hp
  rw [if_pos rfl, parseObject_succ] at hvalue
  refine ParsesTo.of_eq hvalue rfl ?_
  rw [valueAdds, memberAdds]
  exact parses_empty (by decide) (by decide) hw rfl _

theorem obj_parses (h : Reads L (.members ms) text rest) (ih : PartParses strtod (.members ms) text rest) :
    PartParses strtod (.value (.obj ms)) (openBrace :: text) rest := by
  intro _ p fuel hp hfuel hroom
  have hlen := length_dropWhile_le isSpace p.rest
  rw [hp, List.length_cons] at hlen
  obtain ⟨fuel, rfl⟩ : ∃ k, fuel = k + 2 := ⟨fuel - 2, by omega⟩
  have hvalue := parseValue_succ strtod (fuel + 1) hp
  rw [if_pos rfl, parseObject_succ] at hvalue
  refine ParsesTo.of_eq hvalue rfl ?_
  obtain ⟨t, hbody⟩ := h.members_head
  have hbodylen := length_dropWhile_le isSpace text
  rw [hbody] at hbodylen
  rw [valueAdds]
  refine parses_container (by decide) rfl hbody (by decide) (ih _ fuel ?_ ?_ hroom)
  · change (quote :: t).dropWhile isSpace = text.dropWhile isSpace
    rw [← hbody, List.dropWhile_idempotent]
  · change 3 * (quote :: t).length + 2 ≤ fuel
    omega

theorem lastElement_parses (hw : IsSpaces w) (hw' : IsSpaces w')
    (hv : Reads L (.value v) text (w' ++ closeBracket :: rest))
    (ih : PartParses strtod (.value v) text (w' ++ closeBracket :: rest)) :
    PartParses strtod (.elements [v]) (w ++ text) rest := by
  intro p fuel idx hp hfuel hroom
  rw [hv.dropWhile_eq hw] at hp
  obtain ⟨fuel, rfl⟩ : ∃ k, fuel = k + 1 := ⟨fuel - 1, by omega⟩
  have hends : EndsNumber (w' ++ closeBracket :: rest) := .spaces_append hw' (by decide)
  rw [elementAdds]
  refine ParsesTo.of_eq (parseElements_succ strtod fuel idx p) rfl ?_
  refine parses_child (w' ++ closeBracket :: rest) (isPrefix_pushIndex ..) hroom (fun hsub => ?_) fun enc => ?_
  · exact ih (fun _ => hends) { p with path := pushIndex p.path idx } fuel hp (Nat.le_of_succ_le_succ hfuel) hsub
  · rw [elementAdds]
    exact loopTail_close (by decide) hw' rfl _

theorem element_parses (hw : IsSpaces w) (hw' : IsSpaces w')
    (hv : Reads L (.value v) text (w' ++ comma :: text'))
    (ihv : PartParses strtod (.value v) text (w' ++ comma :: text'))
    (ih : PartParses strtod (.elements vs) text' rest) :
    PartParses strtod (.elements (v :: vs)) (w ++ text) rest := by
  intro p fuel idx hp hfuel hroom
  rw [hv.dropWhile_eq hw] at hp
  obtain ⟨fuel, rfl⟩ : ∃ k, fuel = k + 1 := ⟨fuel - 1, by omega⟩
  have hends : EndsNumber (w' ++ comma :: text') := .spaces_append hw' (by decide)
  have hlen := length_dropWhile_le isSpace p.rest
  have htext := hv.length_lt
  rw [hp] at hlen
  rw [List.length_append, List.length_cons] at htext
  rw [elementAdds]
  refine ParsesTo.of_eq (parseElements_succ strtod fuel idx p) rfl ?_
  refine parses_child (w' ++ comma :: text') (isPrefix_pushIndex ..) hroom (fun hsub => ?_) fun enc => ?_
  · exact ihv (fun _ => hends) { p with path := pushIndex p.path idx } fuel hp (Nat.le_of_succ_le_succ hfuel) hsub
  · refine ParsesTo.of_eq (loopTail_comma (by decide) hw' rfl _) rfl ?_
    refine ih { p with rest := text', enc := enc } fuel (u32 (idx + 1)) rfl ?_ hroom
    change 3 * text'.length + 2 ≤ fuel
    omega

theorem lastMember_parses (hw₁ : IsSpaces w₁) (hk : ∀ c ∈ k, L.char c) (hw₂ : IsSpaces w₂) (hw₃ : IsSpaces w₃)
    (hw' : IsSpaces w') (hv : Reads L (.value v) text (w' ++ closeBrace :: rest))
    (ih : PartParses strtod (.value v) text (w' ++ closeBrace :: rest)) :
    PartParses strtod (.members [(k, v)]) (w₁ ++ quote :: strTail k (w₂ ++ colon :: (w₃ ++ text))) rest := by
  intro p fuel hp hfuel hroom
  rw [dropWhile_spaces hw₁ (by simpa using (by decide : isSpace quote = false))] at hp
  obtain ⟨w, hw, hrest⟩ := exists_spaces p.rest
  rw [hp] at hrest
  obtain ⟨fuel, rfl⟩ : ∃ k, fuel = k + 1 := ⟨fuel - 1, by omega⟩
  have hends : EndsNumber (w' ++ closeBrace :: rest) := .spaces_append hw' (by decide)
  obtain ⟨hok, herror⟩ := parseMembers_succ strtod fuel hw (fun c hc => L.char_spelled c (hk c hc)) hw₂ hrest
  rw [memberAdds]
  rcases hkey : checkedStr keySize k with e | key
  · exact herror e hkey
  · refine ParsesTo.of_eq (hok key hkey) rfl ?_
    refine parses_child (w' ++ closeBrace :: rest) (isPrefix_pushKey ..) hroom (fun hsub => ?_) fun enc => ?_
    · refine ih (fun _ => hends) _ fuel (hv.dropWhile_eq hw₃) ?_ hsub
      have hlen := congrArg List.length hrest
      simp only [strTail, List.length_append, List.length_cons] at hlen ⊢
      omega
    · rw [memberAdds]
      exact loopTail_close (by decide) hw' rfl _

theorem member_parses (hw₁ : IsSpaces w₁) (hk : ∀ c ∈ k, L.char c) (hw₂ : IsSpaces w₂) (hw₃ : IsSpaces w₃)
    (hw' : IsSpaces w') (hv : Reads L (.value v) text (w' ++ comma :: text'))
    (ihv : PartParses strtod (.value v) text (w' ++ comma :: text'))
    (ih : PartParses strtod (.members ms) text' rest) :
    PartParses strtod (.members ((k, v) :: ms))
      (w₁ ++ quote :: strTail k (w₂ ++ colon :: (w₃ ++ text))) rest := by
  intro p fuel hp hfuel hroom
  rw [dropWhile_spaces hw₁ (by simpa using (by decide : isSpace quote = false))] at hp
  obtain ⟨w, hw, hrest⟩ := exists_spaces p.rest
  rw [hp] at hrest
  obtain ⟨fuel, rfl⟩ : ∃ k, fuel = k + 1 := ⟨fuel - 1, by omega⟩
  have hends : EndsNumber (w' ++ comma :: text') := .spaces_append hw' (by decide)
  have hlen := congrArg List.length hrest
  have htext := hv.length_lt
  simp only [strTail, List.length_append, List.length_cons] at hlen htext
  obtain ⟨hok, herror⟩ := parseMembers_succ strtod fuel hw (fun c hc => L.char_spelled c (hk c hc)) hw₂ hrest
  rw [memberAdds]
  rcases hkey : checkedStr keySize k with e | key
  · exact herror e hkey
  · refine ParsesTo.of_eq (hok key hkey) rfl ?_
    refine parses_child (w' ++ comma :: text') (isPrefix_pushKey ..) hroom (fun hsub => ?_) fun enc => ?_
    · refine ihv (fun _ => hends) _ fuel (hv.dropWhile_eq hw₃) ?_ hsub
      simp only [List.length_append]
      omega
    · refine ParsesTo.of_eq (loopTail_comma (by decide) hw' rfl _) rfl ?_
      refine ih { p with rest := text', enc := enc } fuel rfl ?_ hroom
      change 3 * text'.length + 2 ≤ fuel
      omega

end Cases

/-- On a text with a reading the parser makes the additions of the tree. -/
theorem reads_parses {L : Lexicon} (strtod : List UInt8 → UInt64) {part : Part}
    {text rest : List UInt8} (h : Reads L part text rest) : PartParses strtod part text rest := by
  induction h with
  | null | boolTrue | boolFalse =>
    intro _ p fuel hp hfuel _
    obtain ⟨fuel, rfl⟩ := Nat.exists_eq_add_of_le' (Nat.le_trans (Nat.le_add_left ..) hfuel)
    rw [valueAdds]
    exact (parseValue_succ strtod fuel hp).trans rfl
  | num hn => exact num_parses hn
  | str hs => exact str_parses hs
  | emptyArr hw => exact emptyArr_parses hw
  | arr h ih => exact arr_parses h ih
  | emptyObj hw => exact emptyObj_parses hw
  | obj h ih => exact obj_parses h ih
  | lastElement hw hw' hv ih => exact lastElement_parses hw hw' hv ih
  | element hw hw' hv _ ihv ih => exact element_parses hw hw' hv ihv ih
  | lastMember hw₁ hk hw₂ hw₃ hw' hv ih => exact lastMember_parses hw₁ hk hw₂ hw₃ hw' hv ih
  | member hw₁ hk hw₂ hw₃ hw' hv _ ihv ih => exact member_parses hw₁ hk hw₂ hw₃ hw' hv ihv ih

end Triepack
