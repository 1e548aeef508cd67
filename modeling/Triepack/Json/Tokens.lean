import Triepack.Json.Encode
import Triepack.Core.Open
import Triepack.Library.JsonGrammar

/-!
# What the parser takes for a token

Behind spaces, the scanners of strings and numbers read a token of the tolerant grammar and
nothing else.
-/

namespace Triepack

open JsonText

/-! ## Spaces and single characters -/

theorem exists_spaces (rest : List UInt8) :
    ∃ w, IsSpaces w ∧ rest = w ++ rest.dropWhile isSpace :=
  ⟨rest.takeWhile isSpace, fun _ hb => List.mem_takeWhile_imp hb, List.takeWhile_append_dropWhile.symm⟩

section Characters

variable {p p' : JsonParser} {w rest : List UInt8} {b c : UInt8}

theorem skipWs_apply (p : JsonParser) :
    skipWs p = (.ok (), { p with rest := p.rest.dropWhile isSpace }) := rfl

theorem skipWs_of_spaces (hw : IsSpaces w) (hb : isSpace b = false) (hp : p.rest = w ++ b :: rest) :
    skipWs p = (.ok (), { p with rest := b :: rest }) := by
  rw [skipWs_apply, hp, dropWhile_spaces hw (by simpa using hb)]

theorem peek_of_spaces (hw : IsSpaces w) (hb : isSpace b = false) (hp : p.rest = w ++ b :: rest) :
    peek p = (.ok b, { p with rest := b :: rest }) := by
  rw [peek, Op.bind_ok (skipWs_of_spaces hw hb hp)]
  rfl

theorem expect_apply (c : UInt8) (p : JsonParser) :
    expect c p =
      if (p.rest.dropWhile isSpace).head? = some c then
        (.ok true, { p with rest := (p.rest.dropWhile isSpace).drop 1 })
      else (.ok false, { p with rest := p.rest.dropWhile isSpace }) := by
  rw [expect, Op.bind_ok (skipWs_apply p)]
  change (if (p.rest.dropWhile isSpace).head? = some c then _ else _ : Jp Bool) _ = _
  split <;> rfl

theorem expect_of_spaces (hw : IsSpaces w) (hc : isSpace c = false) (hp : p.rest = w ++ c :: rest) :
    expect c p = (.ok true, { p with rest := rest }) := by
  rw [expect_apply, hp, dropWhile_spaces hw (by simpa using hc)]
  exact if_pos rfl

theorem expect_eq_true (h : expect c p = (.ok true, p')) :
    ∃ w rest, IsSpaces w ∧ p.rest = w ++ c :: rest ∧ p' = { p with rest := rest } := by
  rw [expect_apply] at h
  split at h
  · rename_i hhead
    obtain ⟨t, ht⟩ : ∃ t, p.rest.dropWhile isSpace = c :: t := by
      cases hdrop : p.rest.dropWhile isSpace with
      | nil => simp [hdrop] at hhead
      | cons a t => exact ⟨t, by simpa [hdrop] using hhead⟩
    obtain ⟨w, hw, hrest⟩ := exists_spaces p.rest
    obtain rfl : { p with rest := t } = p' := by simpa [ht] using congrArg Prod.snd h
    exact ⟨w, t, hw, by rw [hrest, ht], rfl⟩
  · simp at h

end Characters

/-! ## Strings -/

theorem hexDigit_lt {b : UInt8} {n : Nat} (h : hexDigit b = some n) : n < 16 := by
  rw [hexDigit] at h
  split_ifs at h with h₁ h₂ h₃
  · obtain rfl := Option.some.inj h
    have := UInt8.le_iff_toNat_le.mp h₁.2
    simp at this
    omega
  · obtain rfl := Option.some.inj h
    have := UInt8.le_iff_toNat_le.mp h₂.2
    simp at this
    omega
  · obtain rfl := Option.some.inj h
    have := UInt8.le_iff_toNat_le.mp h₃.2
    simp at this
    omega

theorem parseHex4_digits (h : Hex4) (rest : List UInt8) :
    parseHex4 (h.digits ++ rest) = some (h.value, rest) := by
  obtain ⟨digits, hlen, hhex⟩ := h
  match digits, hlen with
  | [a, b, c, d], _ =>
    obtain ⟨x, hx⟩ := Option.isSome_iff_exists.mp (hhex a (by simp))
    obtain ⟨y, hy⟩ := Option.isSome_iff_exists.mp (hhex b (by simp))
    obtain ⟨z, hz⟩ := Option.isSome_iff_exists.mp (hhex c (by simp))
    obtain ⟨t, ht⟩ := Option.isSome_iff_exists.mp (hhex d (by simp))
    have hb : ∀ m n, n < 16 → (m <<< 4 ||| n) = 16 * m + n := fun m n hn => by
      rw [shiftLeft_or (n := 4) hn]
      omega
    simp [parseHex4, Hex4.value, hx, hy, hz, ht, hb, hexDigit_lt hy, hexDigit_lt hz, hexDigit_lt ht]

theorem parseHex4_eq_some {text rest : List UInt8} {n : Nat} (h : parseHex4 text = some (n, rest)) :
    ∃ x : Hex4, text = x.digits ++ rest ∧ x.value = n := by
  match text, h with
  | a :: b :: c :: d :: tail, h =>
    have hsome : (hexDigit a).isSome ∧ (hexDigit b).isSome ∧ (hexDigit c).isSome ∧
        (hexDigit d).isSome := by
      rw [parseHex4] at h
      cases ha : hexDigit a <;> cases hb : hexDigit b <;> cases hc : hexDigit c <;>
        cases hd : hexDigit d <;> simp_all
    let x : Hex4 := ⟨[a, b, c, d], rfl, by simpa using hsome⟩
    have hx := parseHex4_digits x tail
    have heq : (x.value, tail) = (n, rest) := Option.some.inj (hx.symm.trans h)
    exact ⟨x, by rw [← (Prod.mk.inj heq).2]; rfl, (Prod.mk.inj heq).1⟩

theorem unicodeEscape_unit {h : Hex4} (hh : ¬ IsHigh h.value) (rest : List UInt8) :
    unicodeEscape (h.digits ++ rest) = .ok (utf8 h.value, rest) := by
  rw [unicodeEscape, parseHex4_digits]
  exact if_neg hh

theorem unicodeEscape_pair {h l : Hex4} (hh : IsHigh h.value) (hl : IsLow l.value)
    (rest : List UInt8) :
    unicodeEscape (h.digits ++ backslash :: letterU :: (l.digits ++ rest)) =
      .ok ((StrChar.pair h l).bytes, rest) := by
  rw [unicodeEscape, parseHex4_digits]
  have hlow : ¬ (l.value < 0xDC00 ∨ l.value > 0xDFFF) := by
    unfold IsLow at hl
    omega
  have hhigh : h.value ≥ 0xD800 ∧ h.value ≤ 0xDBFF := hh
  simp only [hhigh, and_self, if_true, parseHex4_digits, hlow, if_false, StrChar.bytes,
    Nat.shiftLeft_eq]

theorem unicodeEscape_eq_ok {text rest bs : List UInt8} (h : unicodeEscape text = .ok (bs, rest)) :
    ∃ c : StrChar, c.Spelled ∧ c.bytes = bs ∧ backslash :: letterU :: text = c.text ++ rest := by
  rw [unicodeEscape] at h
  split at h
  · simp at h
  · rename_i cp tail hcp
    obtain ⟨x, rfl, rfl⟩ := parseHex4_eq_some hcp
    split_ifs at h with hhigh
    · split at h
      · rename_i b u tail hc
        split_ifs at h with hbu
        obtain ⟨rfl, rfl⟩ := hbu
        split at h
        · simp at h
        · rename_i lo tail' hlo
          obtain ⟨y, rfl, rfl⟩ := parseHex4_eq_some hlo
          split_ifs at h with hrange
          have hlow : IsLow y.value := by
            unfold IsLow
            omega
          obtain ⟨rfl, rfl⟩ := Prod.mk.inj (Except.ok.inj h)
          refine ⟨.pair x y, ⟨hhigh, hlow⟩, ?_, by simp [StrChar.text]⟩
          rw [StrChar.bytes, Nat.shiftLeft_eq]
      · simp at h
    · obtain ⟨rfl, rfl⟩ := Prod.mk.inj (Except.ok.inj h)
      exact ⟨.unit x, hhigh, rfl, by simp [StrChar.text]⟩

theorem backslash_ne_quote : backslash ≠ quote := by decide

/-- One character of a string is read. -/
theorem stringBody_text {c : StrChar} (hc : c.Spelled) (rest : List UInt8) :
    stringBody (c.text ++ rest) = .ok (some c.bytes, rest) := by
  cases c with
  | raw b =>
    obtain ⟨hquote, hbackslash⟩ := hc
    simp [stringBody, StrChar.text, StrChar.bytes, hquote, hbackslash]
  | esc b =>
    obtain ⟨x, hx⟩ := Option.isSome_iff_exists.mp hc
    have hu : b ≠ letterU := by
      rintro rfl
      simp [StrChar.Spelled, show unescape letterU = none by decide] at hc
    simp [stringBody, backslash_ne_quote, StrChar.text, StrChar.bytes, hu, hx]
  | unit h =>
    have hesc := unicodeEscape_unit hc rest
    simp [stringBody, backslash_ne_quote, StrChar.text, StrChar.bytes, hesc, Except.map]
  | pair h l =>
    have hesc := unicodeEscape_pair hc.1 hc.2 rest
    simp [stringBody, backslash_ne_quote, StrChar.text, hesc, Except.map]

theorem stringBody_eq_some {text rest bs : List UInt8} (h : stringBody text = .ok (some bs, rest)) :
    ∃ c : StrChar, c.Spelled ∧ c.bytes = bs ∧ text = c.text ++ rest := by
  cases text with
  | nil => simp [stringBody] at h
  | cons a text =>
    rw [stringBody.eq_def] at h
    simp only at h
    split_ifs at h with hquote hbackslash
    · simp at h
    · subst hbackslash
      cases text with
      | nil => simp at h
      | cons e text =>
        simp only at h
        split_ifs at h with hu
        · subst hu
          cases hesc : unicodeEscape text with
          | error code => simp [hesc, Except.map] at h
          | ok out =>
            obtain ⟨bs', rest'⟩ := out
            obtain ⟨rfl, rfl⟩ : bs' = bs ∧ rest' = rest := by simpa [hesc, Except.map] using h
            exact unicodeEscape_eq_ok hesc
        · cases hunesc : unescape e with
          | none => simp [hunesc] at h
          | some b =>
            obtain ⟨rfl, rfl⟩ : [b] = bs ∧ text = rest := by simpa [hunesc] using h
            exact ⟨.esc e, by simp [StrChar.Spelled, hunesc], by simp [StrChar.bytes, hunesc], rfl⟩
    · obtain ⟨rfl, rfl⟩ : [a] = bs ∧ text = rest := by simpa using h
      exact ⟨.raw a, ⟨hquote, hbackslash⟩, rfl, rfl⟩

theorem stringBody_eq_none {text rest : List UInt8} (h : stringBody text = .ok (none, rest)) :
    text = quote :: rest := by
  cases text with
  | nil => simp [stringBody] at h
  | cons a text =>
    rw [stringBody.eq_def] at h
    simp only at h
    split_ifs at h with hquote hbackslash
    · obtain rfl : text = rest := by simpa using h
      rw [hquote]
    · cases text with
      | nil => simp at h
      | cons e text =>
        simp only at h
        split_ifs at h with hu
        · cases hesc : unicodeEscape text <;> simp [hesc, Except.map] at h
        · cases hunesc : unescape e <;> simp [hunesc] at h
    · simp at h

/-- The loop counts every byte of a string, and stores them all when they fit. -/
theorem stringLoop_strTail {outCap : Nat} (hcap : 0 < outCap) {s : List StrChar}
    (hs : ∀ c ∈ s, c.Spelled) (rest : List UInt8) {fuel : Nat} (hfuel : s.length < fuel)
    (out : List UInt8) (w : Nat) :
    ∃ out', stringLoop outCap fuel (strTail s rest) out w =
        .ok ((out', w + (strBytes s).length), rest) ∧
      (w + (strBytes s).length ≤ outCap → out' = out ++ strBytes s) := by
  induction s generalizing fuel out w with
  | nil =>
    obtain ⟨fuel, rfl⟩ := Nat.exists_eq_succ_of_ne_zero (by omega : fuel ≠ 0)
    refine ⟨out, ?_, by simp [strBytes]⟩
    simp [stringLoop, strTail, stringBody, strBytes]
  | cons c s ih =>
    obtain ⟨fuel, rfl⟩ := Nat.exists_eq_succ_of_ne_zero (by omega : fuel ≠ 0)
    have hbody := stringBody_text (hs c (by simp)) (strTail s rest)
    obtain ⟨out', hloop, hstored⟩ := @ih (fun c hc => hs c (by simp [hc])) fuel
      (by rw [List.length_cons] at hfuel; omega)
      (if w + c.bytes.length - 1 < outCap then out ++ c.bytes else out) (w + c.bytes.length)
    have htail : strTail (c :: s) rest = c.text ++ strTail s rest := by simp [strTail]
    have hbytes : strBytes (c :: s) = c.bytes ++ strBytes s := by simp [strBytes]
    refine ⟨out', ?_, fun hfits => ?_⟩
    · rw [htail, stringLoop, hbody, hbytes, List.length_append, ← Nat.add_assoc]
      exact hloop
    · rw [hbytes, List.length_append] at hfits
      rw [hstored (by omega), if_pos (by omega), hbytes, List.append_assoc]

theorem stringLoop_eq_ok {outCap fuel w : Nat} {text out rest : List UInt8}
    {found : List UInt8 × Nat} (h : stringLoop outCap fuel text out w = .ok (found, rest)) :
    ∃ s, (∀ c ∈ s, c.Spelled) ∧ text = strTail s rest := by
  induction fuel generalizing text out w with
  | zero => simp [stringLoop] at h
  | succ fuel ih =>
    rw [stringLoop] at h
    split at h
    · simp at h
    · rename_i rest' hbody
      obtain ⟨_, rfl⟩ := Prod.mk.inj (Except.ok.inj h)
      exact ⟨[], by simp, by rw [stringBody_eq_none hbody]; rfl⟩
    · rename_i bs rest' hbody
      obtain ⟨c, hc, _, rfl⟩ := stringBody_eq_some hbody
      obtain ⟨s, hs, rfl⟩ := ih h
      refine ⟨c :: s, ?_, by simp [strTail]⟩
      exact List.forall_mem_cons.mpr ⟨hc, hs⟩

theorem length_lt_strTail {s : List StrChar} (hs : ∀ c ∈ s, c.Spelled) (rest : List UInt8) :
    s.length < (strTail s rest).length := by
  have hle : s.length ≤ (s.flatMap StrChar.text).length := by
    induction s with
    | nil => simp
    | cons c s ih =>
      have hpos : 0 < c.text.length := by cases c <;> simp [StrChar.text]
      have htail := ih fun c hc => hs c (by simp [hc])
      rw [List.flatMap_cons, List.length_append, List.length_cons]
      omega
  rw [strTail, List.length_append, List.length_cons]
  omega

section Buffered

variable {p p' : JsonParser} {size : Nat} {s : List StrChar} {w rest : List UInt8}

/-- What `parse_string_into` finds behind spaces. -/
theorem parseStringInto_of_spaces {outCap : Nat} (hcap : 0 < outCap) (hw : IsSpaces w)
    (hs : ∀ c ∈ s, c.Spelled) (hp : p.rest = w ++ quote :: strTail s rest) :
    ∃ out, parseStringInto outCap p = (.ok (out, (strBytes s).length), { p with rest := rest }) ∧
      ((strBytes s).length ≤ outCap → out = strBytes s) := by
  obtain ⟨out, hloop, hstored⟩ := stringLoop_strTail hcap hs rest
    (Nat.lt_succ_of_lt (length_lt_strTail hs rest)) [] 0
  rw [Nat.zero_add] at hloop hstored
  refine ⟨out, ?_, hstored⟩
  rw [parseStringInto, Op.bind_ok (expect_of_spaces hw (by decide) hp)]
  simp only [if_true, runStringLoop, hloop]

/-- A string that leaves room for its terminator is read. -/
theorem parseBuffered_of_lt (hsize : 1 < size) (hw : IsSpaces w) (hs : ∀ c ∈ s, c.Spelled)
    (hp : p.rest = w ++ quote :: strTail s rest) (hfits : (strBytes s).length < size) :
    parseBuffered size p = (.ok (strBytes s), { p with rest := rest }) := by
  obtain ⟨out, hout, hstored⟩ :=
    parseStringInto_of_spaces (Nat.sub_pos_of_lt hsize) hw hs hp
  rw [parseBuffered, Op.bind_ok hout, hstored (by omega)]
  simp only [if_pos hfits]
  rfl

/-- The terminator of a longer string is written outside the buffer. -/
theorem parseBuffered_of_le (hsize : 1 < size) (hw : IsSpaces w) (hs : ∀ c ∈ s, c.Spelled)
    (hp : p.rest = w ++ quote :: strTail s rest) (hlong : size ≤ (strBytes s).length) :
    (parseBuffered size p).1 = .error (.oob (strBytes s).length) := by
  obtain ⟨out, hout, _⟩ := parseStringInto_of_spaces (Nat.sub_pos_of_lt hsize) hw hs hp
  rw [parseBuffered, Op.bind_ok hout]
  simp only [if_neg (Nat.not_lt.mpr hlong)]
  rfl

/-- Only strings are read. -/
theorem parseBuffered_eq_ok {bs : List UInt8} (h : parseBuffered size p = (.ok bs, p')) :
    ∃ w s, IsSpaces w ∧ (∀ c ∈ s, c.Spelled) ∧ p.rest = w ++ quote :: strTail s p'.rest := by
  obtain ⟨⟨out, len⟩, p₁, hinto, hlen⟩ := Op.bind_eq_ok h
  obtain ⟨found, p₂, hexpect, hloop⟩ := Op.bind_eq_ok hinto
  cases found with
  | false => simp at hloop
  | true =>
    obtain ⟨w, rest, hw, hrest, rfl⟩ := expect_eq_true hexpect
    simp only [if_true, runStringLoop] at hloop
    split at hloop
    · simp at hloop
    · rename_i found rest' hok
      obtain ⟨s, hs, rfl⟩ := stringLoop_eq_ok hok
      obtain rfl : { p with rest := rest' } = p₁ := by simpa using (Prod.mk.inj hloop).2
      refine ⟨w, s, hw, hs, ?_⟩
      by_cases hlt : len < size
      · simp only [if_pos hlt] at hlen
        rw [← (Prod.mk.inj hlen).2]
        exact hrest
      · simp only [if_neg hlt] at hlen
        simp [Jp.stop] at hlen

end Buffered

/-! ## Numbers -/

theorem headIs_eq_false {p : UInt8 → Bool} {rest : List UInt8} :
    headIs p rest = false ↔ ∀ b ∈ rest.head?, p b = false := by
  cases rest <;> simp [headIs]

theorem dropWhile_digits {ds : List UInt8} (hds : ∀ d ∈ ds, isDigit d = true) {rest : List UInt8}
    (hrest : headIs isDigit rest = false) : (ds ++ rest).dropWhile isDigit = rest := by
  induction ds with
  | nil =>
    cases rest with
    | nil => rfl
    | cons b rest => simp [headIs_eq_false.mp hrest b (by simp)]
  | cons a ds ih =>
    rw [List.cons_append, List.dropWhile_cons_of_pos (hds a (by simp))]
    exact ih fun b hb => hds b (by simp [hb])

theorem scanDigits_append {ds rest : List UInt8} (hds : IsDigits ds)
    (hrest : headIs isDigit rest = false) : scanDigits (ds ++ rest) = some rest := by
  obtain ⟨hne, hall⟩ := hds
  obtain ⟨d, tail, rfl⟩ := List.exists_cons_of_ne_nil hne
  have hhead : headIs isDigit (d :: tail ++ rest) = true := by simp [headIs, hall d (by simp)]
  rw [scanDigits, if_pos hhead, dropWhile_digits hall hrest]

theorem scanDigits_eq_some {text rest : List UInt8} (h : scanDigits text = some rest) :
    ∃ ds, IsDigits ds ∧ text = ds ++ rest := by
  rw [scanDigits] at h
  split_ifs at h with hhead
  obtain rfl : text.dropWhile isDigit = rest := Option.some.inj h
  refine ⟨text.takeWhile isDigit, ⟨?_, fun _ hb => List.mem_takeWhile_imp hb⟩,
    List.takeWhile_append_dropWhile.symm⟩
  cases text with
  | nil => simp [headIs] at hhead
  | cons a text =>
    have ha : isDigit a = true := by simpa [headIs] using hhead
    simp [ha]

theorem scanFrac_append {n : NumLit} (hn : n.Spelled) {rest : List UInt8}
    (hdigit : headIs isDigit rest = false) (hpoint : headIs (· == point) rest = false) :
    scanFrac (n.fracText ++ rest) = some (rest, n.frac.isSome) := by
  rw [NumLit.fracText]
  cases hfrac : n.frac with
  | none => simp [scanFrac, hpoint]
  | some ds =>
    have hds : IsDigits ds := hn.frac ds (by simp [hfrac])
    simp [scanFrac, headIs, scanDigits_append hds hdigit]

theorem scanFrac_eq_some {text rest : List UInt8} {isFrac : Bool}
    (h : scanFrac text = some (rest, isFrac)) :
    ∃ frac : Option (List UInt8), (∀ ds ∈ frac, IsDigits ds) ∧
      ∀ neg int exp, text = (NumLit.mk neg int frac exp).fracText ++ rest := by
  rw [scanFrac] at h
  split_ifs at h with hpoint
  · obtain ⟨rest', hscan, heq⟩ := Option.map_eq_some_iff.mp h
    obtain ⟨rfl, _⟩ := Prod.mk.inj heq
    obtain ⟨ds, hds, htail⟩ := scanDigits_eq_some hscan
    refine ⟨some ds, by simpa using hds, fun neg int exp => ?_⟩
    cases text with
    | nil => simp [headIs] at hpoint
    | cons a text =>
      obtain rfl : a = point := by simpa [headIs] using hpoint
      simpa [NumLit.fracText] using htail
  · obtain ⟨rfl, _⟩ := Prod.mk.inj (Option.some.inj h)
    exact ⟨none, by simp, fun _ _ _ => rfl⟩

theorem scanExp_append {n : NumLit} (hn : n.Spelled) {rest : List UInt8}
    (hdigit : headIs isDigit rest = false)
    (hexp : headIs (fun b => b == 0x65 || b == 0x45) rest = false) :
    scanExp (n.expText ++ rest) = some (rest, n.exp.isSome) := by
  rw [NumLit.expText]
  cases he : n.exp with
  | none => simp [scanExp, hexp]
  | some e =>
    obtain ⟨letter, sign, digits⟩ := e
    obtain ⟨hletter, hsign, hdigits⟩ := hn.exp _ he
    obtain ⟨d, ds, rfl⟩ := List.exists_cons_of_ne_nil hdigits.1
    have hscan := scanDigits_append hdigits hdigit
    have hd : isDigit d = true := hdigits.2 d (by simp)
    cases sign with
    | none =>
      have hplain : d ≠ 0x2B ∧ d ≠ minus := by
        constructor <;> rintro rfl <;> exact absurd hd (by decide)
      simpa [scanExp, Exponent.text, headIs, hletter, hplain] using hscan
    | some b =>
      have hb := hsign b rfl
      simpa [scanExp, Exponent.text, headIs, hletter, hb] using hscan

theorem scanExp_eq_some {text rest : List UInt8} {isExp : Bool}
    (h : scanExp text = some (rest, isExp)) :
    ∃ exp : Option Exponent, (∀ e ∈ exp, e.Spelled) ∧
      ∀ neg int frac, text = (NumLit.mk neg int frac exp).expText ++ rest := by
  rw [scanExp] at h
  by_cases hletter : headIs (fun b => b == 0x65 || b == 0x45) text = true
  · rw [if_pos hletter] at h
    obtain ⟨rest', hscan, heq⟩ := Option.map_eq_some_iff.mp h
    obtain ⟨rfl, _⟩ := Prod.mk.inj heq
    obtain ⟨ds, hds, htail⟩ := scanDigits_eq_some hscan
    obtain ⟨a, text, rfl⟩ : ∃ a t, text = a :: t := by
      cases text with
      | nil => simp [headIs] at hletter
      | cons a text => exact ⟨a, text, rfl⟩
    have ha : a = 0x65 ∨ a = 0x45 := by simpa [headIs] using hletter
    by_cases hsign : headIs (fun b => b == 0x2B || b == minus) text = true
    · cases text with
      | nil => simp [headIs] at hsign
      | cons b text =>
        refine ⟨some ⟨a, some b, ds⟩, ?_, fun neg int frac => ?_⟩
        · rintro _ ⟨⟩
          exact ⟨ha, by simpa [headIs] using hsign, hds⟩
        · simpa [NumLit.expText, Exponent.text, hsign] using htail
    · refine ⟨some ⟨a, none, ds⟩, ?_, fun neg int frac => ?_⟩
      · rintro _ ⟨⟩
        exact ⟨ha, by simp, hds⟩
      · simpa [NumLit.expText, Exponent.text, hsign] using htail
  · rw [if_neg hletter] at h
    obtain ⟨rfl, _⟩ := Prod.mk.inj (Option.some.inj h)
    exact ⟨none, by simp, fun _ _ _ => rfl⟩

theorem headIs_of_endsNumber {rest : List UInt8} (h : EndsNumber rest) :
    headIs isDigit rest = false ∧ headIs (· == point) rest = false ∧
      headIs (fun b => b == 0x65 || b == 0x45) rest = false := by
  simp only [headIs_eq_false]
  refine ⟨fun b hb => (h b hb).1, fun b hb => ?_, fun b hb => ?_⟩
  · simpa using (h b hb).2.1
  · simpa using (h b hb).2.2

/-- A number that ends is read. -/
theorem scanNumber_text {n : NumLit} (hn : n.Spelled) {rest : List UInt8} (hrest : EndsNumber rest) :
    scanNumber (n.text ++ rest) = some (rest, n.frac.isSome || n.exp.isSome, n.neg) := by
  obtain ⟨hdigit, hpoint, hletter⟩ := headIs_of_endsNumber hrest
  have hexp := scanExp_append hn hdigit hletter
  have hafter : headIs isDigit (n.expText ++ rest) = false ∧
      headIs (· == point) (n.expText ++ rest) = false := by
    rw [NumLit.expText]
    cases he : n.exp with
    | none => exact ⟨hdigit, hpoint⟩
    | some e =>
      obtain ⟨hletter, _, _⟩ := hn.exp e he
      have hhead : ∀ p : UInt8 → Bool, headIs p (e.text ++ rest) = p e.letter := fun _ => rfl
      rw [hhead, hhead]
      rcases hletter with hletter | hletter <;> rw [hletter] <;> decide
  have hfrac := scanFrac_append hn hafter.1 hafter.2
  have hnext : headIs isDigit (n.fracText ++ (n.expText ++ rest)) = false := by
    rw [NumLit.fracText]
    cases hf : n.frac with
    | none => exact hafter.1
    | some ds => exact (by decide : isDigit point = false)
  have hint := scanDigits_append hn.int hnext
  obtain ⟨d, ds, hn'⟩ := List.exists_cons_of_ne_nil hn.int.1
  have hd : isDigit d = true := hn.int.2 d (by simp [hn'])
  have hminus : d ≠ minus := by
    rintro rfl
    exact absurd hd (by decide)
  rw [scanNumber, NumLit.text]
  cases hneg : n.neg with
  | false =>
    have hhead : headIs (· == minus) ([] ++ (n.int ++ (n.fracText ++ n.expText)) ++ rest) = false := by
      simp [headIs, hn', hminus]
    simp only [Bool.false_eq_true, if_false, hhead]
    simp [hint, hfrac, hexp]
  | true => simp [headIs, hint, hfrac, hexp]

/-- Only numbers are read. -/
theorem scanNumber_eq_some {start rest : List UInt8} {isFloat isNeg : Bool}
    (h : scanNumber start = some (rest, isFloat, isNeg)) :
    ∃ n : NumLit, n.Spelled ∧ start = n.text ++ rest := by
  rw [scanNumber] at h
  simp only [Option.bind_eq_bind, Option.bind_eq_some_iff, Option.pure_def, Option.some.injEq,
    Prod.mk.injEq, Prod.exists] at h
  obtain ⟨rest₁, hint, rest₂, isFrac, hfrac, rest₃, isExp, hexp, rfl, _, hneg⟩ := h
  obtain ⟨ds, hds, hstart⟩ := scanDigits_eq_some hint
  obtain ⟨frac, hfrac, hrest₁⟩ := scanFrac_eq_some hfrac
  obtain ⟨exp, hexp, hrest₂⟩ := scanExp_eq_some hexp
  refine ⟨⟨isNeg, ds, frac, exp⟩, ⟨hds, hfrac, hexp⟩, ?_⟩
  have htail : ds ++ rest₁ = ds ++ ((NumLit.mk isNeg ds frac exp).fracText ++
      (NumLit.mk isNeg ds frac exp).expText) ++ rest₃ := by
    rw [hrest₁ isNeg ds exp, hrest₂ isNeg ds frac]
    simp
  rw [NumLit.text]
  cases isNeg with
  | false => simpa [hneg, ← htail] using hstart
  | true =>
    cases start with
    | nil => simp [headIs] at hneg
    | cons a start =>
      obtain rfl : a = minus := by simpa [headIs] using hneg
      simpa [hneg, ← htail] using hstart

end Triepack
