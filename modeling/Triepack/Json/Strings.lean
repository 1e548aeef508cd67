import Triepack.Json.Decode
import Triepack.Json.Tokens

/-!
# What the emitter writes for a string

`sb_append_json_string` spells every byte as one character of a string literal that stands for
this byte alone: itself, a backslash and a letter, or `\u00` and two digits for a control
character, whose UTF-8 is one byte. So `parse_string_into` reads back what was written, whatever
bytes these are and whatever comes behind.
-/

namespace Triepack

open JsonText

/-! ## Control characters -/

theorem hexDigit_hexLower {n : Nat} (h : n < 16) : hexDigit (hexLower n) = some n := by
  have hall : ∀ n : Fin 16, hexDigit (hexLower n.val) = some n.val := by decide
  exact hall ⟨n, h⟩

/-- What `%04x` writes of a byte. -/
def controlHex (c : UInt8) : Hex4 where
  digits := [0x30, 0x30, hexLower (c.toNat / 16), hexLower (c.toNat % 16)]
  length_eq := rfl
  isHex := by
    have hc := c.toNat_lt
    intro b hb
    simp only [List.mem_cons, List.not_mem_nil, or_false] at hb
    obtain rfl | rfl | rfl | rfl := hb
    · decide
    · decide
    · rw [hexDigit_hexLower (by omega)]
      rfl
    · rw [hexDigit_hexLower (by omega)]
      rfl

theorem controlHex_value (c : UInt8) : (controlHex c).value = c.toNat := by
  have hc := c.toNat_lt
  have hhigh : hexDigit (hexLower (c.toNat / 16)) = some (c.toNat / 16) :=
    hexDigit_hexLower (by omega)
  have hlow : hexDigit (hexLower (c.toNat % 16)) = some (c.toNat % 16) :=
    hexDigit_hexLower (by omega)
  have hzero : hexDigit 0x30 = some 0 := by decide
  simp only [Hex4.value, controlHex, List.foldl_cons, List.foldl_nil, hhigh, hlow, hzero,
    Option.getD_some]
  omega

/-! ## Characters -/

theorem exists_esc {c e : UInt8} (h : unescape e = some c) :
    ∃ ch : StrChar, rfc8259.char ch ∧ ch.text = [backslash, e] ∧ ch.bytes = [c] := by
  refine ⟨.esc e, ⟨?_, id⟩, rfl, ?_⟩
  · rw [StrChar.Spelled, h]
    rfl
  · rw [StrChar.bytes, h]
    rfl

theorem exists_unit {c : UInt8} (h : c < 0x20) :
    ∃ ch : StrChar, rfc8259.char ch ∧
      ch.text = [backslash, letterU, 0x30, 0x30, hexLower (c.toNat / 16), hexLower (c.toNat % 16)] ∧
      ch.bytes = [c] := by
  -- the code point is below 0x80, so that its UTF-8 is the byte
  have hlt : c.toNat < 0x20 := UInt8.lt_iff_toNat_lt.mp h
  refine ⟨.unit (controlHex c), ⟨?_, ?_⟩, rfl, ?_⟩
  · rw [StrChar.Spelled, controlHex_value, IsHigh]
    omega
  · rw [StrChar.Sloppy, controlHex_value, IsLow]
    omega
  · rw [StrChar.bytes, controlHex_value, utf8, if_pos (by omega), UInt8.ofNat_toNat]

/-- A byte is written as a character that the standard allows and that stands for it. -/
theorem exists_strChar (c : UInt8) :
    ∃ ch : StrChar, rfc8259.char ch ∧ ch.text = escapeByte c ∧ ch.bytes = [c] := by
  rw [escapeByte]
  split_ifs with hquote hbackslash h8 hc ha hd h9 hcontrol
  · subst hquote
    exact exists_esc rfl
  · subst hbackslash
    exact exists_esc rfl
  · subst h8
    exact exists_esc rfl
  · subst hc
    exact exists_esc rfl
  · subst ha
    exact exists_esc rfl
  · subst hd
    exact exists_esc rfl
  · subst h9
    exact exists_esc rfl
  · exact exists_unit hcontrol
  · exact ⟨.raw c, ⟨⟨hquote, hbackslash⟩, hcontrol⟩, rfl, rfl⟩

/-- What is written for a string is the text of a literal that stands for it. -/
theorem exists_strLit (str : List UInt8) :
    ∃ s : List StrChar, (∀ ch ∈ s, rfc8259.char ch) ∧
      s.flatMap StrChar.text = str.flatMap escapeByte ∧ strBytes s = str := by
  induction str with
  | nil => exact ⟨[], by simp, rfl, rfl⟩
  | cons c str ih =>
    obtain ⟨s, hallowed, htext, hbytes⟩ := ih
    obtain ⟨ch, hch, hchtext, hchbytes⟩ := exists_strChar c
    refine ⟨ch :: s, List.forall_mem_cons.mpr ⟨hch, hallowed⟩, ?_, ?_⟩
    · rw [List.flatMap_cons, List.flatMap_cons, hchtext, htext]
    · unfold strBytes at hbytes ⊢
      rw [List.flatMap_cons, hchbytes, hbytes]
      rfl

/-- A string is written as a literal of the standard, whatever comes behind. -/
theorem exists_rfcTail (str : List UInt8) :
    ∃ s : List StrChar, (∀ ch ∈ s, rfc8259.char ch) ∧ strBytes s = str ∧
      ∀ rest, jsonString str ++ rest = quote :: strTail s rest := by
  obtain ⟨s, hallowed, htext, hbytes⟩ := exists_strLit str
  refine ⟨s, hallowed, hbytes, fun rest => ?_⟩
  rw [jsonString, strTail, htext, List.cons_append, List.append_assoc]
  rfl

/-! ## Reading back -/

section ReadBack

variable {p : JsonParser} {str rest : List UInt8}

theorem exists_strTail (str rest : List UInt8) :
    ∃ s : List StrChar, (∀ ch ∈ s, ch.Spelled) ∧ strBytes s = str ∧
      jsonString str ++ rest = quote :: strTail s rest := by
  obtain ⟨s, hallowed, hbytes, htail⟩ := exists_rfcTail str
  exact ⟨s, fun ch hch => rfc8259.char_spelled ch (hallowed ch hch), hbytes, htail rest⟩

/-- The parser reads what the emitter has written, and nothing behind it. -/
theorem parseStringInto_jsonString {outCap : Nat} (hcap : str.length < outCap)
    (hp : p.rest = jsonString str ++ rest) :
    parseStringInto outCap p = (.ok (str, str.length), { p with rest := rest }) := by
  obtain ⟨s, hspelled, hbytes, htail⟩ := exists_strTail str rest
  have hrest : p.rest = [] ++ quote :: strTail s rest := by rw [hp, htail, List.nil_append]
  obtain ⟨out, hout, hstored⟩ :=
    parseStringInto_of_spaces (Nat.zero_lt_of_lt hcap) (by simp [IsSpaces]) hspelled hrest
  rw [hbytes] at hout hstored
  rw [hout, hstored (Nat.le_of_lt hcap)]

/-- A null byte, a quote, a line feed, a delete character and a byte of no character. -/
theorem parseStringInto_jsonString_five :
    parseStringInto 6 (jsonParser (jsonString [0x00, quote, 0x0A, 0x7F, 0xFF] ++ [comma])) =
      (.ok ([0x00, quote, 0x0A, 0x7F, 0xFF], 5), jsonParser [comma]) :=
  parseStringInto_jsonString (by decide) rfl

end ReadBack

end Triepack
