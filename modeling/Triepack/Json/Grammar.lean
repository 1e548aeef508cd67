import Triepack.Core.BuildSucceeds
import Triepack.Json.Buffers
import Triepack.Json.Decimal
import Triepack.Library.JsonUnique
import Triepack.Library.Utf8

/-!
# The accepted grammar

What `tp_json_encode` accepts is the tolerant grammar: it lets leading zeros, raw control
characters and single low surrogates pass, and takes bytes for characters.
-/

namespace Triepack

open JsonText Json

/-! ## The bytes of the paths -/

/-- The bytes that a string literal is written with are those of UTF-8. -/
def WrittenInUtf8 (s : List StrChar) : Prop := ∀ c ∈ s, ∀ b ∈ c.text, InUtf8 b

theorem inUtf8_strBytes {s : List StrChar} (h : WrittenInUtf8 s) : ∀ b ∈ strBytes s, InUtf8 b := by
  have hesc : ∀ b : UInt8, InUtf8 ((unescape b).getD 0) := forall_byte (by decide +kernel)
  intro b hb
  obtain ⟨c, hc, hb⟩ := List.mem_flatMap.mp hb
  cases c with
  | raw b' => exact h _ hc b hb
  | esc b' =>
    obtain rfl := List.mem_singleton.mp hb
    exact hesc b'
  | unit h => exact inUtf8_utf8 _ b hb
  | pair h l => exact inUtf8_utf8 _ b hb

theorem inUtf8_pushKey {path key : List UInt8} (hpath : ∀ b ∈ path, InUtf8 b)
    (hkey : ∀ b ∈ key, InUtf8 b) : ∀ b ∈ pushKey path key, InUtf8 b := by
  have hpoint : InUtf8 point := by decide
  rw [pushKey]
  split_ifs <;> grind

theorem inUtf8_pushIndex {path : List UInt8} (hpath : ∀ b ∈ path, InUtf8 b) (idx : Nat) :
    ∀ b ∈ pushIndex path idx, InUtf8 b := by
  have hdigit : ∀ b : UInt8, isDigit b = true → InUtf8 b := forall_byte (by decide +kernel)
  have hopen : InUtf8 openBracket := by decide
  have hclose : InUtf8 closeBracket := by decide
  have hindex : ∀ b ∈ indexText idx, InUtf8 b := by
    have hdecimal := (isDigits_decimal idx).2
    rw [indexText]
    grind
  rw [pushIndex]
  split_ifs <;> grind

/-- The bytes of its key are those of UTF-8, and its value is of an implemented kind. -/
def Addition.Storable (a : Addition) : Prop := (∀ b ∈ a.1, InUtf8 b) ∧ a.entry.val.Encodable

section Storable

variable {strtod : List UInt8 → UInt64} {depth : Nat} {path : List UInt8} {adds : List Addition}

theorem encodable_numLitValue (n : NumLit) : (numLitValue strtod n).Encodable := by
  rw [numLitValue, numberValue]
  split_ifs <;> trivial

theorem elementAdds_storable {vs : List Tree} {idx : Nat}
    (ih : ∀ v ∈ vs, ∀ {depth : Nat} {path : List UInt8} {adds : List Addition},
      (∀ b ∈ path, InUtf8 b) → valueAdds strtod v depth path = .ok adds → ∀ a ∈ adds, a.Storable)
    (hpath : ∀ b ∈ path, InUtf8 b) (h : elementAdds strtod vs depth path idx = .ok adds) :
    ∀ a ∈ adds, a.Storable := by
  induction vs generalizing idx adds with
  | nil =>
    obtain rfl : [] = adds := by simpa [elementAdds] using h
    simp
  | cons v vs ihvs =>
    obtain ⟨as, bs, rfl, -, has, hbs⟩ := elementAdds_cons_eq_ok h
    exact List.forall_mem_append.mpr ⟨ih v (by simp) (inUtf8_pushIndex hpath idx) has,
      ihvs (fun v hv => ih v (by simp [hv])) hbs⟩

theorem memberAdds_storable {ms : List (List StrChar × Tree)} (hkeys : ∀ m ∈ ms, WrittenInUtf8 m.1)
    (ih : ∀ m ∈ ms, ∀ {depth : Nat} {path : List UInt8} {adds : List Addition},
      (∀ b ∈ path, InUtf8 b) → valueAdds strtod m.2 depth path = .ok adds → ∀ a ∈ adds, a.Storable)
    (hpath : ∀ b ∈ path, InUtf8 b) (h : memberAdds strtod ms depth path = .ok adds) :
    ∀ a ∈ adds, a.Storable := by
  induction ms generalizing adds with
  | nil =>
    obtain rfl : [] = adds := by simpa [memberAdds] using h
    simp
  | cons m ms ihms =>
    obtain ⟨k, v⟩ := m
    obtain ⟨as, bs, rfl, -, -, has, hbs⟩ := memberAdds_cons_eq_ok h
    have hpush := inUtf8_pushKey hpath (inUtf8_strBytes (hkeys (k, v) (by simp)))
    exact List.forall_mem_append.mpr ⟨ih (k, v) (by simp) hpush has,
      ihms (fun m hm => hkeys m (by simp [hm])) (fun m hm => ih m (by simp [hm])) hbs⟩

theorem valueAdds_storable {v : Tree} (hv : v.All WrittenInUtf8 fun _ => True)
    (hpath : ∀ b ∈ path, InUtf8 b) (h : valueAdds strtod v depth path = .ok adds) :
    ∀ a ∈ adds, a.Storable := by
  induction v using Json.induction_on generalizing depth path adds with
  | null =>
    obtain rfl : [(path, some .null)] = adds := by simpa [valueAdds] using h
    simpa using ⟨hpath, trivial⟩
  | bool b =>
    obtain rfl : [(path, some (.bool b))] = adds := by simpa [valueAdds] using h
    simpa using ⟨hpath, trivial⟩
  | num n =>
    obtain rfl : [(path, some (numLitValue strtod n))] = adds := by simpa [valueAdds] using h
    simpa using ⟨hpath, encodable_numLitValue n⟩
  | str s =>
    rw [valueAdds] at h
    obtain ⟨str, hstr, h₁⟩ := except_bind_eq_ok h
    obtain rfl := Except.ok.inj h₁
    simpa using ⟨hpath, trivial⟩
  | arr vs ih =>
    rw [valueAdds] at h
    split_ifs at h
    rw [All, allElements_iff] at hv
    exact elementAdds_storable (fun v hmem => ih v hmem (hv v hmem)) hpath h
  | obj ms ih =>
    rw [valueAdds] at h
    split_ifs at h
    rw [All, allMembers_iff] at hv
    exact memberAdds_storable (fun m hm => (hv m hm).1) (fun m hm => ih m hm (hv m hm).2) hpath h

end Storable

/-- At most 243 bytes occur in keys of UTF-8. -/
theorem length_usedBytes_le {keys : List (List UInt8)} (h : ∀ key ∈ keys, ∀ b ∈ key, InUtf8 b) :
    (usedBytes keys).length ≤ 243 := by
  have hcount : allBytes.countP (fun b => decide (InUtf8 b)) = 243 := by decide +kernel
  rw [← hcount]
  exact length_usedBytes_le_countP fun key hkey b hb => decide_eq_true (h key hkey b hb)

/-- A document of UTF-8 that the parser gets through is stored, if the file is not too long. -/
theorem encoderBuild_document {strtod : List UInt8 → UInt64} (q : Qsort) {v : Tree}
    {adds : List Addition} (hv : v.All WrittenInUtf8 fun _ => True)
    (h : documentAdds strtod v = .ok adds) :
    (∃ buf, (encoderBuild q (added adds)).1 = .ok buf) ∨
      (encoderBuild q (added adds)).1 = .error (.rc .overflow) := by
  obtain ⟨as, has, hadds⟩ := except_bind_eq_ok h
  obtain rfl := Except.ok.inj hadds
  have hmeta : ∀ b ∈ jsonMetaRoot, InUtf8 b := by decide +kernel
  have hroot : Addition.Storable (jsonMetaRoot, some (.uint (rootType v))) := ⟨hmeta, trivial⟩
  have hall : ∀ a ∈ as ++ [(jsonMetaRoot, some (.uint (rootType v)))], a.Storable :=
    List.forall_mem_append.mpr ⟨valueAdds_storable hv (by simp) has, by simpa using hroot⟩
  generalize as ++ [(jsonMetaRoot, some (.uint (rootType v)))] = adds at hall
  have hentry : ∀ e ∈ (added adds).entries, ∃ a ∈ adds, a.entry = e := by
    intro e he
    rw [entries_added] at he
    obtain ⟨a, ha, rfl⟩ := List.mem_map.mp he
    exact ⟨a, (survivors_suffix adds).subset ha, rfl⟩
  refine encoderBuild_ok_or_overflow q (by rw [opts_added]; decide) ?_ fun e he => ?_
  · refine (length_usedBytes_le fun key hkey => ?_).trans (by decide)
    obtain ⟨e, he, rfl⟩ := List.mem_map.mp hkey
    obtain ⟨a, ha, rfl⟩ := hentry e (mem_of_mem_sortedEntries he)
    exact (hall a ha).1
  · obtain ⟨a, ha, rfl⟩ := hentry e he
    exact (hall a ha).2

/-! ## Documents -/

/-- As far as its object or array reaches, the text is one of RFC 8259. -/
def IsRfcDocument (text : List UInt8) : Prop :=
  ∃ used rest v, text = used ++ rest ∧ IsUtf8 used ∧ ReadsDoc rfc8259 v text rest

/-- A text that has nothing in it, as far as its object or array reaches, that is only tolerated:
no leading zero, no raw control character, no single low surrogate, and nothing but UTF-8. -/
def Untolerated (text : List UInt8) : Prop :=
  ∀ used rest v, text = used ++ rest → ReadsDoc tolerant v text rest →
    IsUtf8 used ∧ v.All (fun s => ∀ c ∈ s, ¬ c.Sloppy) fun n => ¬ n.LeadingZero

/-- Only documents of the standard are accepted, and all of those within the limits: the buffers,
the depth and the length of the file. -/
structure KeepsGrammar (strtod : List UInt8 → UInt64) (q : Qsort) (text : List UInt8) : Prop where
  sound : ∀ buf, jsonEncode strtod q text = .ok buf → IsRfcDocument text
  complete : ∀ used rest v, text = used ++ rest → IsUtf8 used → ReadsDoc rfc8259 v text rest →
    Fits 0 [] v → v.nesting ≤ maxNestingDepth → jsonEncode strtod q text ≠ .error (.rc .overflow) →
    ∃ buf, jsonEncode strtod q text = .ok buf

section Documents

variable {strtod : List UInt8 → UInt64} {q : Qsort} {text : List UInt8}

theorem allowed_rfc8259_iff {v : Tree} : v.Allowed rfc8259 ↔
    v.Allowed tolerant ∧ v.All (fun s => ∀ c ∈ s, ¬ c.Sloppy) fun n => ¬ n.LeadingZero := by
  rw [Json.Allowed, Json.Allowed, ← Json.all_and]
  exact ⟨Json.All.imp (fun _ hs => forall₂_and.mp hs) fun _ => id,
    Json.All.imp (fun _ hs => forall₂_and.mpr hs) fun _ => id⟩

theorem Untolerated.isRfcDocument (h : Untolerated text) {buf : List UInt8}
    (hbuf : jsonEncode strtod q text = .ok buf) : IsRfcDocument text := by
  obtain ⟨v, rest, hread⟩ := exists_reads_of_encode hbuf
  obtain ⟨used, htext, -⟩ := hread.exists_used
  obtain ⟨hutf8, hclean⟩ := h used rest v htext hread
  have hallowed := allowed_rfc8259_iff.mpr ⟨(readsDoc_iff_allowed hread).mp hread, hclean⟩
  exact ⟨used, rest, v, htext, hutf8, (readsDoc_iff_allowed hread).mpr hallowed⟩

theorem IsRfcDocument.untolerated (h : IsRfcDocument text) : Untolerated text := by
  obtain ⟨used, rest, v, htext, hutf8, hread⟩ := h
  intro used' rest' v' htext' hread'
  obtain ⟨rfl, rfl⟩ := hread.unique hread'
  obtain rfl : used = used' := List.append_cancel_right (htext.symm.trans htext')
  exact ⟨hutf8, (allowed_rfc8259_iff.mp ((readsDoc_iff_allowed hread').mp hread)).2⟩

/-- Every document of the standard within the limits is accepted. -/
theorem exists_encode_of_rfc {used rest : List UInt8} {v : Tree} (htext : text = used ++ rest)
    (hutf8 : IsUtf8 used) (hread : ReadsDoc rfc8259 v text rest) (hfits : Fits 0 [] v)
    (hdepth : v.nesting ≤ maxNestingDepth) (hlong : jsonEncode strtod q text ≠ .error (.rc .overflow)) :
    ∃ buf, jsonEncode strtod q text = .ok buf := by
  obtain ⟨adds, hadds⟩ := (@valueAdds_endsAs strtod v 0 [] (by decide) (by decide)).ok hfits
    (by omega)
  obtain ⟨used', htext', hwritten⟩ := hread.exists_used
  obtain rfl : used = used' := List.append_cancel_right (htext.symm.trans htext')
  have hv : v.All WrittenInUtf8 fun _ => True :=
    Json.All.imp (fun s hs c hc b hb => hutf8.inUtf8 b (hs c hc b hb)) (fun _ => id) hwritten
  have hencode := @jsonEncode_of_reads _ strtod q _ _ _ hread
  rw [documentAdds_ok hadds] at hencode
  rw [hencode] at hlong ⊢
  exact (encoderBuild_document q hv (documentAdds_ok hadds)).resolve_right hlong

/-- The grammar is kept on texts without anything that is only tolerated, and of the accepted
texts on no other. -/
theorem keepsGrammar_iff_untolerated (strtod : List UInt8 → UInt64) (q : Qsort) (text : List UInt8) :
    (Untolerated text → KeepsGrammar strtod q text) ∧
      ∀ buf, jsonEncode strtod q text = .ok buf → (KeepsGrammar strtod q text ↔ Untolerated text) := by
  have hkeeps : Untolerated text → KeepsGrammar strtod q text := fun h =>
    ⟨fun _ => h.isRfcDocument, fun _ _ _ => exists_encode_of_rfc⟩
  exact ⟨hkeeps, fun buf hbuf => ⟨fun h => (h.sound buf hbuf).untolerated, hkeeps⟩⟩

end Documents

/-- A number in an array. -/
def oneNumberText (ds : List UInt8) : List UInt8 := openBracket :: (ds ++ [closeBracket])

theorem readsDoc_oneNumber {L : Lexicon} {ds : List UInt8} (h : L.number ⟨false, ds, none, none⟩) :
    ReadsDoc L (.arr [.num ⟨false, ds, none, none⟩]) (oneNumberText ds) [] := by
  have hnil : IsSpaces [] := by simp [IsSpaces]
  have hnum : Reads L (.elements [.num ⟨false, ds, none, none⟩])
      ([] ++ (NumLit.text ⟨false, ds, none, none⟩ ++ ([] ++ closeBracket :: []))) [] :=
    .lastElement hnil hnil (.num h _)
  refine ⟨[], _, rfl, hnil, .arr ?_, trivial⟩
  simpa [NumLit.text, NumLit.fracText, NumLit.expText] using hnum

theorem spelled_digits {ds : List UInt8} (h : IsDigits ds) : NumLit.Spelled ⟨false, ds, none, none⟩ :=
  ⟨h, by simp, by simp⟩

theorem exists_encode_oneNumber : ∀ ds ∈ [[0x31], [0x30, 0x31]],
    ∃ buf, jsonEncode (fun _ => 0) (.keepingLast ⟨[], .null⟩) (oneNumberText ds) = .ok buf := by
  have hrun : ∀ ds ∈ [[0x31], [0x30, 0x31]],
      (jsonEncode (fun _ => 0) (.keepingLast ⟨[], .null⟩) (oneNumberText ds)).toBool = true := by
    decide +kernel
  intro ds hds
  rcases hencode : jsonEncode (fun _ => 0) (.keepingLast ⟨[], .null⟩) (oneNumberText ds) with e | buf
  · simpa [hencode, Except.toBool] using hrun ds hds
  · exact ⟨buf, rfl⟩

theorem keepsGrammar_one :
    KeepsGrammar (fun _ => 0) (.keepingLast ⟨[], .null⟩) (oneNumberText [0x31]) ∧
      Untolerated (oneNumberText [0x31]) := by
  have hread := readsDoc_oneNumber (L := rfc8259) ⟨@spelled_digits [0x31] (by decide +kernel), by decide⟩
  have hutf8 : IsUtf8 (oneNumberText [0x31]) := ⟨['[', '1', ']'], by decide⟩
  have hrfc : IsRfcDocument (oneNumberText [0x31]) :=
    ⟨_, [], _, (List.append_nil _).symm, hutf8, hread⟩
  obtain ⟨hkeeps, hiff⟩ := keepsGrammar_iff_untolerated (fun _ => 0) (.keepingLast ⟨[], .null⟩)
    (oneNumberText [0x31])
  obtain ⟨buf, hbuf⟩ := exists_encode_oneNumber [0x31] (by simp)
  exact ⟨hkeeps hrfc.untolerated, (hiff buf hbuf).mp (hkeeps hrfc.untolerated)⟩

/-- A number with a leading zero is accepted. -/
theorem not_keepsGrammar_leadingZero :
    ¬ KeepsGrammar (fun _ => 0) (.keepingLast ⟨[], .null⟩) (oneNumberText [0x30, 0x31]) := by
  intro h
  obtain ⟨buf, hbuf⟩ := exists_encode_oneNumber [0x30, 0x31] (by simp)
  have hread := readsDoc_oneNumber (L := tolerant) (@spelled_digits [0x30, 0x31] (by decide +kernel))
  obtain ⟨-, hclean⟩ := (h.sound buf hbuf).untolerated _ [] _ (List.append_nil _).symm hread
  exact hclean.1 (by decide)

end Triepack
