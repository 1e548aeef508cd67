import Triepack.Core.SizeBound
import Triepack.Json.Grammar
import Triepack.Json.RoundTrip

/-!
# Documents that are always stored

The buffers of the encoder bound every path and every string, so the number of leaves bounds the
file: up to 65000 of them always fit the 32-bit offsets. For such a document nothing can fail
behind the parser, and what is stored is decoded again.
-/

namespace Triepack

open JsonText Json

/-! ## The room of the additions -/

section Payload

variable {strtod : List UInt8 → UInt64}

/-- The string of an addition was within the string buffer. -/
def Addition.ShortString (a : Addition) : Prop := a.entry.val.payloadLength < strSize

theorem elementAdds_shortString {vs : List Tree}
    (ih : ∀ v ∈ vs, ∀ {depth : Nat} {path : List UInt8} {adds : List Addition},
      valueAdds strtod v depth path = .ok adds → ∀ a ∈ adds, a.ShortString)
    {depth idx : Nat} {path : List UInt8} {adds : List Addition}
    (h : elementAdds strtod vs depth path idx = .ok adds) : ∀ a ∈ adds, a.ShortString := by
  induction vs generalizing idx adds with
  | nil =>
    obtain rfl : [] = adds := by simpa [elementAdds] using h
    simp
  | cons v vs ihvs =>
    obtain ⟨as, bs, rfl, -, has, hbs⟩ := elementAdds_cons_eq_ok h
    exact List.forall_mem_append.mpr ⟨ih v (by simp) has, ihvs (fun v hv => ih v (by simp [hv])) hbs⟩

theorem memberAdds_shortString {ms : List (List StrChar × Tree)}
    (ih : ∀ m ∈ ms, ∀ {depth : Nat} {path : List UInt8} {adds : List Addition},
      valueAdds strtod m.2 depth path = .ok adds → ∀ a ∈ adds, a.ShortString)
    {depth : Nat} {path : List UInt8} {adds : List Addition}
    (h : memberAdds strtod ms depth path = .ok adds) : ∀ a ∈ adds, a.ShortString := by
  induction ms generalizing adds with
  | nil =>
    obtain rfl : [] = adds := by simpa [memberAdds] using h
    simp
  | cons m ms ihms =>
    obtain ⟨k, v⟩ := m
    obtain ⟨as, bs, rfl, -, -, has, hbs⟩ := memberAdds_cons_eq_ok h
    exact List.forall_mem_append.mpr ⟨ih (k, v) (by simp) has, ihms (fun m hm => ih m (by simp [hm])) hbs⟩

theorem valueAdds_shortString {v : Tree} {depth : Nat} {path : List UInt8} {adds : List Addition}
    (h : valueAdds strtod v depth path = .ok adds) : ∀ a ∈ adds, a.ShortString := by
  have hzero : (0 : Nat) < strSize := by decide
  induction v using Json.induction_on generalizing depth path adds with
  | null =>
    obtain rfl : [(path, some .null)] = adds := by simpa [valueAdds] using h
    exact List.forall_mem_singleton.mpr hzero
  | bool b =>
    obtain rfl : [(path, some (.bool b))] = adds := by simpa [valueAdds] using h
    exact List.forall_mem_singleton.mpr hzero
  | num n =>
    obtain rfl : [(path, some (numLitValue strtod n))] = adds := by simpa [valueAdds] using h
    refine List.forall_mem_singleton.mpr ?_
    have hnumber : (numLitValue strtod n).payloadLength = 0 := by
      rw [numLitValue, numberValue]
      split_ifs <;> rfl
    rw [Addition.ShortString]
    exact hnumber.trans_lt hzero
  | str s =>
    rw [valueAdds] at h
    obtain ⟨str, hstr, hadds⟩ := except_bind_eq_ok h
    obtain ⟨rfl, hlt⟩ := checkedStr_eq_ok hstr
    obtain rfl := Except.ok.inj hadds
    exact List.forall_mem_singleton.mpr hlt
  | arr vs ih =>
    rw [valueAdds] at h
    split_ifs at h
    exact elementAdds_shortString ih h
  | obj ms ih =>
    rw [valueAdds] at h
    split_ifs at h
    exact memberAdds_shortString ih h

end Payload

/-- Entries with short keys and short strings take at most 8226 bytes each. -/
theorem fileRoom_le {es : List Entry} (hkeys : ∀ e ∈ es, e.key.length < pathSize)
    (hvals : ∀ e ∈ es, e.val.payloadLength < strSize) : fileRoom 8 es ≤ 4044 + 65808 * es.length := by
  have hsizes : pathSize = 4096 ∧ strSize = 4096 := ⟨rfl, rfl⟩
  have hletters : (es.map fun e => e.key.length).sum ≤ es.length * 4095 := by
    rw [← @List.length_map _ _ es fun e => e.key.length, ← smul_eq_mul]
    refine List.sum_le_card_nsmul _ _ fun n hn => ?_
    obtain ⟨e, he, rfl⟩ := List.mem_map.mp hn
    have := hkeys e he
    omega
  have hrooms : (es.map fun e => valueRoom e.val).sum ≤ es.length * 32856 := by
    rw [← @List.length_map _ _ es fun e => valueRoom e.val, ← smul_eq_mul]
    refine List.sum_le_card_nsmul _ _ fun n hn => ?_
    obtain ⟨e, he, rfl⟩ := List.mem_map.mp hn
    have := hvals e he
    simp only [valueRoom]
    omega
  simp only [fileRoom, trieRoom, codeRoom]
  omega

/-! ## Documents -/

section Documents

variable {strtod : List UInt8 → UInt64} {q : Qsort} {v : Tree} {text rest : List UInt8}

/-- What the parser gets through of UTF-8 is stored when it has few enough leaves. -/
theorem exists_encode_of_count {L : Lexicon} {used : List UInt8} (htext : text = used ++ rest) (hutf8 : IsUtf8 used)
    (hread : ReadsDoc L v text rest) (hfits : Fits 0 [] v) (hdeep : v.nesting ≤ maxNestingDepth)
    (hcount : v.denote.leaves.length ≤ 65000) : ∃ buf, jsonEncode strtod q text = .ok buf := by
  obtain ⟨as, has⟩ := (@valueAdds_endsAs strtod v 0 [] (by decide) (by decide)).ok hfits (by omega)
  obtain ⟨used', htext', hwritten⟩ := hread.exists_used
  obtain rfl : used = used' := List.append_cancel_right (htext.symm.trans htext')
  have hv : v.All WrittenInUtf8 fun _ => True :=
    Json.All.imp (fun s hs c hc b hb => hutf8.inUtf8 b (hs c hc b hb)) (fun _ => id) hwritten
  have hleaves := valueAdds_leaves has
  -- the additions for the leaves and the one for the kind of the root
  have hmeta : ∀ b ∈ jsonMetaRoot, InUtf8 b := by decide +kernel
  have hsizes : jsonMetaRoot.length < pathSize ∧ 0 < strSize := by decide
  obtain ⟨adds, hadds⟩ : ∃ adds, adds = as ++ [(jsonMetaRoot, some (.uint (rootType v)))] := ⟨_, rfl⟩
  have hstorable : ∀ a ∈ adds, a.Storable ∧ a.1.length < pathSize ∧ a.ShortString := by
    rw [hadds]
    refine List.forall_mem_append.mpr ⟨fun a ha => ?_, List.forall_mem_singleton.mpr ?_⟩
    · exact ⟨valueAdds_storable hv (by simp) has a ha, hleaves.length_lt (by decide) a ha,
        valueAdds_shortString has a ha⟩
    · exact ⟨⟨hmeta, trivial⟩, hsizes.1, hsizes.2⟩
  have hlength : adds.length = v.denote.leaves.length + 1 := by
    rw [hadds, List.length_append, hleaves.length_eq, List.length_singleton]
  have hentry : ∀ e ∈ (added adds).entries, ∃ a ∈ adds, a.entry = e := by
    intro e he
    rw [entries_added] at he
    obtain ⟨a, ha, rfl⟩ := List.mem_map.mp he
    exact ⟨a, (survivors_suffix adds).subset ha, rfl⟩
  have hroom : fileRoom 8 (added adds).entries ≤ uint32Max := by
    have hle := @fileRoom_le (added adds).entries (fun e he => by
      obtain ⟨a, ha, rfl⟩ := hentry e he
      exact (hstorable a ha).2.1) fun e he => by
      obtain ⟨a, ha, rfl⟩ := hentry e he
      exact (hstorable a ha).2.2
    have hentries : (added adds).entries.length ≤ adds.length := by
      rw [entries_added, List.length_map]
      exact (survivors_suffix adds).length_le
    simp only [uint32Max]
    omega
  have hwidth : max 8 (added adds).opts.bitsPerSymbol = 8 := by rw [opts_added]; rfl
  obtain ⟨buf, hbuf⟩ := @exists_build_of_room q (added adds) (by rw [opts_added]; decide)
    ((length_usedBytes_le fun key hkey => by
      obtain ⟨e, he, rfl⟩ := List.mem_map.mp hkey
      obtain ⟨a, ha, rfl⟩ := hentry e he
      exact (hstorable a ha).1.1).trans (by decide))
    (fun e he => by
      obtain ⟨a, ha, rfl⟩ := hentry e he
      exact (hstorable a ha).1.2) (by rw [hwidth]; exact hroom)
  refine ⟨buf, ?_⟩
  rw [jsonEncode_of_reads hread, documentAdds_ok has, ← hadds]
  exact hbuf

/-- A document of UTF-8 within the limits, with few enough leaves and without long arrays, is
stored and decoded to its value. -/
theorem exists_encode_decodesTo (pf : PrintFloat) (qs : FlatQsort) {indent : Option (List UInt8)}
    (hindent : ∀ ind ∈ indent, IsSpaces ind) {used : List UInt8} (htext : text = used ++ rest) (hutf8 : IsUtf8 used)
    (hread : ReadsDoc tolerant v text rest) (hdoc : Storable v) (hapart : Apart v.value)
    (hdeep : v.nesting ≤ maxNestingDepth) (hcount : v.denote.leaves.length ≤ 65000) (hshort : v.value.Short 10) :
    ∃ buf, jsonEncode strtod q text = .ok buf ∧ DecodesTo pf qs indent buf v.value := by
  obtain ⟨buf, hencode⟩ := @exists_encode_of_count strtod q v text rest tolerant used htext hutf8 hread hdoc.room.1
    hdeep hcount
  exact ⟨buf, hencode, decodesTo_of_short pf qs hindent hread hencode hdoc hapart hshort⟩

end Documents

/-- `{"a":[7,true]}`, indented by two spaces. -/
theorem exists_encode_decodesTo_pair : ∃ buf,
    jsonEncode (fun _ => 0) (.keepingLast ⟨[], .null⟩) (namedPairText [0x37]) = .ok buf ∧
      DecodesTo .none .byInsertion (some [0x20, 0x20]) buf (namedPair [0x37]).value := by
  have hutf8 : IsUtf8 (namedPairText [0x37]) :=
    ⟨['{', '"', 'a', '"', ':', '[', '7', ',', 't', 'r', 'u', 'e', ']', '}'], by decide⟩
  have hshort : (namedPair [0x37]).value.Short 10 := ⟨⟨by decide, trivial, trivial, trivial⟩, trivial⟩
  exact exists_encode_decodesTo .none .byInsertion isSpaces_two (List.append_nil _).symm hutf8
    (readsDoc_namedPair ⟨by simp, by simp [isDigit]⟩) storable_namedPair (apart_namedPair rfl) (by decide)
    (by decide) hshort

end Triepack
