import Triepack.Dictionary.Canonical
import Triepack.Dictionary.Options

/-!
# Detection of corrupted bytes

A built file ends with the checksum of all bytes in front of it. Whatever else an alteration
changes, bytes that open must carry the right checksum, and neither a burst of four bytes in
front of the footer nor a change of the footer keeps it right.
-/

namespace Triepack

open BitString

/-- The buffers differ at most in the `n` bytes from `i` on. -/
structure DifferWithin (i n : Nat) (buf buf' : List UInt8) : Prop where
  length_eq : buf'.length = buf.length
  outside : ∀ j, j < i ∨ i + n ≤ j → buf'[j]? = buf[j]?

theorem DifferWithin.take_eq {i n : Nat} {buf buf' : List UInt8} (h : DifferWithin i n buf buf') :
    buf'.take i = buf.take i := by
  refine List.ext_getElem? fun j => ?_
  rw [List.getElem?_take, List.getElem?_take]
  split
  · exact h.outside j (.inl (by omega))
  · rfl

theorem DifferWithin.drop_eq {i n : Nat} {buf buf' : List UInt8} (h : DifferWithin i n buf buf') :
    buf'.drop (i + n) = buf.drop (i + n) := by
  refine List.ext_getElem? fun j => ?_
  rw [List.getElem?_drop, List.getElem?_drop]
  exact h.outside _ (.inr (by omega))

/-- A buffer is its bytes in front of a window, those in it, and those behind. -/
theorem window_split (i n : Nat) (buf : List UInt8) :
    buf = buf.take i ++ (buf.drop i).take n ++ buf.drop (i + n) := by
  rw [List.append_assoc, ← List.drop_drop, List.take_append_drop, List.take_append_drop]

/-- The last four bytes are the checksum of the others. -/
def ChecksumOk (buf : List UInt8) : Prop :=
  crc32 (buf.take (buf.length - 4)) = be32At buf (buf.length - 4)

/-- Bytes that open have the right checksum. -/
theorem checksumOk_of_open {buf : List UInt8} {d : Dict} (h : dictOpen buf = .ok d) :
    headerSize ≤ buf.length ∧ ChecksumOk buf := by
  rw [dictOpen, dictOpenImpl] at h
  split at h
  · simp at h
  rename_i hlen
  split at h
  · simp at h
  split at h
  · simp at h
  rename_i hcrc
  refine ⟨by omega, ?_⟩
  by_contra hbad
  exact hcrc ⟨rfl, by simp only [headerSize] at hlen; omega, hbad⟩

/-- The footer that is read determines the bytes of the footer. -/
theorem be32At_inj {buf buf' : List UInt8} {off : Nat}
    (hlen : buf.length = off + 4) (hlen' : buf'.length = off + 4)
    (h : be32At buf off = be32At buf' off) : buf.drop off = buf'.drop off := by
  have hfour : ∀ {bs : List UInt8}, bs.length = off + 4 → ∃ a b c e, bs.drop off = [a, b, c, e] ∧
      (be32At bs off).toNat = a.toNat * 2 ^ 24 + b.toNat * 2 ^ 16 + c.toNat * 2 ^ 8 + e.toNat := by
    intro bs hbs
    obtain ⟨a, b, c, e, hdrop⟩ : ∃ a b c e, bs.drop off = [a, b, c, e] := by
      have hl : (bs.drop off).length = 4 := by rw [List.length_drop]; omega
      match bs.drop off, hl with
      | [a, b, c, e], _ => exact ⟨a, b, c, e, rfl⟩
    have hget : ∀ i, bs.getD (off + i) 0 = (bs.drop off).getD i 0 := by
      intro i
      simp only [List.getD_eq_getElem?_getD, List.getElem?_drop]
    have hget₀ := hget 0
    rw [Nat.add_zero] at hget₀
    refine ⟨a, b, c, e, hdrop, ?_⟩
    have ha := a.toNat_lt
    have hb := b.toNat_lt
    have hc := c.toNat_lt
    have he := e.toNat_lt
    rw [be32At, hget₀, hget, hget, hget, hdrop]
    simp only [List.getD_cons_zero, List.getD_cons_succ, Nat.or_assoc]
    rw [shiftLeft_or (n := 8) (by omega), shiftLeft_or (n := 16) (by omega),
      shiftLeft_or (n := 24) (by omega), UInt32.toNat_ofNat']
    omega
  obtain ⟨a, b, c, e, hdrop, hval⟩ := hfour hlen
  obtain ⟨a', b', c', e', hdrop', hval'⟩ := hfour hlen'
  rw [h, hval'] at hval
  have ha := a.toNat_lt
  have hb := b.toNat_lt
  have hc := c.toNat_lt
  have he := e.toNat_lt
  have ha' := a'.toNat_lt
  have hb' := b'.toNat_lt
  have hc' := c'.toNat_lt
  have he' := e'.toNat_lt
  obtain rfl : a = a' := UInt8.toNat_inj.mp (by omega)
  obtain rfl : b = b' := UInt8.toNat_inj.mp (by omega)
  obtain rfl : c = c' := UInt8.toNat_inj.mp (by omega)
  obtain rfl : e = e' := UInt8.toNat_inj.mp (by omega)
  rw [hdrop, hdrop']

/-- Two buffers with the right checksum that differ only in a burst of four bytes in front of the
footer, or only in the footer, are the same. -/
theorem eq_of_checksumOk {buf buf' : List UInt8} (hlen : 4 ≤ buf.length) (h : ChecksumOk buf)
    (h' : ChecksumOk buf')
    (hchange : (∃ i n, n ≤ 4 ∧ i + n ≤ buf.length - 4 ∧ DifferWithin i n buf buf') ∨
      DifferWithin (buf.length - 4) 4 buf buf') : buf' = buf := by
  obtain ⟨i, n, hn, hin, hdiffer⟩ | hdiffer := hchange
  · -- the footer is the same, so that the bytes in front have the same checksum
    have hfooter : buf'.drop (buf.length - 4) = buf.drop (buf.length - 4) := by
      have hdrop := congrArg (List.drop (buf.length - 4 - (i + n))) hdiffer.drop_eq
      rwa [List.drop_drop, List.drop_drop, show i + n + (buf.length - 4 - (i + n)) =
        buf.length - 4 by omega] at hdrop
    have hread : be32At buf' (buf.length - 4) = be32At buf (buf.length - 4) := by
      have hget : ∀ k, buf'.getD (buf.length - 4 + k) 0 = buf.getD (buf.length - 4 + k) 0 := by
        intro k
        rw [List.getD_eq_getElem?_getD, List.getD_eq_getElem?_getD,
          hdiffer.outside _ (.inr (by omega))]
      have hget₀ := hget 0
      rw [Nat.add_zero] at hget₀
      rw [be32At, be32At, hget₀, hget, hget, hget]
    rw [ChecksumOk, hdiffer.length_eq, hread, ← h] at h'
    have hfront : ∀ bs : List UInt8, bs.length = buf.length → bs.take (buf.length - 4) =
        bs.take i ++ (bs.drop i).take n ++ (bs.take (buf.length - 4)).drop (i + n) := by
      intro bs hbs
      have hsplit := window_split i n (bs.take (buf.length - 4))
      rwa [List.take_take, Nat.min_eq_left (by omega), List.drop_take, List.take_take,
        Nat.min_eq_left (by omega)] at hsplit
    rw [hfront buf' hdiffer.length_eq, hfront buf rfl, hdiffer.take_eq] at h'
    have hbehind : (buf'.take (buf.length - 4)).drop (i + n) =
        (buf.take (buf.length - 4)).drop (i + n) := by
      rw [List.drop_take, List.drop_take, hdiffer.drop_eq]
    rw [hbehind] at h'
    have hlength := hdiffer.length_eq
    have hwindow := crc32_burst (by simp only [List.length_take, List.length_drop]; omega)
      (by simp only [List.length_take, List.length_drop]; omega) h'
    rw [window_split i n buf', hdiffer.take_eq, hdiffer.drop_eq, hwindow, ← window_split]
  · have hlength := hdiffer.length_eq
    rw [ChecksumOk, hlength, hdiffer.take_eq, h] at h'
    have hfooter := be32At_inj (by omega) (by omega) h'
    rw [← List.take_append_drop (buf.length - 4) buf', hdiffer.take_eq, ← hfooter,
      List.take_append_drop]

/-- What `tp_encoder_build` returns carries the right checksum. -/
theorem checksumOk_of_build {q : Qsort} {enc enc' : Encoder} {buf : List UInt8}
    (hopts : enc.opts.bitsPerSymbol ≤ 15) (h : encoderBuild q enc = (.ok buf, enc')) :
    36 ≤ buf.length ∧ ChecksumOk buf := by
  obtain ⟨_, l, _, body, _, hbuf⟩ := encoderBuild_layout hopts h
  generalize fileHeader (sortedEntries q enc.entries) l.offsets = hdr at hbuf
  have hlen : buf.length = 36 + body.length := by
    rw [hbuf]
    simp only [List.length_append, length_headerBytes, length_be32, headerSize]
    omega
  refine ⟨by omega, ?_⟩
  have hfront : buf.length - 4 = (headerBytes hdr ++ body).length := by
    rw [hlen, List.length_append, length_headerBytes, headerSize]
    omega
  rw [ChecksumOk, hfront, hbuf, ← List.append_assoc, List.take_left, be32At_append]

/-- No alteration of a built file opens that is confined to four bytes in a row in front of the
footer, or to the footer. -/
theorem altered_not_open {opts : EncoderOptions} {enc : Encoder}
    (hcreate : encoderCreateEx opts = .ok enc) {calls : List EncoderCall} {q : Qsort}
    {buf buf' : List UInt8} (h : (encoderBuild q (runCalls enc calls)).1 = .ok buf)
    (hne : buf' ≠ buf)
    (hchange : (∃ i n, n ≤ 4 ∧ i + n ≤ buf.length - 4 ∧ DifferWithin i n buf buf') ∨
      DifferWithin (buf.length - 4) 4 buf buf') : ∀ d, dictOpen buf' ≠ .ok d := by
  intro d hopen
  obtain ⟨hopts, _, hle⟩ := encoderCreateEx_eq_ok hcreate
  obtain ⟨hlen, hok⟩ := checksumOk_of_build (by rw [runCalls_opts, hopts]; exact hle) (Prod.ext h rfl)
  exact hne (eq_of_checksumOk (by omega) hok (checksumOk_of_open hopen).2 hchange)

/-- Bits of the only key flipped. -/
theorem altered_not_open_solo : ∃ buf,
    (encoderBuild (.keepingLast ⟨[], .null⟩) (runCalls freshEncoder [.add ([97], none)])).1 = .ok buf ∧
      ∀ d, dictOpen (buf.set 36 136) ≠ .ok d := by
  have hbuild : (match (encoderBuild (.keepingLast ⟨[], .null⟩)
      (runCalls freshEncoder [.add ([97], none)])).1 with
    | .ok buf => decide (buf.length = 42 ∧ buf.set 36 136 ≠ buf)
    | .error _ => false) = true := by decide +kernel
  rcases hcase : (encoderBuild (.keepingLast ⟨[], .null⟩)
      (runCalls freshEncoder [.add ([97], none)])).1 with e | buf
  · simp [hcase] at hbuild
  · simp only [hcase, decide_eq_true_eq] at hbuild
    obtain ⟨hlen, hne⟩ := hbuild
    refine ⟨buf, rfl, altered_not_open encoderCreate_eq hcase hne
      (.inl ⟨36, 1, by decide, by omega, List.length_set, fun j hj => ?_⟩)⟩
    exact List.getElem?_set_ne (by omega)

end Triepack
