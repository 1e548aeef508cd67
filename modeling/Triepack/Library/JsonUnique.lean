import Triepack.Library.JsonGrammar

/-!
# One reading of a text

Whatever grammars two readings of a text are from, they are of the same tree and end at the same
place. So whether a text can be read in a smaller grammar is a question about the tokens of its
reading in a larger one.
-/

namespace JsonText

/-! ## The tokens of a tree -/

namespace Json

variable {σ ν : Type}

mutual

/-- Every string, be it a key, and every number in the value has a property. -/
def All (S : σ → Prop) (N : ν → Prop) : Json σ ν → Prop
  | .num n => N n
  | .str s => S s
  | .arr vs => AllElements S N vs
  | .obj ms => AllMembers S N ms
  | _ => True

def AllElements (S : σ → Prop) (N : ν → Prop) : List (Json σ ν) → Prop
  | [] => True
  | v :: vs => All S N v ∧ AllElements S N vs

def AllMembers (S : σ → Prop) (N : ν → Prop) : List (σ × Json σ ν) → Prop
  | [] => True
  | (k, v) :: ms => S k ∧ All S N v ∧ AllMembers S N ms

end

theorem allElements_iff {S : σ → Prop} {N : ν → Prop} {vs : List (Json σ ν)} :
    AllElements S N vs ↔ ∀ v ∈ vs, All S N v := by
  induction vs with
  | nil => simp [AllElements]
  | cons v vs ih => rw [AllElements, ih, List.forall_mem_cons]

theorem allMembers_iff {S : σ → Prop} {N : ν → Prop} {ms : List (σ × Json σ ν)} :
    AllMembers S N ms ↔ ∀ m ∈ ms, S m.1 ∧ All S N m.2 := by
  induction ms with
  | nil => simp [AllMembers]
  | cons m ms ih => rw [AllMembers, ih, List.forall_mem_cons, and_assoc]

theorem All.imp {S S' : σ → Prop} {N N' : ν → Prop} (hS : ∀ s, S s → S' s) (hN : ∀ n, N n → N' n)
    {v : Json σ ν} (h : v.All S N) : v.All S' N' := by
  induction v using Json.induction_on with
  | null | bool => trivial
  | num n => exact hN n h
  | str s => exact hS s h
  | arr vs ih =>
    rw [All, allElements_iff] at h ⊢
    exact fun v hv => ih v hv (h v hv)
  | obj ms ih =>
    rw [All, allMembers_iff] at h ⊢
    exact fun m hm => ⟨hS _ (h m hm).1, ih m hm (h m hm).2⟩

theorem all_and {S S' : σ → Prop} {N N' : ν → Prop} {v : Json σ ν} :
    v.All (fun s => S s ∧ S' s) (fun n => N n ∧ N' n) ↔ v.All S N ∧ v.All S' N' := by
  induction v using Json.induction_on with
  | null | bool => simp [All]
  | num | str => rfl
  | arr vs ih =>
    simp only [All, allElements_iff, ← forall₂_and]
    exact forall₂_congr ih
  | obj ms ih =>
    simp only [All, allMembers_iff, ← forall₂_and]
    refine forall₂_congr fun m hm => ?_
    rw [ih m hm, and_and_and_comm]

theorem all_map {σ' ν' : Type} {f : σ → σ'} {g : ν → ν'} {S : σ' → Prop} {N : ν' → Prop} {v : Json σ ν} :
    (v.map f g).All S N ↔ v.All (fun s => S (f s)) fun n => N (g n) := by
  induction v using Json.induction_on with
  | null | bool | num | str => rfl
  | arr vs ih =>
    rw [Json.map, All, All, mapElements_eq, allElements_iff, allElements_iff, List.forall_mem_map]
    exact forall₂_congr ih
  | obj ms ih =>
    rw [Json.map, All, All, mapMembers_eq, allMembers_iff, allMembers_iff, List.forall_mem_map]
    exact forall₂_congr fun m hm => and_congr_right fun _ => ih m hm

/-- The numbers of a syntax tree are integers, and it stands for a value. -/
def Denotes (w : Tree) (u : Json (List UInt8) Int) : Prop := w.All (fun _ => True) NumLit.IsInt ∧ w.value = u

end Json

/-- Every token of a part has a property. -/
def Part.All (S : List StrChar → Prop) (N : NumLit → Prop) : Part → Prop
  | .value v => v.All S N
  | .elements vs => Json.AllElements S N vs
  | .members ms => Json.AllMembers S N ms

theorem Part.All.imp {S S' : List StrChar → Prop} {N N' : NumLit → Prop} (hS : ∀ s, S s → S' s)
    (hN : ∀ n, N n → N' n) {part : Part} (h : part.All S N) : part.All S' N' := by
  cases part with
  | value v => exact Json.All.imp hS hN h
  | elements vs =>
    rw [All, Json.allElements_iff] at h ⊢
    exact fun v hv => (h v hv).imp hS hN
  | members ms =>
    rw [All, Json.allMembers_iff] at h ⊢
    exact fun m hm => ⟨hS _ (h m hm).1, (h m hm).2.imp hS hN⟩

/-- The tokens of a part belong to a grammar. -/
def Part.Allowed (L : Lexicon) : Part → Prop := Part.All (fun s => ∀ c ∈ s, L.char c) L.number

def Json.Allowed (L : Lexicon) (v : Tree) : Prop := v.All (fun s => ∀ c ∈ s, L.char c) L.number

section Allowed

variable {L L' : Lexicon} {part : Part} {text rest : List UInt8}

theorem Reads.allowed (h : Reads L part text rest) : part.Allowed L := by
  induction h with
  | null | boolTrue | boolFalse | emptyArr | emptyObj => trivial
  | num hn => exact hn
  | str hs => exact hs
  | arr h ih | obj h ih => exact ih
  | lastElement hw hw' hv ih => exact ⟨ih, trivial⟩
  | element hw hw' hv hvs ih ihs => exact ⟨ih, ihs⟩
  | lastMember hw₁ hk hw₂ hw₃ hw' hv ih => exact ⟨hk, ih, trivial⟩
  | member hw₁ hk hw₂ hw₃ hw' hv hms ih ihs => exact ⟨hk, ih, ihs⟩

/-- A reading is one in any grammar that its tokens belong to. -/
theorem Reads.of_allowed (h : Reads L part text rest) (hpart : part.Allowed L') :
    Reads L' part text rest := by
  induction h with
  | null | boolTrue | boolFalse => constructor
  | num hn => exact .num hpart _
  | str hs => exact .str hpart _
  | emptyArr hw => exact .emptyArr hw _
  | emptyObj hw => exact .emptyObj hw _
  | arr h ih => exact .arr (ih hpart)
  | obj h ih => exact .obj (ih hpart)
  | lastElement hw hw' hv ih => exact .lastElement hw hw' (ih hpart.1)
  | element hw hw' hv hvs ih ihs => exact .element hw hw' (ih hpart.1) (ihs hpart.2)
  | lastMember hw₁ hk hw₂ hw₃ hw' hv ih =>
    exact .lastMember hw₁ hpart.1 hw₂ hw₃ hw' (ih hpart.2.1)
  | member hw₁ hk hw₂ hw₃ hw' hv hms ih ihs =>
    exact .member hw₁ hpart.1 hw₂ hw₃ hw' (ih hpart.2.1) (ihs hpart.2.2)

/-- The strings of a part are written with bytes of a text. -/
def Part.WrittenIn (used : List UInt8) : Part → Prop :=
  Part.All (fun s => ∀ c ∈ s, ∀ b ∈ c.text, b ∈ used) fun _ => True

theorem Part.WrittenIn.mono {used used' : List UInt8} (hsub : used ⊆ used')
    (h : part.WrittenIn used) : part.WrittenIn used' :=
  Part.All.imp (fun _ hs c hc b hb => hsub (hs c hc b hb)) (fun _ => id) h

theorem writtenIn_str {s : List StrChar} {used : List UInt8} (hsub : s.flatMap StrChar.text ⊆ used) :
    ∀ c ∈ s, ∀ b ∈ c.text, b ∈ used :=
  fun c hc _ hb => hsub (List.mem_flatMap.mpr ⟨c, hc, hb⟩)

/-- The bytes that a reading takes from its text. -/
theorem Reads.exists_used (h : Reads L part text rest) :
    ∃ used, text = used ++ rest ∧ part.WrittenIn used := by
  induction h with
  | null | boolTrue | boolFalse => exact ⟨_, rfl, trivial⟩
  | @num n hn rest => exact ⟨n.text, rfl, trivial⟩
  | @str s hs rest =>
    refine ⟨quote :: (s.flatMap StrChar.text ++ [quote]), by simp [strTail], ?_⟩
    exact writtenIn_str (fun b hb => by simp [hb])
  | @emptyArr w hw rest => exact ⟨openBracket :: (w ++ [closeBracket]), by simp, trivial⟩
  | @emptyObj w hw rest => exact ⟨openBrace :: (w ++ [closeBrace]), by simp, trivial⟩
  | arr h ih =>
    obtain ⟨used, rfl, hused⟩ := ih
    exact ⟨openBracket :: used, rfl, hused.mono (List.subset_cons_self _ _)⟩
  | obj h ih =>
    obtain ⟨used, rfl, hused⟩ := ih
    exact ⟨openBrace :: used, rfl, hused.mono (List.subset_cons_self _ _)⟩
  | @lastElement w w' v text rest hw hw' hv ih =>
    obtain ⟨used, rfl, hused⟩ := ih
    exact ⟨w ++ (used ++ (w' ++ [closeBracket])), by simp,
      hused.mono (fun b hb => by simp [hb]), trivial⟩
  | @element w w' v vs text text' rest hw hw' hv hvs ih ihs =>
    obtain ⟨used, rfl, hused⟩ := ih
    obtain ⟨more, rfl, hmore⟩ := ihs
    exact ⟨w ++ (used ++ (w' ++ comma :: more)), by simp,
      hused.mono (fun b hb => by simp [hb]), hmore.mono (fun b hb => by simp [hb])⟩
  | @lastMember w₁ w₂ w₃ w' k v text rest hw₁ hk hw₂ hw₃ hw' hv ih =>
    obtain ⟨used, rfl, hused⟩ := ih
    exact ⟨w₁ ++ quote :: strTail k (w₂ ++ colon :: (w₃ ++ (used ++ (w' ++ [closeBrace])))),
      by simp [strTail], writtenIn_str (fun b hb => by simp [strTail, hb]),
      hused.mono (fun b hb => by simp [strTail, hb]), trivial⟩
  | @member w₁ w₂ w₃ w' k v ms text text' rest hw₁ hk hw₂ hw₃ hw' hv hms ih ihs =>
    obtain ⟨used, rfl, hused⟩ := ih
    obtain ⟨more, rfl, hmore⟩ := ihs
    exact ⟨w₁ ++ quote :: strTail k (w₂ ++ colon :: (w₃ ++ (used ++ (w' ++ comma :: more)))),
      by simp [strTail], writtenIn_str (fun b hb => by simp [strTail, hb]),
      hused.mono (fun b hb => by simp [strTail, hb]), hmore.mono (fun b hb => by simp [strTail, hb])⟩

theorem ReadsDoc.exists_used {v : Tree} (h : ReadsDoc L v text rest) :
    ∃ used, text = used ++ rest ∧ (Part.value v).WrittenIn used := by
  obtain ⟨w, body, rfl, _, hv, _⟩ := h
  obtain ⟨used, rfl, hused⟩ := hv.exists_used
  exact ⟨w ++ used, (List.append_assoc ..).symm, hused.mono (List.subset_append_right _ _)⟩

end Allowed

/-! ## Strings -/

theorem utf16_ne {h h' : Hex4} (hh : ¬ IsHigh h.value) (hh' : IsHigh h'.value) : h.digits ≠ h'.digits := by
  intro heq
  rw [Hex4.ext heq] at hh
  exact hh hh'

/-- A character is told from its text. -/
theorem StrChar.Spelled.unique {c c' : StrChar} (hc : c.Spelled) (hc' : c'.Spelled) {t t' : List UInt8}
    (h : c.text ++ t = c'.text ++ t') : c = c' ∧ t = t' := by
  have hbu : (unescape letterU).isSome = false := by decide
  have digits_inj : ∀ {h h' : Hex4} {t t' : List UInt8}, h.digits ++ t = h'.digits ++ t' →
      h.digits = h'.digits ∧ t = t' := fun heq =>
    List.append_inj heq (by rw [Hex4.length_eq, Hex4.length_eq])
  match c, c', hc, hc' with
  | .raw b, .raw b', _, _ =>
    obtain ⟨rfl, rfl⟩ : b = b' ∧ t = t' := by simpa [text] using h
    exact ⟨rfl, rfl⟩
  | .raw b, .esc b', hc, _ | .raw b, .unit h', hc, _ | .raw b, .pair h' l', hc, _ =>
    exact absurd (List.cons.inj h).1 hc.2
  | .esc b, .raw b', _, hc' | .unit h', .raw b', _, hc' | .pair h' l', .raw b', _, hc' =>
    exact absurd (List.cons.inj h).1.symm hc'.2
  | .esc b, .esc b', _, _ =>
    obtain ⟨rfl, rfl⟩ : b = b' ∧ t = t' := by simpa [text] using h
    exact ⟨rfl, rfl⟩
  | .esc b, .unit h', hc, _ | .esc b, .pair h' l', hc, _ =>
    rw [Spelled, show b = letterU from (List.cons.inj (List.cons.inj h).2).1, hbu] at hc
    exact absurd hc (by decide)
  | .unit h', .esc b', _, hc' | .pair h' l', .esc b', _, hc' =>
    rw [Spelled, ← show letterU = b' from (List.cons.inj (List.cons.inj h).2).1, hbu] at hc'
    exact absurd hc' (by decide)
  | .unit h₁, .unit h₂, _, _ =>
    obtain ⟨hd, rfl⟩ := digits_inj (List.cons.inj (List.cons.inj h).2).2
    exact ⟨congrArg _ (Hex4.ext hd), rfl⟩
  | .unit h₁, .pair h₂ l₂, hc, hc' =>
    have hd := digits_inj ((List.cons.inj (List.cons.inj h).2).2.trans (List.append_assoc ..))
    exact absurd hd.1 (utf16_ne hc hc'.1)
  | .pair h₂ l₂, .unit h₁, hc, hc' =>
    have hd := digits_inj ((List.append_assoc ..).symm.trans (List.cons.inj (List.cons.inj h).2).2)
    exact absurd hd.1.symm (utf16_ne hc' hc.1)
  | .pair h₁ l₁, .pair h₂ l₂, _, _ =>
    simp only [text, List.cons_append, List.append_assoc, List.cons.injEq, true_and] at h
    obtain ⟨hd, htail⟩ := digits_inj h
    obtain ⟨hl, rfl⟩ := digits_inj (List.cons.inj (List.cons.inj htail).2).2
    exact ⟨by rw [Hex4.ext hd, Hex4.ext hl], rfl⟩

theorem StrChar.Spelled.text_ne_quote {c : StrChar} (hc : c.Spelled) {t t' : List UInt8} :
    c.text ++ t ≠ quote :: t' := by
  intro h
  match c, hc with
  | .raw b, hc => exact hc.1 (List.cons.inj h).1
  | .esc b, _ | .unit h', _ | .pair h' l', _ =>
    exact absurd (List.cons.inj h).1 (by decide)

/-- A string literal is told from its text. -/
theorem strTail_inj {s s' : List StrChar} (hs : ∀ c ∈ s, c.Spelled) (hs' : ∀ c ∈ s', c.Spelled)
    {rest rest' : List UInt8} (h : strTail s rest = strTail s' rest') : s = s' ∧ rest = rest' := by
  have htail : ∀ (c : StrChar) (s rest), strTail (c :: s) rest = c.text ++ strTail s rest := by
    simp [strTail]
  induction s generalizing s' with
  | nil =>
    cases s' with
    | nil => exact ⟨rfl, (List.cons.inj h).2⟩
    | cons c' s' =>
      rw [htail] at h
      exact absurd h.symm (hs' c' (by simp)).text_ne_quote
  | cons c s ih =>
    cases s' with
    | nil =>
      rw [htail] at h
      exact absurd h (hs c (by simp)).text_ne_quote
    | cons c' s' =>
      rw [htail, htail] at h
      obtain ⟨rfl, hmore⟩ := (hs c (by simp)).unique (hs' c' (by simp)) h
      obtain ⟨rfl, rfl⟩ := ih (fun c hc => hs c (by simp [hc])) (fun c hc => hs' c (by simp [hc])) hmore
      exact ⟨rfl, rfl⟩

/-! ## Numbers -/

section Numbers

variable {n n' : NumLit} {rest rest' : List UInt8}

/-- An exponent, or what comes behind the number. -/
theorem NumLit.Spelled.expText_head (hn : n.Spelled) (hrest : EndsNumber rest) :
    ∀ b ∈ (n.expText ++ rest).head?, isDigit b = false ∧ b ≠ point := by
  intro b hb
  cases hexp : n.exp with
  | none =>
    rw [expText, hexp] at hb
    exact ⟨(hrest b hb).1, (hrest b hb).2.1⟩
  | some e =>
    rw [expText, hexp] at hb
    obtain rfl : e.letter = b := by simpa [Exponent.text] using hb
    obtain h | h := (hn.exp e hexp).letter <;> rw [h] <;> decide

/-- A fraction, an exponent, or what comes behind the number. -/
theorem NumLit.Spelled.fracText_head (hn : n.Spelled) (hrest : EndsNumber rest) :
    ∀ b ∈ (n.fracText ++ (n.expText ++ rest)).head?, isDigit b = false := by
  intro b hb
  cases hfrac : n.frac with
  | none =>
    rw [fracText, hfrac] at hb
    exact (hn.expText_head hrest b hb).1
  | some ds =>
    rw [fracText, hfrac] at hb
    obtain rfl : point = b := by simpa using hb
    decide

theorem NumLit.Spelled.int_head (hn : n.Spelled) (t : List UInt8) :
    ∃ d ds, n.int ++ t = d :: ds ∧ isDigit d = true := by
  obtain ⟨d, ds, hint⟩ := List.exists_cons_of_ne_nil hn.int.1
  exact ⟨d, ds ++ t, by rw [hint]; rfl, hn.int.2 d (by simp [hint])⟩

theorem Exponent.Spelled.unique {e e' : Exponent} (he : e.Spelled) (he' : e'.Spelled)
    (hrest : EndsNumber rest) (hrest' : EndsNumber rest') (h : e.text ++ rest = e'.text ++ rest') :
    e = e' ∧ rest = rest' := by
  have hsign : ∀ b, b = 0x2B ∨ b = minus → isDigit b = false := by
    rintro b (rfl | rfl) <;> decide
  have hdigits : e.letter = e'.letter ∧ e.sign = e'.sign ∧ e.digits ++ rest = e'.digits ++ rest' := by
    obtain ⟨l, s, ds⟩ := e
    obtain ⟨l', s', ds'⟩ := e'
    obtain ⟨d, ds₁, hds⟩ := List.exists_cons_of_ne_nil he.digits.1
    obtain ⟨d', ds₁', hds'⟩ := List.exists_cons_of_ne_nil he'.digits.1
    have hd := he.digits.2 d (by rw [hds]; exact List.mem_cons_self)
    have hd' := he'.digits.2 d' (by rw [hds']; exact List.mem_cons_self)
    simp only [text, List.cons_append, List.append_assoc, List.cons.injEq] at h hds hds'
    refine ⟨h.1, ?_⟩
    cases s with
    | none =>
      cases s' with
      | none => exact ⟨rfl, h.2⟩
      | some b =>
        obtain rfl : d = b := by simpa [hds] using (congrArg List.head? h.2)
        rw [hsign d (he'.sign d rfl)] at hd
        exact absurd hd (by decide)
    | some b =>
      cases s' with
      | none =>
        obtain rfl : b = d' := by simpa [hds'] using (congrArg List.head? h.2)
        rw [hsign b (he.sign b rfl)] at hd'
        exact absurd hd' (by decide)
      | some b' =>
        obtain ⟨rfl, htail⟩ : b = b' ∧ ds ++ rest = ds' ++ rest' := by simpa using h.2
        exact ⟨rfl, htail⟩
  obtain ⟨hds, rfl⟩ := append_inj_of_all he.digits.2 he'.digits.2 (fun b hb => (hrest b hb).1)
    (fun b hb => (hrest' b hb).1) hdigits.2.2
  refine ⟨?_, rfl⟩
  cases e
  cases e'
  simp_all

/-- A number is told from its text when no number goes on behind it. -/
theorem NumLit.Spelled.unique (hn : n.Spelled) (hn' : n'.Spelled) (hrest : EndsNumber rest)
    (hrest' : EndsNumber rest') (h : n.text ++ rest = n'.text ++ rest') : n = n' ∧ rest = rest' := by
  have hminus : isDigit minus = false := by decide
  obtain ⟨hneg, htail⟩ : n.neg = n'.neg ∧ n.int ++ (n.fracText ++ (n.expText ++ rest)) =
      n'.int ++ (n'.fracText ++ (n'.expText ++ rest')) := by
    obtain ⟨d, ds, hds, hd⟩ := hn.int_head (n.fracText ++ (n.expText ++ rest))
    obtain ⟨d', ds', hds', hd'⟩ := hn'.int_head (n'.fracText ++ (n'.expText ++ rest'))
    simp only [text, List.append_assoc, hds, hds'] at h ⊢
    cases hneg : n.neg <;> cases hneg' : n'.neg <;>
      simp only [hneg, hneg', if_true, if_false, Bool.false_eq_true, List.nil_append,
        List.cons_append, List.cons.injEq] at h
    · exact ⟨rfl, by rw [h.1, h.2]⟩
    · rw [h.1, hminus] at hd
      exact absurd hd (by decide)
    · rw [← h.1, hminus] at hd'
      exact absurd hd' (by decide)
    · exact ⟨rfl, by rw [h.2.1, h.2.2]⟩
  obtain ⟨hint, hafter⟩ := append_inj_of_all hn.int.2 hn'.int.2 (hn.fracText_head hrest)
    (hn'.fracText_head hrest') htail
  obtain ⟨hfrac, hbehind⟩ : n.frac = n'.frac ∧ n.expText ++ rest = n'.expText ++ rest' := by
    simp only [fracText] at hafter
    cases hfrac : n.frac <;> cases hfrac' : n'.frac <;> simp only [hfrac, hfrac'] at hafter
    · exact ⟨rfl, hafter⟩
    · have hpoint := hn.expText_head hrest point
      rw [List.nil_append] at hafter
      exact absurd rfl (hpoint (by rw [hafter]; rfl)).2
    · have hpoint := hn'.expText_head hrest' point
      rw [List.nil_append] at hafter
      exact absurd rfl (hpoint (by rw [← hafter]; rfl)).2
    · obtain ⟨hds, hexp⟩ := append_inj_of_all (hn.frac _ hfrac).2 (hn'.frac _ hfrac').2
        (fun b hb => (hn.expText_head hrest b hb).1) (fun b hb => (hn'.expText_head hrest' b hb).1)
        (List.cons.inj hafter).2
      exact ⟨by rw [hds], hexp⟩
  obtain ⟨hexp, rfl⟩ : n.exp = n'.exp ∧ rest = rest' := by
    have hletter : ∀ {e : Exponent} {rest t : List UInt8}, e.Spelled → EndsNumber rest →
        rest ≠ e.text ++ t := by
      rintro e rest t he hrest rfl
      obtain hl | hl := he.letter
      · exact (hrest e.letter rfl).2.2.1 hl
      · exact (hrest e.letter rfl).2.2.2 hl
    simp only [expText] at hbehind
    cases hexp : n.exp <;> cases hexp' : n'.exp <;> simp only [hexp, hexp'] at hbehind
    · exact ⟨rfl, hbehind⟩
    · exact absurd hbehind (hletter (hn'.exp _ hexp') hrest)
    · exact absurd hbehind.symm (hletter (hn.exp _ hexp) hrest')
    · obtain ⟨rfl, rfl⟩ := (hn.exp _ hexp).unique (hn'.exp _ hexp') hrest hrest' hbehind
      exact ⟨rfl, rfl⟩
  refine ⟨?_, rfl⟩
  cases n
  cases n'
  simp_all

end Numbers

/-! ## Readings -/

/-- What a value begins with tells its kind. -/
def kindOf (b : UInt8) : Nat :=
  if b = 0x6E then 0 else if b = 0x74 then 1 else if b = 0x66 then 2
  else if b = quote then 3 else if b = openBracket then 4 else if b = openBrace then 5 else 6

def Json.kind {σ ν : Type} : Json σ ν → Nat
  | .null => 0
  | .bool true => 1
  | .bool false => 2
  | .str _ => 3
  | .arr _ => 4
  | .obj _ => 5
  | .num _ => 6

theorem Json.Starts.kindOf_eq {v : Tree} {b : UInt8} (h : v.Starts b) : kindOf b = v.kind := by
  have hdigit : ∀ b : UInt8, isDigit b = true → kindOf b = 6 := forall_byte (by decide +kernel)
  match v, h with
  | .null, h | .bool true, h | .bool false, h | .str _, h | .arr _, h | .obj _, h =>
    rw [show b = _ from h]
    rfl
  | .num _, .inl h =>
    rw [h]
    rfl
  | .num _, .inr h => exact hdigit b h

/-- Behind a number no number goes on. -/
def Part.EndsBefore (rest : List UInt8) : Part → Prop
  | .value (.num _) => EndsNumber rest
  | _ => True

/-- Both are values of a kind, elements or members. -/
def Part.Alike : Part → Part → Prop
  | .value v, .value v' => v.kind = v'.kind
  | .elements _, .elements _ | .members _, .members _ => True
  | _, _ => False

section Unique

variable {L L' : Lexicon}

/-- The spaces in front of two values. -/
theorem spaces_value_inj {w w' t t' rest rest' : List UInt8} {v v' : Tree} (hw : IsSpaces w)
    (hw' : IsSpaces w') (hv : Reads L (.value v) t rest) (hv' : Reads L' (.value v') t' rest')
    (h : w ++ t = w' ++ t') : t = t' := by
  obtain ⟨b, s, rfl, hb⟩ := hv.starts
  obtain ⟨b', s', rfl, hb'⟩ := hv'.starts
  exact (append_inj_of_all hw hw' (by simpa using not_space_of_starts hb)
    (by simpa using not_space_of_starts hb') h).2

theorem spaces_byte_inj {w w' t t' : List UInt8} {b b' : UInt8} (hw : IsSpaces w) (hw' : IsSpaces w')
    (hb : isSpace b = false) (hb' : isSpace b' = false) (h : w ++ b :: t = w' ++ b' :: t') :
    b = b' ∧ t = t' :=
  List.cons.inj (append_inj_of_all hw hw' (by simpa using hb) (by simpa using hb') h).2

/-- What comes behind a child: a comma or a closing bracket. -/
def IsMark (b : UInt8) : Prop := b = comma ∨ b = closeBracket ∨ b = closeBrace

theorem isMark_comma : IsMark comma := .inl rfl

theorem isMark_closeBracket : IsMark closeBracket := .inr (.inl rfl)

theorem isMark_closeBrace : IsMark closeBrace := .inr (.inr rfl)

theorem IsMark.not_space {b : UInt8} (h : IsMark b) : isSpace b = false := by
  obtain rfl | rfl | rfl := h <;> decide

theorem IsMark.dropWhile {b : UInt8} (h : IsMark b) {w : List UInt8} (hw : IsSpaces w) (t : List UInt8) :
    (w ++ b :: t).dropWhile isSpace = b :: t := dropWhile_spaces hw (by simpa using h.not_space)

theorem IsMark.ends {b : UInt8} (h : IsMark b) :
    isDigit b = false ∧ b ≠ point ∧ b ≠ 0x65 ∧ b ≠ 0x45 := by
  obtain rfl | rfl | rfl := h <;> decide

theorem endsBefore_of_spaces {v : Tree} {w : List UInt8} {b : UInt8} {rest : List UInt8} (hw : IsSpaces w)
    (hb : isDigit b = false ∧ b ≠ point ∧ b ≠ 0x65 ∧ b ≠ 0x45) :
    (Part.value v).EndsBefore (w ++ b :: rest) := by
  cases v with
  | num => exact EndsNumber.spaces_append hw hb
  | null | bool | str | arr | obj => trivial

/-- What two keys and the spaces around their colons leave of a text. -/
theorem key_inj {w₁ w₂ w₃ w₁' w₂' w₃' t t' rest rest' : List UInt8} {k k' : List StrChar} {v v' : Tree}
    (hw₁ : IsSpaces w₁) (hk : ∀ c ∈ k, L.char c) (hw₂ : IsSpaces w₂) (hw₃ : IsSpaces w₃)
    (hw₁' : IsSpaces w₁') (hk' : ∀ c ∈ k', L'.char c) (hw₂' : IsSpaces w₂') (hw₃' : IsSpaces w₃')
    (hv : Reads L (.value v) t rest) (hv' : Reads L' (.value v') t' rest')
    (h : w₁ ++ quote :: strTail k (w₂ ++ colon :: (w₃ ++ t)) =
      w₁' ++ quote :: strTail k' (w₂' ++ colon :: (w₃' ++ t'))) : k = k' ∧ t = t' := by
  have hquote : isSpace quote = false := by decide
  have hcolon : isSpace colon = false := by decide
  obtain ⟨-, htail⟩ := spaces_byte_inj hw₁ hw₁' hquote hquote h
  obtain ⟨rfl, hbehind⟩ := strTail_inj (fun c hc => L.char_spelled c (hk c hc))
    (fun c hc => L'.char_spelled c (hk' c hc)) htail
  obtain ⟨-, hvalue⟩ := spaces_byte_inj hw₂ hw₂' hcolon hcolon hbehind
  exact ⟨rfl, spaces_value_inj hw₃ hw₃' hv hv' hvalue⟩

theorem Reads.alike {v v' : Tree} {text rest rest' : List UInt8} (h : Reads L (.value v) text rest)
    (h' : Reads L' (.value v') text rest') : (Part.value v).Alike (.value v') := by
  obtain ⟨b, t, htext, hb⟩ := h.starts
  obtain ⟨b', t', htext', hb'⟩ := h'.starts
  obtain ⟨rfl, -⟩ : b = b' ∧ t = t' := List.cons.inj (htext.symm.trans htext')
  exact hb.kindOf_eq.symm.trans hb'.kindOf_eq

/-- Two children of a text and what comes behind them, when their readings are one. -/
theorem child_inj {v v' : Tree} {t w w' s s' : List UInt8} {b b' : UInt8}
    (hv : Reads L (.value v) t (w ++ b :: s)) (hv' : Reads L' (.value v') t (w' ++ b' :: s'))
    (ih : (Part.value v).Alike (.value v') → (Part.value v).EndsBefore (w ++ b :: s) →
      (Part.value v').EndsBefore (w' ++ b' :: s') →
      Part.value v = .value v' ∧ w ++ b :: s = w' ++ b' :: s')
    (hw : IsSpaces w) (hw' : IsSpaces w') (hb : IsMark b) (hb' : IsMark b') :
    v = v' ∧ b = b' ∧ s = s' := by
  obtain ⟨hpart, hrest⟩ := ih (hv.alike hv') (endsBefore_of_spaces hw hb.ends)
    (endsBefore_of_spaces hw' hb'.ends)
  exact ⟨Part.value.inj hpart, spaces_byte_inj hw hw' hb.not_space hb'.not_space hrest⟩

/-- Two readings of a text are of the same part and end at the same place. -/
theorem Reads.unique {part part' : Part} {text text' rest rest' : List UInt8}
    (h : Reads L part text rest) (h' : Reads L' part' text' rest') (heq : text = text')
    (halike : part.Alike part') (hends : part.EndsBefore rest) (hends' : part'.EndsBefore rest') :
    part = part' ∧ rest = rest' := by
  induction h generalizing part' text' rest' with
  | null | boolTrue | boolFalse =>
    cases h' <;> simp [Part.Alike, Json.kind] at halike
    exact ⟨rfl, List.append_cancel_left heq⟩
  | num hn =>
    cases h' <;> simp [Part.Alike, Json.kind] at halike
    rename_i n' hn'
    obtain ⟨rfl, rfl⟩ := (L.number_spelled _ hn).unique (L'.number_spelled _ hn') hends hends' heq
    exact ⟨rfl, rfl⟩
  | str hs =>
    cases h' <;> simp [Part.Alike, Json.kind] at halike
    rename_i s' hs'
    obtain ⟨rfl, rfl⟩ := strTail_inj (fun c hc => L.char_spelled c (hs c hc))
      (fun c hc => L'.char_spelled c (hs' c hc)) (List.cons.inj heq).2
    exact ⟨rfl, rfl⟩
  | emptyArr hw =>
    cases h' <;> simp [Part.Alike, Json.kind] at halike
    case emptyArr w' hw' =>
      obtain ⟨-, rfl⟩ := spaces_byte_inj hw hw' (by decide) (by decide) (List.cons.inj heq).2
      exact ⟨rfl, rfl⟩
    case arr vs' text' hvs' =>
      obtain ⟨b, t, hhead, hb⟩ := hvs'.elements_head
      rw [← (List.cons.inj heq).2, isMark_closeBracket.dropWhile hw] at hhead
      exact absurd (List.cons.inj hhead).1.symm hb
  | arr hvs ih =>
    cases h' <;> simp [Part.Alike, Json.kind] at halike
    case emptyArr w' hw' =>
      obtain ⟨b, t, hhead, hb⟩ := hvs.elements_head
      rw [(List.cons.inj heq).2, isMark_closeBracket.dropWhile hw'] at hhead
      exact absurd (List.cons.inj hhead).1.symm hb
    case arr vs' text' hvs' =>
      obtain ⟨hpart, rfl⟩ := ih hvs' (List.cons.inj heq).2 trivial trivial trivial
      obtain rfl := Part.elements.inj hpart
      exact ⟨rfl, rfl⟩
  | emptyObj hw =>
    cases h' <;> simp [Part.Alike, Json.kind] at halike
    case emptyObj w' hw' =>
      obtain ⟨-, rfl⟩ := spaces_byte_inj hw hw' (by decide) (by decide) (List.cons.inj heq).2
      exact ⟨rfl, rfl⟩
    case obj ms' text' hms' =>
      obtain ⟨t, hhead⟩ := hms'.members_head
      rw [← (List.cons.inj heq).2, isMark_closeBrace.dropWhile hw] at hhead
      exact absurd (List.cons.inj hhead).1 (by decide)
  | obj hms ih =>
    cases h' <;> simp [Part.Alike, Json.kind] at halike
    case emptyObj w' hw' =>
      obtain ⟨t, hhead⟩ := hms.members_head
      rw [(List.cons.inj heq).2, isMark_closeBrace.dropWhile hw'] at hhead
      exact absurd (List.cons.inj hhead).1 (by decide)
    case obj ms' text' hms' =>
      obtain ⟨hpart, rfl⟩ := ih hms' (List.cons.inj heq).2 trivial trivial trivial
      obtain rfl := Part.members.inj hpart
      exact ⟨rfl, rfl⟩
  | lastElement hw hend hv ih =>
    cases h' <;> simp [Part.Alike] at halike
    case lastElement hw' hend' hv' =>
      obtain rfl := spaces_value_inj hw hw' hv hv' heq
      obtain ⟨rfl, -, rfl⟩ :=
        child_inj hv hv' (ih hv' rfl) hend hend' isMark_closeBracket isMark_closeBracket
      exact ⟨rfl, rfl⟩
    case element hw' hend' hv' hvs' =>
      obtain rfl := spaces_value_inj hw hw' hv hv' heq
      obtain ⟨-, hmark, -⟩ := child_inj hv hv' (ih hv' rfl) hend hend' isMark_closeBracket isMark_comma
      exact absurd hmark (by decide)
  | element hw hend hv hvs ih ihs =>
    cases h' <;> simp [Part.Alike] at halike
    case lastElement hw' hend' hv' =>
      obtain rfl := spaces_value_inj hw hw' hv hv' heq
      obtain ⟨-, hmark, -⟩ := child_inj hv hv' (ih hv' rfl) hend hend' isMark_comma isMark_closeBracket
      exact absurd hmark (by decide)
    case element hw' hend' hv' hvs' =>
      obtain rfl := spaces_value_inj hw hw' hv hv' heq
      obtain ⟨rfl, -, rfl⟩ := child_inj hv hv' (ih hv' rfl) hend hend' isMark_comma isMark_comma
      obtain ⟨hpart, rfl⟩ := ihs hvs' rfl trivial trivial trivial
      obtain rfl := Part.elements.inj hpart
      exact ⟨rfl, rfl⟩
  | lastMember hw₁ hk hw₂ hw₃ hend hv ih =>
    cases h' <;> simp [Part.Alike] at halike
    case lastMember hw₁' hk' hw₂' hw₃' hend' hv' =>
      obtain ⟨rfl, rfl⟩ := key_inj hw₁ hk hw₂ hw₃ hw₁' hk' hw₂' hw₃' hv hv' heq
      obtain ⟨rfl, -, rfl⟩ := child_inj hv hv' (ih hv' rfl) hend hend' isMark_closeBrace isMark_closeBrace
      exact ⟨rfl, rfl⟩
    case member hw₁' hk' hw₂' hw₃' hend' hv' hms' =>
      obtain ⟨rfl, rfl⟩ := key_inj hw₁ hk hw₂ hw₃ hw₁' hk' hw₂' hw₃' hv hv' heq
      obtain ⟨-, hmark, -⟩ := child_inj hv hv' (ih hv' rfl) hend hend' isMark_closeBrace isMark_comma
      exact absurd hmark (by decide)
  | member hw₁ hk hw₂ hw₃ hend hv hms ih ihs =>
    cases h' <;> simp [Part.Alike] at halike
    case lastMember hw₁' hk' hw₂' hw₃' hend' hv' =>
      obtain ⟨rfl, rfl⟩ := key_inj hw₁ hk hw₂ hw₃ hw₁' hk' hw₂' hw₃' hv hv' heq
      obtain ⟨-, hmark, -⟩ := child_inj hv hv' (ih hv' rfl) hend hend' isMark_comma isMark_closeBrace
      exact absurd hmark (by decide)
    case member hw₁' hk' hw₂' hw₃' hend' hv' hms' =>
      obtain ⟨rfl, rfl⟩ := key_inj hw₁ hk hw₂ hw₃ hw₁' hk' hw₂' hw₃' hv hv' heq
      obtain ⟨rfl, -, rfl⟩ := child_inj hv hv' (ih hv' rfl) hend hend' isMark_comma isMark_comma
      obtain ⟨hpart, rfl⟩ := ihs hms' rfl trivial trivial trivial
      obtain rfl := Part.members.inj hpart
      exact ⟨rfl, rfl⟩

/-- The root is an object or an array, which end with their last byte. -/
theorem ReadsDoc.endsBefore {v : Tree} {text rest : List UInt8} (h : ReadsDoc L v text rest) :
    (Part.value v).EndsBefore rest := by
  obtain ⟨_, _, _, _, _, hroot⟩ := h
  rcases v with _ | _ | _ | _ | _ | _ <;> trivial

/-- A text has at most one reading. -/
theorem ReadsDoc.unique {v v' : Tree} {text rest rest' : List UInt8} (h : ReadsDoc L v text rest)
    (h' : ReadsDoc L' v' text rest') : v = v' ∧ rest = rest' := by
  have hends := h.endsBefore
  have hends' := h'.endsBefore
  obtain ⟨w, body, rfl, hw, hv, _⟩ := h
  obtain ⟨w', body', heq, hw', hv', _⟩ := h'
  obtain rfl := spaces_value_inj hw hw' hv hv' heq
  obtain ⟨hpart, hrest⟩ := hv.unique hv' rfl (hv.alike hv') hends hends'
  exact ⟨Part.value.inj hpart, hrest⟩

/-- A document is one of a grammar when its tokens are. -/
theorem readsDoc_iff_allowed {v : Tree} {text rest : List UInt8} (h : ReadsDoc L v text rest) :
    ReadsDoc L' v text rest ↔ v.Allowed L' := by
  obtain ⟨w, body, htext, hw, hv, hroot⟩ := h
  constructor
  · rintro ⟨_, _, _, _, hv', _⟩
    exact hv'.allowed
  · intro hallowed
    exact ⟨w, body, htext, hw, hv.of_allowed hallowed, hroot⟩

/-- Every grammar is part of the tolerant one. -/
theorem ReadsDoc.tolerant {v : Tree} {text rest : List UInt8} (h : ReadsDoc L v text rest) :
    ReadsDoc tolerant v text rest := by
  refine (readsDoc_iff_allowed h).mpr (Json.All.imp (fun s hs c hc => L.char_spelled c (hs c hc))
    L.number_spelled ((readsDoc_iff_allowed h).mp h))

end Unique

end JsonText
