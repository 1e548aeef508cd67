import Triepack.Terseml.Reader

/-!
# What is read is well formed

The reader finds nothing but well-formed elements, so bytes are read in one way only, and it always
comes to an end.
-/

namespace Terseml

open Escape

/-! ## Nothing else is read -/

section Sound

variable {D : Dialect} {limit : Nat} {s rest : List UInt8}

theorem split_eq {ctx : EscCtx} {raw t : List UInt8} (h : ctx.scheme.split s = (raw, t, rest)) :
    s = raw ++ rest ∧ IsRun ctx raw ∧ Scheme.Blocked ctx.scheme rest := by
  obtain ⟨raw', t', rest', hsplit, heq, hrun, hblocked⟩ := Scheme.split_spec ctx.scheme s
  rw [hsplit] at h
  simp only [Prod.mk.injEq] at h
  obtain ⟨rfl, rfl, rfl⟩ := h
  exact ⟨heq, ⟨_, hrun⟩, hblocked⟩

theorem readPairs_sound {fuel : Nat} {pairs : List (List UInt8 × List UInt8)} {trailing : Bool}
    (h : readPairs fuel s = .ok ((pairs, trailing), rest)) :
    pairs ≠ [] ∧ (∀ q ∈ pairs, IsRun .key q.1 ∧ IsRun .val q.2) ∧
      s = pairsText pairs ++ ((if trailing then [com] else []) ++ rsq :: rest) := by
  induction fuel generalizing s pairs with
  | zero => simp [readPairs] at h
  | succ fuel ih =>
    obtain ⟨k, kt, s₁, hk⟩ : ∃ k kt s₁, EscCtx.key.scheme.split s = (k, kt, s₁) := ⟨_, _, _, rfl⟩
    obtain ⟨rfl, hkey, -⟩ := split_eq hk
    simp only [readPairs, hk] at h
    split at h
    · simp at h
    rename_i c s₂
    split_ifs at h with hcol
    obtain rfl := hcol
    obtain ⟨v, vt, s₃, hv⟩ : ∃ v vt s₃, EscCtx.val.scheme.split s₂ = (v, vt, s₃) := ⟨_, _, _, rfl⟩
    obtain ⟨rfl, hval, -⟩ := split_eq hv
    simp only [hv] at h
    split at h
    · simp at h
    rename_i c s₄
    split_ifs at h with hclose hcom hlast
    · simp only [Except.ok.injEq, Prod.mk.injEq] at h
      obtain ⟨⟨rfl, rfl⟩, rfl⟩ := h
      subst hclose
      exact ⟨by simp, by simp [hkey, hval], by simp [pairsText_singleton]⟩
    · simp only [Except.ok.injEq, Prod.mk.injEq] at h
      obtain ⟨⟨rfl, rfl⟩, rfl⟩ := h
      subst hcom
      obtain ⟨t, rfl⟩ : ∃ t, s₄ = rsq :: t := List.head?_eq_some_iff.mp hlast
      exact ⟨by simp, by simp [hkey, hval], by simp [pairsText_singleton]⟩
    · obtain ⟨⟨⟨ps, tr⟩, s₅⟩, hmore, h⟩ := bind_eq_ok.mp h
      simp only [Except.ok.injEq, Prod.mk.injEq] at h
      obtain ⟨⟨rfl, rfl⟩, rfl⟩ := h
      subst hcom
      obtain ⟨hne, hps, rfl⟩ := ih hmore
      refine ⟨by simp, ?_, ?_⟩
      · simpa [hkey, hval] using hps
      · obtain ⟨q, qs, rfl⟩ := List.exists_cons_of_ne_nil hne
        simp [pairsText_cons_cons]

theorem readAttrs_sound {pairs : List (List UInt8 × List UInt8)} {trailing : Bool}
    (h : readAttrs s = .ok ((pairs, trailing), rest)) :
    (∀ q ∈ pairs, IsRun .key q.1 ∧ IsRun .val q.2) ∧ (trailing → pairs ≠ []) ∧
      s = pairsText pairs ++ ((if trailing then [com] else []) ++ rsq :: rest) := by
  rw [readAttrs] at h
  split_ifs at h with hempty
  · simp only [Except.ok.injEq, Prod.mk.injEq] at h
    obtain ⟨⟨rfl, rfl⟩, rfl⟩ := h
    obtain ⟨t, rfl⟩ : ∃ t, s = rsq :: t := List.head?_eq_some_iff.mp hempty
    simp [pairsText]
  · obtain ⟨hne, hpairs, hs⟩ := readPairs_sound h
    exact ⟨hpairs, fun _ => hne, hs⟩

/-- A run that is read is well formed, and behind text comes what may follow it. -/
theorem readRun_sound {i : Item} (h : readRun D s = .ok (i, rest)) :
    i.Ok D ∧ ¬ i.IsElement ∧ s = i.bytes ++ rest ∧
      (i.IsText → Scheme.Blocked EscCtx.text.scheme rest ∧ (D.runAfterText ∨ rest.head?.any (· != bs))) := by
  have hcons : ∀ {a b : UInt8}, s.head? = some a ∧ s.tail.head? = some b → s = a :: b :: s.tail.tail := by
    rintro a b ⟨ha, hb⟩
    obtain ⟨t, rfl⟩ := List.head?_eq_some_iff.mp ha
    obtain ⟨t, rfl⟩ := List.head?_eq_some_iff.mp hb
    rfl
  rw [readRun] at h
  split_ifs at h with hb hB
  · have hs := hcons hb
    generalize s.tail.tail = u at h hs
    obtain ⟨raw, t, s₁, hsplit, rfl, hrun, -⟩ := Scheme.split_spec binScheme u
    simp only [readTerminated, hsplit] at h
    split_ifs at h with hzero
    obtain ⟨t', rfl⟩ := List.head?_eq_some_iff.mp hzero
    simp only [Except.ok.injEq, Prod.mk.injEq] at h
    obtain ⟨rfl, rfl⟩ := h
    refine ⟨?_, by simp [Item.IsElement], ?_, by simp [Item.IsText]⟩
    · rw [Item.Ok]
      exact ⟨t, hrun⟩
    · simp [hs, Item.bytes]
  · have hs := hcons hB
    generalize s.tail.tail = u at h hs
    rw [readCounted] at h
    split at h
    · simp at h
    rename_i varint s₁ htake
    obtain ⟨hcode, rfl⟩ := Leb128.isCode_of_takeCode htake
    dsimp only at h
    split_ifs at h with hfits
    simp only [Except.ok.injEq, Prod.mk.injEq] at h
    obtain ⟨rfl, rfl⟩ := h
    refine ⟨?_, by simp [Item.IsElement], ?_, by simp [Item.IsText]⟩
    · rw [Item.Ok]
      exact ⟨⟨hcode, hfits.1⟩, by simp [hfits.2]⟩
    · simp [hs, Item.bytes, List.take_append_drop]
  · rw [readText] at h
    obtain ⟨raw, t, s₁, hsplit⟩ : ∃ raw t s₁, EscCtx.text.scheme.split s = (raw, t, s₁) := ⟨_, _, _, rfl⟩
    obtain ⟨rfl, hrun, hblocked⟩ := split_eq hsplit
    simp only [hsplit] at h
    split_ifs at h with hempty hnext
    simp only [Except.ok.injEq, Prod.mk.injEq] at h
    obtain ⟨rfl, rfl⟩ := h
    refine ⟨?_, by simp [Item.IsElement], by rw [Item.bytes], fun _ => ⟨hblocked, hnext⟩⟩
    rw [Item.Ok]
    exact ⟨hempty, hrun⟩

theorem eq_nil_or_cons (s : List UInt8) : s = [] ∨ ∃ c t, s = c :: t := by
  cases s with
  | nil => exact .inl rfl
  | cons c t => exact .inr ⟨c, t, rfl⟩

theorem head?_append_cons {a b : UInt8} {t : List UInt8} {u : List UInt8} (h : u.head? = some a) :
    (u ++ b :: t).head? = some a := by
  obtain ⟨v, rfl⟩ := List.head?_eq_some_iff.mp h
  rfl

/-- What is read behind an item may follow it. -/
theorem follows_of_read {i : Item} {is : List Item} (his : contentOk D is)
    (h : i.IsText → Scheme.Blocked EscCtx.text.scheme (contentBytes is ++ rest) ∧
      (D.runAfterText ∨ (contentBytes is ++ rest).head?.any (· != bs))) : Follows D i is.head? := by
  intro htext j hj
  obtain ⟨hblocked, hnext⟩ := h htext
  obtain ⟨js, rfl⟩ := List.head?_eq_some_iff.mp hj
  rw [contentOk] at his
  rw [contentBytes_cons, List.append_assoc] at hblocked hnext
  have hj' : ¬ j.IsText := by
    intro hjtext
    cases j with
    | text raw =>
      have hok := his.1
      rw [Item.Ok] at hok
      obtain ⟨s, hs⟩ := hok.2
      exact hs.not_blocked hok.1 (by simpa [Item.bytes] using hblocked)
    | _ => exact hjtext.elim
  refine ⟨hj', hnext.imp_right fun hany => ?_⟩
  by_contra helement
  obtain ⟨t, ht | ht⟩ := Item.bytes_of_not_isText hj' helement <;> simp [ht] at hany

/-- What is read behind the head of a singleton is no text. -/
theorem not_isText_of_blocked {is : List Item} {c : UInt8} {t : List UInt8} (his : contentOk D is)
    (hblocked : Scheme.Blocked EscCtx.tag.scheme (c :: t)) (hcom : c ≠ com)
    (heq : c :: t = contentBytes is ++ rest) : ∀ i ∈ is.head?, ¬ i.IsText := by
  intro i hi htext
  obtain ⟨js, rfl⟩ := List.head?_eq_some_iff.mp hi
  rw [contentOk] at his
  cases i with
  | text raw =>
    have hok := his.1
    rw [Item.Ok] at hok
    obtain ⟨s, hs⟩ := hok.2
    have hnot : ¬ Scheme.Blocked EscCtx.text.scheme (raw ++ (contentBytes js ++ rest)) := hs.not_blocked hok.1
    refine hnot ?_
    have heq' : c :: t = raw ++ (contentBytes js ++ rest) := by
      simpa [contentBytes_cons, Item.bytes] using heq
    rw [← heq']
    cases hblocked with
    | @stop _ _ hesc hstop =>
      refine .stop hesc ?_
      have hne : c ≠ bs := hesc
      simpa [EscCtx.scheme, isReserved, hne, hcom] using hstop
    | cut => exact .cut
    | unknown hmeaning => exact .unknown hmeaning
  | _ => exact htext.elim

/-- A content behind an opening makes a well-formed element of it. -/
structure Opens (D : Dialect) (i : Item) (s rest : List UInt8) (content : List Item) (behind : List UInt8) :
    Prop where
  isElement : i.IsElement
  ok : i.Ok D
  content_eq : i.content = content
  bytes_eq : s = i.bytes ++ behind
  length_lt : rest.length < s.length

/-- What is read before a content is the opening of a well-formed element. -/
theorem readOpening_sound {i : Item} {more : Bool} (h : readOpening D s = .ok ((i, more), rest)) :
    (more = false → Opens D i s rest [] rest) ∧
      (more = true → rest.length < s.length ∧ ∀ content behind, contentOk D content →
        rest = contentBytes content ++ rbr :: behind → Opens D (i.fill content) s rest content behind) := by
  rw [readOpening] at h
  split at h
  swap
  · simp at h
  rename_i hopen
  obtain ⟨s, rfl⟩ := List.head?_eq_some_iff.mp hopen
  obtain ⟨tag, tagBytes, s₁, hsplit⟩ : ∃ raw t s₁, EscCtx.tag.scheme.split s = (raw, t, s₁) := ⟨_, _, _, rfl⟩
  obtain ⟨rfl, htag, hblocked⟩ := split_eq hsplit
  simp only [List.tail_cons, hsplit] at h
  obtain rfl | ⟨c, s₂, rfl⟩ := eq_nil_or_cons s₁
  · simp at h
  dsimp only at h
  have hnil : contentOk D [] := by rw [contentOk]; trivial
  by_cases hclose : c = rbr
  · rw [if_pos hclose] at h
    simp only [Except.ok.injEq, Prod.mk.injEq] at h
    obtain ⟨⟨rfl, rfl⟩, rfl⟩ := h
    subst hclose
    refine ⟨fun _ => ⟨trivial, ?_, rfl, by simp [Item.bytes, contentBytes], by simp; omega⟩, by simp⟩
    rw [Item.Ok]
    exact ⟨htag, hnil, by simp, .inl rfl⟩
  rw [if_neg hclose] at h
  by_cases hcom : c = com
  · subst hcom
    rw [if_pos rfl] at h
    by_cases hbracket : s₂.head? = some lsq
    · rw [if_pos hbracket] at h
      obtain ⟨s₂, rfl⟩ := List.head?_eq_some_iff.mp hbracket
      obtain ⟨⟨⟨pairs, trailing⟩, s₃⟩, hattrs, hbehind⟩ := bind_eq_ok.mp h
      clear h
      obtain ⟨hpairs, htrailing, rfl⟩ := readAttrs_sound hattrs
      dsimp only at hbehind
      split_ifs at hbehind with hcomma hclose' hbare
      · obtain ⟨s₄, rfl⟩ := List.head?_eq_some_iff.mp hcomma
        simp only [Except.ok.injEq, Prod.mk.injEq] at hbehind
        obtain ⟨⟨rfl, rfl⟩, rfl⟩ := hbehind
        refine ⟨by simp, fun _ => ⟨by simp; omega, fun content behind hok hrest => ?_⟩⟩
        rw [List.tail_cons] at hrest
        subst hrest
        refine ⟨trivial, ?_, rfl, by simp [Item.fill, Item.bytes], by simp; omega⟩
        rw [Item.fill, Item.Ok]
        exact ⟨htag, hpairs, htrailing, hok, by simp⟩
      · obtain ⟨s₄, rfl⟩ := List.head?_eq_some_iff.mp hclose'
        simp only [Except.ok.injEq, Prod.mk.injEq] at hbehind
        obtain ⟨⟨rfl, rfl⟩, rfl⟩ := hbehind
        refine ⟨fun _ => ⟨trivial, ?_, rfl, by simp [Item.bytes, contentBytes], by simp; omega⟩, by simp⟩
        rw [Item.Ok]
        exact ⟨htag, hpairs, htrailing, hnil, by simp [contentBytes]⟩
      · simp only [Except.ok.injEq, Prod.mk.injEq] at hbehind
        obtain ⟨⟨rfl, rfl⟩, rfl⟩ := hbehind
        refine ⟨by simp, fun _ => ⟨by simp; omega, fun content behind hok hrest => ?_⟩⟩
        subst hrest
        refine ⟨trivial, ?_, rfl, by simp [Item.fill, Item.bytes], by simp; omega⟩
        rw [Item.fill, Item.Ok]
        exact ⟨htag, hpairs, htrailing, hok, fun _ =>
          ⟨fun hhead => hcomma (head?_append_cons hhead), .inr hbare⟩⟩
    · rw [if_neg hbracket] at h
      simp only [Except.ok.injEq, Prod.mk.injEq] at h
      obtain ⟨⟨rfl, rfl⟩, rfl⟩ := h
      refine ⟨by simp, fun _ => ⟨by simp; omega, fun content behind hok hrest => ?_⟩⟩
      subst hrest
      refine ⟨trivial, ?_, rfl, by simp [Item.fill, Item.bytes], by simp; omega⟩
      rw [Item.fill, Item.Ok]
      exact ⟨htag, hok, fun hhead => hbracket (head?_append_cons hhead)⟩
  · rw [if_neg hcom] at h
    split_ifs at h with hrich
    simp only [Except.ok.injEq, Prod.mk.injEq] at h
    obtain ⟨⟨rfl, rfl⟩, rfl⟩ := h
    refine ⟨by simp, fun _ => ⟨by simp, fun content behind hok hrest => ?_⟩⟩
    refine ⟨trivial, ?_, rfl, by simp [Item.fill, Item.bytes, hrest], by simp⟩
    rw [Item.fill, Item.Ok]
    exact ⟨htag, hok, not_isText_of_blocked hok hblocked hcom hrest, .inr hrich⟩

/-- What is read is a well-formed element, or a content with its closing brace. -/
theorem read_sound (fuel : Nat) :
    (∀ {depth : Nat} {s rest : List UInt8} {i : Item},
      readElement D limit fuel depth s = .ok (i, rest) →
      i.IsElement ∧ i.Ok D ∧ i.Within limit depth ∧ s = i.bytes ++ rest) ∧
    ∀ {depth : Nat} {s rest : List UInt8} {is : List Item},
      readContent D limit fuel depth s = .ok (is, rest) →
      contentOk D is ∧ contentWithin limit is (depth + 1) ∧ s = contentBytes is ++ rbr :: rest := by
  induction fuel with
  | zero => exact ⟨fun h => by simp [readElement] at h, fun h => by simp [readContent] at h⟩
  | succ fuel ih =>
    obtain ⟨ihElement, ihContent⟩ := ih
    constructor
    · intro depth s rest i h
      rw [readElement] at h
      split_ifs at h with hdepth
      obtain ⟨⟨⟨i', more⟩, s₁⟩, hopen, hrest⟩ := bind_eq_ok.mp h
      clear h
      obtain ⟨hclosed, hmore⟩ := readOpening_sound hopen
      cases more with
      | false =>
        obtain ⟨rfl, rfl⟩ : i' = i ∧ s₁ = rest := by simpa using hrest
        obtain ⟨helement, hok, hcontent, hbytes, -⟩ := hclosed rfl
        refine ⟨helement, hok, (within_content helement).mpr ⟨by omega, ?_⟩, hbytes⟩
        rw [hcontent, contentWithin]
        trivial
      | true =>
        obtain ⟨⟨content, s₂⟩, hcontent, heq⟩ := bind_eq_ok.mp hrest
        obtain ⟨rfl, rfl⟩ : i'.fill content = i ∧ s₂ = rest := by simpa using heq
        obtain ⟨hok, hwithin, hbytes⟩ := ihContent hcontent
        obtain ⟨helement, hok, hcontent, hbytes, -⟩ := (hmore rfl).2 content s₂ hok hbytes
        refine ⟨helement, hok, (within_content helement).mpr ⟨by omega, ?_⟩, hbytes⟩
        rwa [hcontent]
    · intro depth s rest is h
      obtain rfl | ⟨c, s₁, rfl⟩ := eq_nil_or_cons s
      · simp [readContent] at h
      rw [readContent] at h
      by_cases hclose : c = rbr
      · rw [if_pos hclose] at h
        simp only [Except.ok.injEq, Prod.mk.injEq] at h
        obtain ⟨rfl, rfl⟩ := h
        subst hclose
        simp [contentOk, contentWithin, contentBytes]
      · rw [if_neg hclose] at h
        obtain ⟨⟨i, s₂⟩, hitem, hrest⟩ := bind_eq_ok.mp h
        obtain ⟨⟨is', s₃⟩, hmore, heq⟩ := bind_eq_ok.mp hrest
        clear h hrest
        simp only [Except.ok.injEq, Prod.mk.injEq] at heq
        obtain ⟨rfl, rfl⟩ := heq
        obtain ⟨his, hwithin, rfl⟩ := ihContent hmore
        rw [contentOk, contentWithin, contentBytes_cons, List.append_assoc]
        split_ifs at hitem with hopen
        · obtain ⟨helement, hok, hdeep, hbytes⟩ := ihElement hitem
          refine ⟨⟨hok, his, fun htext => ?_⟩, ⟨hdeep, hwithin⟩, hbytes⟩
          cases i <;> first | exact helement.elim | exact htext.elim
        · obtain ⟨hok, helement, hbytes, hbehind⟩ := readRun_sound hitem
          refine ⟨⟨hok, his, follows_of_read his hbehind⟩, ⟨?_, hwithin⟩, hbytes⟩
          cases i with
          | text | terminated | counted => simp [Item.Within]
          | _ => exact (helement trivial).elim

theorem readElement_sound {fuel depth : Nat} {i : Item}
    (h : readElement D limit fuel depth s = .ok (i, rest)) :
    i.IsElement ∧ i.Ok D ∧ i.Within limit depth ∧ s = i.bytes ++ rest := (read_sound fuel).1 h

end Sound

/-! ## Reading comes to an end -/

section Ends

variable {D : Dialect} {limit : Nat}

theorem bind_ne_fuel {α β : Type} {x : Except Fail α} {f : α → Except Fail β} (hx : x ≠ .error .fuel)
    (hf : ∀ a, x = .ok a → f a ≠ .error .fuel) : x >>= f ≠ .error .fuel := by
  cases x with
  | error e => exact fun h => hx (congrArg _ (Except.error.inj h))
  | ok a => exact hf a rfl

theorem split_length_le (ctx : EscCtx) (s : List UInt8) : (ctx.scheme.split s).2.2.length ≤ s.length := by
  obtain ⟨raw, t, rest, hsplit, rfl, -⟩ := Scheme.split_spec ctx.scheme s
  simp [hsplit]

theorem readPairs_ne_fuel {fuel : Nat} {s : List UInt8} (h : s.length < fuel) :
    readPairs fuel s ≠ .error .fuel := by
  induction fuel generalizing s with
  | zero => omega
  | succ fuel ih =>
    have hk := split_length_le .key s
    simp only [readPairs]
    generalize EscCtx.key.scheme.split s = k at hk
    obtain ⟨k, kt, s₁⟩ := k
    cases s₁ with
    | nil => simp
    | cons c s₁ =>
      dsimp only
      split_ifs with hcol
      swap
      · simp
      have hv := split_length_le .val s₁
      generalize EscCtx.val.scheme.split s₁ = v at hv
      obtain ⟨v, vt, s₂⟩ := v
      cases s₂ with
      | nil => simp
      | cons c s₂ =>
        dsimp only
        split_ifs
        · simp
        · simp
        · simp only [List.length_cons] at hk hv
          exact bind_ne_fuel (ih (by omega)) fun _ _ => by simp
        · simp

theorem readAttrs_ne_fuel (s : List UInt8) : readAttrs s ≠ .error .fuel := by
  rw [readAttrs]
  split_ifs
  · simp
  · exact readPairs_ne_fuel (Nat.lt_succ_self _)

theorem readOpening_ne_fuel (D : Dialect) (s : List UInt8) : readOpening D s ≠ .error .fuel := by
  rw [readOpening]
  split
  swap
  · simp
  dsimp only
  split
  · simp
  split
  · simp
  split
  · split
    · refine bind_ne_fuel (readAttrs_ne_fuel _) fun _ _ => ?_
      split_ifs <;> simp
    · simp
  · split <;> simp

theorem readRun_ne_fuel (D : Dialect) (s : List UInt8) : readRun D s ≠ .error .fuel := by
  rw [readRun]
  split_ifs
  · simp only [readTerminated]
    split_ifs <;> simp
  · rw [readCounted]
    split
    · simp
    · dsimp only
      split_ifs <;> simp
  · simp only [readText]
    split_ifs <;> simp

/-- There is fuel enough where there is twice as much as there are bytes. -/
theorem read_ne_fuel (fuel : Nat) :
    (∀ {depth : Nat} {s : List UInt8}, 2 * s.length < fuel →
      readElement D limit fuel depth s ≠ .error .fuel) ∧
    ∀ {depth : Nat} {s : List UInt8}, 2 * s.length + 1 < fuel →
      readContent D limit fuel depth s ≠ .error .fuel := by
  induction fuel with
  | zero => exact ⟨fun h => by omega, fun h => by omega⟩
  | succ fuel ih =>
    obtain ⟨ihElement, ihContent⟩ := ih
    constructor
    · intro depth s hlen
      rw [readElement]
      split_ifs
      · simp
      refine bind_ne_fuel (readOpening_ne_fuel D s) fun opening hopen => ?_
      obtain ⟨⟨i, more⟩, s₁⟩ := opening
      cases more with
      | false => simp
      | true =>
        have hlt := ((readOpening_sound hopen).2 rfl).1
        exact bind_ne_fuel (ihContent (by omega)) fun _ _ => by simp
    · intro depth s hlen
      obtain rfl | ⟨c, s₁, rfl⟩ := eq_nil_or_cons s
      · simp [readContent]
      rw [readContent]
      split
      · simp
      refine bind_ne_fuel ?_ fun item hitem => ?_
      · split
        · exact ihElement (by omega)
        · exact readRun_ne_fuel D _
      · obtain ⟨i, s₂⟩ := item
        have hlt : s₂.length < (c :: s₁).length := by
          split_ifs at hitem
          · obtain ⟨-, hok, -, hbytes⟩ := readElement_sound hitem
            rw [hbytes, List.length_append]
            exact Nat.lt_add_of_pos_left (List.length_pos_iff.mpr (Item.bytes_ne_nil hok))
          · obtain ⟨hok, -, hbytes, -⟩ := readRun_sound hitem
            rw [hbytes, List.length_append]
            exact Nat.lt_add_of_pos_left (List.length_pos_iff.mpr (Item.bytes_ne_nil hok))
        exact bind_ne_fuel (ihContent (by dsimp only; omega)) fun _ _ => by simp

end Ends

/-! ## Bytes are read in one way -/

/-- What a dialect reads another one reads too, where payloads are shorter than a bound. -/
structure Dialect.Le (D D' : Dialect) (bound : Nat) : Prop where
  richSingleton : D.richSingleton → D'.richSingleton
  bareContent : D.bareContent → D'.bareContent
  runAfterText : D.runAfterText → D'.runAfterText
  length : ∀ {v m}, D.length v = m → m < bound → D'.length v = m

section Unique

variable {D D' : Dialect} {bound : Nat}

theorem contentOk_iff {is : List Item} : contentOk D is ↔
    (∀ i ∈ is, i.Ok D) ∧ is.IsChain fun i j => Follows D i (some j) := by
  induction is with
  | nil => simp [contentOk]
  | cons i is ih =>
    rw [contentOk, ih]
    cases is with
    | nil => simp [Follows]
    | cons j js =>
      simp only [List.head?_cons, List.isChain_cons_cons, List.forall_mem_cons]
      tauto

theorem length_bytes_le {i : Item} {is : List Item} (h : i ∈ is) :
    i.bytes.length ≤ (contentBytes is).length := by
  induction is with
  | nil => simp at h
  | cons j js ih =>
    rw [contentBytes_cons, List.length_append]
    obtain rfl | h := List.mem_cons.mp h
    · omega
    · have hle := ih h
      omega

theorem contentOk_mono (hle : Dialect.Le D D' bound) {is : List Item}
    (ih : ∀ i ∈ is, i.Ok D → i.bytes.length < bound → i.Ok D') (h : contentOk D is)
    (hlen : (contentBytes is).length < bound) : contentOk D' is := by
  rw [contentOk_iff] at h ⊢
  refine ⟨fun i hi => ih i hi (h.1 i hi) ((length_bytes_le hi).trans_lt hlen), h.2.imp ?_⟩
  intro i j hij htext k hk
  exact (hij htext k hk).imp_right (Or.imp_left hle.runAfterText)

theorem Item.Ok.mono (hle : Dialect.Le D D' bound) {i : Item} (h : i.Ok D)
    (hlen : i.bytes.length < bound) : i.Ok D' := by
  induction i using Item.induction_on with
  | text | terminated => simpa only [Item.Ok] using h
  | counted varint payload =>
    rw [Item.Ok] at h ⊢
    refine ⟨h.1, hle.length h.2 ?_⟩
    simp only [Item.bytes, List.length_cons, List.length_append] at hlen
    omega
  | singleton head content ih =>
    have hcontent := content_bytes_length (i := .singleton head content) trivial
    rw [Item.content] at hcontent
    rw [Item.Ok] at h ⊢
    exact ⟨h.1, contentOk_mono hle ih h.2.1 (by omega), h.2.2.1, h.2.2.2.imp_right hle.richSingleton⟩
  | plain tag content ih =>
    have hcontent := content_bytes_length (i := .plain tag content) trivial
    rw [Item.content] at hcontent
    rw [Item.Ok] at h ⊢
    exact ⟨h.1, contentOk_mono hle ih h.2.1 (by omega), h.2.2⟩
  | attributed tag pairs trailing comma content ih =>
    have hcontent := content_bytes_length (i := .attributed tag pairs trailing comma content) trivial
    rw [Item.content] at hcontent
    rw [Item.Ok] at h ⊢
    exact ⟨h.1, h.2.1, h.2.2.1, contentOk_mono hle ih h.2.2.2.1 (by omega),
      fun hcomma => (h.2.2.2.2 hcomma).imp_right (Or.imp_right hle.bareContent)⟩

/-- An item is nested at most as deeply as it has bytes. -/
theorem contentWithin_iff {limit depth : Nat} {is : List Item} :
    contentWithin limit is depth ↔ ∀ i ∈ is, i.Within limit depth := by
  induction is with
  | nil => simp [contentWithin]
  | cons i is ih => simp [contentWithin, ih]

theorem within_of_length_le {limit depth : Nat} {i : Item} (h : depth + i.bytes.length ≤ limit) :
    i.Within limit depth := by
  have hstep : ∀ (i : Item) (depth : Nat), i.IsElement → depth + i.bytes.length ≤ limit →
      (∀ j ∈ i.content, ∀ depth, depth + j.bytes.length ≤ limit → j.Within limit depth) →
      i.Within limit depth := by
    intro i depth helement hlen ih
    have hcontent := content_bytes_length helement
    refine (within_content helement).mpr ⟨by omega, contentWithin_iff.mpr fun j hj => ih j hj _ ?_⟩
    have hle := length_bytes_le hj
    omega
  induction i using Item.induction_on generalizing depth with
  | text | terminated | counted => simp [Item.Within]
  | singleton _ _ ih => exact hstep _ _ trivial h fun j hj depth hle => ih j hj hle
  | plain _ _ ih => exact hstep _ _ trivial h fun j hj depth hle => ih j hj hle
  | attributed _ _ _ _ _ ih => exact hstep _ _ trivial h fun j hj depth hle => ih j hj hle

/-- Two well-formed elements at the front of one row are the same. -/
theorem Item.bytes_unique {i j : Item} {rest rest' : List UInt8} (hi : i.Ok D) (hj : j.Ok D)
    (hi' : i.IsElement) (hj' : j.IsElement) (h : i.bytes ++ rest = j.bytes ++ rest') :
    i = j ∧ rest = rest' := by
  obtain ⟨n, hn⟩ : ∃ n, n = i.bytes.length + j.bytes.length := ⟨_, rfl⟩
  have hread : readElement D n n 0 (i.bytes ++ rest) = .ok (i, rest) :=
    readElement_bytes i hi hi' rest (within_of_length_le (by omega)) (by omega)
  have hread' : readElement D n n 0 (j.bytes ++ rest') = .ok (j, rest') :=
    readElement_bytes j hj hj' rest' (within_of_length_le (by omega)) (by omega)
  rw [h, hread'] at hread
  simp only [Except.ok.injEq, Prod.mk.injEq] at hread
  exact ⟨hread.1.symm, hread.2.symm⟩

end Unique

/-! ## Documents -/

/-- An item that can stand at the root of a document. -/
structure Item.IsRoot (D : Dialect) (limit : Nat) (i : Item) : Prop where
  isElement : i.IsElement
  ok : i.Ok D
  within : i.Within limit 0

/-- There is fuel enough for every element at the front of the bytes. -/
def decodeFuel (s : List UInt8) : Nat := 2 * s.length + 1

/-- Elements behind one another, up to the end of the bytes. -/
def readRoots (D : Dialect) (limit : Nat) : (fuel : Nat) → List UInt8 → Except Fail (List Item)
  | 0, _ => .error .fuel
  | _ + 1, [] => .ok []
  | fuel + 1, c :: s => do
    let (i, s) ← readElement D limit (decodeFuel (c :: s)) 0 (c :: s)
    let is ← readRoots D limit fuel s
    .ok (i :: is)

section Documents

variable {D : Dialect} {limit : Nat} {s rest : List UInt8} {i : Item}

theorem readElement_eq_ok :
    readElement D limit (decodeFuel s) 0 s = .ok (i, rest) ↔ i.IsRoot D limit ∧ s = i.bytes ++ rest := by
  constructor
  · intro h
    obtain ⟨helement, hok, hwithin, hs⟩ := readElement_sound h
    exact ⟨⟨helement, hok, hwithin⟩, hs⟩
  · rintro ⟨⟨helement, hok, hwithin⟩, rfl⟩
    refine readElement_bytes i hok helement rest hwithin ?_
    rw [decodeFuel, List.length_append]
    omega

theorem readElement_ne_fuel (s : List UInt8) : readElement D limit (decodeFuel s) 0 s ≠ .error .fuel :=
  (read_ne_fuel (decodeFuel s)).1 (Nat.lt_succ_self _)

theorem readRoots_eq_ok {fuel : Nat} (hfuel : s.length < fuel) {is : List Item} :
    readRoots D limit fuel s = .ok is ↔ (∀ i ∈ is, i.IsRoot D limit) ∧ s = contentBytes is := by
  induction fuel generalizing s is with
  | zero => omega
  | succ fuel ih =>
    cases s with
    | nil =>
      rw [readRoots, Except.ok.injEq]
      constructor
      · rintro rfl
        simp [contentBytes]
      · rintro ⟨hroots, hs⟩
        cases is with
        | nil => rfl
        | cons i is =>
          rw [contentBytes_cons] at hs
          exact absurd (List.append_eq_nil_iff.mp hs.symm).1 (Item.bytes_ne_nil (hroots i (by simp)).ok)
    | cons c s =>
      have hrest : ∀ {i : Item} {s₁ : List UInt8}, i.IsRoot D limit → c :: s = i.bytes ++ s₁ →
          s₁.length < fuel := by
        intro i s₁ hroot hs
        have hpos := List.length_pos_iff.mpr (Item.bytes_ne_nil hroot.ok)
        have hlen := congrArg List.length hs
        rw [List.length_append] at hlen
        omega
      rw [readRoots]
      constructor
      · intro h
        obtain ⟨⟨i, s₁⟩, hi, h⟩ := bind_eq_ok.mp h
        obtain ⟨is', his, h⟩ := bind_eq_ok.mp h
        obtain rfl : i :: is' = is := Except.ok.inj h
        obtain ⟨hroot, hs⟩ := readElement_eq_ok.mp hi
        obtain ⟨hroots, rfl⟩ := (ih (hrest hroot hs)).mp his
        exact ⟨List.forall_mem_cons.mpr ⟨hroot, hroots⟩, by rw [hs, contentBytes_cons]⟩
      · rintro ⟨hroots, hs⟩
        cases is with
        | nil => simp [contentBytes] at hs
        | cons i is =>
          rw [contentBytes_cons] at hs
          obtain ⟨hroot, hroots⟩ := List.forall_mem_cons.mp hroots
          rw [readElement_eq_ok.mpr ⟨hroot, hs⟩, ok_bind]
          dsimp only
          rw [(ih (hrest hroot hs)).mpr ⟨hroots, rfl⟩]
          rfl

/-- A document is read in one way. -/
theorem roots_unique {is js : List Item} (his : ∀ i ∈ is, i.IsRoot D limit) (hjs : ∀ i ∈ js, i.IsRoot D limit)
    (heq : contentBytes is = contentBytes js) : is = js := by
  have hread := (readRoots_eq_ok (Nat.lt_succ_self _)).mpr ⟨his, rfl⟩
  have hread' := (readRoots_eq_ok (Nat.lt_succ_self _)).mpr ⟨hjs, rfl⟩
  rw [heq, hread'] at hread
  exact (Except.ok.inj hread).symm

theorem readRoots_ne_fuel {fuel : Nat} (hfuel : s.length < fuel) :
    readRoots D limit fuel s ≠ .error .fuel := by
  induction fuel generalizing s with
  | zero => omega
  | succ fuel ih =>
    cases s with
    | nil => simp [readRoots]
    | cons c s =>
      rw [readRoots]
      refine bind_ne_fuel (readElement_ne_fuel _) fun ⟨i, s₁⟩ hi => ?_
      obtain ⟨hroot, hs⟩ := readElement_eq_ok.mp hi
      have hpos := List.length_pos_iff.mpr (Item.bytes_ne_nil hroot.ok)
      have hlen := congrArg List.length hs
      rw [List.length_append] at hlen
      exact bind_ne_fuel (ih (by omega)) fun _ _ => by simp

end Documents

/-! ## Decoders -/

/-- A decoder and the reader end in the same way, with related results if with any. -/
def Reads {ε α β : Type} (fail : ε → Fail) (R : α → β → Prop) : Except ε α → Except Fail β → Prop
  | .ok a, .ok b => R a b
  | .error e, .error f => fail e = f
  | _, _ => False

theorem Reads.bind {ε α β γ δ : Type} {fail : ε → Fail} {R : α → β → Prop} {S : γ → δ → Prop}
    {x : Except ε α} {y : Except Fail β} {f : α → Except ε γ} {g : β → Except Fail δ}
    (h : Reads fail R x y) (hfg : ∀ a b, R a b → Reads fail S (f a) (g b)) :
    Reads fail S (x >>= f) (y >>= g) := by
  cases x <;> cases y
  · exact h
  · exact h.elim
  · exact h.elim
  · exact hfg _ _ h

/-- It is enough to compare the calls where the reader has fuel. -/
theorem Reads.bind_of_ne_fuel {ε α β γ δ : Type} {fail : ε → Fail} {R : α → β → Prop} {S : γ → δ → Prop}
    {x : Except ε α} {y : Except Fail β} {f : α → Except ε γ} {g : β → Except Fail δ}
    (hne : y >>= g ≠ .error .fuel) (h : y ≠ .error .fuel → Reads fail R x y)
    (hfg : ∀ a b, R a b → g b ≠ .error .fuel → Reads fail S (f a) (g b)) :
    Reads fail S (x >>= f) (y >>= g) := by
  have hy : y ≠ .error .fuel := by
    rintro rfl
    exact hne rfl
  cases x <;> cases y
  · exact h hy
  · exact (h hy).elim
  · exact (h hy).elim
  · exact hfg _ _ (h hy) hne

theorem Reads.mono {ε α β : Type} {fail : ε → Fail} {R S : α → β → Prop} {x : Except ε α}
    {y : Except Fail β} (h : Reads fail R x y) (hRS : ∀ a b, y = .ok b → R a b → S a b) :
    Reads fail S x y := by
  cases x <;> cases y
  · exact h
  · exact h.elim
  · exact h.elim
  · exact hRS _ _ rfl h

/-- How a call of a decoder ends, as a call of the reader. -/
def outcome {ε α : Type} (fail : ε → Fail) : Except ε α → Except Fail α
  | .ok a => .ok a
  | .error e => .error (fail e)

@[simp] theorem outcome_ok {ε α : Type} (fail : ε → Fail) (a : α) : outcome fail (.ok a) = .ok a := rfl

theorem outcome_bind {ε α β : Type} (fail : ε → Fail) (x : Except ε α) (f : α → Except ε β) :
    outcome fail (x >>= f) = outcome fail x >>= fun a => outcome fail (f a) := by
  cases x <;> rfl

theorem eq_ok_of_outcome {ε α : Type} {fail : ε → Fail} {x : Except ε α} {a : α}
    (h : outcome fail x = .ok a) : x = .ok a := by
  cases x with
  | ok a' => exact congrArg Except.ok (Except.ok.inj h)
  | error e => simp [outcome] at h

theorem exists_error_of_outcome {ε α : Type} {fail : ε → Fail} {x : Except ε α} {f : Fail}
    (h : outcome fail x = .error f) : ∃ e, x = .error e ∧ fail e = f := by
  cases x with
  | ok a => simp at h
  | error e => exact ⟨e, rfl, Except.error.inj h⟩

theorem reads_ok {ε α β : Type} {fail : ε → Fail} {R : α → β → Prop} {x : Except ε α} {a : α} {b : β}
    (h : outcome fail x = .ok a) (hR : R a b) : Reads fail R x (.ok b) := by
  rw [eq_ok_of_outcome h]
  exact hR

theorem reads_error {ε α β : Type} {fail : ε → Fail} {R : α → β → Prop} {x : Except ε α} {f : Fail}
    (h : outcome fail x = .error f) : Reads fail R x (.error f) := by
  obtain ⟨e, rfl, he⟩ := exists_error_of_outcome h
  exact he

theorem reads_of_outcome {ε α β : Type} {fail : ε → Fail} {x : Except ε α} {y : Except Fail β} {f : β → α}
    (h : outcome fail x = y.map f) : Reads fail (fun a b => a = f b) x y := by
  cases x <;> cases y <;> simp_all [outcome, Except.map, Reads]

theorem Reads.ne_stop {ε α β : Type} {fail : ε → Fail} {R : α → β → Prop} {x : Except ε α}
    {y : Except Fail β} (h : Reads fail R x y) {stop : ε} (hy : y ≠ .error (fail stop)) :
    x ≠ .error stop := by
  rintro rfl
  cases y with
  | ok b => exact h
  | error e =>
    obtain rfl : fail stop = e := h
    exact hy rfl

theorem Reads.of_ok {ε α β : Type} {fail : ε → Fail} {R : α → β → Prop} {a : α} {y : Except Fail β}
    (h : Reads fail R (.ok a) y) : ∃ b, y = .ok b ∧ R a b := by
  cases y with
  | ok b => exact ⟨b, rfl, h⟩
  | error e => exact h.elim

theorem Reads.of_read {ε α β : Type} {fail : ε → Fail} {R : α → β → Prop} {x : Except ε α} {b : β}
    (h : Reads fail R x (.ok b)) : ∃ a, x = .ok a ∧ R a b := by
  cases x with
  | ok a => exact ⟨a, rfl, h⟩
  | error e => exact h.elim

end Terseml
