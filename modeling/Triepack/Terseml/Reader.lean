import Triepack.Terseml.Syntax

/-!
# Reading an item

The reader of a dialect finds the element that stands at the front of a row of bytes, if it is well
formed in the dialect.
-/

namespace Terseml

open Escape

/-- How reading ends when it does not succeed: the bytes are rejected, or the bound that the model
puts on a loop is reached. -/
inductive Fail where
  | rejected | fuel
  deriving DecidableEq, Repr

@[simp] theorem ok_bind {ε α β : Type} (a : α) (f : α → Except ε β) : (Except.ok a >>= f) = f a := rfl

theorem bind_eq_ok {ε α β : Type} {x : Except ε α} {f : α → Except ε β} {b : β} :
    x >>= f = .ok b ↔ ∃ a, x = .ok a ∧ f a = .ok b := by
  cases x with
  | error e => simp [bind, Except.bind]
  | ok a => simp

/-! ## The reader -/

/-- The pairs of an attribute list, whether a comma trails them, and what is behind the bracket. -/
def readPairs : (fuel : Nat) → List UInt8 →
    Except Fail ((List (List UInt8 × List UInt8) × Bool) × List UInt8)
  | 0, _ => .error .fuel
  | fuel + 1, s =>
    let k := EscCtx.key.scheme.split s
    match k.2.2 with
    | [] => .error .rejected
    | c :: s =>
      if c = col then
        let v := EscCtx.val.scheme.split s
        match v.2.2 with
        | [] => .error .rejected
        | c :: s =>
          if c = rsq then .ok (([(k.1, v.1)], false), s)
          else if c = com then
            if s.head? = some rsq then .ok (([(k.1, v.1)], true), s.tail)
            else do
              let (t, s) ← readPairs fuel s
              .ok (((k.1, v.1) :: t.1, t.2), s)
          else .error .rejected
      else .error .rejected

/-- An attribute list behind its opening bracket. -/
def readAttrs (s : List UInt8) : Except Fail ((List (List UInt8 × List UInt8) × Bool) × List UInt8) :=
  if s.head? = some rsq then .ok (([], false), s.tail) else readPairs (s.length + 1) s

/-- A run of text without a header. -/
def readText (D : Dialect) (s : List UInt8) : Except Fail (Item × List UInt8) :=
  let t := EscCtx.text.scheme.split s
  if t.1 = [] then .error .rejected
  else if D.runAfterText ∨ t.2.2.head?.any (· != bs) then .ok (.text t.1, t.2.2)
  else .error .rejected

/-- What is behind `\b`. -/
def readTerminated (s : List UInt8) : Except Fail (Item × List UInt8) :=
  let t := binScheme.split s
  if t.2.2.head? = some 0 then .ok (.terminated t.1, t.2.2.tail) else .error .rejected

/-- What is behind `\B`. -/
def readCounted (D : Dialect) (s : List UInt8) : Except Fail (Item × List UInt8) :=
  match Leb128.takeCode s with
  | none => .error .rejected
  | some (varint, s) =>
    let n := D.length (Leb128.byteValue varint)
    if varint.length ≤ 10 ∧ n ≤ s.length then .ok (.counted varint (s.take n), s.drop n)
    else .error .rejected

/-- A run of text in one of its forms. -/
def readRun (D : Dialect) (s : List UInt8) : Except Fail (Item × List UInt8) :=
  if s.head? = some bs ∧ s.tail.head? = some letterb then readTerminated s.tail.tail
  else if s.head? = some bs ∧ s.tail.head? = some letterB then readCounted D s.tail.tail
  else readText D s

/-- The item with its content, of which nothing has been read. -/
def Item.fill : Item → List Item → Item
  | .singleton head _, content => .singleton head content
  | .plain tag _, content => .plain tag content
  | .attributed tag pairs trailing comma _, content => .attributed tag pairs trailing comma content
  | i, _ => i

/-- What stands before the content of an element, and whether its content is still to be read. -/
def readOpening (D : Dialect) (s : List UInt8) : Except Fail ((Item × Bool) × List UInt8) :=
  if s.head? = some lbr then
    let t := EscCtx.tag.scheme.split s.tail
    match t.2.2 with
    | [] => .error .rejected
    | c :: s =>
      if c = rbr then .ok ((.singleton t.1 [], false), s)
      else if c = com then
        if s.head? = some lsq then do
          let (a, s) ← readAttrs s.tail
          if s.head? = some com then .ok ((.attributed t.1 a.1 a.2 true [], true), s.tail)
          else if s.head? = some rbr then .ok ((.attributed t.1 a.1 a.2 false [], false), s.tail)
          else if D.bareContent then .ok ((.attributed t.1 a.1 a.2 false [], true), s)
          else .error .rejected
        else .ok ((.plain t.1 [], true), s)
      else if D.richSingleton then .ok ((.singleton t.1 [], true), c :: s)
      else .error .rejected
  else .error .rejected

mutual

/-- An element at a depth. -/
def readElement (D : Dialect) (limit : Nat) : (fuel depth : Nat) → List UInt8 →
    Except Fail (Item × List UInt8)
  | 0, _, _ => .error .fuel
  | fuel + 1, depth, s =>
    if depth > limit then .error .rejected
    else do
      let (o, s) ← readOpening D s
      if o.2 then do
        let (content, s) ← readContent D limit fuel depth s
        .ok (o.1.fill content, s)
      else .ok (o.1, s)

/-- The content of an element at a depth, and what is behind its closing brace. -/
def readContent (D : Dialect) (limit : Nat) : (fuel depth : Nat) → List UInt8 →
    Except Fail (List Item × List UInt8)
  | 0, _, _ => .error .fuel
  | _ + 1, _, [] => .error .rejected
  | fuel + 1, depth, c :: rest =>
    if c = rbr then .ok ([], rest)
    else
      (if c = lbr then readElement D limit fuel (depth + 1) (c :: rest) else readRun D (c :: rest)) >>=
        fun t => do
          let (is, rest) ← readContent D limit fuel depth t.2
          .ok (t.1 :: is, rest)

end

/-! ## Every well-formed item is read -/

section Bytes

variable {ctx : EscCtx} {raw s rest : List UInt8}

theorem blocked_of_reserved {c : UInt8} (hesc : c ≠ bs) (hstop : isReserved ctx c = true) :
    Scheme.Blocked ctx.scheme (c :: rest) := .stop hesc hstop

/-- `\b` and `\B` begin no text. -/
theorem blocked_of_letter {e : UInt8} (h : validEscape e = false) :
    Scheme.Blocked ctx.scheme (bs :: e :: rest) := .unknown (if_neg (by simp [h]))

theorem IsRun.split (h : IsRun ctx raw) (rest : List UInt8) (hrest : Scheme.Blocked ctx.scheme rest) :
    ∃ s, ctx.scheme.split (raw ++ rest) = (raw, s, rest) := by
  obtain ⟨s, hs⟩ := h
  exact ⟨s, Scheme.split_append hs hrest⟩

theorem pairsText_cons_cons (p q : List UInt8 × List UInt8) (ps : List (List UInt8 × List UInt8)) :
    pairsText (p :: q :: ps) = p.1 ++ col :: (p.2 ++ com :: pairsText (q :: ps)) := by
  simp [pairsText, List.intercalate]

theorem pairsText_singleton (p : List UInt8 × List UInt8) : pairsText [p] = p.1 ++ col :: p.2 := by
  simp [pairsText, List.intercalate]

/-- A key does not begin with the bracket that closes the list. -/
theorem head?_pairsText {p : List UInt8 × List UInt8} (hp : IsRun .key p.1)
    (ps : List (List UInt8 × List UInt8)) (rest : List UInt8) :
    (pairsText (p :: ps) ++ rest).head? ≠ some rsq := by
  obtain ⟨s, hs⟩ := hp
  have hhead := hs.not_stop (c := rsq) (by decide) (by decide)
  obtain ⟨tail, htail⟩ : ∃ tail, pairsText (p :: ps) ++ rest = p.1 ++ col :: tail := by
    cases ps with
    | nil => exact ⟨p.2 ++ rest, by simp [pairsText_singleton]⟩
    | cons q ps => exact ⟨p.2 ++ com :: (pairsText (q :: ps) ++ rest), by simp [pairsText_cons_cons]⟩
  rw [htail]
  cases hp1 : p.1 with
  | nil => simpa using (by decide : col ≠ rsq)
  | cons c t => simpa [hp1] using hhead

theorem readPairs_bytes {p : List UInt8 × List UInt8} {ps : List (List UInt8 × List UInt8)}
    (hps : ∀ q ∈ p :: ps, IsRun .key q.1 ∧ IsRun .val q.2) (trailing : Bool) {fuel : Nat}
    (hfuel : ps.length < fuel) :
    readPairs fuel (pairsText (p :: ps) ++ ((if trailing then [com] else []) ++ rsq :: rest)) =
      .ok ((p :: ps, trailing), rest) := by
  induction ps generalizing p fuel with
  | nil =>
    obtain ⟨fuel, rfl⟩ : ∃ n, fuel = n + 1 := ⟨fuel - 1, by simp at hfuel; omega⟩
    obtain ⟨hkey, hval⟩ := hps p (by simp)
    obtain ⟨k, hk⟩ := hkey.split (col :: (p.2 ++ ((if trailing then [com] else []) ++ rsq :: rest)))
      (blocked_of_reserved (by decide) (by decide))
    cases trailing with
    | true =>
      obtain ⟨v, hv⟩ := hval.split (com :: rsq :: rest) (blocked_of_reserved (by decide) (by decide))
      have hne : com ≠ rsq := by decide
      simp_all [readPairs, pairsText_singleton]
    | false =>
      obtain ⟨v, hv⟩ := hval.split (rsq :: rest) (blocked_of_reserved (by decide) (by decide))
      simp_all [readPairs, pairsText_singleton]
  | cons q ps ih =>
    obtain ⟨fuel, rfl⟩ : ∃ n, fuel = n + 1 := ⟨fuel - 1, by simp at hfuel; omega⟩
    obtain ⟨hkey, hval⟩ := hps p (by simp)
    have hih := @ih q (fun r hr => hps r (by simp [hr])) fuel (by simp at hfuel; omega)
    have hhead := head?_pairsText (hps q (by simp)).1 ps ((if trailing then [com] else []) ++ rsq :: rest)
    generalize htail : pairsText (q :: ps) ++ ((if trailing then [com] else []) ++ rsq :: rest) = tail
      at hih hhead
    obtain ⟨k, hk⟩ := hkey.split (col :: (p.2 ++ com :: tail)) (blocked_of_reserved (by decide) (by decide))
    obtain ⟨v, hv⟩ := hval.split (com :: tail) (blocked_of_reserved (by decide) (by decide))
    have hbytes : pairsText (p :: q :: ps) ++ ((if trailing then [com] else []) ++ rsq :: rest) =
        p.1 ++ col :: (p.2 ++ com :: tail) := by
      rw [pairsText_cons_cons, ← htail]
      simp
    have hne : com ≠ rsq := by decide
    rw [hbytes, readPairs, hk]
    simp [hv, hne, hhead, hih]

theorem length_lt_length_pairsText (p : List UInt8 × List UInt8) (ps : List (List UInt8 × List UInt8)) :
    ps.length < (pairsText (p :: ps)).length := by
  induction ps generalizing p with
  | nil => simp [pairsText_singleton]
  | cons q ps ih =>
    have hlt := ih q
    simp only [pairsText_cons_cons, List.length_append, List.length_cons] at hlt ⊢
    omega

theorem readAttrs_bytes {pairs : List (List UInt8 × List UInt8)} {trailing : Bool}
    (hpairs : ∀ q ∈ pairs, IsRun .key q.1 ∧ IsRun .val q.2) (htrailing : trailing → pairs ≠ []) :
    readAttrs (pairsText pairs ++ ((if trailing then [com] else []) ++ rsq :: rest)) =
      .ok ((pairs, trailing), rest) := by
  cases pairs with
  | nil =>
    obtain rfl : trailing = false := by simpa using htrailing
    simp [readAttrs, pairsText]
  | cons p ps =>
    rw [readAttrs, if_neg (head?_pairsText (hpairs p (by simp)).1 ps _)]
    refine readPairs_bytes hpairs trailing ?_
    have hlt := length_lt_length_pairsText p ps
    rw [List.length_append]
    omega

theorem readTerminated_bytes (h : Scheme.Run binScheme raw s) (rest : List UInt8) :
    readTerminated (raw ++ 0 :: rest) = .ok (.terminated raw, rest) := by
  have hblocked : Scheme.Blocked binScheme (0 :: rest) := .stop (by decide) (by decide)
  have hsplit := Scheme.split_append h hblocked
  simp [readTerminated, hsplit]

theorem readCounted_bytes {D : Dialect} {varint payload : List UInt8} (hvarint : IsVarint varint)
    (hlen : D.length (Leb128.byteValue varint) = payload.length) (rest : List UInt8) :
    readCounted D (varint ++ (payload ++ rest)) = .ok (.counted varint payload, rest) := by
  simp [readCounted, Leb128.takeCode_append hvarint.1, hvarint.2, hlen]

theorem readText_bytes {D : Dialect} (hne : raw ≠ []) (h : IsRun .text raw)
    (hrest : Scheme.Blocked EscCtx.text.scheme rest)
    (hnext : D.runAfterText ∨ rest.head?.any (· != bs)) :
    readText D (raw ++ rest) = .ok (.text raw, rest) := by
  obtain ⟨s, hs⟩ := h.split rest hrest
  simp only [readText, hs, if_neg hne, if_pos hnext]

end Bytes

/-! ## Items -/

section Items

variable {D : Dialect} {limit : Nat}

theorem Item.head?_bytes_of_isElement {i : Item} (h : i.IsElement) : ∃ t, i.bytes = lbr :: t := by
  cases i with
  | text | terminated | counted => exact h.elim
  | singleton | plain | attributed => exact ⟨_, by rw [Item.bytes]⟩

/-- A run that is no text begins with a backslash and a letter. -/
theorem Item.bytes_of_not_isText {i : Item} (htext : ¬ i.IsText) (helement : ¬ i.IsElement) :
    ∃ t, i.bytes = bs :: letterb :: t ∨ i.bytes = bs :: letterB :: t := by
  cases i with
  | text => exact (htext trivial).elim
  | terminated => exact ⟨_, .inl (by rw [Item.bytes])⟩
  | counted => exact ⟨_, .inr (by rw [Item.bytes])⟩
  | singleton | plain | attributed => exact (helement trivial).elim

/-- A run that is no text is read after its two letters, and text otherwise. -/
theorem readRun_bytes {i : Item} (h : i.Ok D) (helement : ¬ i.IsElement) {rest : List UInt8}
    (hrest : i.IsText → Scheme.Blocked EscCtx.text.scheme rest ∧
      (D.runAfterText ∨ rest.head?.any (· != bs))) :
    readRun D (i.bytes ++ rest) = .ok (i, rest) := by
  cases i with
  | text raw =>
    rw [Item.Ok] at h
    obtain ⟨hblocked, hnext⟩ := hrest trivial
    have htext := readText_bytes h.1 h.2 hblocked hnext
    have hletter : ∀ e, validEscape e = false →
        ¬ ((raw ++ rest).head? = some bs ∧ (raw ++ rest).tail.head? = some e) := by
      rintro e he ⟨hhead, htail⟩
      obtain ⟨s, hs⟩ := h.2
      cases hs with
      | nil => exact h.1 rfl
      | plain hesc _ _ => exact hesc (Option.some.inj hhead)
      | escaped hmeaning _ =>
        obtain rfl : _ = e := by simpa using htail
        simp [EscCtx.scheme, he] at hmeaning
    rw [Item.bytes, readRun, if_neg (hletter _ (by decide)), if_neg (hletter _ (by decide)), htext]
  | terminated raw =>
    rw [Item.Ok] at h
    obtain ⟨s, hs⟩ := h
    simpa [Item.bytes, readRun] using readTerminated_bytes hs rest
  | counted varint payload =>
    rw [Item.Ok] at h
    have hne : letterB ≠ letterb := by decide
    simpa [Item.bytes, readRun, hne] using readCounted_bytes h.1 h.2 rest
  | singleton | plain | attributed => exact (helement trivial).elim

theorem contentBytes_cons (i : Item) (is : List Item) : contentBytes (i :: is) = i.bytes ++ contentBytes is := by
  rw [contentBytes]

theorem Item.bytes_ne_nil {i : Item} (h : i.Ok D) : i.bytes ≠ [] := by
  cases i with
  | text raw =>
    rw [Item.Ok] at h
    rw [Item.bytes]
    exact h.1
  | terminated | counted | singleton | plain | attributed => simp [Item.bytes]

/-- An item does not begin with a closing brace. -/
theorem Item.head?_bytes_ne {i : Item} (h : i.Ok D) : i.bytes.head? ≠ some rbr := by
  cases i with
  | text raw =>
    rw [Item.Ok] at h
    obtain ⟨s, hs⟩ := h.2
    simpa [Item.bytes] using hs.not_stop (c := rbr) (by decide) (by decide)
  | terminated | counted => simpa [Item.bytes] using (by decide : bs ≠ rbr)
  | singleton | plain | attributed => simpa [Item.bytes] using (by decide : lbr ≠ rbr)

/-- Behind text the content goes on with a brace, or with another run where that is allowed. -/
theorem blocked_behind_text {i : Item} {is : List Item} (htext : i.IsText)
    (h : Follows D i is.head?) (his : contentOk D is) (rest : List UInt8) :
    Scheme.Blocked EscCtx.text.scheme (contentBytes is ++ rbr :: rest) ∧
      (D.runAfterText ∨ (contentBytes is ++ rbr :: rest).head?.any (· != bs)) := by
  cases is with
  | nil =>
    refine ⟨blocked_of_reserved (by decide) (by decide), .inr ?_⟩
    simpa [contentBytes] using (by decide : rbr ≠ bs)
  | cons j is =>
    obtain ⟨hj, hnext⟩ := h htext j rfl
    rw [contentBytes_cons, List.append_assoc]
    by_cases helement : j.IsElement
    · obtain ⟨t, ht⟩ := Item.head?_bytes_of_isElement helement
      rw [ht]
      refine ⟨blocked_of_reserved (by decide) (by decide), .inr ?_⟩
      simpa using (by decide : lbr ≠ bs)
    · refine ⟨?_, .inl (hnext.resolve_right helement)⟩
      obtain ⟨t, ht | ht⟩ := Item.bytes_of_not_isText hj helement <;> rw [ht]
      · exact blocked_of_letter (by decide)
      · exact blocked_of_letter (by decide)

/-- What an item has around it when it is read. -/
def ReadsItem (D : Dialect) (limit : Nat) (i : Item) : Prop :=
  i.Ok D → i.IsElement → ∀ {depth fuel : Nat} (rest : List UInt8), i.Within limit depth →
    i.bytes.length ≤ fuel → readElement D limit fuel depth (i.bytes ++ rest) = .ok (i, rest)

/-- A content is read up to its closing brace, one item after the other. -/
theorem readContent_bytes {is : List Item} (ih : ∀ i ∈ is, ReadsItem D limit i) (hok : contentOk D is)
    {depth fuel : Nat} (hwithin : contentWithin limit is (depth + 1))
    (hfuel : (contentBytes is).length < fuel) (rest : List UInt8) :
    readContent D limit fuel depth (contentBytes is ++ rbr :: rest) = .ok (is, rest) := by
  induction is generalizing fuel with
  | nil =>
    obtain ⟨fuel, rfl⟩ : ∃ n, fuel = n + 1 := ⟨fuel - 1, by omega⟩
    simp [contentBytes, readContent]
  | cons i is ihis =>
    obtain ⟨fuel, rfl⟩ : ∃ n, fuel = n + 1 := ⟨fuel - 1, by omega⟩
    rw [contentOk] at hok
    rw [contentWithin] at hwithin
    obtain ⟨hi, his, hfollows⟩ := hok
    have hpos := List.length_pos_iff.mpr (Item.bytes_ne_nil hi)
    rw [contentBytes_cons, List.length_append] at hfuel
    have hfuel' : (contentBytes is).length < fuel := by omega
    have hrest := ihis (fun j hj => ih j (by simp [hj])) his hwithin.2 hfuel'
    have hitem : (if i.bytes.head? = some lbr then
        readElement D limit fuel (depth + 1) (i.bytes ++ (contentBytes is ++ rbr :: rest))
        else readRun D (i.bytes ++ (contentBytes is ++ rbr :: rest))) =
        .ok (i, contentBytes is ++ rbr :: rest) := by
      by_cases helement : i.IsElement
      · obtain ⟨t, ht⟩ := Item.head?_bytes_of_isElement helement
        rw [if_pos (by rw [ht]; rfl)]
        exact ih i (by simp) hi helement _ hwithin.1 (by omega)
      · rw [if_neg]
        · exact readRun_bytes hi helement fun htext => blocked_behind_text htext hfollows his rest
        · by_cases htext : i.IsText
          · cases i with
            | text raw =>
              rw [Item.Ok] at hi
              obtain ⟨s, hs⟩ := hi.2
              exact hs.not_stop (c := lbr) (by decide) (by decide)
            | _ => exact htext.elim
          · obtain ⟨t, ht | ht⟩ := Item.bytes_of_not_isText htext helement <;>
              simpa [ht] using (by decide : bs ≠ lbr)
    have hne := Item.head?_bytes_ne hi
    rw [contentBytes_cons, List.append_assoc]
    cases hbytes : i.bytes with
    | nil => exact absurd hbytes (Item.bytes_ne_nil hi)
    | cons c t =>
      rw [hbytes] at hitem hne
      have hc : c ≠ rbr := fun h => hne (by rw [h]; rfl)
      simp only [List.head?_cons, Option.some.injEq, List.cons_append] at hitem
      simp only [List.cons_append, readContent, if_neg hc, hitem, ok_bind, hrest]

/-- A content that does not begin with text begins with no byte of a tag. -/
theorem blocked_of_not_text {is : List Item} (hok : contentOk D is) (hne : is ≠ [])
    (h : ∀ i ∈ is.head?, ¬ i.IsText) (rest : List UInt8) :
    ∃ c t, contentBytes is ++ rest = c :: t ∧ Scheme.Blocked EscCtx.tag.scheme (c :: t) ∧ c ≠ rbr ∧
      c ≠ com := by
  cases is with
  | nil => exact absurd rfl hne
  | cons i is =>
    have htext := h i rfl
    rw [contentBytes_cons, List.append_assoc]
    by_cases helement : i.IsElement
    · obtain ⟨t, ht⟩ := Item.head?_bytes_of_isElement helement
      rw [ht]
      exact ⟨lbr, _, rfl, blocked_of_reserved (by decide) (by decide), by decide, by decide⟩
    · obtain ⟨t, ht | ht⟩ := Item.bytes_of_not_isText htext helement <;> rw [ht]
      · exact ⟨bs, _, rfl, blocked_of_letter (by decide), by decide, by decide⟩
      · exact ⟨bs, _, rfl, blocked_of_letter (by decide), by decide, by decide⟩

/-- The content of an element. -/
def Item.content : Item → List Item
  | .singleton _ content => content
  | .plain _ content => content
  | .attributed _ _ _ _ content => content
  | _ => []

theorem Item.fill_content (i : Item) : (i.fill []).fill i.content = i := by cases i <;> rfl

theorem contentOk_content {i : Item} (h : i.Ok D) : contentOk D i.content := by
  cases i with
  | text | terminated | counted => simp [Item.content, contentOk]
  | singleton =>
    rw [Item.Ok] at h
    exact h.2.1
  | plain =>
    rw [Item.Ok] at h
    exact h.2.1
  | attributed =>
    rw [Item.Ok] at h
    exact h.2.2.2.1

theorem within_content {i : Item} (helement : i.IsElement) {depth : Nat} :
    i.Within limit depth ↔ depth ≤ limit ∧ contentWithin limit i.content (depth + 1) := by
  cases i with
  | text | terminated | counted => exact helement.elim
  | singleton | plain | attributed => rw [Item.Within, Item.content]

theorem content_bytes_length {i : Item} (helement : i.IsElement) :
    (contentBytes i.content).length + 2 ≤ i.bytes.length := by
  cases i with
  | text | terminated | counted => exact helement.elim
  | singleton | plain | attributed =>
    simp only [Item.bytes, Item.content, List.length_cons, List.length_append, List.length_nil]
    omega

/-- The content of an element of which nothing else is left does not begin with a closing brace. -/
theorem contentBytes_head {is : List Item} (hok : contentOk D is) (hne : is ≠ []) (rest : List UInt8) :
    ∃ c t, contentBytes is ++ rest = c :: t ∧ c ≠ rbr ∧ (contentBytes is).head? = some c := by
  cases is with
  | nil => exact absurd rfl hne
  | cons i is =>
    rw [contentOk] at hok
    have hhead := Item.head?_bytes_ne hok.1
    obtain ⟨c, t, hbytes⟩ := List.exists_cons_of_ne_nil (Item.bytes_ne_nil hok.1)
    refine ⟨c, t ++ (contentBytes is ++ rest), by simp [contentBytes_cons, hbytes], ?_, ?_⟩
    · rintro rfl
      exact hhead (by rw [hbytes]; rfl)
    · simp [contentBytes_cons, hbytes]

/-- A tag and its comma open a content that does not begin like an attribute list. -/
theorem readOpening_plain {tag : List UInt8} (htag : IsRun .tag tag) {content : List UInt8}
    (hhead : content.head? ≠ some lsq) :
    readOpening D (lbr :: (tag ++ com :: content)) = .ok ((.plain tag [], true), content) := by
  have hne : com ≠ rbr := by decide
  obtain ⟨s, hs⟩ := htag.split (com :: content) (blocked_of_reserved (by decide) (by decide))
  simp only [readOpening, List.head?_cons, if_true, List.tail_cons, hs, if_neg hne, if_neg hhead]

/-- So do attributes with a comma behind them. -/
theorem readOpening_attributed {tag : List UInt8} {pairs : List (List UInt8 × List UInt8)} {trailing : Bool}
    (htag : IsRun .tag tag) (hpairs : ∀ p ∈ pairs, IsRun .key p.1 ∧ IsRun .val p.2)
    (htrailing : trailing → pairs ≠ []) (content : List UInt8) :
    readOpening D (lbr :: (tag ++ com :: lsq :: (pairsText pairs ++ ((if trailing then [com] else []) ++
      rsq :: com :: content)))) = .ok ((.attributed tag pairs trailing true [], true), content) := by
  have hne : com ≠ rbr := by decide
  obtain ⟨s, hs⟩ := htag.split
    (com :: lsq :: (pairsText pairs ++ ((if trailing then [com] else []) ++ rsq :: com :: content)))
    (blocked_of_reserved (by decide) (by decide))
  simp only [readOpening, List.head?_cons, if_true, List.tail_cons, hs, if_neg hne,
    readAttrs_bytes hpairs htrailing, ok_bind]

/-- The opening of a well-formed element is read. -/
theorem readOpening_bytes {i : Item} (hok : i.Ok D) (helement : i.IsElement) (rest : List UInt8) :
    (readOpening D (i.bytes ++ rest) = .ok ((i, false), rest)) ∨
      readOpening D (i.bytes ++ rest) = .ok ((i.fill [], true), contentBytes i.content ++ rbr :: rest) := by
  have hne : com ≠ rbr := by decide
  cases i with
  | text | terminated | counted => exact helement.elim
  | singleton head content =>
    rw [Item.Ok] at hok
    obtain ⟨hhead, hcontent, hnotext, hrich⟩ := hok
    simp only [Item.bytes, Item.content, Item.fill, List.cons_append, List.append_assoc, List.nil_append,
      readOpening, List.head?_cons, if_true, List.tail_cons]
    by_cases hempty : content = []
    · subst hempty
      obtain ⟨s, hs⟩ := hhead.split (rbr :: rest) (blocked_of_reserved (by decide) (by decide))
      exact .inl (by simp [contentBytes, hs])
    · obtain ⟨c, t, hct, hblocked, hrbr, hcom⟩ := blocked_of_not_text hcontent hempty hnotext (rbr :: rest)
      obtain ⟨s, hs⟩ := hhead.split _ hblocked
      rw [hct]
      exact .inr (by simp [hs, hrbr, hcom, hrich.resolve_left hempty])
  | plain tag content =>
    rw [Item.Ok] at hok
    obtain ⟨htag, hcontent, hbracket⟩ := hok
    simp only [Item.bytes, Item.content, Item.fill, List.cons_append, List.append_assoc, List.nil_append]
    have hhead : (contentBytes content ++ rbr :: rest).head? ≠ some lsq := by
      cases hbytes : contentBytes content with
      | nil => simpa using (by decide : rbr ≠ lsq)
      | cons c t => simpa [hbytes] using hbracket
    exact .inr (readOpening_plain htag hhead)
  | attributed tag pairs trailing comma content =>
    rw [Item.Ok] at hok
    obtain ⟨htag, hpairs, htrailing, hcontent, hcomma⟩ := hok
    simp only [Item.bytes, Item.content, Item.fill, List.cons_append, List.append_assoc, List.nil_append]
    cases comma with
    | true => exact .inr (readOpening_attributed htag hpairs htrailing _)
    | false =>
      obtain ⟨s, hs⟩ := htag.split (com :: lsq :: (pairsText pairs ++
        ((if trailing then [com] else []) ++ rsq :: (contentBytes content ++ rbr :: rest))))
        (blocked_of_reserved (by decide) (by decide))
      simp only [readOpening, List.head?_cons, if_true, List.tail_cons, Bool.false_eq_true, if_false,
        List.nil_append, hs, if_neg hne, readAttrs_bytes hpairs htrailing, ok_bind]
      by_cases hempty : content = []
      · subst hempty
        exact .inl (by simp [contentBytes, hne.symm])
      · obtain ⟨hnocomma, hbare⟩ := hcomma rfl
        obtain ⟨c, t, hct, hrbr, hhead⟩ := contentBytes_head hcontent hempty (rbr :: rest)
        have hcom : c ≠ com := fun h => hnocomma (by rw [hhead, h])
        rw [hct]
        exact .inr (by simp [hrbr, hcom, hbare.resolve_left hempty])

/-- Every well-formed element is read. -/
theorem readElement_bytes (i : Item) : ReadsItem D limit i := by
  have hread : ∀ i : Item, (∀ j ∈ i.content, ReadsItem D limit j) → ReadsItem D limit i := by
    intro i ih hok helement depth fuel rest hwithin hfuel
    obtain ⟨hdepth, hcontent⟩ := (within_content helement).mp hwithin
    have hlen := content_bytes_length helement
    obtain ⟨fuel, rfl⟩ : ∃ n, fuel = n + 1 := ⟨fuel - 1, by omega⟩
    rw [readElement, if_neg (by omega)]
    obtain hopen | hopen := readOpening_bytes hok helement rest <;> rw [hopen, ok_bind]
    · rfl
    · have hfuel' : (contentBytes i.content).length < fuel := by omega
      have hrest := readContent_bytes ih (contentOk_content hok) hcontent hfuel' rest
      simp [hrest, Item.fill_content]
  induction i using Item.induction_on with
  | text | terminated | counted => exact fun _ helement => helement.elim
  | singleton _ _ ih => exact hread _ ih
  | plain _ _ ih => exact hread _ ih
  | attributed _ _ _ _ _ ih => exact hread _ ih

end Items

end Terseml
