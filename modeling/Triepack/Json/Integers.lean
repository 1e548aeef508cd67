import Triepack.Json.Dom
import Triepack.Json.Grammar

/-!
# Integers

A literal has any number of digits. What is stored for it is read from its first 63 bytes, and
saturates: a long literal is cut, and one beyond 64 bits becomes the nearest integer within.
-/

namespace Triepack

open JsonText Json

/-! ## One literal -/

/-- The integer when a signed or unsigned word holds it, and otherwise a floating-point number. -/
def ExactlyStored (n : NumLit) (val : Value (List UInt8)) : Prop :=
  if -2 ^ 63 ≤ n.toInt ∧ n.toInt < 2 ^ 64 then val.scalar = some (.num n.toInt)
  else ∃ bits, val = .float64 bits

/-- The integer is zero, or a word holds it and the scratch buffer its text. -/
def KeptWhole (n : NumLit) : Prop :=
  n.toInt = 0 ∨ (-2 ^ 63 ≤ n.toInt ∧ n.toInt < 2 ^ 64) ∧ n.text.length ≤ 63

theorem natOf_append (ds es : List UInt8) :
    NumLit.natOf (ds ++ es) = es.foldl (fun n d => 10 * n + (d.toNat - 0x30)) (NumLit.natOf ds) :=
  List.foldl_append ..

/-- A literal denotes at least ten times what a shorter beginning of it denotes. -/
theorem natOf_prefix_le {ds es : List UInt8} (hes : es ≠ []) :
    10 * NumLit.natOf ds ≤ NumLit.natOf (ds ++ es) := by
  rw [natOf_append]
  have hpow : 10 ^ 1 ≤ 10 ^ es.length :=
    Nat.pow_le_pow_right (by decide) (List.length_pos_of_ne_nil hes)
  exact (Nat.mul_le_mul_right _ hpow).trans (foldl_digits_ge es _)

theorem numberValue_ne_float64 {strtod : List UInt8 → UInt64} {neg : Bool} {tmp : List UInt8}
    {bits : UInt64} : numberValue strtod false neg tmp ≠ .float64 bits := by
  rw [numberValue, if_neg (by simp)]
  split_ifs <;> simp

section Literal

variable {n : NumLit}

theorem numLitValue_of_isInt (strtod : List UInt8 → UInt64) (h : n.IsInt) :
    numLitValue strtod n =
      numberValue strtod false n.neg (((if n.neg then [minus] else []) ++ n.int).take 63) := by
  rw [numLitValue, NumLit.text, NumLit.fracText, NumLit.expText, h.1, h.2]
  simp

theorem length_text_of_isInt (h : n.IsInt) :
    n.text.length = (if n.neg then 1 else 0) + n.int.length := by
  rw [NumLit.text, NumLit.fracText, NumLit.expText, h.1, h.2]
  cases n.neg <;> simp [Nat.add_comm]

/-- Beyond the scratch buffer a beginning of the digits is taken for the whole. -/
theorem take_of_long (h : n.IsInt) (hlong : 63 < n.text.length) :
    ∃ ds es, n.int = ds ++ es ∧ es ≠ [] ∧
      ((if n.neg then [minus] else []) ++ n.int).take 63 = (if n.neg then [minus] else []) ++ ds := by
  rw [length_text_of_isInt h] at hlong
  cases hneg : n.neg with
  | true =>
    rw [hneg, if_pos rfl] at hlong
    refine ⟨n.int.take 62, n.int.drop 62, (List.take_append_drop ..).symm, ?_, rfl⟩
    intro hnil
    have := List.drop_eq_nil_iff.mp hnil
    omega
  | false =>
    rw [hneg] at hlong
    simp only [Bool.false_eq_true, if_false, Nat.zero_add] at hlong
    refine ⟨n.int.take 63, n.int.drop 63, (List.take_append_drop ..).symm, ?_, rfl⟩
    intro hnil
    have := List.drop_eq_nil_iff.mp hnil
    omega

/-- Which integer literals are stored exactly. -/
theorem exactlyStored_iff (strtod : List UInt8 → UInt64) (h : n.IsInt) :
    ExactlyStored n (numLitValue strtod n) ↔ KeptWhole n := by
  have htoInt : n.toInt = if n.neg then -(NumLit.natOf n.int : Int) else NumLit.natOf n.int := rfl
  rw [ExactlyStored, KeptWhole, numLitValue_of_isInt strtod h]
  by_cases hrange : -2 ^ 63 ≤ n.toInt ∧ n.toInt < 2 ^ 64
  · rw [if_pos hrange]
    by_cases hlen : n.text.length ≤ 63
    · have hshort := hlen
      rw [length_text_of_isInt h] at hshort
      have htake : ((if n.neg then [minus] else []) ++ n.int).take 63 =
          (if n.neg then [minus] else []) ++ n.int := by
        apply List.take_of_length_le
        cases hneg : n.neg <;> simp [hneg] at hshort ⊢ <;> omega
      have hscalar := @scalar_digits strtod n.neg n.int
        (by intro hneg; rw [htoInt, if_pos hneg] at hrange; omega)
        (by cases hneg : n.neg <;> simp [htoInt, hneg] at hrange <;> omega)
      rw [htake, hscalar, ← htoInt]
      exact iff_of_true rfl (.inr ⟨hrange, hlen⟩)
    · obtain ⟨ds, es, hint, hes, htake⟩ := take_of_long h (Nat.not_le.mp hlen)
      have hten : 10 * NumLit.natOf ds ≤ NumLit.natOf (ds ++ es) := natOf_prefix_le hes
      rw [← hint] at hten
      have hscalar := @scalar_digits strtod n.neg ds
        (by intro hneg; rw [htoInt, if_pos hneg] at hrange; omega)
        (by cases hneg : n.neg <;> simp [htoInt, hneg] at hrange <;> omega)
      rw [htake, hscalar, Option.some.injEq, Json.num.injEq]
      cases hneg : n.neg <;> simp [htoInt, hneg, hlen] <;> omega
  · rw [if_neg hrange]
    have hzero : n.toInt ≠ 0 := by
      intro hzero
      rw [hzero] at hrange
      exact hrange (by decide)
    simp only [hzero, hrange, false_and, or_self, iff_false]
    rintro ⟨bits, hbits⟩
    exact numberValue_ne_float64 hbits

end Literal

/-! ## Documents -/

/-- The parser stores every integer literal of a document exactly. -/
structure StoresIntegers (strtod : List UInt8 → UInt64) (v : Tree) (text : List UInt8) : Prop where
  exact : ∀ root p, parseRoot strtod text (jsonParser text) = (.ok root, p) →
    ∃ adds, valueAdds strtod v 0 [] = .ok adds ∧ p.enc = added adds ∧
      List.Forall₂ (fun l a => ∀ n, l.2 = .num n → n.IsInt → ExactlyStored n a.entry.val)
        v.denote.leaves adds

section Adds

variable {strtod : List UInt8 → UInt64}

/-- The additions for leaves have the values of these, in their order. -/
def AddsValues (strtod : List UInt8 → UInt64) (adds : List Addition)
    (ls : List (List (Seg (List UInt8)) × Json (List UInt8) NumLit)) : Prop :=
  List.Forall₂ (fun l a => a.2 = some (scalarValue strtod l.2)) ls adds

theorem AddsValues.append {as bs : List Addition} {s : Seg (List UInt8)}
    {ls more : List (List (Seg (List UInt8)) × Json (List UInt8) NumLit)}
    (has : AddsValues strtod as ls) (hbs : AddsValues strtod bs more) :
    AddsValues strtod (as ++ bs) (ls.map (fun l => (s :: l.1, l.2)) ++ more) := by
  refine List.rel_append ?_ hbs
  rw [List.forall₂_map_left_iff]
  exact has

theorem AddsValues.single (path : List UInt8) (s : Json (List UInt8) NumLit) :
    AddsValues strtod [(path, some (scalarValue strtod s))] [([], s)] := .cons rfl .nil

theorem elementAdds_values {vs : List Tree}
    (ih : ∀ v ∈ vs, ∀ {depth : Nat} {path : List UInt8} {adds : List Addition},
      valueAdds strtod v depth path = .ok adds → AddsValues strtod adds v.denote.leaves)
    {depth idx i : Nat} {path : List UInt8} {adds : List Addition}
    (h : elementAdds strtod vs depth path idx = .ok adds) :
    AddsValues strtod adds (elementLeaves (mapElements strBytes id vs) i) := by
  induction vs generalizing idx i adds with
  | nil =>
    obtain rfl : [] = adds := by simpa [elementAdds] using h
    exact .nil
  | cons v vs ihvs =>
    obtain ⟨as, bs, rfl, -, has, hbs⟩ := elementAdds_cons_eq_ok h
    exact (ih v (by simp) has).append (ihvs (fun v hv => ih v (by simp [hv])) hbs)

theorem memberAdds_values {ms : List (List StrChar × Tree)}
    (ih : ∀ m ∈ ms, ∀ {depth : Nat} {path : List UInt8} {adds : List Addition},
      valueAdds strtod m.2 depth path = .ok adds → AddsValues strtod adds m.2.denote.leaves)
    {depth : Nat} {path : List UInt8} {adds : List Addition}
    (h : memberAdds strtod ms depth path = .ok adds) :
    AddsValues strtod adds (memberLeaves (mapMembers strBytes id ms)) := by
  induction ms generalizing adds with
  | nil =>
    obtain rfl : [] = adds := by simpa [memberAdds] using h
    exact .nil
  | cons m ms ihms =>
    obtain ⟨as, bs, rfl, -, -, has, hbs⟩ := memberAdds_cons_eq_ok h
    exact (ih m (by simp) has).append (ihms (fun m hm => ih m (by simp [hm])) hbs)

/-- Whatever becomes of the paths, each leaf is added with its own value. -/
theorem valueAdds_values {v : Tree} {depth : Nat} {path : List UInt8} {adds : List Addition}
    (h : valueAdds strtod v depth path = .ok adds) : AddsValues strtod adds v.denote.leaves := by
  induction v using Json.induction_on generalizing depth path adds with
  | null =>
    obtain rfl : [(path, some .null)] = adds := by simpa [valueAdds] using h
    exact .single path _
  | bool b =>
    obtain rfl : [(path, some (.bool b))] = adds := by simpa [valueAdds] using h
    exact .single path _
  | num n =>
    obtain rfl : [(path, some (numLitValue strtod n))] = adds := by simpa [valueAdds] using h
    exact .single path _
  | str s =>
    rw [valueAdds] at h
    obtain ⟨str, hstr, h₁⟩ := except_bind_eq_ok h
    obtain ⟨rfl, _⟩ := checkedStr_eq_ok hstr
    obtain rfl := Except.ok.inj h₁
    exact .single path _
  | arr vs ih =>
    rw [valueAdds] at h
    split_ifs at h
    exact elementAdds_values (fun v hv => ih v hv) h
  | obj ms ih =>
    rw [valueAdds] at h
    split_ifs at h
    exact memberAdds_values (fun m hm => ih m hm) h

end Adds

/-- A property of the pairs of two lists that is one of the first halves. -/
theorem forall₂_iff_of_rel {α β : Type} {R P : α → β → Prop} {Q : α → Prop} {as : List α}
    {bs : List β} (h : List.Forall₂ R as bs) (hPQ : ∀ a b, R a b → (P a b ↔ Q a)) :
    List.Forall₂ P as bs ↔ ∀ a ∈ as, Q a := by
  induction h with
  | nil => simp
  | cons hab _ ih => rw [List.forall₂_cons, hPQ _ _ hab, ih, List.forall_mem_cons]

/-- The integer literals of an accepted document are stored exactly when each is kept whole. -/
theorem storesIntegers_iff {strtod : List UInt8 → UInt64} {q : Qsort} {v : Tree}
    {text rest buf : List UInt8} (h : ReadsDoc tolerant v text rest)
    (hencode : jsonEncode strtod q text = .ok buf) :
    StoresIntegers strtod v text ↔
      ∀ l ∈ v.denote.leaves, ∀ n, l.2 = .num n → n.IsInt → KeptWhole n := by
  obtain ⟨hok, -⟩ := @parseRoot_of_reads tolerant strtod v text rest h
  rw [jsonEncode_of_reads h] at hencode
  cases hadds : valueAdds strtod v 0 [] with
  | error e =>
    rw [documentAdds_error hadds] at hencode
    simp at hencode
  | ok adds =>
    have hiff : List.Forall₂ (fun l (a : Addition) =>
        ∀ n, l.2 = .num n → n.IsInt → ExactlyStored n a.entry.val) v.denote.leaves adds ↔
        ∀ l ∈ v.denote.leaves, ∀ n, l.2 = .num n → n.IsInt → KeptWhole n := by
      refine forall₂_iff_of_rel (valueAdds_values hadds) fun l a ha => ?_
      refine forall_congr' fun n => forall_congr' fun hn => forall_congr' fun hint => ?_
      have hval : a.entry.val = numLitValue strtod n := by
        rw [Addition.entry, ha, hn]
        rfl
      rw [hval]
      exact exactlyStored_iff strtod hint
    rw [← hiff]
    constructor
    · intro hstores
      obtain ⟨adds', hadds', -, hexact⟩ := hstores.exact _ _ (hok adds hadds)
      obtain rfl : adds = adds' := Except.ok.inj (hadds.symm.trans hadds')
      exact hexact
    · intro hexact
      refine ⟨fun root p hroot => ⟨adds, hadds, ?_, hexact⟩⟩
      have hp := (hok adds hadds).symm.trans hroot
      obtain ⟨-, rfl⟩ := Prod.mk.inj hp
      rfl

/-- The document `[7]`. -/
theorem storesIntegers_iff_seven : ∃ buf,
    jsonEncode (fun _ => 0) (.keepingLast ⟨[], .null⟩) (oneNumberText [0x37]) = .ok buf ∧
      (StoresIntegers (fun _ => 0) (.arr [.num ⟨false, [0x37], none, none⟩]) (oneNumberText [0x37]) ↔
        ∀ l ∈ (Json.arr [.num ⟨false, [0x37], none, none⟩] : Tree).denote.leaves,
          ∀ n, l.2 = .num n → n.IsInt → KeptWhole n) := by
  have hrun : (jsonEncode (fun _ => 0) (.keepingLast ⟨[], .null⟩)
      (oneNumberText [0x37])).toBool = true := by decide +kernel
  rcases hencode : jsonEncode (fun _ => 0) (.keepingLast ⟨[], .null⟩) (oneNumberText [0x37]) with
    e | buf
  · simp [hencode, Except.toBool] at hrun
  · have hread := readsDoc_oneNumber (L := tolerant) (@spelled_digits [0x37] (by decide +kernel))
    exact ⟨buf, rfl, storesIntegers_iff hread hencode⟩

/-- The digits of `2 ^ 64`. -/
def twoPow64Digits : List UInt8 := decimal (2 ^ 64)

/-- The document `[18446744073709551616]` is accepted, and the largest word is stored. -/
theorem not_storesIntegers_twoPow64 :
    (∃ buf, jsonEncode (fun _ => 0) (.keepingLast ⟨[], .null⟩) (oneNumberText twoPow64Digits) =
      .ok buf) ∧
    ReadsDoc tolerant (.arr [.num ⟨false, twoPow64Digits, none, none⟩])
      (oneNumberText twoPow64Digits) [] ∧
    ¬ StoresIntegers (fun _ => 0) (.arr [.num ⟨false, twoPow64Digits, none, none⟩])
      (oneNumberText twoPow64Digits) := by
  have hrun : (jsonEncode (fun _ => 0) (.keepingLast ⟨[], .null⟩)
      (oneNumberText twoPow64Digits)).toBool = true := by decide +kernel
  have hread := readsDoc_oneNumber (L := tolerant)
    (@spelled_digits twoPow64Digits (isDigits_decimal _))
  refine ⟨?_, hread, fun h => ?_⟩
  · rcases hencode : jsonEncode (fun _ => 0) (.keepingLast ⟨[], .null⟩)
      (oneNumberText twoPow64Digits) with e | buf
    · simp [hencode, Except.toBool] at hrun
    · exact ⟨buf, rfl⟩
  · have hadds : valueAdds (fun _ => 0) (.arr [.num ⟨false, twoPow64Digits, none, none⟩]) 0 [] =
        .ok [(pushIndex [] 0, some (numLitValue (fun _ => 0) ⟨false, twoPow64Digits, none, none⟩))] :=
      rfl
    obtain ⟨adds, hadds', -, hall⟩ := h.exact _ _ ((parseRoot_of_reads hread).1 _ hadds)
    obtain rfl := Except.ok.inj (hadds.symm.trans hadds')
    obtain ⟨hstored, -⟩ := List.forall₂_cons.mp hall
    have hkept : KeptWhole ⟨false, twoPow64Digits, none, none⟩ :=
      (exactlyStored_iff (fun _ => 0) ⟨rfl, rfl⟩).mp (hstored _ rfl ⟨rfl, rfl⟩)
    have hvalue : NumLit.toInt ⟨false, twoPow64Digits, none, none⟩ = 2 ^ 64 := by
      rw [NumLit.toInt, if_neg (by simp), twoPow64Digits, natOf_decimal]
      rfl
    rw [KeptWhole, hvalue] at hkept
    omega

end Triepack
