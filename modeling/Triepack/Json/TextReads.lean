import Triepack.Json.Dom
import Triepack.Json.Leaves
import Triepack.Json.Strings

/-!
# The text of a tree

Whatever tree `emit_json` writes, its text is JSON as in RFC 8259: it denotes the tree, with the
scalars of the entries at its leaves.
-/

namespace Triepack

open JsonText Json

/-! ## Scalars -/

/-- An integer as it is printed. -/
def numLitOf (i : Int) : NumLit := ⟨decide (i < 0), decimal i.natAbs, none, none⟩

theorem numLitOf_spec (i : Int) :
    rfc8259.number (numLitOf i) ∧ (numLitOf i).text = signedDecimal i ∧ (numLitOf i).toInt = i := by
  refine ⟨⟨⟨isDigits_decimal _, by simp [numLitOf], by simp [numLitOf]⟩, ?_⟩, ?_, ?_⟩
  · rintro ⟨hlen, hzero⟩
    exact head_decimal hlen hzero
  · simp only [NumLit.text, NumLit.fracText, NumLit.expText, numLitOf, signedDecimal, decide_eq_true_eq,
      List.append_nil]
    split_ifs <;> rfl
  · simp only [NumLit.toInt, numLitOf, natOf_decimal, decide_eq_true_eq]
    split_ifs <;> omega

/-- The text of a value is read as a syntax tree, whatever comes behind. -/
def Printed (pf : PrintFloat) (val : Value (List UInt8)) (w : Tree) : Prop :=
  ∀ rest, Reads rfc8259 (.value w) (valueText pf val ++ rest) rest

theorem printed_int (pf : PrintFloat) {val : Value (List UInt8)} {i : Int} (h : valueText pf val = signedDecimal i) :
    ∃ w : Tree, Printed pf val w ∧ w.Denotes (.num i) := by
  obtain ⟨hallowed, htext, hint⟩ := numLitOf_spec i
  refine ⟨.num (numLitOf i), fun rest => ?_, ⟨rfl, rfl⟩, ?_⟩
  · rw [h, ← htext]
    exact .num hallowed rest
  · rw [Json.value, Json.map, hint]

/-- The text of a stored scalar denotes the scalar. -/
theorem exists_printed_scalar (pf : PrintFloat) {val : Value (List UInt8)} {s : Json (List UInt8) Int}
    (h : val.scalar = some s) : ∃ w : Tree, Printed pf val w ∧ w.Denotes s := by
  cases val with
  | null =>
    obtain rfl := Option.some.inj h
    exact ⟨.null, .null, trivial, rfl⟩
  | bool b =>
    obtain rfl := Option.some.inj h
    cases b with
    | true => exact ⟨.bool true, .boolTrue, trivial, rfl⟩
    | false => exact ⟨.bool false, .boolFalse, trivial, rfl⟩
  | int i =>
    obtain rfl := Option.some.inj h
    exact printed_int pf rfl
  | uint u =>
    obtain rfl := Option.some.inj h
    refine printed_int pf ?_
    rw [valueText, signedDecimal, if_neg (by omega), Int.natAbs_natCast]
  | string str =>
    obtain rfl := Option.some.inj h
    obtain ⟨s, hallowed, hbytes, htail⟩ := exists_rfcTail str
    refine ⟨.str s, fun rest => ?_, trivial, ?_⟩
    · rw [valueText, htail]
      exact .str hallowed rest
    · rw [Json.value, Json.map, hbytes]
  | float32 | float64 | blob | array | dict | undefined => simp [Value.scalar] at h

/-! ## Floats -/

def IsFinite32 (bits : UInt32) : Prop := (bits >>> 23) &&& 0xFF ≠ 0xFF

def IsFinite64 (bits : UInt64) : Prop := (bits >>> 52) &&& 0x7FF ≠ 0x7FF

instance : DecidablePred IsFinite32 := fun _ => inferInstanceAs (Decidable (_ ≠ _))

instance : DecidablePred IsFinite64 := fun _ => inferInstanceAs (Decidable (_ ≠ _))

/-- A value that is no infinity and no NaN. -/
def Value.Finite {α : Type} : Value α → Prop
  | .float32 bits => IsFinite32 bits
  | .float64 bits => IsFinite64 bits
  | _ => True

/-- `printf` writes finite numbers as numbers. -/
structure PrintFloat.PrintsNumbers (pf : PrintFloat) : Prop where
  g : ∀ bits, IsFinite32 bits → ∃ n, rfc8259.number n ∧ n.text = pf.g bits
  g17 : ∀ bits, IsFinite64 bits → ∃ n, rfc8259.number n ∧ n.text = pf.g17 bits

/-- A number without a point and an exponent still is one with `.0` behind it. -/
theorem exists_number_point {n : NumLit} (h : rfc8259.number n)
    (hbare : n.text.any (fun c => c == point || c == 0x65 || c == 0x45) = false) :
    ∃ n', rfc8259.number n' ∧ n'.text = n.text ++ [point, 0x30] := by
  obtain ⟨neg, int, frac, exp⟩ := n
  obtain ⟨⟨hint, -, hexp⟩, hzero⟩ := h
  cases frac with
  | some ds => simp [NumLit.text, NumLit.fracText] at hbare
  | none =>
    cases exp with
    | some e =>
      have hletter := (hexp e rfl).letter
      rcases hletter with hletter | hletter <;>
        simp [NumLit.text, NumLit.fracText, NumLit.expText, Exponent.text, hletter] at hbare
    | none =>
      refine ⟨⟨neg, int, some [0x30], none⟩, ⟨⟨hint, ?_, by simp⟩, hzero⟩, ?_⟩
      · intro ds hds
        obtain rfl := Option.some.inj hds
        exact ⟨by simp, by simp [isDigit]⟩
      · simp [NumLit.text, NumLit.fracText, NumLit.expText]

/-- A finite value is printed as a value of JSON. -/
theorem exists_printed {pf : PrintFloat} (hpf : pf.PrintsNumbers) {val : Value (List UInt8)} (h : val.Finite) :
    ∃ w : Tree, Printed pf val w := by
  rcases hscalar : val.scalar with _ | s
  · cases val with
    | float32 bits =>
      obtain ⟨n, hn, htext⟩ := hpf.g bits h
      rcases hbare : (pf.g bits).any fun c => c == point || c == 0x65 || c == 0x45 with _ | _
      · obtain ⟨n', hn', htext'⟩ := exists_number_point hn (htext ▸ hbare)
        refine ⟨.num n', fun rest => ?_⟩
        rw [valueText, if_neg (by simp [hbare]), ← htext, ← htext']
        exact .num hn' rest
      · refine ⟨.num n, fun rest => ?_⟩
        rw [valueText, if_pos hbare, ← htext]
        exact .num hn rest
    | float64 bits =>
      obtain ⟨n, hn, htext⟩ := hpf.g17 bits h
      refine ⟨.num n, fun rest => ?_⟩
      rw [valueText, ← htext]
      exact .num hn rest
    | blob | array | dict | undefined => exact ⟨.null, .null⟩
    | null | bool | int | uint | string => simp [Value.scalar] at hscalar
  · obtain ⟨w, hw, -⟩ := exists_printed_scalar pf hscalar
    exact ⟨w, hw⟩

/-! ## Trees -/

namespace Emitted

section Doc

variable (buf : List UInt8)

mutual

/-- The value that a tree is written for. -/
def doc : Emitted → Json (List UInt8) Int
  | .value e => ((e.val.map (Slice.read buf)).scalar).getD .null
  | .null => .null
  | .container true cs => .arr (elementDocs cs)
  | .container false cs => .obj (memberDocs cs)

def elementDocs : List (List UInt8 × Emitted) → List (Json (List UInt8) Int)
  | [] => []
  | (_, t) :: cs => doc t :: elementDocs cs

def memberDocs : List (List UInt8 × Emitted) → List (List UInt8 × Json (List UInt8) Int)
  | [] => []
  | (seg, t) :: cs => (seg, doc t) :: memberDocs cs

end

theorem elementDocs_eq (cs : List (List UInt8 × Emitted)) :
    elementDocs buf cs = cs.map fun c => c.2.doc buf := by
  induction cs with
  | nil => rfl
  | cons c cs ih => rw [elementDocs, ih, List.map_cons]

theorem memberDocs_eq (cs : List (List UInt8 × Emitted)) :
    memberDocs buf cs = cs.map fun c => (c.1, c.2.doc buf) := by
  induction cs with
  | nil => rfl
  | cons c cs ih => rw [memberDocs, ih, List.map_cons]

end Doc

end Emitted

section Text

variable {pf : PrintFloat} {buf : List UInt8} {indent : Option (List UInt8)} {es : List FlatEntry}

theorem isSpaces_indentText (hindent : ∀ ind ∈ indent, IsSpaces ind) (depth : Nat) :
    IsSpaces (indentText indent depth) := by
  cases indent with
  | none => simp [indentText, IsSpaces]
  | some ind =>
    refine List.forall_mem_cons.mpr ⟨by decide, fun b hb => ?_⟩
    obtain ⟨w, hw, hbw⟩ := List.mem_flatten.mp hb
    rw [List.eq_of_mem_replicate hw] at hbw
    exact hindent ind rfl b hbw

/-- With any spaces for its indent, the text of a tree is read as a syntax tree. -/
def Spells (pf : PrintFloat) (buf : List UInt8) (t : Emitted) (w : Tree) : Prop :=
  ∀ indent : Option (List UInt8), (∀ ind ∈ indent, IsSpaces ind) → ∀ depth rest,
    Reads rfc8259 (.value w) (t.text pf buf indent depth ++ rest) rest

theorem reads_elements (hindent : ∀ ind ∈ indent, IsSpaces ind) {f : List UInt8 × Emitted → Tree}
    {cs : List (List UInt8 × Emitted)} (hne : cs ≠ []) (hcs : ∀ c ∈ cs, Spells pf buf c.2 (f c))
    (depth : Nat) (rest : List UInt8) :
    Reads rfc8259 (.elements (cs.map f))
      (((Emitted.childTexts pf buf indent true cs depth).intersperse [comma]).flatten ++
        (indentText indent depth ++ closeBracket :: rest)) rest := by
  have hspaces := isSpaces_indentText hindent
  have hnone : IsSpaces [] := by simp [IsSpaces]
  induction cs with
  | nil => exact absurd rfl hne
  | cons c cs ih =>
    obtain ⟨hc, hcs⟩ := List.forall_mem_cons.mp hcs
    cases cs with
    | nil =>
      have hw := hc indent hindent (depth + 1) (indentText indent depth ++ closeBracket :: rest)
      simp only [Emitted.childTexts, childText, if_true, List.intersperse_singleton, List.flatten_cons,
        List.flatten_nil, List.append_nil, List.append_assoc]
      exact .lastElement (hspaces _) (hspaces _) hw
    | cons c' cs =>
      have hws := ih (List.cons_ne_nil _ _) hcs
      have hw := hc indent hindent (depth + 1) ([] ++ comma ::
        (((Emitted.childTexts pf buf indent true (c' :: cs) depth).intersperse [comma]).flatten ++
          (indentText indent depth ++ closeBracket :: rest)))
      have hstep := Reads.element (hspaces (depth + 1)) hnone hw hws
      simpa [Emitted.childTexts, childText] using hstep

/-- A string is written as a literal. -/
def IsLiteral (str : List UInt8) (s : List StrChar) : Prop :=
  (∀ ch ∈ s, rfc8259.char ch) ∧ strBytes s = str ∧ ∀ rest, jsonString str ++ rest = quote :: strTail s rest

/-- A member up to its value. -/
theorem exists_member {seg : List UInt8} {k : List StrChar} (hk : IsLiteral seg k) (depth : Nat)
    (text more : List UInt8) : ∃ w, IsSpaces w ∧ childText indent false depth seg text ++ more =
      indentText indent (depth + 1) ++ quote :: strTail k ([] ++ colon :: (w ++ (text ++ more))) := by
  refine ⟨if indent.isSome then [0x20] else [], ?_, ?_⟩
  · split_ifs <;> simp [IsSpaces, isSpace]
  · rw [List.nil_append, ← hk.2.2, childText, if_neg Bool.false_ne_true]
    split_ifs <;> simp

theorem reads_members (hindent : ∀ ind ∈ indent, IsSpaces ind) {k : List UInt8 → List StrChar}
    (hk : ∀ seg, IsLiteral seg (k seg)) {f : List UInt8 × Emitted → Tree}
    {cs : List (List UInt8 × Emitted)} (hne : cs ≠ []) (hcs : ∀ c ∈ cs, Spells pf buf c.2 (f c))
    (depth : Nat) (rest : List UInt8) :
    Reads rfc8259 (.members (cs.map fun c => (k c.1, f c)))
      (((Emitted.childTexts pf buf indent false cs depth).intersperse [comma]).flatten ++
        (indentText indent depth ++ closeBrace :: rest)) rest := by
  have hspaces := isSpaces_indentText hindent
  have hnone : IsSpaces [] := by simp [IsSpaces]
  induction cs with
  | nil => exact absurd rfl hne
  | cons c cs ih =>
    obtain ⟨hc, hcs⟩ := List.forall_mem_cons.mp hcs
    have hchars := (hk c.1).1
    cases cs with
    | nil =>
      have hv := hc indent hindent (depth + 1) (indentText indent depth ++ closeBrace :: rest)
      obtain ⟨w, hw, htext⟩ := @exists_member indent _ _ (hk c.1) depth
        (c.2.text pf buf indent (depth + 1)) (indentText indent depth ++ closeBrace :: rest)
      have hstep := Reads.lastMember (hspaces (depth + 1)) hchars hnone hw (hspaces depth) hv
      rw [← htext] at hstep
      simpa [Emitted.childTexts] using hstep
    | cons c' cs =>
      have hms := ih (List.cons_ne_nil _ _) hcs
      have hv := hc indent hindent (depth + 1) ([] ++ comma ::
        (((Emitted.childTexts pf buf indent false (c' :: cs) depth).intersperse [comma]).flatten ++
          (indentText indent depth ++ closeBrace :: rest)))
      obtain ⟨w, hw, htext⟩ := @exists_member indent _ _ (hk c.1) depth
        (c.2.text pf buf indent (depth + 1)) ([] ++ comma ::
        (((Emitted.childTexts pf buf indent false (c' :: cs) depth).intersperse [comma]).flatten ++
          (indentText indent depth ++ closeBrace :: rest)))
      have hstep := Reads.member (hspaces (depth + 1)) hchars hnone hw hnone hv hms
      rw [← htext] at hstep
      simpa [Emitted.childTexts] using hstep

theorem spells_container {isArray : Bool} {cs : List (List UInt8 × Emitted)} {f : List UInt8 × Emitted → Tree}
    {k : List UInt8 → List StrChar} (hk : ∀ seg, IsLiteral seg (k seg))
    (hcs : ∀ c ∈ cs, Spells pf buf c.2 (f c)) :
    Spells pf buf (.container isArray cs)
      (if isArray then .arr (cs.map f) else .obj (cs.map fun c => (k c.1, f c))) := by
  intro indent hindent depth rest
  have hnone : IsSpaces [] := by simp [IsSpaces]
  by_cases hnil : cs = []
  · subst hnil
    cases isArray with
    | true => exact .emptyArr hnone rest
    | false => exact .emptyObj hnone rest
  · have hsome : (Emitted.childTexts pf buf indent isArray cs depth).isEmpty = false := by
      obtain ⟨c, cs, rfl⟩ := List.exists_cons_of_ne_nil hnil
      rfl
    cases isArray with
    | true => simpa [Emitted.text, containerText, hsome] using Reads.arr (reads_elements hindent hnil hcs depth rest)
    | false =>
      simpa [Emitted.text, containerText, hsome] using Reads.obj (reads_members hindent hk hnil hcs depth rest)

/-- The text of a tree is read as a syntax tree, which stands for the tree's value when all entries
have scalars. -/
theorem Emits.exists_spells
    (hprinted : ∀ e ∈ es, ∃ w, Printed pf (e.val.map (Slice.read buf)) w)
    {pre : List UInt8} {t : Emitted} (h : Emits es pre t) : ∃ w, Spells pf buf t w ∧
      ((∀ e ∈ es, ((e.val.map (Slice.read buf)).scalar).isSome = true) → w.Denotes (t.doc buf)) := by
  induction h with
  | @value pre e hkeys hleaf =>
    have he := (findLeaf_eq_some hleaf).1
    by_cases hscalar : ((e.val.map (Slice.read buf)).scalar).isSome = true
    · obtain ⟨s, hs⟩ := Option.isSome_iff_exists.mp hscalar
      obtain ⟨w, hw, hint, hvalue⟩ := exists_printed_scalar pf hs
      refine ⟨w, fun indent hindent depth => hw, fun _ => ⟨hint, ?_⟩⟩
      rw [hvalue, Emitted.doc, hs, Option.getD_some]
    · obtain ⟨w, hw⟩ := hprinted e he
      exact ⟨w, fun indent hindent depth => hw, fun hall => absurd (hall e he) hscalar⟩
  | null hkeys hleaf => exact ⟨.null, fun indent hindent depth rest => .null rest, fun _ => ⟨trivial, rfl⟩⟩
  | @container pre cs hkeys hsegs hroom hchild ih =>
    have : Nonempty Tree := ⟨.null⟩
    choose! f hf using ih
    choose k hk using exists_rfcTail
    refine ⟨_, spells_container hk fun c hc => (hf c hc).1, fun hscalar => ?_⟩
    have hdenotes := fun c hc => (hf c hc).2 hscalar
    cases isArrayLevel es pre with
    | true =>
      refine ⟨allElements_iff.mpr (List.forall_mem_map.mpr fun c hc => (hdenotes c hc).1), ?_⟩
      rw [if_pos rfl, Json.value, Json.map, mapElements_eq, Emitted.doc, Emitted.elementDocs_eq, List.map_map]
      exact congrArg Json.arr (List.map_congr_left fun c hc => (hdenotes c hc).2)
    | false =>
      refine ⟨allMembers_iff.mpr (List.forall_mem_map.mpr fun c hc => ⟨trivial, (hdenotes c hc).1⟩), ?_⟩
      rw [if_neg Bool.false_ne_true, Json.value, Json.map, mapMembers_eq, Emitted.doc, Emitted.memberDocs_eq,
        List.map_map]
      exact congrArg Json.obj (List.map_congr_left fun c hc => Prod.ext (hk c.1).2.1 (hdenotes c hc).2)

end Text

end Triepack
